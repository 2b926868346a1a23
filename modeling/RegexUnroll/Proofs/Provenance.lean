import Mathlib.Tactic.MkIffOfInductiveProp
import RegexUnroll.Proofs.Origins
import RegexUnroll.Proofs.Surroundings

/-!
# The captures of the unrolled pattern

`sourcedTokens` is the unrolled pattern token by token, where each token that opens a capture says
which capture of the pattern it opens or is a copy of. The captures of the unrolled pattern are
numbered in the order of these tokens, so their origins (`captureOrigins`) say of each number what
it stands for. `TracksCaptures` says that what an expansion says about the captures of the unrolled
pattern is what it said about those of the pattern, in terms of their origins; for the numbers of
hidden captures and the table of transfers that is `Parts.hiddenCaptures_unrolled` and
`Parts.entries_unrolled`.
-/

namespace RegexUnroll

/-- A token of an unrolled pattern, and where the capture that it opens comes from. -/
structure SourcedToken where
  /-- The token. -/
  token : Token
  /-- The origin of the capture, if the token opens one. -/
  origin : Option CaptureOrigin
  deriving DecidableEq, Repr

/-- The number of the capture that a lexeme of a pattern opens: the number of those that are opened
up to it. -/
def captureNumber (p : Text) (x : Lexeme) : Nat :=
  (topLevel p).countP fun y => y.token.isCaptureOpen && y.span.start ≤ x.span.start

namespace SourcedToken

/-- A lexeme of the pattern opens a capture of the pattern. -/
def ofLexeme (p : Text) (x : Lexeme) : SourcedToken where
  token := x.token
  origin := if x.token.isCaptureOpen then some ⟨captureNumber p x, 1⟩ else none

/-- A token of the groups around the copies comes from nowhere. -/
def inserted (t : Token) : SourcedToken := ⟨t, none⟩

/-- The copy of a depth comes from the same capture. -/
def copy (names : CopiedNames) (depth : Nat) (y : SourcedToken) : SourcedToken where
  token := y.token.atDepth names depth
  origin := y.origin.map fun o => ⟨o.capture, depth⟩

end SourcedToken

/-- The tokens of a pattern within a span, with their origins. -/
def sourcedIn (p : Text) (s : Span) : List SourcedToken :=
  (lexemesIn p s).map (SourcedToken.ofLexeme p)

/-- The tokens of a pattern that is unrolled around a directive, with their origins. -/
def sourcedTokens (p : Text) (d : Directive) (span : Span) (depth : MaxDepth) :
    List SourcedToken :=
  sourcedIn p ⟨0, span.start⟩ ++
    weave SourcedToken.inserted
      (SourcedToken.copy (Recursion.around p d span depth).nesting.names)
      (List.range' 2 (depth.value - 1)) (sourcedIn p ⟨span.start, d.span.start⟩)
      (sourcedIn p ⟨d.span.stop, span.stop⟩) ++
    sourcedIn p ⟨span.stop, p.utf8Length⟩

/-- The origins of the captures of an unrolled pattern, in the order in which they are opened. -/
def captureOrigins (p : Text) (d : Directive) (span : Span) (depth : MaxDepth) :
    List CaptureOrigin :=
  (sourcedTokens p d span depth).filterMap SourcedToken.origin

/-! ## The numbers of captures -/

/-- The number of captures that lexemes open. -/
def opened (xs : List Lexeme) : Nat := xs.countP fun x => x.token.isCaptureOpen

/-- Lexemes behind each other open the captures of both. -/
theorem opened_append (xs ys : List Lexeme) : opened (xs ++ ys) = opened xs + opened ys :=
  List.countP_append

/-- One lexeme opens one capture or none. -/
theorem opened_singleton (x : Lexeme) : opened [x] = if x.token.isCaptureOpen then 1 else 0 := by
  rw [opened, List.countP_singleton]

/-- The captures that lexemes open are counted on their tokens. -/
theorem countP_map_token (xs : List Lexeme) :
    (xs.map Lexeme.token).countP Token.isCaptureOpen = opened xs := by
  rw [List.countP_map]
  rfl

/-- A lexeme opens the capture whose number is one more than the number of those before it. -/
theorem captureNumber_eq {p : Text} {as bs : List Lexeme} {x : Lexeme}
    (h : lexemes p = as ++ x :: bs) :
    captureNumber p x = opened as + if x.token.isCaptureOpen then 1 else 0 := by
  have h' : lexemes p = (as ++ [x]) ++ bs := by rw [h, List.append_assoc, List.singleton_append]
  obtain ⟨has, hxbs⟩ := span_of_mem_append h
  obtain ⟨hasx, hbs⟩ := span_of_mem_append h'
  -- Up to `x` are the lexemes before it and `x` itself.
  have hupto : (lexemes p).filter (fun y => y.span.start ≤ x.span.start) = as ++ [x] := by
    rw [h', List.filter_append, List.filter_eq_self.2, List.filter_eq_nil_iff.2, List.append_nil]
    · intro y hy hle
      have hstart : y.span.start ≤ x.span.start := of_decide_eq_true hle
      have hy' := hbs y hy
      have hx' := hasx x (List.mem_append_right _ (List.mem_singleton_self x))
      omega
    · intro y hy
      rcases List.mem_append.1 hy with hy | hy
      · have hy' := has y hy
        have hx' := hxbs x List.mem_cons_self
        exact decide_eq_true (by omega)
      · obtain rfl := List.mem_singleton.1 hy
        exact decide_eq_true (Nat.le_refl _)
  have hcount : (((lexemes p).filter (fun y => y.span.start ≤ x.span.start)).filter
      Lexeme.isTopLevel).countP (fun y => y.token.isCaptureOpen) = captureNumber p x := by
    rw [List.filter_comm, List.countP_filter]
    rfl
  rw [← hcount, hupto, countP_filter_isTopLevel Token.isCaptureOpen_of_readsInClass,
    List.countP_append, List.countP_singleton]
  · rfl
  · intro y hy
    rw [h']
    exact List.mem_append_left _ hy

/-- Consecutive lexemes open consecutive captures. -/
theorem filterMap_origin_ofLexeme {p : Text} {as xs bs : List Lexeme}
    (h : lexemes p = as ++ (xs ++ bs)) :
    (xs.map (SourcedToken.ofLexeme p)).filterMap SourcedToken.origin =
      block (opened as + 1) (opened xs) 1 := by
  induction xs generalizing as with
  | nil => rfl
  | cons x xs ih =>
    have hnumber := captureNumber_eq (h.trans (by rw [List.cons_append]))
    have hsplit : lexemes p = (as ++ [x]) ++ (xs ++ bs) := by
      rw [h]
      simp
    have hrest := ih hsplit
    rw [List.map_cons, List.filterMap_cons, hrest, ← List.singleton_append (x := x) (l := xs),
      opened_append, opened_append, opened_singleton, SourcedToken.ofLexeme, hnumber]
    by_cases hopen : x.token.isCaptureOpen
    · simp only [hopen, if_true]
      rw [Nat.add_comm 1, block_succ]
    · simp only [hopen, Bool.false_eq_true, if_false, Nat.zero_add, Nat.add_zero]

/-- The origins in a nest are those on the left, their copies, the copies of those on the right, and
those on the right. -/
theorem filterMap_origin_weave (names : CopiedNames) (depths : List Nat)
    (left right : List SourcedToken) :
    (weave SourcedToken.inserted (SourcedToken.copy names) depths left right).filterMap
        SourcedToken.origin =
      left.filterMap SourcedToken.origin ++
        (depths.flatMap (fun d =>
            (left.filterMap SourcedToken.origin).map fun o => ⟨o.capture, d⟩) ++
          (depths.reverse.flatMap (fun d =>
              (right.filterMap SourcedToken.origin).map fun o => ⟨o.capture, d⟩) ++
            right.filterMap SourcedToken.origin)) := by
  have hcopy : ∀ d (ys : List SourcedToken),
      (ys.map (SourcedToken.copy names d)).filterMap SourcedToken.origin =
        (ys.filterMap SourcedToken.origin).map fun o => ⟨o.capture, d⟩ := by
    intro d ys
    rw [List.filterMap_map, List.map_filterMap]
    rfl
  simp only [weave, List.filterMap_append, List.filterMap_flatMap, List.filterMap_cons,
    List.filterMap_nil, SourcedToken.inserted, hcopy, List.nil_append, List.append_nil,
    List.append_assoc]

/-- The copy of a block at a depth is a block at that depth. -/
theorem map_block (start count depth depth' : Nat) :
    (block start count depth).map (fun o => ⟨o.capture, depth'⟩) = block start count depth' := by
  rw [block, List.map_map]
  rfl

/-- The copies have the depths from two on. -/
theorem MaxDepth.one_not_mem_range' (depth : MaxDepth) : 1 ∉ List.range' 2 depth.copies := by
  rw [List.mem_range'_1]
  omega

/-! ## The captures of the parts -/

namespace Parts

variable {p : Text} {d : Directive} {span : Span} {before left right after : List Lexeme}
  {x : Lexeme}

/-- The directive opens no capture. -/
theorem isCaptureOpen_directive (h : Parts p d span before left x right after) :
    x.token.isCaptureOpen = false := by
  rcases Token.eq_of_isRecursion h.isRecursion with ⟨depth, hx⟩ | ⟨target, depth, hx⟩ <;>
    · rw [hx]
      rfl

/-- The pattern opens the captures of its parts. -/
theorem countCaptures_eq (h : Parts p d span before left x right after) :
    countCaptures p = opened before + opened left + opened right + opened after := by
  rw [RegexUnroll.countCaptures_eq, h.tokens_eq, List.countP_append, List.countP_append,
    List.countP_cons_of_neg (by simp [h.isCaptureOpen_directive]), List.countP_append,
    countP_map_token, countP_map_token, countP_map_token, countP_map_token]
  omega

/-- The recursed text opens the captures on both sides of the directive. -/
theorem countCaptures_recursed (h : Parts p d span before left x right after) :
    countCaptures (p.slice span) = opened left + opened right := by
  rw [RegexUnroll.countCaptures_eq, h.tokens_recursed, List.countP_append,
    List.countP_cons_of_neg (by simp [h.isCaptureOpen_directive]), countP_map_token,
    countP_map_token]

/-- The captures before the directive are those before the recursed text and on the left. -/
theorem capturesBefore_eq_opened (h : Parts p d span before left x right after) :
    d.capturesBefore = opened before + opened left := by
  rw [h.capturesBefore_eq, countP_filter_isTopLevel Token.isCaptureOpen_of_readsInClass,
    List.countP_append]
  · rfl
  · intro y hy
    rw [h.lexemes_eq, ← List.append_assoc]
    exact List.mem_append_left _ hy

/-- The recursed text before the directive opens the captures on the left. -/
theorem countCaptures_left (h : Parts p d span before left x right after) :
    countCaptures (spell (left.map Lexeme.token)) = opened left := by
  rw [RegexUnroll.countCaptures_eq, h.tokens_left, countP_map_token]

/-- Each copy brings the captures of the recursed text. -/
theorem newCaptures_eq (h : Parts p d span before left x right after)
    (hright : Complete (p.slice ⟨d.span.stop, span.stop⟩)) (depth : MaxDepth) :
    (Recursion.around p d span depth).nesting.newCaptures =
      depth.copies * (opened left + opened right) := by
  rw [h.slice_right] at hright
  rw [Nesting.newCaptures_eq, h.around_eq, RegexUnroll.countCaptures_eq,
    RegexUnroll.countCaptures_eq]
  show depth.copies * ((tokens (['(', '?', ':'] ++ spell (left.map Lexeme.token))).countP
    Token.isCaptureOpen + (tokens (spell (right.map Lexeme.token) ++ [')'])).countP
    Token.isCaptureOpen) = _
  rw [tokens_groupOpen_colon_append, hright.tokens_append_paren, h.tokens_left, h.tokens_right,
    List.countP_append, List.countP_cons_of_neg (by decide), List.countP_cons_of_neg (by decide),
    List.countP_singleton, countP_map_token, countP_map_token]
  rfl

/-- The tokens of the unrolled pattern come from the lexemes of the parts. -/
theorem sourcedTokens_eq (h : Parts p d span before left x right after) (depth : MaxDepth) :
    sourcedTokens p d span depth =
      before.map (SourcedToken.ofLexeme p) ++
        weave SourcedToken.inserted
          (SourcedToken.copy (Recursion.around p d span depth).nesting.names)
          (List.range' 2 depth.copies) (left.map (SourcedToken.ofLexeme p))
          (right.map (SourcedToken.ofLexeme p)) ++
        after.map (SourcedToken.ofLexeme p) := by
  rw [sourcedTokens, sourcedIn, sourcedIn, sourcedIn, sourcedIn, h.lexemesIn_before,
    h.lexemesIn_left, h.lexemesIn_right, h.lexemesIn_after]
  rfl

/-- The origins of the captures of the unrolled pattern, from the captures of the parts. -/
theorem captureOrigins_eq (h : Parts p d span before left x right after) (depth : MaxDepth) :
    captureOrigins p d span depth =
      unrolledOrigins (opened before) (opened left) (opened right) (opened after)
        (List.range' 2 depth.copies) := by
  have hbefore : lexemes p = [] ++ (before ++ (left ++ x :: (right ++ after))) := h.lexemes_eq
  -- The directive itself opens no capture, so those behind it go on from those before it.
  have hright : lexemes p = (before ++ (left ++ [x])) ++ (right ++ after) := by
    rw [h.lexemes_eq]
    simp
  have hafter : lexemes p = (before ++ (left ++ ([x] ++ right))) ++ (after ++ []) := by
    rw [h.lexemes_eq]
    simp
  have hx : opened [x] = 0 := by
    rw [opened_singleton, h.isCaptureOpen_directive]
    rfl
  have horigins_left := filterMap_origin_ofLexeme h.lexemes_eq
  have horigins_right := filterMap_origin_ofLexeme hright
  rw [opened_append, opened_append, hx, Nat.add_zero] at horigins_right
  have horigins_after := filterMap_origin_ofLexeme hafter
  rw [opened_append, opened_append, opened_append, hx, Nat.zero_add, ← Nat.add_assoc]
    at horigins_after
  rw [captureOrigins, h.sourcedTokens_eq, List.filterMap_append, List.filterMap_append,
    filterMap_origin_weave, filterMap_origin_ofLexeme hbefore, horigins_left, horigins_right,
    horigins_after]
  simp only [map_block]
  -- Up to the directive and from it on the captures are consecutive.
  have hfront := block_append 1 (opened before) (opened left) 1
  have hback := block_append (opened before + opened left + 1) (opened right) (opened after) 1
  rw [unrolledOrigins, ← hfront, ← hback]
  simp only [List.append_assoc, Nat.add_comm 1, Nat.add_right_comm _ 1]
  rfl

end Parts

/-! ## The tokens and their origins -/

/-- What holds on both sides of a nest and of what is inserted, and is kept by copying, holds in the
whole nest. -/
theorem forall_mem_weave {α : Type} {P : α → Prop} {inserted : Token → α} {copy : Nat → α → α}
    (hinserted : ∀ t ∈ [Token.groupOpen, .char ':', .groupClose], P (inserted t))
    (hcopy : ∀ d y, P y → P (copy d y)) {depths : List Nat} {left right : List α}
    (hleft : ∀ y ∈ left, P y) (hright : ∀ y ∈ right, P y) :
    ∀ y ∈ weave inserted copy depths left right, P y := by
  have hmap : ∀ d (ys : List α), (∀ y ∈ ys, P y) → ∀ y ∈ ys.map (copy d), P y := by
    intro d ys hys y hy
    obtain ⟨y, hmem, rfl⟩ := List.mem_map.1 hy
    exact hcopy d y (hys y hmem)
  have hopen := hinserted .groupOpen (by simp)
  have hcolon := hinserted (.char ':') (by simp)
  have hclose := hinserted .groupClose (by simp)
  intro y hy
  simp only [weave, List.mem_append, List.mem_flatMap, List.mem_cons, List.not_mem_nil,
    or_false] at hy
  rcases hy with (((hy | ⟨d, -, (rfl | rfl) | hy⟩) | rfl | rfl | rfl) | ⟨d, -, hy | rfl⟩) | hy
  · exact hleft y hy
  · exact hopen
  · exact hcolon
  · exact hmap d left hleft y hy
  · exact hopen
  · exact hcolon
  · exact hclose
  · exact hmap d right hright y hy
  · exact hclose
  · exact hright y hy

/-- Exactly the tokens that open a capture have an origin. -/
theorem isCaptureOpen_eq_isSome_origin {p : Text} {d : Directive} {span : Span} {depth : MaxDepth}
    {y : SourcedToken} (hy : y ∈ sourcedTokens p d span depth) :
    y.token.isCaptureOpen = y.origin.isSome := by
  have hlexeme : ∀ s, ∀ y ∈ sourcedIn p s, y.token.isCaptureOpen = y.origin.isSome := by
    intro s y hy
    obtain ⟨x, -, rfl⟩ := List.mem_map.1 hy
    rw [SourcedToken.ofLexeme]
    cases x.token.isCaptureOpen <;> rfl
  rcases List.mem_append.1 hy with hy | hafter
  · rcases List.mem_append.1 hy with hbefore | hweave
    · exact hlexeme _ y hbefore
    · refine forall_mem_weave ?_ ?_ (hlexeme _) (hlexeme _) y hweave
      · intro t ht
        simp only [List.mem_cons, List.not_mem_nil, or_false] at ht
        rcases ht with rfl | rfl | rfl <;> rfl
      · intro d' y hy'
        rw [SourcedToken.copy, (Token.tagged_atDepth _ d' y.token).isCaptureOpen_eq, hy',
          Option.isSome_map]
  · exact hlexeme _ y hafter

/-- The captures of tokens with origins are as many as the origins. -/
theorem countP_isCaptureOpen_eq {ys : List SourcedToken}
    (h : ∀ y ∈ ys, y.token.isCaptureOpen = y.origin.isSome) :
    (ys.map SourcedToken.token).countP Token.isCaptureOpen =
      (ys.filterMap SourcedToken.origin).length := by
  rw [List.length_filterMap_eq_countP, List.countP_map]
  refine List.countP_congr fun y hy => ?_
  rw [Function.comp_apply, h y hy]

namespace Parts

variable {p : Text} {d : Directive} {span : Span} {before left right after : List Lexeme}
  {x : Lexeme}

/-- Without their origins the tokens are those that the unrolled pattern is read as. -/
theorem map_token_sourcedTokens (h : Parts p d span before left x right after)
    (hintact : Intact p d span) (depth : MaxDepth) (hidden : List Nat)
    (transfers : CaptureTransfers) :
    (sourcedTokens p d span depth).map SourcedToken.token =
      tokens
        (Expansion.ofRecursion (Recursion.around p d span depth) hidden transfers).pattern := by
  have hlexeme : ∀ xs : List Lexeme,
      (xs.map (SourcedToken.ofLexeme p)).map SourcedToken.token = xs.map Lexeme.token := by
    intro xs
    rw [List.map_map]
    rfl
  obtain ⟨names, hnames⟩ : ∃ names, (Recursion.around p d span depth).nesting.names = names :=
    ⟨_, rfl⟩
  have hweave : (weave SourcedToken.inserted (SourcedToken.copy names) (List.range' 2 depth.copies)
      (left.map (SourcedToken.ofLexeme p)) (right.map (SourcedToken.ofLexeme p))).map
        SourcedToken.token =
      weave id (Token.atDepth names) (List.range' 2 depth.copies)
        ((left.map (SourcedToken.ofLexeme p)).map SourcedToken.token)
        ((right.map (SourcedToken.ofLexeme p)).map SourcedToken.token) :=
    map_weave SourcedToken.token (fun _ => rfl) (fun _ _ => rfl) _ _ _
  rw [h.sourcedTokens_eq, h.tokens_unrolled_of_intact hintact, hnames, List.map_append,
    List.map_append, hweave, hlexeme, hlexeme, hlexeme, hlexeme]

/-- The hidden captures keep their order under their new numbers, and the copies follow. -/
theorem hiddenCaptures_unrolled (h : Parts p d span before left x right after)
    (hright : Complete (p.slice ⟨d.span.stop, span.stop⟩)) {depth : MaxDepth}
    (hfits : (captureOrigins p d span depth).length < UInt64.size) {hidden : List Nat}
    (hhidden : ∀ n ∈ hidden, 0 < n ∧ n ≤ countCaptures p) (transfers : CaptureTransfers) :
    (Expansion.ofRecursion (Recursion.around p d span depth) hidden transfers).hiddenCaptures =
      hidden.map (numberOf (captureOrigins p d span depth)) ++
        numbersOf (fun o => o.depth ≠ 1) (captureOrigins p d span depth) := by
  rw [h.countCaptures_eq] at hhidden
  rw [h.captureOrigins_eq, length_unrolledOrigins] at hfits
  have hlength : (List.range' 2 depth.copies).length = depth.copies := List.length_range'
  have hhide := hideNew_eq depth.one_not_mem_range' hfits hhidden
  rw [hlength] at hhide
  rw [h.captureOrigins_eq, ← hhide]
  show hideNew (Recursion.around p d span depth).capturesBefore _ hidden = _
  rw [h.newCaptures_eq hright, h.around_eq, h.capturesBefore_eq_opened]

/-- Each receiver has its new number, and each source stands for itself and its copies. -/
theorem entries_unrolled (h : Parts p d span before left x right after)
    (hright : Complete (p.slice ⟨d.span.stop, span.stop⟩)) {depth : MaxDepth}
    (hfits : (captureOrigins p d span depth).length < UInt64.size) (hidden : List Nat)
    {transfers : CaptureTransfers}
    (htransfers : ∀ entry ∈ transfers.entries, (0 < entry.1 ∧ entry.1 ≤ countCaptures p) ∧
      ∀ n ∈ entry.2, 0 < n ∧ n ≤ countCaptures p) :
    (Expansion.ofRecursion (Recursion.around p d span depth) hidden
        transfers).captureTransfers.entries =
      transfers.entries.map fun entry =>
        (numberOf (captureOrigins p d span depth) entry.1,
          entry.2.flatMap fun n =>
            numbersOf (fun o => o.capture = n) (captureOrigins p d span depth)) := by
  rw [h.countCaptures_eq] at htransfers
  rw [h.captureOrigins_eq, length_unrolledOrigins] at hfits
  have hne : List.range' 2 depth.copies ≠ [] := by
    rw [List.range'_ne_nil_iff]
    exact Nat.ne_of_gt depth.copies_pos
  have hlength : (List.range' 2 depth.copies).length = depth.copies := List.length_range'
  have hentries := CaptureTransfers.entries_afterUnrolling depth.one_not_mem_range' hne hfits
    h.countCaptures_left htransfers
  rw [hlength] at hentries
  rw [h.captureOrigins_eq, ← hentries]
  show (transfers.afterUnrolling (Recursion.around p d span depth).left _ _ _).entries = _
  rw [h.newCaptures_eq hright, h.around_eq, h.capturesBefore_eq_opened]

end Parts

/-! ## What an expansion says about captures -/

/-- Whether what is known about the captures of a pattern is about captures that it has, in a text
that a memory holds also when it is expanded. -/
@[mk_iff] structure Expansion.WellNumbered (e : Expansion) : Prop where
  /-- The hidden captures are captures of the pattern. -/
  hidden : ∀ n ∈ e.hiddenCaptures, 0 < n ∧ n ≤ countCaptures e.pattern
  /-- The receivers are captures of the pattern. -/
  receiver : ∀ entry ∈ e.captureTransfers.entries, 0 < entry.1 ∧ entry.1 ≤ countCaptures e.pattern
  /-- The sources are captures of the pattern. -/
  sources : ∀ entry ∈ e.captureTransfers.entries, ∀ n ∈ entry.2,
    0 < n ∧ n ≤ countCaptures e.pattern
  /-- The expanded pattern has fewer bytes than a word counts, so a word keeps the numbers of its
  captures. -/
  fits : ∀ mode, ∀ e' ∈ (e.expand mode).toOption, e'.pattern.utf8Length < UInt64.size

/-- What is said of all modes is decided on both of them. -/
instance (P : Mode → Prop) [DecidablePred P] : Decidable (∀ mode, P mode) :=
  decidable_of_iff (P .plugin ∧ P .external)
    ⟨fun h mode => mode.casesOn h.1 h.2, fun h => ⟨h .plugin, h .external⟩⟩

/-- Whether captures are numbered well is decided on the list, the table and the expansion. -/
instance (e : Expansion) : Decidable e.WellNumbered :=
  decidable_of_iff' _ (Expansion.wellNumbered_iff e)

/-- Whether the captures of an unrolled pattern are as `e'` says, if those of the pattern are as `e`
says. -/
structure TracksCaptures (e e' : Expansion) (d : Directive) (span : Span) (depth : MaxDepth) :
    Prop where
  /-- The tokens with their origins are those that the unrolled pattern is read as. -/
  tokens_eq : (sourcedTokens e.pattern d span depth).map SourcedToken.token = tokens e'.pattern
  /-- Exactly the tokens that open a capture have an origin. -/
  isCaptureOpen_eq : ∀ y ∈ sourcedTokens e.pattern d span depth,
    y.token.isCaptureOpen = y.origin.isSome
  /-- Each capture of the pattern is among the origins as itself. -/
  mem_iff : ∀ n, ⟨n, 1⟩ ∈ captureOrigins e.pattern d span depth ↔
    0 < n ∧ n ≤ countCaptures e.pattern
  /-- Each copy brings the captures of the recursed text. -/
  countCaptures_eq : countCaptures e'.pattern =
    countCaptures e.pattern + (depth.value - 1) * countCaptures (e.pattern.slice span)
  /-- The hidden captures keep their order under their new numbers, and the copies follow. -/
  hidden_eq : e'.hiddenCaptures =
    e.hiddenCaptures.map (numberOf (captureOrigins e.pattern d span depth)) ++
      numbersOf (fun o => o.depth ≠ 1) (captureOrigins e.pattern d span depth)
  /-- Each receiver has its new number, and each source stands for itself and its copies. -/
  entries_eq : e'.captureTransfers.entries = e.captureTransfers.entries.map fun entry =>
    (numberOf (captureOrigins e.pattern d span depth) entry.1,
      entry.2.flatMap fun n =>
        numbersOf (fun o => o.capture = n) (captureOrigins e.pattern d span depth))

/-- Where nothing is cut off around the directive that is unrolled, what is known about the captures
of the pattern is carried over to those of the unrolled pattern, and all copies are hidden. -/
theorem Unrolls.tracksCaptures {e e' : Expansion} {mode : Mode} {d : Directive} {span : Span}
    {depth : MaxDepth} (h : Unrolls e mode d span depth e') (hintact : Intact e.pattern d span)
    (hnumbered : e.WellNumbered) : TracksCaptures e e' d span depth := by
  obtain ⟨before, left, x, right, after, hparts⟩ := exists_parts h.mem_directives h.recursed_eq
  have htokens := hparts.map_token_sourcedTokens hintact depth e.hiddenCaptures e.captureTransfers
  rw [← h.eq_ofRecursion] at htokens
  have hopened : ∀ y ∈ sourcedTokens e.pattern d span depth,
      y.token.isCaptureOpen = y.origin.isSome := fun y => isCaptureOpen_eq_isSome_origin
  have hcount : countCaptures e'.pattern = (captureOrigins e.pattern d span depth).length := by
    rw [countCaptures_eq, ← htokens, countP_isCaptureOpen_eq hopened, captureOrigins]
  -- The captures are fewer than the bytes of the unrolled pattern, so a word keeps their numbers.
  have hfits : (captureOrigins e.pattern d span depth).length < UInt64.size := by
    rw [← hcount]
    refine Nat.lt_of_le_of_lt (countCaptures_le_utf8Length e'.pattern) (hnumbered.fits mode e' ?_)
    rw [h.expand_eq]
    rfl
  refine ⟨htokens, hopened, fun n => ?_, ?_, ?_, ?_⟩
  · rw [hparts.captureOrigins_eq, hparts.countCaptures_eq]
    exact mem_unrolledOrigins_iff _ _ _ _ depth.one_not_mem_range' n
  · calc
      countCaptures e'.pattern = (captureOrigins e.pattern d span depth).length := hcount
      _ = opened before + opened left + opened right + opened after +
            depth.copies * (opened left + opened right) := by
        rw [hparts.captureOrigins_eq, length_unrolledOrigins, List.length_range']
      _ = countCaptures e.pattern + (depth.value - 1) * countCaptures (e.pattern.slice span) := by
        rw [hparts.countCaptures_eq, hparts.countCaptures_recursed]
        rfl
  · rw [h.eq_ofRecursion]
    exact hparts.hiddenCaptures_unrolled hintact.right hfits hnumbered.hidden _
  · rw [h.eq_ofRecursion]
    exact hparts.entries_unrolled hintact.right hfits _ fun entry hentry =>
      ⟨hnumbered.receiver entry hentry, hnumbered.sources entry hentry⟩

/-- A directive with captures before and behind it, inside and outside the group it recurses into.
-/
theorem Unrolls.tracksCaptures_of_group_at_depth_three :
    ∃ (e e' : Expansion) (d : Directive) (span : Span) (depth : MaxDepth),
      e.pattern = "(q)(?<w>(a)\\g<w&R=3>(b)(c))(z)".toList ∧
      e.hiddenCaptures = [6, 3, 1] ∧ e.captureTransfers.entries = [(3, [2, 4]), (5, [3])] ∧
      e'.hiddenCaptures = [12, 3, 1, 4, 5, 6, 7, 8, 9] ∧
      e'.captureTransfers.entries = [(3, [2, 6, 8, 10]), (11, [3, 4, 5])] ∧
      Unrolls e .external d span depth e' ∧ Intact e.pattern d span ∧ e.WellNumbered ∧
      TracksCaptures e e' d span depth := by
  let e : Expansion := ⟨"(q)(?<w>(a)\\g<w&R=3>(b)(c))(z)".toList, [6, 3, 1],
    .ofList [(3, [2, 4]), (5, [3])]⟩
  let e' : Expansion := ⟨"(q)(?<w>(a)(?:(a)(?:(a)(?:)(b)(c))(b)(c))(b)(c))(z)".toList,
    [12, 3, 1, 4, 5, 6, 7, 8, 9], .ofList [(3, [2, 6, 8, 10]), (11, [3, 4, 5])]⟩
  let d : Directive := ⟨.group ['w'], ['3'], ⟨11, 20⟩, 3, some ⟨8, 26⟩⟩
  let depth : MaxDepth := ⟨3, by decide, by decide⟩
  have h : Unrolls e .external d ⟨8, 26⟩ depth e' := by decide +kernel
  have hintact : Intact e.pattern d ⟨8, 26⟩ := by decide +kernel
  have hnumbered : e.WellNumbered := by decide +kernel
  exact ⟨e, e', d, ⟨8, 26⟩, depth, rfl, rfl, rfl, rfl, rfl, h, hintact, hnumbered,
    h.tracksCaptures hintact hnumbered⟩

end RegexUnroll
