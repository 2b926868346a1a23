import RegexUnroll.Proofs.Context
import RegexUnroll.Proofs.Layers

/-!
# The groups around the copies

Unrolling puts a group around each copy, `(?:` before the text on the left and `)` behind the text
on the right, and between the two stand all the deeper copies. `Recursion.Wraps` says which two
delimiters of the result are those around the copy of a depth, and `Unrolls.nestsGroups` that they
belong together, the groups of deeper copies inside those of the others.

For that the pattern has to be balanced, and the two sides of the directive complete. Then the two
sides are balanced together (`Parts.balanced_recursed`), the result is read as the nest of their
tokens (`Parts.nestsTokens`), and at each depth the nest falls into the group around a copy and what
stands before and behind it (`Nesting.weave_eq`).
-/

namespace RegexUnroll

/-! ## The pattern that is unrolled -/

/-- The lexemes between the delimiters of a group are balanced. -/
theorem Closes.balanced_lexemesIn {p : Text} {o c : Lexeme} (h : Closes p o c) :
    Balanced ((lexemesIn p ⟨o.span.stop, c.span.start⟩).map Lexeme.token) := by
  obtain ⟨-, -, as, ms, bs, hsplit, hms⟩ := h
  obtain ⟨front, rest, hlexemes, -, -, hrest⟩ := exists_append_of_filter_eq hsplit
  obtain ⟨mid, back, rfl, -, rfl, -⟩ := exists_append_of_filter_eq hrest
  have hopening : lexemes p = (front ++ [o]) ++ (mid ++ c :: back) := by rw [hlexemes]; simp
  have hclosing : lexemes p = (front ++ [o] ++ mid) ++ c :: back := by rw [hlexemes]; simp
  -- The two cuts are behind the opening and before the closing delimiter.
  have hstart : o.span.stop = Text.utf8Length (spell ((front ++ [o]).map Lexeme.token)) := by
    rw [span_eq_of_lexemes_append hlexemes, utf8Length_spell_append front]
    simp
  have hstop : c.span.start =
      Text.utf8Length (spell ((front ++ [o] ++ mid).map Lexeme.token)) := by
    rw [span_eq_of_lexemes_append hclosing]
  rw [hstart, hstop, lexemesIn_eq hopening]
  have hmem : ∀ y ∈ mid, y ∈ lexemes p := fun y hy => by
    rw [hopening]
    exact List.mem_append_right _ (List.mem_append_left _ hy)
  exact (balanced_filter_isTopLevel_iff hmem).1 hms

/-- The closing delimiter of a group starts before the end of the pattern. -/
theorem Closes.start_lt_utf8Length {p : Text} {o c : Lexeme} (h : Closes p o c) :
    c.span.start < p.utf8Length := by
  obtain ⟨-, -, as, ms, bs, hsplit, -⟩ := h
  have hc : c ∈ lexemes p := by
    have htop : c ∈ topLevel p := by rw [hsplit]; simp
    exact (List.mem_filter.1 htop).1
  have hpos := ((span_of_mem_append (List.append_nil _).symm).1 c hc).1
  exact Nat.lt_of_lt_of_le hpos (stop_le_utf8Length hc)

namespace Parts

variable {p : Text} {d : Directive} {span : Span} {before left right after : List Lexeme}
  {x : Lexeme}

/-- The lexemes in the recursed span are those on both sides of the directive, and the directive. -/
theorem lexemesIn_recursed (h : Parts p d span before left x right after) :
    lexemesIn p span = left ++ x :: right := by
  have hsplit : lexemes p = before ++ ((left ++ x :: right) ++ after) := by
    rw [h.lexemes_eq]
    simp
  have hin := lexemesIn_eq hsplit
  rwa [← h.start_eq, ← h.stop_eq] at hin

/-- In a balanced pattern the recursed text is balanced, and the group that is recursed into is
closed. -/
theorem balanced_recursed (h : Parts p d span before left x right after) (hd : d ∈ directives p)
    (hspan : d.recursed = some span) (hbalanced : Balanced ((topLevel p).map Lexeme.token)) :
    Balanced ((left ++ x :: right).map Lexeme.token) ∧
      (d.target.scope = .subpattern → span.stop < p.utf8Length) := by
  have hrecurses := (recursed_eq_some_iff hd).1 hspan
  generalize htarget : d.target = target at hrecurses
  cases hrecurses with
  | wholePattern =>
    -- All of the pattern is recursed into.
    obtain ⟨rfl, rfl⟩ := h.of_global (by rw [htarget]; rfl)
    have hall := h.lexemes_eq
    rw [List.nil_append, List.append_nil] at hall
    rw [balanced_topLevel_iff, tokens, hall] at hbalanced
    exact ⟨hbalanced, fun hsub => absurd hsub (by simp [RecursionTarget.scope])⟩
  | @closed reference o c ho hc =>
    have hbetween := hc.balanced_lexemesIn
    rw [h.lexemesIn_recursed] at hbetween
    exact ⟨hbetween, fun _ => hc.start_lt_utf8Length⟩
  | @unclosed reference o ho hc =>
    obtain ⟨c, hcloses⟩ :=
      exists_closes_of_balanced hbalanced ho.openAt.mem_topLevel ho.openAt.isGroupOpen
    exact absurd hcloses (hc c)

end Parts

/-! ## Where the groups around the copies stand -/

namespace Nesting

/-- The text of a nest before the copy of depth `k`: the text before the directive and the copies
of it that are less deep. -/
def textBefore (n : Nesting) (k : Nat) : Text :=
  n.left ++ n.render (n.leftCopies.filter fun copy => copy.depth < k)

/-- The text of a nest within the copy of depth `k`: the copies that are deeper, around the empty
group. -/
def textWithin (n : Nesting) (k : Nat) : Text :=
  n.render (n.leftCopies.filter fun copy => k < copy.depth) ++ ['(', '?', ':', ')'] ++
    n.render (n.rightCopies.filter fun copy => k < copy.depth)

/-- The text of a nest behind the copy of depth `k`: the copies of the text behind the directive
that are less deep, and that text. -/
def textBehind (n : Nesting) (k : Nat) : Text :=
  n.render (n.rightCopies.filter fun copy => copy.depth < k) ++ n.right

/-- The depths of a nest fall apart at one of them into those that are less deep and those that are
deeper. -/
theorem depths_eq_filter {n : Nesting} {k : Nat} (hk : k ∈ n.depths) :
    n.depths = n.depths.filter (· < k) ++ k :: n.depths.filter (k < ·) ∧
      n.depths.filter (· < k + 1) = n.depths.filter (· < k) ++ [k] := by
  obtain ⟨ds, es, hsplit⟩ := List.append_of_mem hk
  have hascending : n.depths.Pairwise (· < ·) := List.pairwise_lt_range'
  rw [hsplit, List.pairwise_append] at hascending
  obtain ⟨-, hback, hacross⟩ := hascending
  have hds : ∀ d ∈ ds, d < k := fun d hd => hacross d hd k List.mem_cons_self
  have hes : ∀ d ∈ es, k < d := (List.pairwise_cons.1 hback).1
  -- Each of the three conditions holds of all depths on one side, and of none on the other.
  have hless : ds.filter (· < k) = ds ∧ es.filter (· < k) = [] :=
    ⟨List.filter_eq_self.2 fun d hd => decide_eq_true (hds d hd),
      List.filter_eq_nil_iff.2 fun d hd => by simpa using Nat.le_of_lt (hes d hd)⟩
  have hmore : ds.filter (k < ·) = [] ∧ es.filter (k < ·) = es :=
    ⟨List.filter_eq_nil_iff.2 fun d hd => by simpa using Nat.le_of_lt (hds d hd),
      List.filter_eq_self.2 fun d hd => decide_eq_true (hes d hd)⟩
  have hsucc : ds.filter (· < k + 1) = ds ∧ es.filter (· < k + 1) = [] :=
    ⟨List.filter_eq_self.2 fun d hd => decide_eq_true (Nat.lt_succ_of_lt (hds d hd)),
      List.filter_eq_nil_iff.2 fun d hd hlt =>
        Nat.not_lt_of_le (hes d hd) (of_decide_eq_true hlt)⟩
  rw [hsplit]
  simp only [List.filter_append, List.filter_cons, hless, hmore, hsucc, Nat.lt_irrefl,
    Nat.lt_add_one, decide_true, decide_false, if_true, Bool.false_eq_true, if_false,
    List.append_nil, List.nil_append, and_self]

variable (n : Nesting) (k : Nat)

/-- The tokens of a nest before the group around the copy of depth `k`. -/
def tokensBefore : List Token :=
  tokens n.left ++ (n.depths.filter (· < k)).flatMap fun d =>
    .groupOpen :: .char ':' :: (tokens n.left).map (Token.atDepth n.names d)

/-- The tokens of a nest between the delimiters of the group around the copy of depth `k`. -/
def tokensWithin : List Token :=
  .char ':' :: ((tokens n.left).map (Token.atDepth n.names k) ++
    (nestLayers n.names (tokens n.left) (tokens n.right) (n.depths.filter (k < ·)) ++
      (tokens n.right).map (Token.atDepth n.names k)))

/-- The tokens of a nest behind the group around the copy of depth `k`. -/
def tokensBehind : List Token :=
  ((n.depths.filter (· < k)).reverse.flatMap fun d =>
    (tokens n.right).map (Token.atDepth n.names d) ++ [.groupClose]) ++ tokens n.right

/-- The nest of tokens is the group around a copy with the tokens before and behind it. -/
theorem weave_eq {k : Nat} (hk : k ∈ n.depths) :
    weave id (Token.atDepth n.names) n.depths (tokens n.left) (tokens n.right) =
      n.tokensBefore k ++ .groupOpen :: (n.tokensWithin k ++ .groupClose :: n.tokensBehind k) := by
  rw [(depths_eq_filter hk).1, weave_eq_nestLayers, nestLayers, layers_append, layers,
    ← nestLayers, tokensBefore, tokensWithin, tokensBehind]
  simp only [List.cons_append, List.nil_append, List.append_assoc]

/-- The tokens before a copy are those of the text there. -/
theorem spell_tokensBefore : spell (n.tokensBefore k) = n.textBefore k := by
  rw [textBefore, leftCopies, List.filter_map, tokensBefore, spell_append]
  exact congrArg₂ (· ++ ·) (spell_tokensFrom 0 n.left) (n.render_left _).symm

section Right

variable (hright : Complete n.right)
include hright

/-- Copies of a complete text on the right spell the copies of its tokens, each with a closing
delimiter behind it. -/
theorem render_right_of_complete (depths : List Nat) :
    n.render (depths.map fun depth => ⟨n.right ++ [')'], depth⟩) =
      spell (depths.flatMap fun d =>
        (tokens n.right).map (Token.atDepth n.names d) ++ [.groupClose]) := by
  rw [render_right, hright.tokens_append_paren]
  simp only [List.map_append]
  rfl

/-- The tokens behind a copy are those of the text there. -/
theorem spell_tokensBehind : spell (n.tokensBehind k) = n.textBehind k := by
  rw [textBehind, rightCopies, List.filter_map, List.filter_reverse, tokensBehind, spell_append]
  exact congrArg₂ (· ++ ·) (n.render_right_of_complete hright _).symm (spell_tokensFrom 0 n.right)

/-- The tokens within the group around a copy are those of the copy and of all that is deeper. -/
theorem spell_tokensWithin :
    spell (n.tokensWithin k) =
      ':' :: (atDepth n.names k n.left ++ (n.textWithin k ++ atDepth n.names k n.right)) := by
  have hwithin : spell (nestLayers n.names (tokens n.left) (tokens n.right)
      (n.depths.filter (k < ·))) = n.textWithin k := by
    have hempty : spell [.groupOpen, .char ':', .groupClose] = ['(', '?', ':', ')'] := rfl
    rw [nestLayers, layers_eq, spell_append, spell_append, hempty, textWithin, leftCopies,
      rightCopies, List.filter_map, List.filter_map, List.filter_reverse]
    exact congrArg₂ (fun front back => front ++ ['(', '?', ':', ')'] ++ back)
      (n.render_left _).symm (n.render_right_of_complete hright _).symm
  rw [tokensWithin, spell_cons, spell_append, spell_append, hwithin, atDepth_eq_spell,
    atDepth_eq_spell]
  rfl

/-- One depth further there is one copy more before the copy, and one more behind it. -/
theorem texts_succ {k : Nat} (hk : k ∈ n.depths) :
    n.textBefore (k + 1) = n.textBefore k ++ (['(', '?', ':'] ++ atDepth n.names k n.left) ∧
      n.textBehind (k + 1) = (atDepth n.names k n.right ++ [')']) ++ n.textBehind k := by
  have hsucc := (depths_eq_filter hk).2
  rw [← spell_tokensBefore, ← spell_tokensBefore, ← n.spell_tokensBehind _ hright,
    ← n.spell_tokensBehind _ hright, tokensBefore, tokensBehind, hsucc, tokensBefore, tokensBehind,
    atDepth_eq_spell, atDepth_eq_spell]
  constructor
  · simp [Token.spelling]
  · simp [Token.spelling]

end Right

end Nesting

/-- Where balanced tokens stand between the opening of a group and a closing delimiter, outside
classes, the one closes the other. -/
theorem exists_closes_of_tokens_eq {p : Text} {ts ms us : List Token} {t : Token}
    (h : tokens p = ts ++ t :: (ms ++ .groupClose :: us)) (ht : t.isGroupOpen)
    (hts : classDepthAfter 0 ts = 0) (hms : classDepthAfter 0 ms = 0) (hbalanced : Balanced ms) :
    ∃ o c, Closes p o c ∧ o.token = t ∧
      o.span = ⟨Text.utf8Length (spell ts),
        Text.utf8Length (spell ts) + Text.utf8Length t.spelling⟩ ∧
      c.span = ⟨Text.utf8Length (spell (ts ++ t :: ms)),
        Text.utf8Length (spell (ts ++ t :: ms)) + 1⟩ := by
  obtain ⟨front, rest, hlexemes, rfl, hrest⟩ := List.map_eq_append_iff.1 h
  obtain ⟨o, inner, rfl, rfl, hinner⟩ := List.map_eq_cons_iff.1 hrest
  obtain ⟨mid, back, rfl, rfl, hback⟩ := List.map_eq_append_iff.1 hinner
  obtain ⟨c, behind, rfl, hc, rfl⟩ := List.map_eq_cons_iff.1 hback
  have hclosing : lexemes p = (front ++ o :: mid) ++ c :: behind := by rw [hlexemes]; simp
  -- No class is open at either of the delimiters.
  have hdepth : classDepthAfter 0 ((front ++ o :: mid).map Lexeme.token) = 0 := by
    rw [List.map_append, classDepthAfter_append, hts, List.map_cons, classDepthAfter_cons,
      Token.classDepthAfter_of_isGroupOpen ht, hms]
  have hotop : o.isTopLevel := by
    refine (isTopLevel_iff_of_lexemes_append hlexemes).2 ⟨hts, fun hclass => ?_⟩
    rw [hclass] at ht
    exact absurd ht (by decide)
  have hctop : c.isTopLevel := by
    refine (isTopLevel_iff_of_lexemes_append hclosing).2 ⟨hdepth, ?_⟩
    rw [hc]
    decide
  have hmid : ∀ y ∈ mid, y ∈ lexemes p := fun y hy => by rw [hlexemes]; simp [hy]
  refine ⟨o, c, ⟨ht, hc, front.filter Lexeme.isTopLevel, mid.filter Lexeme.isTopLevel,
    behind.filter Lexeme.isTopLevel, ?_, (balanced_filter_isTopLevel_iff hmid).2 hbalanced⟩, rfl,
    span_eq_of_lexemes_append hlexemes, ?_⟩
  · rw [topLevel, hlexemes, List.filter_append, List.filter_cons_of_pos hotop, List.filter_append,
      List.filter_cons_of_pos hctop]
  · rw [span_eq_of_lexemes_append hclosing, hc, List.map_append, List.map_cons]
    rfl

/-- Whether `o` and `c` are the delimiters around the copy of depth `k` in the pattern `p'` that a
recursion is unrolled to: the `(?:` before the copy of the text on the left and the `)` behind the
copy of the text on the right, where all deeper copies stand between the two and the others around
them. -/
structure Recursion.Wraps (r : Recursion) (p' : Text) (k : Nat) (o c : Lexeme) : Prop where
  /-- The copy stands in the pattern between those that are less deep. -/
  pattern_eq : p' = (r.before ++ r.nesting.textBefore k) ++
    ((['(', '?', ':'] ++ atDepth r.nesting.names k r.left) ++ r.nesting.textWithin k ++
      (atDepth r.nesting.names k r.right ++ [')'])) ++ (r.nesting.textBehind k ++ r.after)
  /-- The first opens a group that captures nothing. -/
  token_opening : o.token = .groupOpen
  /-- It stands directly behind the text in front of the copy. -/
  span_opening : o.span = ⟨Text.utf8Length (r.before ++ r.nesting.textBefore k),
    Text.utf8Length (r.before ++ r.nesting.textBefore k) + 2⟩
  /-- The second closes a group. -/
  token_closing : c.token = .groupClose
  /-- It is one character long. -/
  stop_closing : c.span.stop = c.span.start + 1
  /-- It stands directly before the text behind the copy. -/
  stop_closing_add : c.span.stop + Text.utf8Length (r.nesting.textBehind k ++ r.after) =
    p'.utf8Length

/-- Whether the groups around the copies are nested in each other in the pattern `p'` that a
recursion is unrolled to, and nothing else gets out of balance. -/
structure NestsGroups (r : Recursion) (p' : Text) : Prop where
  /-- The openings and closing delimiters of groups are balanced. -/
  balanced : Balanced ((topLevel p').map Lexeme.token)
  /-- No class is open at the end. -/
  classDepth : classDepthAfter 0 (tokens p') = 0
  /-- The `(?:` before each copy is closed by the `)` behind it. -/
  closes : ∀ k, 2 ≤ k → k ≤ r.depth.value → ∃ o c, r.Wraps p' k o c ∧ Closes p' o c
  /-- Each copy is strictly inside the one that is less deep. -/
  inside : ∀ k, 2 ≤ k → k < r.depth.value → ∀ o c o' c', r.Wraps p' k o c →
    r.Wraps p' (k + 1) o' c' → o.span.stop ≤ o'.span.start ∧ c'.span.stop ≤ c.span.start

/-! ## Nested groups -/

/-- Whether a recursion is unrolled to the pattern `p'`, which is read as the nest of the tokens of
its two sides between the tokens `bs` and `us`, where the two sides are balanced together and
nothing is cut off. -/
structure Recursion.NestsTokens (r : Recursion) (p' : Text) (bs us : List Token) : Prop where
  /-- The first tokens are those of the text before the recursed text. -/
  before_eq : r.before = spell bs
  /-- The last tokens are those of the text after the recursed text. -/
  after_eq : r.after = spell us
  /-- The nest stands in between. -/
  tokens_eq : tokens p' = bs ++ weave id (Token.atDepth r.nesting.names) r.nesting.depths
    (tokens r.nesting.left) (tokens r.nesting.right) ++ us
  /-- No class is open before the recursed text. -/
  classDepth_before : classDepthAfter 0 bs = 0
  /-- Nothing is cut off before the directive. -/
  left : Complete r.nesting.left
  /-- Nothing is cut off behind the directive. -/
  right : Complete r.nesting.right
  /-- The two sides are balanced together. -/
  balanced : Balanced (tokens r.nesting.left ++ tokens r.nesting.right)

namespace Recursion.NestsTokens

variable {r : Recursion} {p' : Text} {bs us : List Token}

/-- No class is open before a copy. -/
theorem classDepth_tokensBefore (h : r.NestsTokens p' bs us) (k : Nat) :
    classDepthAfter 0 (bs ++ r.nesting.tokensBefore k) = 0 := by
  have hcopies := classDepthAfter_flatMap
    (classDepthAfter_front h.left.classDepth r.nesting.names) (r.nesting.depths.filter (· < k))
  rw [classDepthAfter_append, h.classDepth_before, Nesting.tokensBefore, classDepthAfter_append,
    h.left.classDepth, hcopies]

/-- What stands in the group around a copy leaves no class open and is balanced. -/
theorem of_tokensWithin (h : r.NestsTokens p' bs us) (k : Nat) :
    classDepthAfter 0 (r.nesting.tokensWithin k) = 0 ∧ Balanced (r.nesting.tokensWithin k) := by
  have hcopy := classDepthAfter_map_tagged (Token.tagged_atDepth r.nesting.names k) 0
  have hdeeper := classDepthAfter_nestLayers h.left.classDepth h.right.classDepth r.nesting.names
    (r.nesting.depths.filter (k < ·))
  have hbalanced := balanced_nestLayers h.balanced r.nesting.names
    (r.nesting.depths.filter (k < ·))
  refine ⟨?_, hbalanced.within_copy h.balanced r.nesting.names k⟩
  rw [Nesting.tokensWithin, classDepthAfter_cons, classDepthAfter_append, classDepthAfter_append]
  show classDepthAfter (classDepthAfter (classDepthAfter 0 _) _) _ = 0
  rw [hcopy, h.left.classDepth, hdeeper, hcopy, h.right.classDepth]

/-- The group around the copy of each depth is closed behind that copy. -/
theorem exists_wraps (h : r.NestsTokens p' bs us) {k : Nat} (hk : k ∈ r.nesting.depths) :
    ∃ o c, r.Wraps p' k o c ∧ Closes p' o c := by
  have hsplit : tokens p' = (bs ++ r.nesting.tokensBefore k) ++ .groupOpen ::
      (r.nesting.tokensWithin k ++ .groupClose :: (r.nesting.tokensBehind k ++ us)) := by
    rw [h.tokens_eq, r.nesting.weave_eq hk]
    simp only [List.cons_append, List.append_assoc]
  have htext : p' = spell (tokens p') := (spell_tokensFrom 0 p').symm
  rw [hsplit] at htext
  obtain ⟨hclass, hbalanced⟩ := h.of_tokensWithin k
  obtain ⟨o, c, hcloses, hopening, hospan, hcspan⟩ := exists_closes_of_tokens_eq hsplit rfl
    (h.classDepth_tokensBefore k) hclass hbalanced
  -- The tokens before, within and behind the group are those of the texts there.
  have hfront : spell (bs ++ r.nesting.tokensBefore k) = r.before ++ r.nesting.textBefore k := by
    rw [spell_append, Nesting.spell_tokensBefore, h.before_eq]
  have hwithin := r.nesting.spell_tokensWithin k h.right
  have hback : spell (r.nesting.tokensBehind k ++ us) = r.nesting.textBehind k ++ r.after := by
    rw [spell_append, r.nesting.spell_tokensBehind k h.right, h.after_eq]
  refine ⟨o, c, ⟨?_, hopening, ?_, hcloses.2.1, ?_, ?_⟩, hcloses⟩
  · rw [spell_append, hfront, spell_cons, spell_append, hwithin, spell_cons, hback] at htext
    rw [htext]
    simp [Token.spelling, Recursion.nesting]
  · rw [hospan, hfront]
    rfl
  · rw [hcspan]
  · rw [hcspan, ← hback]
    conv_rhs => rw [htext]
    simp only [spell_append, spell_cons, Text.utf8Length_append]
    have hclose : Text.utf8Length Token.groupClose.spelling = 1 := rfl
    omega

/-- The group around each copy is inside the one around the copy that is less deep. -/
theorem inside (h : r.NestsTokens p' bs us) {k : Nat} (hk : k ∈ r.nesting.depths)
    {o c o' c' : Lexeme} (hw : r.Wraps p' k o c) (hw' : r.Wraps p' (k + 1) o' c') :
    o.span.stop ≤ o'.span.start ∧ c'.span.stop ≤ c.span.start := by
  obtain ⟨hbefore, hbehind⟩ := r.nesting.texts_succ h.right hk
  have hstart := hw'.span_opening
  have hstop := hw'.stop_closing_add
  have hend := hw.stop_closing_add
  have hlength := hw.stop_closing
  have hcolon : Text.utf8Length ['(', '?', ':'] = 3 := rfl
  have hparen : Text.utf8Length [')'] = 1 := rfl
  rw [hbefore] at hstart
  rw [hbehind] at hstop
  simp only [Text.utf8Length_append] at hstart hstop hend
  rw [hw.span_opening, hstart]
  dsimp only
  rw [Text.utf8Length_append]
  omega

/-- The pattern is balanced as it is without the recursed text, and leaves the same classes open. -/
theorem of_tokens (h : r.NestsTokens p' bs us) :
    (Balanced (tokens p') ↔ Balanced (bs ++ us)) ∧
      classDepthAfter 0 (tokens p') = classDepthAfter 0 us := by
  have hlayers := balanced_nestLayers h.balanced r.nesting.names r.nesting.depths
  have hclass := classDepthAfter_nestLayers h.left.classDepth h.right.classDepth r.nesting.names
    r.nesting.depths
  have hnest : Balanced (tokens r.nesting.left ++ (nestLayers r.nesting.names
      (tokens r.nesting.left) (tokens r.nesting.right) r.nesting.depths ++
        tokens r.nesting.right)) := (balanced_append_iff hlayers).2 h.balanced
  rw [h.tokens_eq, weave_eq_nestLayers, List.append_assoc, List.append_assoc (tokens _)]
  refine ⟨balanced_append_iff hnest, ?_⟩
  simp only [classDepthAfter_append, h.classDepth_before, h.left.classDepth, hclass,
    h.right.classDepth]

end Recursion.NestsTokens

/-- The depths of a nest are the numbers from two to its depth. -/
theorem mem_depths_around {p : Text} {d : Directive} {span : Span} {depth : MaxDepth} {k : Nat} :
    k ∈ (Recursion.around p d span depth).nesting.depths ↔ 2 ≤ k ∧ k ≤ depth.value := by
  have hcopies := depth.copies_add_one
  rw [Nesting.depths, List.mem_range'_1]
  show 2 ≤ k ∧ k < 2 + depth.copies ↔ _
  omega

namespace Parts

variable {p : Text} {d : Directive} {span : Span} {before left right after : List Lexeme}
  {x : Lexeme}

/-- Where nothing is cut off and the recursed text is balanced, the tokens of the unrolled pattern
are a nest of those on both sides of the directive. -/
theorem nestsTokens (h : Parts p d span before left x right after) (hintact : Intact p d span)
    (hrecursed : Balanced ((left ++ x :: right).map Lexeme.token)) (depth : MaxDepth)
    (hidden : List Nat) (transfers : CaptureTransfers) :
    (Recursion.around p d span depth).NestsTokens
      (Expansion.ofRecursion (Recursion.around p d span depth) hidden transfers).pattern
      (before.map Lexeme.token) (after.map Lexeme.token) := by
  have htokens := h.tokens_unrolled_of_intact hintact depth hidden transfers
  obtain ⟨hopen, hclose⟩ := Token.not_isGroupOpen_of_isRecursion h.isRecursion
  have hdirective : Balanced [x.token] := .cons hopen hclose .nil
  have hleft : (Recursion.around p d span depth).nesting.left = spell (left.map Lexeme.token) :=
    h.slice_left
  have hright : (Recursion.around p d span depth).nesting.right = spell (right.map Lexeme.token) :=
    h.slice_right
  refine ⟨h.texts_eq.1, h.texts_eq.2.2.2, ?_, h.classDepth_before, hintact.left, hintact.right, ?_⟩
  · rw [htokens, hleft, hright, h.tokens_left, h.tokens_right]
    rfl
  · rw [hleft, hright, h.tokens_left, h.tokens_right]
    rw [List.map_append, List.map_cons] at hrecursed
    exact (balanced_append_iff hdirective).1 hrecursed

end Parts

/-- Where a balanced pattern that leaves no class open has complete texts on both sides of the
directive that is unrolled, the result is balanced and leaves no class open, and the groups around
the copies are nested in each other. -/
theorem Unrolls.nestsGroups {e e' : Expansion} {mode : Mode} {d : Directive} {span : Span}
    {depth : MaxDepth} (h : Unrolls e mode d span depth e')
    (hleft : Complete (e.pattern.slice ⟨span.start, d.span.start⟩))
    (hright : Complete (e.pattern.slice ⟨d.span.stop, span.stop⟩))
    (hbalanced : Balanced ((topLevel e.pattern).map Lexeme.token))
    (hclass : classDepthAfter 0 (tokens e.pattern) = 0) :
    NestsGroups (Recursion.around e.pattern d span depth) e'.pattern := by
  obtain ⟨before, left, x, right, after, hparts⟩ := exists_parts h.mem_directives h.recursed_eq
  obtain ⟨hrecursed, hclosed⟩ :=
    hparts.balanced_recursed h.mem_directives h.recursed_eq hbalanced
  have hnests := hparts.nestsTokens ⟨hleft, hright, hclosed⟩ hrecursed depth e.hiddenCaptures
    e.captureTransfers
  rw [← h.eq_ofRecursion] at hnests
  obtain ⟨hbalanced_iff, hclass_eq⟩ := hnests.of_tokens
  -- Around the recursed text the tokens are those of the pattern.
  have htokens : tokens e.pattern = before.map Lexeme.token ++
      ((left ++ x :: right).map Lexeme.token ++ after.map Lexeme.token) := by
    rw [hparts.tokens_eq]
    simp
  rw [balanced_topLevel_iff, htokens, balanced_append_iff hrecursed] at hbalanced
  have hdepth := hright.classDepth
  rw [hparts.slice_right, hparts.tokens_right] at hdepth
  rw [hparts.tokens_eq, classDepthAfter_append, hparts.classDepth_before, classDepthAfter_append,
    hparts.classDepth_left, classDepthAfter_cons, hparts.classDepth_directive,
    classDepthAfter_append, hdepth] at hclass
  refine ⟨(balanced_topLevel_iff _).2 (hbalanced_iff.2 hbalanced), hclass_eq.trans hclass, ?_, ?_⟩
  · exact fun k htwo hle => hnests.exists_wraps (mem_depths_around.2 ⟨htwo, hle⟩)
  · exact fun k htwo hlt o c o' c' hw hw' =>
      hnests.inside (mem_depths_around.2 ⟨htwo, Nat.le_of_lt hlt⟩) hw hw'

/-- Two groups are opened before the directive and closed behind it; a `)` in a class closes
nothing. -/
theorem Unrolls.nestsGroups_across_sides :
    ∃ (e e' : Expansion) (d : Directive) (span : Span) (depth : MaxDepth),
      e.pattern = "z(?<w>(a[)](?:b\\g<w&R=3>c)d)e)y".toList ∧
      e'.pattern = "z(?<w>(a[)](?:b(?:(a[)](?:b(?:(a[)](?:b(?:)c)d)e)c)d)e)c)d)e)y".toList ∧
      Unrolls e .plugin d span depth e' ∧
      Complete (e.pattern.slice ⟨span.start, d.span.start⟩) ∧
      Complete (e.pattern.slice ⟨d.span.stop, span.stop⟩) ∧
      Balanced ((topLevel e.pattern).map Lexeme.token) ∧
      classDepthAfter 0 (tokens e.pattern) = 0 ∧
      NestsGroups (Recursion.around e.pattern d span depth) e'.pattern := by
  let e : Expansion := .ofPattern "z(?<w>(a[)](?:b\\g<w&R=3>c)d)e)y".toList
  let e' : Expansion :=
    ⟨"z(?<w>(a[)](?:b(?:(a[)](?:b(?:(a[)](?:b(?:)c)d)e)c)d)e)c)d)e)y".toList, [3, 4], .empty⟩
  let d : Directive := ⟨.group ['w'], ['3'], ⟨15, 24⟩, 2, some ⟨6, 29⟩⟩
  let depth : MaxDepth := ⟨3, by decide, by decide⟩
  have h : Unrolls e .plugin d ⟨6, 29⟩ depth e' := by decide +kernel
  have hleft : Complete (e.pattern.slice ⟨6, 15⟩) := by decide +kernel
  have hright : Complete (e.pattern.slice ⟨24, 29⟩) := by decide +kernel
  have hbalanced : Balanced ((topLevel e.pattern).map Lexeme.token) := by decide +kernel
  have hclass : classDepthAfter 0 (tokens e.pattern) = 0 := by decide +kernel
  exact ⟨e, e', d, ⟨6, 29⟩, depth, rfl, rfl, h, hleft, hright, hbalanced, hclass,
    h.nestsGroups hleft hright hbalanced hclass⟩

end RegexUnroll
