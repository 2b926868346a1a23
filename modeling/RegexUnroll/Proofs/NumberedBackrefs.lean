import RegexUnroll.Proofs.DirectiveFree
import RegexUnroll.Proofs.Provenance
import RegexUnroll.Proofs.Validation

/-!
# Patterns with backreferences by number

A backreference by number means the capturing group with that number, so it goes wrong where
unrolling brings new captures. A pattern with one is unrolled only if the recursed text opens no
capture, which is counted once on that text. The copies are made of other texts: of the text before
the directive behind `(?:`, and of the text behind the directive with a `)` at its end. The first is
read as before. The second may be read otherwise at its end, where the `)` completes what is cut
off, but never as one more capture, however the text ends (`countCaptures_append_paren_le`).

So nothing is new, and what is known about the captures stays (`expand_of_numberedBackref`). Where
nothing is cut off the openings of captures stay too, in their order.
-/

namespace RegexUnroll

/-! ## A closing delimiter behind any text -/

/-- Where a text with a `)` behind it goes up to a `>` and beyond, the text itself does. -/
theorem exists_eq_of_append_paren {a b s : Text} (h : s ++ [')'] = a ++ '>' :: b) :
    ∃ b', s = a ++ '>' :: b' := by
  rcases List.eq_nil_or_concat b with rfl | ⟨b', c, rfl⟩
  · have hlast := congrArg List.getLast? h
    simp at hlast
  · have hconcat : s ++ [')'] = (a ++ '>' :: b') ++ [c] := by rw [h]; simp
    exact ⟨b', (List.append_inj' hconcat rfl).1⟩

namespace Token

/-- A token that is no lone backslash and that does not wait for a `)` is read before a `)` at the
end of the text as without it. -/
theorem ReadsBefore.append_paren {inClass : Bool} {rest : Text} {t : Token}
    (h : t.ReadsBefore inClass rest) (hbackslash : t ≠ .char '\\')
    (hparen : inClass = false → ¬t.AwaitsParen rest) :
    t.ReadsBefore inClass (rest ++ [')']) := by
  cases inClass with
  | true => exact ReadsInClass.of_ne_backslash h hbackslash
  | false =>
    cases t with
    | captureOpen =>
      have hread : rest.head? ≠ some '?' := h
      show (rest ++ [')']).head? ≠ some '?'
      cases rest with
      | nil => decide
      | cons c rest => exact hread
    | groupOpen =>
      refine ⟨Option.eq_none_iff_forall_ne_some.2 fun ⟨t, r⟩ hsome => ?_,
        Option.eq_none_iff_forall_ne_some.2 fun ⟨t, r⟩ hsome => ?_⟩
      · -- The `>` of a name stands before the `)`, so the name is there without it.
        obtain ⟨name, -, hform, hname⟩ := namedCaptureOpen?_eq_some_iff.1 hsome
        obtain ⟨r', hr'⟩ := exists_eq_of_append_paren (s := '?' :: rest) hform
        have hfound := namedCaptureOpen?_eq_some_iff.2 ⟨name, rfl, hr', hname⟩
        exact absurd (h.1.symm.trans hfound) (by simp)
      · obtain ⟨depth, -, hform, -⟩ := globalRecursion?_eq_some_iff.1 hsome
        have hrest : rest ++ [')'] = ['R', '='] ++ (depth ++ ')' :: r) := by simpa using hform
        exact hparen rfl (isPrefix_of_append_paren ⟨_, hrest.symm⟩)
    | escaped c =>
      refine ⟨Option.eq_none_iff_forall_ne_some.2 fun ⟨t, r⟩ hsome => ?_,
        Option.eq_none_iff_forall_ne_some.2 fun ⟨t, r⟩ hsome => ?_⟩
      · obtain ⟨target, depth, -, hform, hparts⟩ := subpatternRecursion?_eq_some_iff.1 hsome
        obtain ⟨r', hr'⟩ := exists_eq_of_append_paren (s := c :: rest) hform
        have hfound := subpatternRecursion?_eq_some_iff.2 ⟨target, depth, rfl, hr', hparts⟩
        exact absurd (h.1.symm.trans hfound) (by simp)
      · obtain ⟨name, -, hform, hname⟩ := namedBackref?_eq_some_iff.1 hsome
        obtain ⟨r', hr'⟩ := exists_eq_of_append_paren (s := c :: rest) hform
        have hfound := namedBackref?_eq_some_iff.2 ⟨name, rfl, hr', hname⟩
        exact absurd (h.2.symm.trans hfound) (by simp)
    | char c => exact .inl (h.resolve_right fun hlast => hbackslash (by rw [hlast.1]))
    | _ => exact h

end Token

/-- With a `)` behind them legible tokens are read as before, and it as one more token; or the last
of them are read together with it as one token. That token opens no capture. -/
theorem exists_tokensFrom_append_paren {depth : Nat} {ts : List Token} (h : Legible depth ts) :
    ∃ us t, tokensFrom depth (spell ts ++ [')']) = us ++ [t] ∧ us <+: ts ∧
      t.isCaptureOpen = false := by
  induction ts generalizing depth with
  | nil =>
    cases depth with
    | zero =>
      have hclose : Legible 0 [.groupClose] := ⟨trivial, trivial⟩
      exact ⟨[], .groupClose, tokensFrom_spell hclose, List.nil_prefix, rfl⟩
    | succ depth =>
      have hplain : Legible (depth + 1) [.char ')'] := ⟨.inl (by decide), trivial⟩
      exact ⟨[], .char ')', tokensFrom_spell hplain, List.nil_prefix, rfl⟩
  | cons t ts ih =>
    by_cases hbackslash : t = .char '\\'
    · -- The backslash is the last token, and escapes the `)`.
      subst hbackslash
      have hlast : Legible depth ([] ++ .char '\\' :: ts) := h
      obtain rfl : ts = [] := hlast.eq_nil_of_backslash
      have hescape : Legible depth [.escaped ')'] := by
        cases depth with
        | zero => exact ⟨⟨rfl, rfl⟩, trivial⟩
        | succ depth => exact ⟨trivial, trivial⟩
      exact ⟨[], .escaped ')', tokensFrom_spell hescape, List.nil_prefix, rfl⟩
    by_cases hparen : depth = 0 ∧ t.AwaitsParen (spell ts)
    · -- The token is an opener of a directive, and takes all behind it as its depth.
      obtain ⟨rfl, hawaits⟩ := hparen
      cases t with
      | groupOpen =>
        obtain ⟨us, hreads, hlegible, -, hspell⟩ := exists_readsWithParen_of_awaitsParen h hawaits
        cases hreads with
        | @directive _ v _ =>
          rw [← hspell]
          exact ⟨[], .globalRecursion v, tokensFrom_spell hlegible, List.nil_prefix, rfl⟩
        | cons hnot _ => exact absurd hawaits (hnot rfl)
      | _ => exact hawaits.elim
    · -- The token is read as before, and the others behind it.
      have hread : t.ReadsBefore (0 < depth) (spell ts ++ [')']) := by
        refine h.1.append_paren hbackslash fun hclass hawaits => hparen ⟨?_, hawaits⟩
        exact Nat.eq_zero_of_not_pos (of_decide_eq_false hclass)
      obtain ⟨us, u, htokens, hprefix, hu⟩ := ih h.2
      refine ⟨t :: us, u, ?_, List.cons_prefix_cons.2 ⟨rfl, hprefix⟩, hu⟩
      rw [spell_cons, List.append_assoc, tokensFrom_append hread, htokens, List.cons_append]

/-- A `)` behind a text brings no capture. -/
theorem countCaptures_append_paren_le (s : Text) :
    countCaptures (s ++ [')']) ≤ countCaptures s := by
  obtain ⟨us, t, htokens, hprefix, ht⟩ :=
    exists_tokensFrom_append_paren (legible_tokensFrom 0 s)
  rw [spell_tokensFrom] at htokens
  have hle := hprefix.sublist.countP_le (p := Token.isCaptureOpen)
  rw [countCaptures_eq, countCaptures_eq, tokens_eq_tokensFrom, htokens, List.countP_append,
    List.countP_singleton, ht]
  exact hle

/-! ## No new captures -/

/-- Where the two sides of a directive open no captures, unrolling brings none. -/
theorem Nesting.newCaptures_eq_zero {n : Nesting} (hleft : countCaptures n.left = 0)
    (hright : countCaptures n.right = 0) : n.newCaptures = 0 := by
  have hparen := countCaptures_append_paren_le n.right
  rw [hright] at hparen
  rw [Nesting.newCaptures_eq, countCaptures_groupOpen_colon_append, hleft, Nat.le_zero.1 hparen,
    Nat.mul_zero]

namespace Parts

variable {p : Text} {d : Directive} {span : Span} {before left right after : List Lexeme}
  {x : Lexeme}

/-- The recursed text behind the directive opens the captures on the right. -/
theorem countCaptures_right (h : Parts p d span before left x right after) :
    countCaptures (spell (right.map Lexeme.token)) = opened right := by
  rw [RegexUnroll.countCaptures_eq, h.tokens_right, countP_map_token]

/-- A recursed text that opens no captures brings none, however it ends. -/
theorem newCaptures_eq_zero (h : Parts p d span before left x right after)
    (hnone : countCaptures (p.slice span) = 0) (depth : MaxDepth) :
    (Recursion.around p d span depth).nesting.newCaptures = 0 := by
  rw [h.countCaptures_recursed] at hnone
  refine Nesting.newCaptures_eq_zero ?_ ?_
  · have hleft := h.countCaptures_left
    rw [← h.slice_left] at hleft
    exact hleft.trans (by omega)
  · have hright := h.countCaptures_right
    rw [← h.slice_right] at hright
    exact hright.trans (by omega)

end Parts

/-- Without new captures what is known about the captures stays as it is. -/
theorem Expansion.ofRecursion_of_newCaptures_eq_zero {r : Recursion}
    (h : r.nesting.newCaptures = 0) (hidden : List Nat) (transfers : CaptureTransfers) :
    (ofRecursion r hidden transfers).hiddenCaptures = hidden ∧
      (ofRecursion r hidden transfers).captureTransfers = transfers := by
  rw [ofRecursion, h]
  constructor
  · show hideNew r.capturesBefore 0 hidden = hidden
    rw [hideNew, List.range'_zero, List.foldl_nil, List.append_nil]
  · show transfers.afterUnrolling r.left r.depth.copies 0 r.capturesBefore = transfers
    rw [CaptureTransfers.afterUnrolling, if_pos (.inl rfl)]

/-! ## The openings of captures -/

/-- The openings of capturing groups of a pattern, in order and with their names. -/
def captureOpenings (p : Text) : List Token :=
  ((topLevel p).map Lexeme.token).filter Token.isCaptureOpen

/-- The openings of capturing groups are those among all tokens. -/
theorem captureOpenings_eq (p : Text) :
    captureOpenings p = (tokens p).filter Token.isCaptureOpen := by
  rw [captureOpenings, tokens, topLevel, List.filter_map, List.filter_filter, List.filter_map]
  refine congrArg _ (List.filter_congr fun x hx => ?_)
  by_cases htop : x.isTopLevel
  · rw [htop, Bool.and_true]
  · obtain ⟨rest, hrest⟩ := readsInClass_of_not_isTopLevel hx htop
    have hnot := Token.isCaptureOpen_of_readsInClass _ _ hrest
    simp [hnot]

/-- Where two lists of tokens open no captures, their nest opens none. -/
theorem filter_isCaptureOpen_weave (names : CopiedNames) (depths : List Nat)
    {left right : List Token} (hleft : ∀ t ∈ left, ¬t.isCaptureOpen)
    (hright : ∀ t ∈ right, ¬t.isCaptureOpen) :
    (weave id (Token.atDepth names) depths left right).filter Token.isCaptureOpen = [] := by
  refine List.filter_eq_nil_iff.2 (forall_mem_weave (by decide) (fun d t ht => ?_) hleft hright)
  rwa [(Token.tagged_atDepth names d t).isCaptureOpen_eq]

/-- Where nothing is cut off and the recursed text opens no captures, the openings of captures stay.
-/
theorem Parts.captureOpenings_unrolled {p : Text} {d : Directive} {span : Span}
    {before left right after : List Lexeme} {x : Lexeme}
    (h : Parts p d span before left x right after) (hintact : Intact p d span)
    (hnone : countCaptures (p.slice span) = 0) (depth : MaxDepth) (hidden : List Nat)
    (transfers : CaptureTransfers) :
    captureOpenings
        (Expansion.ofRecursion (Recursion.around p d span depth) hidden transfers).pattern =
      captureOpenings p := by
  have hrecursed := h.tokens_recursed
  rw [RegexUnroll.countCaptures_eq, List.countP_eq_zero, hrecursed] at hnone
  obtain ⟨hleft, hbehind⟩ := List.forall_mem_append.1 hnone
  obtain ⟨hx, hright⟩ := List.forall_mem_cons.1 hbehind
  rw [captureOpenings_eq, captureOpenings_eq, h.tokens_unrolled_of_intact hintact, h.tokens_eq]
  simp only [List.filter_append, filter_isCaptureOpen_weave _ _ hleft hright,
    List.filter_eq_nil_iff.2 hleft, List.filter_cons_of_neg hx, List.filter_eq_nil_iff.2 hright,
    List.nil_append, List.append_nil]

/-! ## Backreferences by number -/

/-- A directive is unrolled only where no backreference by number stands in its way. -/
theorem Unrolls.not_conflicts {e e' : Expansion} {mode : Mode} {d : Directive} {span : Span}
    {depth : MaxDepth} (h : Unrolls e mode d span depth e') :
    ¬(Construct.numberedBackref.occursIn e.pattern && d.recursesCaptures e.pattern) := by
  intro hconflict
  have hexpand := h.expand_eq
  rw [Expansion.expand_of_directives_eq_cons h.directives_eq,
    Recursion.ofDirectives_of_accepted h.ofLiteral?_eq (by simp), if_pos hconflict] at hexpand
  exact absurd hexpand (by simp [Except.map])

/-- Where a pattern with a backreference by number is unrolled, the recursed text opens no captures.
-/
theorem Unrolls.countCaptures_recursed_eq_zero {e e' : Expansion} {mode : Mode} {d : Directive}
    {span : Span} {depth : MaxDepth} (h : Unrolls e mode d span depth e')
    (hbackref : Construct.numberedBackref.occursIn e.pattern) :
    countCaptures (e.pattern.slice span) = 0 := by
  have hnot := h.not_conflicts
  rw [hbackref, Bool.true_and, Directive.recursesCaptures, h.recursed_eq] at hnot
  simpa using hnot

/-- Where a pattern with a backreference by number is expanded, what is known about its captures
stays as it is; and if nothing is cut off around its directive, the openings of its captures stay as
they are, so that each number means the group that it meant. -/
theorem Expansion.expand_of_numberedBackref {e e' : Expansion} {mode : Mode}
    (h : e.expand mode = .ok e')
    (hbackref : ∃ y ∈ topLevel e.pattern, ∃ c, y.token = .escaped c ∧ '1' ≤ c ∧ c ≤ '9') :
    e'.hiddenCaptures = e.hiddenCaptures ∧ e'.captureTransfers = e.captureTransfers ∧
      ((∀ d ∈ directives e.pattern, ∀ span ∈ d.recursed, Intact e.pattern d span) →
        captureOpenings e'.pattern = captureOpenings e.pattern) := by
  rcases eq_or_exists_unrolls h with ⟨-, rfl⟩ | ⟨d, span, depth, hunrolls⟩
  · -- Nothing is unrolled.
    exact ⟨rfl, rfl, fun _ => rfl⟩
  · have hnone :=
      hunrolls.countCaptures_recursed_eq_zero (occursIn_numberedBackref_iff.2 hbackref)
    obtain ⟨before, left, x, right, after, hparts⟩ :=
      exists_parts hunrolls.mem_directives hunrolls.recursed_eq
    have hnew := hparts.newCaptures_eq_zero hnone depth
    rw [forall_directives_iff hunrolls.directives_eq hunrolls.recursed_eq,
      hunrolls.eq_ofRecursion]
    obtain ⟨hhidden, htransfers⟩ :=
      ofRecursion_of_newCaptures_eq_zero hnew e.hiddenCaptures e.captureTransfers
    exact ⟨hhidden, htransfers, fun hintact =>
      hparts.captureOpenings_unrolled hintact hnone depth _ _⟩

/-- A backreference to a group in front of the one that is recursed into, in which a parenthesis
stands in a class and another is escaped. -/
theorem Expansion.expand_of_numberedBackref_to_group_in_front :
    ∃ e e' : Expansion, e.pattern = "(q)(?<w>a\\1[(]\\g<w&R=3>\\(b)(?<v>z)".toList ∧
      e.hiddenCaptures = [3] ∧ e.captureTransfers = .ofList [(1, [3, 2])] ∧
      e'.pattern = "(q)(?<w>a\\1[(](?:a\\1[(](?:a\\1[(](?:)\\(b)\\(b)\\(b)(?<v>z)".toList ∧
      e.expand .plugin = .ok e' ∧ e'.hiddenCaptures = e.hiddenCaptures ∧
      e'.captureTransfers = e.captureTransfers ∧
      captureOpenings e'.pattern = captureOpenings e.pattern := by
  let transfers : CaptureTransfers := .ofList [(1, [3, 2])]
  let e : Expansion := ⟨"(q)(?<w>a\\1[(]\\g<w&R=3>\\(b)(?<v>z)".toList, [3], transfers⟩
  let e' : Expansion :=
    ⟨"(q)(?<w>a\\1[(](?:a\\1[(](?:a\\1[(](?:)\\(b)\\(b)\\(b)(?<v>z)".toList, [3], transfers⟩
  have h : e.expand .plugin = .ok e' := by decide +kernel
  have hbackref : ∃ y ∈ topLevel e.pattern, ∃ c, y.token = .escaped c ∧ '1' ≤ c ∧ c ≤ '9' :=
    occursIn_numberedBackref_iff.1 (by decide +kernel)
  have hintact : ∀ d ∈ directives e.pattern, ∀ span ∈ d.recursed, Intact e.pattern d span := by
    decide +kernel
  obtain ⟨hhidden, htransfers, hopenings⟩ := expand_of_numberedBackref h hbackref
  exact ⟨e, e', rfl, rfl, rfl, rfl, h, hhidden, htransfers, hopenings hintact⟩

end RegexUnroll
