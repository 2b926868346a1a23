import RegexUnroll.Proofs.DirectiveFree

/-!
# Patterns that stay as they are

Only a pattern without directives stays as it is when it is expanded. That it does is clear, and the
search for the characters of a directive, which comes first, passes over such patterns only: without
that search the result is the same (`Expansion.expand_eq_expandScanned`). The converse is about the
text. Whatever stands on the two sides of a directive, and however deep they are nested, unrolling
puts a group opening `(?:` where the directive was, and no directive begins with one
(`Parts.pattern_unrolled_ne`).
-/

namespace RegexUnroll

/-! ## Expanding without the search beforehand -/

/-- The recursion of a pattern, if it has one, looked for in every pattern. -/
def Recursion.ofScan (p : Text) (mode : Mode) : Except Rejection (Option Recursion) :=
  match directives p with
  | [] => .ok none
  | d :: others => some <$> ofDirectives p mode d others

/-- The expansion of a pattern where directives are looked for in every pattern. -/
def Expansion.expandScanned (e : Expansion) (mode : Mode) : Except Rejection Expansion :=
  e.unroll <$> Recursion.ofScan e.pattern mode

/-- A pattern without the characters of a directive has no directive. -/
theorem directives_eq_nil_of_not_hasRecursionMarker {p : Text} (h : hasRecursionMarker p = false) :
    directives p = [] := by
  rw [List.eq_nil_iff_forall_not_mem]
  intro d hd
  exact absurd (hasRecursionMarker_of_mem_directives hd) (by simp [h])

/-- A pattern that is passed over has no recursion to be found. -/
theorem Recursion.ofPattern_eq_ofScan (p : Text) (mode : Mode) :
    ofPattern p mode = ofScan p mode := by
  unfold ofPattern
  split
  · rfl
  · rename_i h
    rw [ofScan, directives_eq_nil_of_not_hasRecursionMarker (Bool.eq_false_iff.2 h)]

/-- Every pattern is expanded as without the search beforehand. -/
theorem Expansion.expand_eq_expandScanned (e : Expansion) (mode : Mode) :
    e.expand mode = e.expandScanned mode := by
  rw [expand_eq_map, Recursion.ofPattern_eq_ofScan, expandScanned]

/-! ## What stands where the directive was -/

/-- No directive begins with the opening of a group that does not capture. -/
theorem Token.not_isPrefix_spelling_of_isRecursion {t : Token} (h : t.isRecursion) :
    ¬['(', '?', ':'] <+: t.spelling := by
  rcases eq_of_isRecursion h with ⟨depth, rfl⟩ | ⟨target, depth, rfl⟩ <;> simp [spelling]

/-- Unrolling changes the pattern. -/
theorem Parts.pattern_unrolled_ne {p : Text} {d : Directive} {span : Span}
    {before left right after : List Lexeme} {x : Lexeme}
    (h : Parts p d span before left x right after) (depth : MaxDepth) (hidden : List Nat)
    (transfers : CaptureTransfers) :
    (Expansion.ofRecursion (Recursion.around p d span depth) hidden transfers).pattern ≠ p := by
  intro heq
  have htokens := h.tokens_eq
  rw [← List.append_assoc] at htokens
  have htext := eq_spell_append htokens
  rw [spell_cons] at htext
  rw [h.pattern_unrolled] at heq
  -- The texts around the directive are the same before and after, so the copies would spell it.
  have hcopies : spell (Recursion.around p d span depth).nesting.copyTokens = x.token.spelling :=
    List.append_cancel_right (List.append_cancel_left (heq.trans htext))
  have hprefix := (Recursion.around p d span depth).nesting.isPrefix_spell_copyTokens
  rw [hcopies] at hprefix
  exact Token.not_isPrefix_spelling_of_isRecursion h.isRecursion hprefix

/-- Where a directive is unrolled, the result is another pattern. -/
theorem Unrolls.pattern_ne {e e' : Expansion} {mode : Mode} {d : Directive} {span : Span}
    {depth : MaxDepth} (h : Unrolls e mode d span depth e') : e'.pattern ≠ e.pattern := by
  obtain ⟨before, left, x, right, after, hparts⟩ := exists_parts h.mem_directives h.recursed_eq
  rw [h.eq_ofRecursion]
  exact hparts.pattern_unrolled_ne depth _ _

/-! ## The patterns that stay -/

/-- A pattern that is passed over has no directive, so it is expanded as it would be otherwise; and
expanding leaves a pattern as it is exactly when it has no directive, and then everything that is
known about its captures too. -/
theorem Expansion.expand_unchanged_iff (e : Expansion) (mode : Mode) :
    (hasRecursionMarker e.pattern = false → directives e.pattern = []) ∧
      e.expand mode = e.expandScanned mode ∧
      ((∃ e', e.expand mode = .ok e' ∧ e'.pattern = e.pattern) ↔ directives e.pattern = []) ∧
      (directives e.pattern = [] → e.expand mode = .ok e) := by
  refine ⟨directives_eq_nil_of_not_hasRecursionMarker, e.expand_eq_expandScanned mode,
    ⟨?_, fun hnil => ⟨e, expand_of_directives_eq_nil hnil mode, rfl⟩⟩,
    fun hnil => expand_of_directives_eq_nil hnil mode⟩
  rintro ⟨e', he', hpattern⟩
  rcases eq_or_exists_unrolls he' with ⟨hnil, -⟩ | ⟨d, span, depth, hunrolls⟩
  · exact hnil
  · -- A directive has been unrolled, which changes the pattern.
    exact absurd hpattern hunrolls.pattern_ne

/-- Directives inside a class and behind a backslash are not passed over, and stay as they are. -/
theorem Expansion.expand_unchanged_of_directive_in_class :
    ∃ e : Expansion, e.pattern = "(a)[(?R=2)]\\(?R=3)".toList ∧
      hasRecursionMarker e.pattern = true ∧ directives e.pattern = [] ∧
      e.expand .external = .ok e ∧
      ∃ e', e.expand .external = .ok e' ∧ e'.pattern = e.pattern := by
  let e : Expansion := ⟨"(a)[(?R=2)]\\(?R=3)".toList, [5], .ofList [(1, [2])]⟩
  have hmarker : hasRecursionMarker e.pattern = true := by decide +kernel
  have hnil : directives e.pattern = [] := by decide +kernel
  obtain ⟨-, -, hiff, hexpand⟩ := e.expand_unchanged_iff .external
  exact ⟨e, rfl, hmarker, hnil, hexpand hnil, hiff.2 hnil⟩

end RegexUnroll
