import RegexUnroll.Proofs.Surroundings

/-!
# Directives in the unrolled pattern

Unrolling is meant to leave no directive behind, so that expanding the result once more changes
nothing. It can leave one all the same. An opener `(?R=` that no `)` follows is not a directive, but
the groups around the copies bring a `)`, and with it the opener is one. `CutOffBefore` says that
there is such an opener before the end of the recursed text, and around sealed texts that is the
only way (`Parts.exists_isRecursion_unrolled_iff`).
-/

namespace RegexUnroll

/-! ## Directives and tokens -/

/-- There are as many directives as tokens that are one. -/
theorem length_directives (p : Text) :
    (directives p).length = (tokens p).countP Token.isRecursion := by
  rw [directives, length_directivesFrom, countP_topLevel p Token.isRecursion_of_readsInClass]

/-- A pattern has no directive when no token of it is one. -/
theorem directives_eq_nil_iff (p : Text) :
    directives p = [] ↔ ¬∃ t ∈ tokens p, t.isRecursion := by
  rw [← List.length_eq_zero_iff, length_directives, List.countP_eq_zero]
  simp only [not_exists, not_and]

/-- A pattern uses recursion when it has a directive. -/
theorem occursIn_recursion_iff (p : Text) :
    Construct.recursion.occursIn p = false ↔ directives p = [] := by
  rw [← List.length_eq_zero_iff, directives, length_directivesFrom, List.countP_eq_zero,
    Construct.occursIn, List.any_eq_false]
  rfl

/-! ## The tokens of the copies -/

namespace Nesting

/-- The text of the copies begins with a group opening, that of the first copy or of the empty group
in the middle. -/
theorem isPrefix_spell_copyTokens (n : Nesting) : ['(', '?', ':'] <+: spell n.copyTokens := by
  rw [copyTokens]
  cases n.depths with
  | nil => exact ⟨_, rfl⟩
  | cons d depths => exact ⟨_, rfl⟩

/-- The text of the copies begins with a parenthesis. -/
theorem head?_spell_copyTokens (n : Nesting) (s : Text) :
    (spell n.copyTokens ++ s).head? = some '(' := by
  obtain ⟨r, hr⟩ := n.isPrefix_spell_copyTokens
  rw [← hr]
  rfl

/-- The text of the copies has a `)` in it. -/
theorem mem_spell_copyTokens (n : Nesting) : ')' ∈ spell n.copyTokens := by
  have hempty : ')' ∈ spell [.groupOpen, .char ':', .groupClose] := by decide
  rw [copyTokens, spell_append, spell_append]
  exact List.mem_append_left _ (List.mem_append_right _ hempty)

/-- A directive among the copies is one on the left, or one on the right when a `)` stands behind
the text there. -/
theorem exists_isRecursion_copyTokens_iff (n : Nesting) (hcopies : 0 < n.copies) :
    (∃ t ∈ n.copyTokens, t.isRecursion) ↔
      (∃ t ∈ tokens n.left, t.isRecursion) ∨ ∃ t ∈ tokens (n.right ++ [')']), t.isRecursion := by
  have hdepths : 2 ∈ n.depths := by
    rw [depths, List.mem_range'_1]
    omega
  have hsame : ∀ d t, (Token.atDepth n.names d t).isRecursion = t.isRecursion :=
    fun d t => (Token.tagged_atDepth n.names d t).isRecursion_eq
  constructor
  · -- Nothing of what is inserted is a directive.
    rintro ⟨t, ht, hrecursion⟩
    simp only [copyTokens, List.mem_append, List.mem_flatMap, List.mem_map, List.mem_cons,
      List.not_mem_nil, or_false] at ht
    rcases ht with (⟨d, -, (rfl | rfl) | ⟨t, ht, rfl⟩⟩ | rfl | rfl | rfl) | ⟨d, -, t, ht, rfl⟩
    · exact absurd hrecursion (by decide)
    · exact absurd hrecursion (by decide)
    · exact .inl ⟨t, ht, by rwa [hsame] at hrecursion⟩
    · exact absurd hrecursion (by decide)
    · exact absurd hrecursion (by decide)
    · exact absurd hrecursion (by decide)
    · exact .inr ⟨t, ht, by rwa [hsame] at hrecursion⟩
  · -- There is a copy at depth two, of either side.
    rintro (⟨t, ht, hrecursion⟩ | ⟨t, ht, hrecursion⟩)
    · refine ⟨t.atDepth n.names 2, ?_, by rwa [hsame]⟩
      refine List.mem_append_left _ (List.mem_append_left _ (List.mem_flatMap.2 ⟨2, hdepths, ?_⟩))
      exact List.mem_append_right _ (List.mem_map_of_mem ht)
    · refine ⟨t.atDepth n.names 2, ?_, by rwa [hsame]⟩
      refine List.mem_append_right _ (List.mem_flatMap.2 ⟨2, List.mem_reverse.2 hdepths, ?_⟩)
      exact List.mem_map_of_mem ht

end Nesting

/-! ## Openers of directives that are cut off -/

/-- The first token of a text is read off its front. -/
theorem tokensFrom_append {depth : Nat} {t : Token} {s : Text}
    (h : t.ReadsBefore (0 < depth) s) :
    tokensFrom depth (t.spelling ++ s) = t :: tokensFrom (t.classDepthAfter depth) s := by
  refine tokensFrom_eq_iff.2 ⟨?_, ?_, legible_tokensFrom _ s⟩
  · rw [spell_cons, spell_tokensFrom]
  · rwa [spell_tokensFrom]

/-- An opener that waits for a `)` is read as a directive before a text with one, whatever stands
around it. -/
theorem exists_isRecursion_of_cutOffDirective {depth : Nat} {ts : List Token} {s : Text}
    (h : Legible depth ts) (hbackslash : .char '\\' ∉ ts)
    (hangle : ∀ us t vs, ts = us ++ t :: vs → classDepthAfter depth us = 0 →
      ¬t.AwaitsAngle (spell vs))
    (hcut : CutOffDirective depth ts) (hhead : s.head? = some '(') (hmem : ')' ∈ s) :
    ∃ t ∈ tokensFrom depth (spell ts ++ s), t.isRecursion := by
  induction ts generalizing depth with
  | nil => exact absurd hcut (not_cutOffDirective_nil depth)
  | cons t ts ih =>
    by_cases hfirst : depth = 0 ∧ t.AwaitsParen (spell ts)
    · -- The directive runs up to the first `)`.
      obtain ⟨rfl, hawaits⟩ := hfirst
      cases t with
      | groupOpen =>
        obtain ⟨v, hv⟩ := hawaits
        have hclose : ')' ∈ v ++ s := List.mem_append_right _ hmem
        obtain ⟨a, b, hab, ha⟩ := List.eq_append_cons_of_mem hclose
        have hread : (Token.globalRecursion a).ReadsBefore (0 < 0) b := ha
        have htext : spell (.groupOpen :: ts) ++ s = (Token.globalRecursion a).spelling ++ b := by
          rw [spell_cons, ← hv, List.append_assoc, List.append_assoc, hab]
          simp [Token.spelling]
        rw [htext, tokensFrom_append hread]
        exact ⟨_, List.mem_cons_self, rfl⟩
      | _ => exact hawaits.elim
    · -- The token is read as before, and the opener is behind it.
      have hcut' := (cutOffDirective_cons.1 hcut).resolve_left hfirst
      have hne : t ≠ .char '\\' := fun ht => hbackslash (ht ▸ List.mem_cons_self)
      have hawaits : depth = 0 → ¬t.AwaitsAngle (spell ts) ∧ ¬t.AwaitsParen (spell ts) :=
        fun hzero => ⟨hangle [] t ts rfl hzero, fun hawaits => hfirst ⟨hzero, hawaits⟩⟩
      have hread := readsBefore_map_append Token.Tagged.same h hne hawaits (joinsTo_of_head? hhead)
      rw [List.map_id'] at hread
      obtain ⟨u, hu, hrecursion⟩ := ih h.2 (fun hts => hbackslash (List.mem_cons_of_mem _ hts))
        (fun us u vs hts => hangle (t :: us) u vs (by rw [hts, List.cons_append])) hcut'
      rw [spell_cons, List.append_assoc, tokensFrom_append hread]
      exact ⟨u, List.mem_cons_of_mem _ hu, hrecursion⟩

/-- Whether an opener of a directive that lacks its `)` starts before an offset of a pattern. -/
def CutOffBefore (p : Text) (stop : Nat) : Prop :=
  ∃ y ∈ topLevel p, y.token = .groupOpen ∧ ['(', '?', 'R', '='] <+: p.dropBytes y.span.start ∧
    y.span.start < stop

/-- Whether an opener is cut off is decided on the lexemes of the pattern. -/
instance (p : Text) (stop : Nat) : Decidable (CutOffBefore p stop) :=
  inferInstanceAs (Decidable (∃ y ∈ topLevel p, _))

/-- The front of a directive is all in a text that another text follows which does not go on with
it. -/
theorem isPrefix_of_append {s u : Text} (h : ['R', '='] <+: s ++ u)
    (hu : ∀ c ∈ u.head?, c ≠ 'R' ∧ c ≠ '=') : ['R', '='] <+: s := by
  obtain ⟨r, hr⟩ := h
  match s with
  | [] =>
    have hhead : u.head? = some 'R' := by
      rw [List.nil_append] at hr
      rw [← hr]
      rfl
    exact absurd rfl (hu 'R' hhead).1
  | [c] =>
    have hhead : u.head? = some '=' := by
      have htail : '=' :: r = u := (List.cons.inj hr).2
      rw [← htail]
      rfl
    exact absurd rfl (hu '=' hhead).2
  | c :: c' :: s =>
    obtain ⟨rfl, htail⟩ := List.cons.inj hr
    obtain ⟨rfl, -⟩ := List.cons.inj htail
    exact ⟨s, rfl⟩

/-- Of two lists of tokens behind each other an opener waits in one of them, if the text of the
second does not go on with it. -/
theorem cutOffDirective_append {depth : Nat} {ts us : List Token}
    (hus : ∀ c ∈ (spell us).head?, c ≠ 'R' ∧ c ≠ '=') :
    CutOffDirective depth (ts ++ us) ↔
      CutOffDirective depth ts ∨ CutOffDirective (classDepthAfter depth ts) us := by
  induction ts generalizing depth with
  | nil => exact (or_iff_right (not_cutOffDirective_nil depth)).symm
  | cons t ts ih =>
    have hawaits : t.AwaitsParen (spell (ts ++ us)) ↔ t.AwaitsParen (spell ts) := by
      rw [spell_append]
      cases t with
      | groupOpen =>
        exact ⟨fun h => isPrefix_of_append h hus, fun h => h.trans (List.prefix_append _ _)⟩
      | _ => rfl
    rw [List.cons_append, cutOffDirective_cons, cutOffDirective_cons, hawaits, ih, or_assoc]
    rfl

/-- An opener is cut off before a cut where one waits among the tokens before the cut, if the text
behind the cut does not go on with it. -/
theorem cutOffBefore_iff {p : Text} {ts us : List Token} (h : tokens p = ts ++ us)
    (hus : ∀ c ∈ (spell us).head?, c ≠ 'R' ∧ c ≠ '=') :
    CutOffBefore p (Text.utf8Length (spell ts)) ↔ CutOffDirective 0 ts := by
  constructor
  · rintro ⟨y, hy, htoken, ⟨r, hr⟩, hlt⟩
    obtain ⟨as, bs, hsplit, hdepth, hstart, hdrop⟩ := exists_tokens_eq_append hy
    rw [htoken] at hsplit hdrop
    rw [hstart] at hlt
    have hawaits : ['R', '='] <+: spell bs := ⟨r, by simpa [hdrop, Token.spelling] using hr⟩
    -- The opener starts before the cut, so it is one of the tokens there.
    rcases List.append_eq_append_iff.1 (h.symm.trans hsplit) with ⟨cs, rfl, -⟩ | ⟨cs, rfl, hcs⟩
    · rw [spell_append, Text.utf8Length_append] at hlt
      omega
    rcases List.cons_eq_append_iff.1 hcs with ⟨rfl, -⟩ | ⟨ds, rfl, rfl⟩
    · rw [List.append_nil] at hlt
      omega
    rw [spell_append] at hawaits
    exact ⟨as, ds, rfl, hdepth, isPrefix_of_append hawaits hus⟩
  · -- An opener that waits among the tokens before the cut starts before their end.
    rintro ⟨as, bs, rfl, hdepth, hawaits⟩
    have hsplit : tokens p = as ++ .groupOpen :: (bs ++ us) := by rw [h]; simp
    obtain ⟨y, hy, htoken, hstart, hdrop⟩ := exists_mem_topLevel hsplit hdepth (by simp)
    obtain ⟨r, hr⟩ := hawaits
    refine ⟨y, hy, htoken, ⟨r ++ spell us, ?_⟩, ?_⟩
    · rw [hdrop, spell_cons, spell_append, ← hr]
      simp [Token.spelling]
    · have hpos := utf8Length_spelling_pos .groupOpen
      rw [hstart, spell_append, spell_cons, Text.utf8Length_append, Text.utf8Length_append]
      omega

namespace Parts

variable {p : Text} {d : Directive} {span : Span} {before left right after : List Lexeme}
  {x : Lexeme}

/-- Only what begins a directive follows the text before it. -/
theorem head?_spelling_directive (h : Parts p d span before left x right after) (s : Text) :
    ∀ c ∈ (x.token.spelling ++ s).head?, c ≠ 'R' ∧ c ≠ '=' := by
  intro c hc
  rcases Token.eq_of_isRecursion h.isRecursion with ⟨depth, hx⟩ | ⟨target, depth, hx⟩
  · rw [hx] at hc
    obtain rfl : '(' = c := Option.some.inj hc
    decide
  · rw [hx] at hc
    obtain rfl : '\\' = c := Option.some.inj hc
    decide

/-- Only a `)` follows the recursed text. -/
theorem head?_spell_after (h : Parts p d span before left x right after) :
    ∀ c ∈ (spell (after.map Lexeme.token)).head?, c ≠ 'R' ∧ c ≠ '=' := by
  intro c hc
  rcases h.after_eq with rfl | ⟨y, ys, rfl, hy⟩
  · exact absurd hc (by simp)
  · rw [List.map_cons, spell_cons, hy] at hc
    obtain rfl : ')' = c := Option.some.inj hc
    decide

/-- An opener is cut off before the directive where one waits there. -/
theorem cutOffBefore_start_iff (h : Parts p d span before left x right after) :
    CutOffBefore p d.span.start ↔
      CutOffDirective 0 (before.map Lexeme.token ++ left.map Lexeme.token) := by
  have htokens := h.tokens_eq
  rw [← List.append_assoc] at htokens
  rw [h.start_directive_eq, List.map_append]
  exact cutOffBefore_iff htokens (h.head?_spelling_directive _)

/-- An opener is cut off before the end of the recursed text where one waits before the directive or
one waits between the directive and the end. -/
theorem cutOffBefore_stop_iff (h : Parts p d span before left x right after) :
    CutOffBefore p span.stop ↔
      CutOffDirective 0 (before.map Lexeme.token ++ left.map Lexeme.token) ∨
        CutOffDirective 0 (right.map Lexeme.token) := by
  have htokens : tokens p = (before.map Lexeme.token ++ left.map Lexeme.token ++
      x.token :: right.map Lexeme.token) ++ after.map Lexeme.token := by
    rw [h.tokens_eq]
    simp
  have hdirective : ¬(0 = 0 ∧ x.token.AwaitsParen (spell (right.map Lexeme.token))) := by
    rintro ⟨-, hawaits⟩
    rcases Token.eq_of_isRecursion h.isRecursion with ⟨depth, hx⟩ | ⟨target, depth, hx⟩ <;>
      · rw [hx] at hawaits
        exact hawaits
  have hstop : span.stop = Text.utf8Length (spell (before.map Lexeme.token ++
      left.map Lexeme.token ++ x.token :: right.map Lexeme.token)) := by
    rw [h.stop_eq]
    simp
  rw [hstop, cutOffBefore_iff htokens h.head?_spell_after,
    cutOffDirective_append (h.head?_spelling_directive _), cutOffDirective_cons,
    classDepthAfter_append, h.classDepth_before, h.classDepth_left, h.classDepth_directive,
    or_iff_right hdirective]

/-- Of a pattern with one directive no other token is one. -/
theorem not_isRecursion (h : Parts p d span before left x right after)
    (hsingle : directives p = [d]) :
    (¬∃ t ∈ before.map Lexeme.token ++ left.map Lexeme.token, t.isRecursion) ∧
      ¬∃ t ∈ right.map Lexeme.token ++ after.map Lexeme.token, t.isRecursion := by
  have hcount : (tokens p).countP Token.isRecursion = 1 := by
    rw [← length_directives, hsingle]
    rfl
  rw [h.tokens_eq, ← List.append_assoc, List.countP_append,
    List.countP_cons_of_pos h.isRecursion] at hcount
  have hfront :
      (before.map Lexeme.token ++ left.map Lexeme.token).countP Token.isRecursion = 0 := by omega
  have hback :
      (right.map Lexeme.token ++ after.map Lexeme.token).countP Token.isRecursion = 0 := by omega
  rw [List.countP_eq_zero] at hfront hback
  exact ⟨fun ⟨t, ht, hrecursion⟩ => hfront t ht hrecursion,
    fun ⟨t, ht, hrecursion⟩ => hback t ht hrecursion⟩

/-- The unrolled pattern is the text before the directive, the copies, and the text behind the
directive. -/
theorem pattern_unrolled (h : Parts p d span before left x right after) (depth : MaxDepth)
    (hidden : List Nat) (transfers : CaptureTransfers) :
    (Expansion.ofRecursion (Recursion.around p d span depth) hidden transfers).pattern =
      spell (before.map Lexeme.token ++ left.map Lexeme.token) ++
        (spell (Recursion.around p d span depth).nesting.copyTokens ++
          spell (right.map Lexeme.token ++ after.map Lexeme.token)) := by
  rw [Expansion.ofRecursion, Nesting.text_eq, h.around_eq]
  simp only [Recursion.nesting, spell_append, List.append_assoc]

/-- An opener that waits before the directive is a directive of the unrolled pattern, since the
empty group in the middle has a `)`. -/
theorem exists_isRecursion_unrolled_of_cutOff (h : Parts p d span before left x right after)
    (hsealed : SealedAround p d span)
    (hcut : CutOffDirective 0 (before.map Lexeme.token ++ left.map Lexeme.token)) (depth : MaxDepth)
    (hidden : List Nat) (transfers : CaptureTransfers) :
    ∃ t ∈ tokens (Expansion.ofRecursion (Recursion.around p d span depth) hidden transfers).pattern,
      t.isRecursion := by
  have hbackslash : .char '\\' ∉ before.map Lexeme.token ++ left.map Lexeme.token := by
    intro hmem
    obtain ⟨us, vs, hsplit⟩ := List.append_of_mem hmem
    exact h.ne_backslash hsplit rfl
  have hangle : ∀ us t vs, before.map Lexeme.token ++ left.map Lexeme.token = us ++ t :: vs →
      classDepthAfter 0 us = 0 → ¬t.AwaitsAngle (spell vs) :=
    fun us t vs => h.not_awaitsAngle hsealed
  rw [h.pattern_unrolled]
  apply exists_isRecursion_of_cutOffDirective h.legible_before_left hbackslash hangle hcut
  · exact Nesting.head?_spell_copyTokens _ _
  · exact List.mem_append_left _ (Nesting.mem_spell_copyTokens _)

/-- A directive among the copies is an opener that waits between the directive and the end of the
recursed text, which the `)` of a copy completes. -/
theorem exists_isRecursion_copyTokens_iff (h : Parts p d span before left x right after)
    (hsingle : directives p = [d]) (hsealed : SealedAround p d span) (depth : MaxDepth) :
    (∃ t ∈ (Recursion.around p d span depth).nesting.copyTokens, t.isRecursion) ↔
      CutOffDirective 0 (right.map Lexeme.token) := by
  obtain ⟨hfront, hback⟩ := h.not_isRecursion hsingle
  have hleft : ¬∃ t ∈ left.map Lexeme.token, t.isRecursion :=
    fun ⟨t, ht, hrecursion⟩ => hfront ⟨t, List.mem_append_right _ ht, hrecursion⟩
  have hright : ¬∃ t ∈ right.map Lexeme.token, t.isRecursion :=
    fun ⟨t, ht, hrecursion⟩ => hback ⟨t, List.mem_append_left _ ht, hrecursion⟩
  have hreads := hsealed.right
  rw [h.slice_right] at hreads
  have hcopies := Nesting.exists_isRecursion_copyTokens_iff
    (Recursion.around p d span depth).nesting depth.copies_pos
  rw [h.around_eq] at hcopies ⊢
  calc
    _ ↔ (∃ t ∈ tokens (spell (left.map Lexeme.token)), t.isRecursion) ∨
          ∃ t ∈ tokens (spell (right.map Lexeme.token) ++ [')']), t.isRecursion := hcopies
    _ ↔ ∃ t ∈ tokens (spell (right.map Lexeme.token) ++ [')']), t.isRecursion := by
        rw [h.tokens_left, or_iff_right hleft]
    _ ↔ CutOffDirective 0 (right.map Lexeme.token) := by
        rw [hreads.exists_settled.1.exists_isRecursion_iff, h.tokens_right, or_iff_right hright]

/-- Where the sides of the directive are sealed, the unrolled pattern has a directive exactly when
an opener of one is cut off before the end of the recursed text. -/
theorem exists_isRecursion_unrolled_iff (h : Parts p d span before left x right after)
    (hsingle : directives p = [d]) (hsealed : SealedAround p d span) (depth : MaxDepth)
    (hidden : List Nat) (transfers : CaptureTransfers) :
    (∃ t ∈ tokens
        (Expansion.ofRecursion (Recursion.around p d span depth) hidden transfers).pattern,
      t.isRecursion) ↔ CutOffBefore p span.stop := by
  rw [h.cutOffBefore_stop_iff]
  by_cases hcut : CutOffDirective 0 (before.map Lexeme.token ++ left.map Lexeme.token)
  · exact iff_of_true (h.exists_isRecursion_unrolled_of_cutOff hsealed hcut depth hidden transfers)
      (.inl hcut)
  · -- Around the copies nothing changes.
    obtain ⟨hfront, hback⟩ := h.not_isRecursion hsingle
    rw [h.tokens_unrolled hsealed hcut, or_iff_right hcut,
      ← h.exists_isRecursion_copyTokens_iff hsingle hsealed depth]
    constructor
    · rintro ⟨t, ht, hrecursion⟩
      rcases List.mem_append.1 ht with ht | ht
      · exact absurd ⟨t, ht, hrecursion⟩ hfront
      rcases List.mem_append.1 ht with ht | ht
      · exact ⟨t, ht, hrecursion⟩
      · exact absurd ⟨t, ht, hrecursion⟩ hback
    · rintro ⟨t, ht, hrecursion⟩
      exact ⟨t, List.mem_append_right _ (List.mem_append_left _ ht), hrecursion⟩

end Parts

/-! ## Expanding once more -/

/-- An expanded pattern has no directive, and stays as it is when it is expanded once more, exactly
when no opener of a directive is cut off before the end of a recursed text, where the recursed texts
are sealed on both sides of their directive. -/
theorem expand_directive_free_iff {e e' : Expansion} {mode : Mode} (h : e.expand mode = .ok e')
    (hsealed : ∀ d ∈ directives e.pattern, ∀ span ∈ d.recursed, SealedAround e.pattern d span) :
    (directives e'.pattern = [] ∧ Construct.recursion.occursIn e'.pattern = false ∧
        ∀ mode', e'.expand mode' = .ok e') ↔
      ∀ d ∈ directives e.pattern, ∀ span ∈ d.recursed, ¬CutOffBefore e.pattern span.stop := by
  have hfree : (directives e'.pattern = [] ∧ Construct.recursion.occursIn e'.pattern = false ∧
      ∀ mode', e'.expand mode' = .ok e') ↔ directives e'.pattern = [] :=
    ⟨fun hall => hall.1, fun hnil => ⟨hnil, (occursIn_recursion_iff _).2 hnil,
      Expansion.expand_of_directives_eq_nil hnil⟩⟩
  rw [hfree]
  rcases Expansion.of_expand_eq_ok h with ⟨hnil, rfl⟩ | ⟨d, span, depth, hsingle, hspan, -, rfl⟩
  · -- Nothing is unrolled, and there is no directive to speak of.
    simp [hnil]
  · have hd : d ∈ directives e.pattern := by rw [hsingle]; exact List.mem_cons_self
    obtain ⟨before, left, x, right, after, hparts⟩ := exists_parts hd hspan
    rw [forall_directives_iff hsingle hspan] at hsealed ⊢
    rw [directives_eq_nil_iff, hparts.exists_isRecursion_unrolled_iff hsingle hsealed]

/-- An opener behind the group that is recursed into stays as it is. -/
theorem expand_directive_free_of_cutOff_behind :
    ∃ e e' : Expansion, e.pattern = "(a\\g<1&R=2>b)(?R=3".toList ∧
      e'.pattern = "(a(?:a(?:)b)b)(?R=3".toList ∧ e.expand .plugin = .ok e' ∧
      directives e'.pattern = [] ∧ Construct.recursion.occursIn e'.pattern = false ∧
      ∀ mode', e'.expand mode' = .ok e' := by
  let e : Expansion := .ofPattern "(a\\g<1&R=2>b)(?R=3".toList
  let e' : Expansion := .ofPattern "(a(?:a(?:)b)b)(?R=3".toList
  have h : e.expand .plugin = .ok e' := by decide +kernel
  have hsealed : ∀ d ∈ directives e.pattern, ∀ span ∈ d.recursed,
      SealedAround e.pattern d span := by decide +kernel
  have hcut : ∀ d ∈ directives e.pattern, ∀ span ∈ d.recursed,
      ¬CutOffBefore e.pattern span.stop := by decide +kernel
  exact ⟨e, e', rfl, rfl, h, (expand_directive_free_iff h hsealed).2 hcut⟩

/-- An opener in the recursed text gets the `)` of a copy, and is a directive of the result. -/
theorem expand_completes_directive :
    ∃ e' : Expansion, (Expansion.ofPattern "a(?R=2)b(?R=3".toList).expand .plugin = .ok e' ∧
      e'.pattern = "a(?:a(?:)b(?R=3)b(?R=3".toList ∧ directives e'.pattern ≠ [] ∧
      e'.expand .plugin ≠ .ok e' := by
  refine ⟨.ofPattern "a(?:a(?:)b(?R=3)b(?R=3".toList, ?_, rfl, ?_, ?_⟩ <;> decide +kernel

end RegexUnroll
