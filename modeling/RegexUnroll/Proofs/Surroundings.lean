import RegexUnroll.Proofs.Unrolling

/-!
# The tokens of the unrolled pattern

`Parts.tokens_unrolled` says what an unrolled pattern is read as: as before up to the directive,
then as the copies, then as before from behind the directive on. Where nothing is cut off around the
directive (`Intact`), the tokens are a nest of the tokens on both sides of it
(`Parts.tokens_unrolled_of_intact`).

What stands before the directive has been read with the directive behind it, and is read again with
a copy behind it. A directive for a group has a `>` in it, so no opener before it waits for one; of
the text before a directive for the whole pattern that has to be assumed (`SealedAround`). A `)`
behind the directive does the same for the openers of directives, and where a group is recursed into
it is the one that closes the group.
-/

namespace RegexUnroll

/-! ## Openers before a directive -/

namespace Token

/-- The opening of a group behind which no name is read waits for no `>` that comes. -/
theorem not_awaitsAngle_groupOpen {s u r : Text}
    (hread : namedCaptureOpen? ('?' :: (s ++ u ++ '>' :: r)) = none) (hangle : '>' ∉ u)
    (hname : isGroupName u) : ¬groupOpen.AwaitsAngle s := by
  rintro ⟨body, rfl, hbody, heq, hbang⟩
  have hwhole : isGroupName (body ++ u) := by
    cases body with
    | nil => exact hname
    | cons c body =>
      have hc : c ≠ '=' ∧ c ≠ '!' :=
        ⟨fun h => heq (by rw [h]; rfl), fun h => hbang (by rw [h]; rfl)⟩
      simp [isGroupName, hc]
  have hsome : namedCaptureOpen? ('?' :: ('<' :: body ++ u ++ '>' :: r)) =
      some (namedCaptureOpen (body ++ u), r) :=
    namedCaptureOpen?_eq_some_iff.2 ⟨body ++ u, rfl, by simp, by simp [hbody, hangle], hwhole⟩
  exact absurd (hread.symm.trans hsome) (by simp)

/-- An escaped `g` behind which no directive is read waits for no `>` that comes with a directive. -/
theorem not_awaitsAngle_escaped_g {s u target depth r : Text}
    (hread : subpatternRecursion? ('g' :: (s ++ u ++ '>' :: r)) = none)
    (hu : u = ['\\', 'g', '<'] ++ target ++ ['&', 'R', '='] ++ depth)
    (htarget : '>' ∉ target ∧ '&' ∉ target) (hdepth : '>' ∉ depth) :
    ¬(escaped 'g').AwaitsAngle s := by
  rintro ⟨body, rfl, hbody, hletter | ⟨-, hamp⟩⟩
  · exact absurd hletter (by decide)
  by_cases hmem : '&' ∈ body
  · -- The opener has a target of its own, and the depth runs up to the `>` of the directive.
    obtain ⟨a, b, rfl, ha⟩ := List.eq_append_cons_of_mem hmem
    obtain ⟨hne, b, rfl⟩ := hamp a b rfl ha
    simp only [List.mem_append, List.mem_cons, not_or] at hbody
    have hsome : subpatternRecursion?
        ('g' :: ('<' :: (a ++ '&' :: (['R', '='] ++ b)) ++ u ++ '>' :: r)) =
        some (subpatternRecursion a (b ++ u), r) :=
      subpatternRecursion?_eq_some_iff.2 ⟨a, b ++ u, rfl, by simp, hne, hbody.1, ha, by
        simp [hbody.2.2.2, hu, htarget.1, hdepth]⟩
    exact absurd (hread.symm.trans hsome) (by simp)
  · -- The target runs up to the `&` of the directive.
    have hsome : subpatternRecursion? ('g' :: ('<' :: body ++ u ++ '>' :: r)) =
        some (subpatternRecursion (body ++ ['\\', 'g', '<'] ++ target) depth, r) := by
      refine subpatternRecursion?_eq_some_iff.2
        ⟨_, _, rfl, by rw [hu]; simp, by simp, ?_, ?_, hdepth⟩
      · simp [hbody, htarget.1]
      · simp [hmem, htarget.2]
    exact absurd (hread.symm.trans hsome) (by simp)

/-- Before a directive for a group no opener waits for a `>`. -/
theorem not_awaitsAngle_of_subpatternRecursion {t : Token} {s target depth r : Text}
    (hread : t.ReadsTopLevel (s ++ (subpatternRecursion target depth).spelling ++ r))
    (htarget : '>' ∉ target ∧ '&' ∉ target) (hdepth : '>' ∉ depth) : ¬t.AwaitsAngle s := by
  -- The directive is a text without a `>`, and then its `>`.
  obtain ⟨u, hu⟩ : ∃ u, u = ['\\', 'g', '<'] ++ target ++ ['&', 'R', '='] ++ depth := ⟨_, rfl⟩
  have hspelling : s ++ (subpatternRecursion target depth).spelling ++ r = s ++ u ++ '>' :: r := by
    rw [hu]
    simp [spelling]
  have hangle : '>' ∉ u := by
    rw [hu]
    simp [htarget.1, hdepth]
  rw [hspelling] at hread
  cases t with
  | groupOpen => exact not_awaitsAngle_groupOpen hread.1 hangle (by rw [hu]; rfl)
  | escaped c =>
    rintro ⟨body, rfl, hbody, rfl | ⟨rfl, hamp⟩⟩
    · have hsome : namedBackref? ('k' :: ('<' :: body ++ u ++ '>' :: r)) =
          some (namedBackref (body ++ u), r) :=
        namedBackref?_eq_some_iff.2
          ⟨body ++ u, rfl, by simp, by simp [hbody, hangle], by rw [hu]; simp⟩
      exact absurd (hread.2.symm.trans hsome) (by simp)
    · exact not_awaitsAngle_escaped_g hread.1 hu htarget hdepth
        ⟨body, rfl, hbody, .inr ⟨rfl, hamp⟩⟩
  | _ => exact fun hawaits => hawaits

/-- Before a `)` no opener waits for it. -/
theorem not_awaitsParen_of_mem {t : Token} {s r : Text} (hread : t.ReadsTopLevel (s ++ r))
    (hmem : ')' ∈ r) : ¬t.AwaitsParen s := by
  cases t with
  | groupOpen =>
    rintro ⟨v, rfl⟩
    have hclose : ')' ∈ v ++ r := List.mem_append_right _ hmem
    obtain ⟨a, b, hab, ha⟩ := List.eq_append_cons_of_mem hclose
    have hsome : globalRecursion? ('?' :: (['R', '='] ++ v ++ r)) = some (globalRecursion a, b) :=
      globalRecursion?_eq_some_iff.2 ⟨a, rfl, by rw [List.append_assoc, hab]; simp, ha⟩
    exact absurd (hread.2.symm.trans hsome) (by simp)
  | _ => exact fun hawaits => hawaits

end Token

/-- Whether both sides of a directive that recurses into a span are sealed, but for the left one of
a directive for a group, which has the `>` of the directive behind it. -/
@[mk_iff] structure SealedAround (p : Text) (d : Directive) (span : Span) : Prop where
  /-- Before a directive for the whole pattern the pattern is sealed. -/
  left : d.target.scope = .global → Sealed (p.slice ⟨span.start, d.span.start⟩)
  /-- The recursed text after the directive is sealed. -/
  right : Sealed (p.slice ⟨d.span.stop, span.stop⟩)

/-- Whether a directive is sealed on both sides is decided on the texts there. -/
instance (p : Text) (d : Directive) (span : Span) : Decidable (SealedAround p d span) :=
  decidable_of_iff' _ (sealedAround_iff p d span)

namespace Parts

variable {p : Text} {d : Directive} {span : Span} {before left right after : List Lexeme}
  {x : Lexeme}

/-- A token before the directive that is outside classes has been read with the directive behind
it. -/
theorem readsTopLevel (h : Parts p d span before left x right after) {us vs : List Token}
    {t : Token} (hsplit : before.map Lexeme.token ++ left.map Lexeme.token = us ++ t :: vs)
    (hdepth : classDepthAfter 0 us = 0) :
    t.ReadsTopLevel (spell vs ++ x.token.spelling ++
      spell (right.map Lexeme.token ++ after.map Lexeme.token)) := by
  have hlegible := h.legible
  rw [← List.append_assoc, hsplit, List.append_assoc, List.cons_append] at hlegible
  have hread := hlegible.readsBefore
  rwa [hdepth, spell_append, spell_cons, ← List.append_assoc] at hread

/-- A directive for a group is read where it stands. -/
theorem readsTopLevel_directive (h : Parts p d span before left x right after) :
    x.token.ReadsTopLevel (spell (right.map Lexeme.token ++ after.map Lexeme.token)) := by
  have hlegible := h.legible
  rw [← List.append_assoc] at hlegible
  have hread := hlegible.readsBefore
  rwa [classDepthAfter_append, h.classDepth_before, h.classDepth_left] at hread

/-- No lone backslash stands before the directive. -/
theorem ne_backslash (h : Parts p d span before left x right after) {us vs : List Token}
    {t : Token} (hsplit : before.map Lexeme.token ++ left.map Lexeme.token = us ++ t :: vs) :
    t ≠ .char '\\' := by
  rintro rfl
  have hlegible := h.legible
  rw [← List.append_assoc, hsplit, List.append_assoc, List.cons_append] at hlegible
  exact absurd hlegible.eq_nil_of_backslash (by simp)

/-- No opener before the directive waits for a `>`, if the sides of the directive are sealed. -/
theorem not_awaitsAngle (h : Parts p d span before left x right after)
    (hsealed : SealedAround p d span) {us vs : List Token} {t : Token}
    (hsplit : before.map Lexeme.token ++ left.map Lexeme.token = us ++ t :: vs)
    (hdepth : classDepthAfter 0 us = 0) : ¬t.AwaitsAngle (spell vs) := by
  cases hscope : d.target.scope with
  | global =>
    -- All that stands before the directive is recursed into.
    have hleft := hsealed.left hscope
    rw [h.slice_left] at hleft
    obtain ⟨rfl, -⟩ := h.of_global hscope
    rw [List.map_nil, List.nil_append] at hsplit
    exact hleft.not_awaitsAngle (h.tokens_left.trans hsplit) hdepth
  | subpattern =>
    obtain ⟨target, depth, hx⟩ := h.of_subpattern hscope
    have hdirective := h.readsTopLevel_directive
    have hread := h.readsTopLevel hsplit hdepth
    rw [hx] at hdirective hread
    obtain ⟨-, htarget, hamp, hdepth'⟩ := hdirective
    exact Token.not_awaitsAngle_of_subpatternRecursion hread ⟨htarget, hamp⟩ hdepth'

/-- What stands before the directive waits for nothing, if the sides of the directive are sealed and
no opener of a directive waits for a `)`. -/
theorem settled_before_left (h : Parts p d span before left x right after)
    (hsealed : SealedAround p d span)
    (hcut : ¬CutOffDirective 0 (before.map Lexeme.token ++ left.map Lexeme.token)) :
    Settled 0 (before.map Lexeme.token ++ left.map Lexeme.token) := by
  refine settled_of_forall fun us t vs hsplit => ⟨h.ne_backslash hsplit, fun hdepth =>
    ⟨h.not_awaitsAngle hsealed hsplit hdepth, fun hawaits => ?_⟩⟩
  cases t with
  | groupOpen => exact hcut ⟨us, vs, hsplit, hdepth, hawaits⟩
  | _ => exact hawaits

/-- Before a directive that a `)` follows no opener waits for a `)`. -/
theorem not_cutOffDirective_of_mem (h : Parts p d span before left x right after)
    (hmem : ')' ∈ spell (right.map Lexeme.token ++ after.map Lexeme.token)) :
    ¬CutOffDirective 0 (before.map Lexeme.token ++ left.map Lexeme.token) := by
  rintro ⟨us, vs, hsplit, hdepth, hawaits⟩
  have hread := h.readsTopLevel hsplit hdepth
  rw [List.append_assoc] at hread
  exact Token.not_awaitsParen_of_mem hread (List.mem_append_right _ hmem) hawaits

/-- Where the sides of the directive are sealed and no opener before it waits for a `)`, the
unrolled pattern is read as before up to the directive and behind it, and as the copies in
between. -/
theorem tokens_unrolled (h : Parts p d span before left x right after)
    (hsealed : SealedAround p d span)
    (hcut : ¬CutOffDirective 0 (before.map Lexeme.token ++ left.map Lexeme.token))
    (depth : MaxDepth) (hidden : List Nat) (transfers : CaptureTransfers) :
    tokens (Expansion.ofRecursion (Recursion.around p d span depth) hidden transfers).pattern =
      before.map Lexeme.token ++ left.map Lexeme.token ++
        ((Recursion.around p d span depth).nesting.copyTokens ++
          (right.map Lexeme.token ++ after.map Lexeme.token)) := by
  have hright := hsealed.right
  rw [h.slice_right] at hright
  obtain ⟨hreads, hsettled⟩ := hright.exists_settled
  rw [Expansion.ofRecursion, h.around_eq depth]
  have htokens := Nesting.tokens_append_text_append
    (Recursion.nesting ⟨spell (before.map Lexeme.token), spell (left.map Lexeme.token),
      spell (right.map Lexeme.token), spell (after.map Lexeme.token), d.target.scope, depth,
      d.capturesBefore⟩)
    (before.map Lexeme.token) (after.map Lexeme.token) rfl
    (by rw [Recursion.nesting, h.tokens_left]; exact h.legible_before_left)
    (by rw [Recursion.nesting, h.tokens_left]; exact h.settled_before_left hsealed hcut)
    h.classDepth_before
    (by rw [Recursion.nesting, h.tokens_left]; exact h.classDepth_left)
    hsettled hreads.classDepthAfter_eq_zero h.legible_right_after
  rw [htokens]
  exact congrArg (fun ls => before.map Lexeme.token ++ ls ++ _) h.tokens_left

end Parts

/-! ## Where nothing is cut off -/

/-- Whether nothing is cut off around a directive that recurses into a span: both sides of it are
complete, and a group that it recurses into is closed. -/
@[mk_iff] structure Intact (p : Text) (d : Directive) (span : Span) : Prop where
  /-- The recursed text before the directive is complete. -/
  left : Complete (p.slice ⟨span.start, d.span.start⟩)
  /-- The recursed text after the directive is complete. -/
  right : Complete (p.slice ⟨d.span.stop, span.stop⟩)
  /-- The group that is recursed into ends before the pattern does. -/
  closed : d.target.scope = .subpattern → span.stop < p.utf8Length

/-- Whether something is cut off is decided on the two sides of the directive. -/
instance (p : Text) (d : Directive) (span : Span) : Decidable (Intact p d span) :=
  decidable_of_iff' _ (intact_iff p d span)

/-- Where nothing is cut off, both sides of the directive are sealed. -/
theorem Intact.sealedAround {p : Text} {d : Directive} {span : Span} (h : Intact p d span) :
    SealedAround p d span :=
  ⟨fun _ => h.left.toSealed, h.right.toSealed⟩

namespace Parts

variable {p : Text} {d : Directive} {span : Span} {before left right after : List Lexeme}
  {x : Lexeme}

/-- Behind a group that is closed stands a `)`. -/
theorem mem_after_of_lt (h : Parts p d span before left x right after)
    (hlt : span.stop < p.utf8Length) : ')' ∈ spell (after.map Lexeme.token) := by
  rcases h.after_eq with rfl | ⟨y, ys, rfl, hy⟩
  · have htokens : p = spell ((before ++ (left ++ x :: right)).map Lexeme.token) := by
      have h' := h.lexemes_eq
      rw [List.append_nil] at h'
      rw [← h']
      exact (spell_tokensFrom 0 p).symm
    rw [h.stop_eq, ← htokens] at hlt
    exact absurd hlt (Nat.lt_irrefl _)
  · rw [List.map_cons, spell_cons, hy]
    exact List.mem_append_left _ (List.mem_singleton_self _)

/-- Where nothing is cut off, no opener of a directive waits before the directive. -/
theorem not_cutOffDirective (h : Parts p d span before left x right after)
    (hintact : Intact p d span) :
    ¬CutOffDirective 0 (before.map Lexeme.token ++ left.map Lexeme.token) := by
  cases hscope : d.target.scope with
  | global =>
    obtain ⟨rfl, -⟩ := h.of_global hscope
    have hleft := hintact.left
    rw [h.slice_left] at hleft
    rw [List.map_nil, List.nil_append]
    rintro ⟨us, vs, hsplit, hdepth, hawaits⟩
    exact hleft.not_awaitsParen (h.tokens_left.trans hsplit) hdepth hawaits
  | subpattern =>
    -- The `)` that closes the group stands behind every opener before the directive.
    have hmem : ')' ∈ spell (right.map Lexeme.token ++ after.map Lexeme.token) := by
      rw [spell_append]
      exact List.mem_append_right _ (h.mem_after_of_lt (hintact.closed hscope))
    exact h.not_cutOffDirective_of_mem hmem

/-- Where nothing is cut off, the unrolled pattern is read as before around the recursed text, and
in its place as the nest of the tokens on both sides of the directive. -/
theorem tokens_unrolled_of_intact (h : Parts p d span before left x right after)
    (hintact : Intact p d span) (depth : MaxDepth) (hidden : List Nat)
    (transfers : CaptureTransfers) :
    tokens (Expansion.ofRecursion (Recursion.around p d span depth) hidden transfers).pattern =
      before.map Lexeme.token ++
        weave id (Token.atDepth (Recursion.around p d span depth).nesting.names)
          (List.range' 2 depth.copies) (left.map Lexeme.token) (right.map Lexeme.token) ++
        after.map Lexeme.token := by
  have hright := hintact.right
  rw [h.slice_right] at hright
  rw [h.tokens_unrolled hintact.sealedAround (h.not_cutOffDirective hintact)]
  have hright' : Complete (Recursion.around p d span depth).nesting.right := by
    rw [h.around_eq]
    exact hright
  have hnest := Nesting.append_copyTokens_append _ hright'
  have htokens_left : tokens (Recursion.around p d span depth).nesting.left =
      left.map Lexeme.token := by
    rw [h.around_eq]
    exact h.tokens_left
  have htokens_right : tokens (Recursion.around p d span depth).nesting.right =
      right.map Lexeme.token := by
    rw [h.around_eq]
    exact h.tokens_right
  rw [htokens_left, htokens_right] at hnest
  show _ = before.map Lexeme.token ++ weave id _
    (Recursion.around p d span depth).nesting.depths _ _ ++ after.map Lexeme.token
  rw [← hnest]
  simp only [List.append_assoc]

end Parts

/-- Where nothing is cut off around the directive that is unrolled, the result is read as the tokens
of the pattern before the recursed text, the nest of the tokens on both sides of the directive, and
the tokens of the pattern after the recursed text. -/
theorem Unrolls.tokens_pattern {e e' : Expansion} {mode : Mode} {d : Directive} {span : Span}
    {depth : MaxDepth} (h : Unrolls e mode d span depth e') (hintact : Intact e.pattern d span) :
    tokens e'.pattern =
      (lexemesIn e.pattern ⟨0, span.start⟩).map Lexeme.token ++
        weave id (Token.atDepth (Recursion.around e.pattern d span depth).nesting.names)
          (List.range' 2 (depth.value - 1))
          (tokens (e.pattern.slice ⟨span.start, d.span.start⟩))
          (tokens (e.pattern.slice ⟨d.span.stop, span.stop⟩)) ++
        (lexemesIn e.pattern ⟨span.stop, e.pattern.utf8Length⟩).map Lexeme.token := by
  obtain ⟨before, left, x, right, after, hparts⟩ := exists_parts h.mem_directives h.recursed_eq
  rw [h.eq_ofRecursion, hparts.lexemesIn_before, hparts.lexemesIn_after, hparts.slice_left,
    hparts.slice_right, hparts.tokens_left, hparts.tokens_right]
  exact hparts.tokens_unrolled_of_intact hintact depth _ _

/-- A directive between a class with a `)` in it, two references by name and an escaped `(`. -/
theorem Unrolls.tokens_pattern_of_group_at_depth_three :
    ∃ (e e' : Expansion) (d : Directive) (span : Span) (depth : MaxDepth),
      e.pattern = "z(?<w>\\(a(?<v>[)<])\\k<v>\\g<w&R=3>(b)\\k<w>)y".toList ∧
      e'.pattern = ("z(?<w>\\(a(?<v>[)<])\\k<v>(?:\\(a(?<v_$2>[)<])\\k<v_$2>" ++
        "(?:\\(a(?<v_$3>[)<])\\k<v_$3>(?:)(b)\\k<w>)(b)\\k<w>)(b)\\k<w>)y").toList ∧
      Unrolls e .plugin d span depth e' ∧ Intact e.pattern d span ∧
      tokens e'.pattern =
        (lexemesIn e.pattern ⟨0, span.start⟩).map Lexeme.token ++
          weave id (Token.atDepth (Recursion.around e.pattern d span depth).nesting.names)
            (List.range' 2 (depth.value - 1))
            (tokens (e.pattern.slice ⟨span.start, d.span.start⟩))
            (tokens (e.pattern.slice ⟨d.span.stop, span.stop⟩)) ++
          (lexemesIn e.pattern ⟨span.stop, e.pattern.utf8Length⟩).map Lexeme.token := by
  let e : Expansion := .ofPattern "z(?<w>\\(a(?<v>[)<])\\k<v>\\g<w&R=3>(b)\\k<w>)y".toList
  let e' : Expansion := ⟨("z(?<w>\\(a(?<v>[)<])\\k<v>(?:\\(a(?<v_$2>[)<])\\k<v_$2>" ++
    "(?:\\(a(?<v_$3>[)<])\\k<v_$3>(?:)(b)\\k<w>)(b)\\k<w>)(b)\\k<w>)y").toList,
    [3, 4, 5, 6], .empty⟩
  let d : Directive := ⟨.group ['w'], ['3'], ⟨24, 33⟩, 2, some ⟨6, 41⟩⟩
  let depth : MaxDepth := ⟨3, by decide, by decide⟩
  have h : Unrolls e .plugin d ⟨6, 41⟩ depth e' := by decide +kernel
  have hintact : Intact e.pattern d ⟨6, 41⟩ := by decide +kernel
  exact ⟨e, e', d, ⟨6, 41⟩, depth, rfl, rfl, h, hintact, h.tokens_pattern hintact⟩

end RegexUnroll
