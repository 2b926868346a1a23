import RegexUnroll.Expansion
import RegexUnroll.Proofs.Anatomy
import RegexUnroll.Proofs.Nest

/-!
# The unrolled pattern

`Unrolls` says that a pattern is expanded by unrolling a directive. Then the directive is the only
one and the result is the nest in its surroundings (`Unrolls.directives_eq`,
`Unrolls.eq_ofRecursion`); where nothing is unrolled there is no directive and the pattern stays as
it is (`Expansion.of_expand_eq_ok`). The texts that the nest is made of are those of the parts of
the pattern (`Parts.around_eq`), and each of them is read by itself as it is read where it stands.
-/

namespace RegexUnroll

/-! ## What is unrolled -/

/-- A computation in two steps has a result when both of them have. -/
theorem bind_eq_ok_iff {ε α β : Type} {x : Except ε α} {f : α → Except ε β} {b : β} :
    x >>= f = .ok b ↔ ∃ a, x = .ok a ∧ f a = .ok b := by
  cases x <;> simp [bind, Except.bind]

/-- What is thrown ends the computation. -/
theorem throw_bind_ne_ok {ε α β : Type} (x : ε) (f : α → Except ε β) (b : β) :
    (throw x >>= f : Except ε β) ≠ .ok b := by
  simp [throw, throwThe, MonadExceptOf.throw, bind, Except.bind]

/-- Only a literal that denotes a depth is accepted. -/
theorem MaxDepth.ofLiteral_eq_ok_iff {literal : Text} {depth : MaxDepth} :
    MaxDepth.ofLiteral literal = .ok depth ↔ MaxDepth.ofLiteral? literal = some depth := by
  unfold MaxDepth.ofLiteral
  split <;> simp_all

/-- A pattern is taken apart around its only directive, of which the depth and the recursed span are
known. -/
theorem Recursion.of_ofDirectives_eq_ok {p : Text} {mode : Mode} {d : Directive}
    {others : List Directive} {r : Recursion} (h : ofDirectives p mode d others = .ok r) :
    others = [] ∧ ∃ span depth, d.recursed = some span ∧
      MaxDepth.ofLiteral? d.depth = some depth ∧ r = around p d span depth := by
  unfold ofDirectives at h
  obtain ⟨depth, hdepth, h⟩ := bind_eq_ok_iff.1 h
  obtain ⟨-, -, h⟩ := bind_eq_ok_iff.1 h
  dsimp only at h
  -- Of the checks that follow each ends the computation where it fails.
  by_cases hbackref : (Construct.numberedBackref.occursIn p && d.recursesCaptures p) = true
  · rw [if_pos hbackref] at h
    exact absurd h (throw_bind_ne_ok _ _ _)
  rw [if_neg hbackref] at h
  by_cases hdefine : Construct.defineGroup.occursIn p = true
  · rw [if_pos hdefine] at h
    exact absurd h (throw_bind_ne_ok _ _ _)
  rw [if_neg hdefine] at h
  by_cases hothers : others = []
  · rw [if_neg (not_not_intro hothers)] at h
    match hspan : d.recursed with
    | some span =>
      rw [hspan] at h
      exact ⟨hothers, span, depth, rfl, MaxDepth.ofLiteral_eq_ok_iff.1 hdepth,
        (Except.ok.inj h).symm⟩
    | none =>
      rw [hspan] at h
      exact absurd h (by simp [throw, throwThe, MonadExceptOf.throw])
  · rw [if_pos hothers] at h
    exact absurd h (throw_bind_ne_ok _ _ _)

/-- The spelling of a lexeme stands in the pattern. -/
theorem spelling_isInfix {p : Text} {x : Lexeme} (hx : x ∈ lexemes p) :
    x.token.spelling <:+: p := by
  obtain ⟨xs, ys, hsplit⟩ := List.append_of_mem hx
  have htokens : tokens p = xs.map Lexeme.token ++ x.token :: ys.map Lexeme.token :=
    tokens_eq_append hsplit
  refine ⟨spell (xs.map Lexeme.token), spell (ys.map Lexeme.token), ?_⟩
  rw [List.append_assoc, ← spell_cons]
  exact (eq_spell_append htokens).symm

/-- A pattern with a directive has the characters of one. -/
theorem hasRecursionMarker_of_mem_directives {p : Text} {d : Directive} (h : d ∈ directives p) :
    hasRecursionMarker p := by
  obtain ⟨ys, x, zs, hsplit, hx⟩ := exists_append_of_mem_directivesFrom h
  have hmem : x ∈ lexemes p := by
    have htop : x ∈ topLevel p := by rw [hsplit]; simp
    exact (List.mem_filter.1 htop).1
  have hinfix := spelling_isInfix hmem
  obtain ⟨hrecursion, -⟩ := Directive.of_ofLexeme? hx
  rcases Token.eq_of_isRecursion hrecursion with ⟨depth, htoken⟩ | ⟨target, depth, htoken⟩
  · rw [htoken] at hinfix
    have hmarker : ['(', '?', 'R', '='] <:+: p := by
      have hprefix : ['(', '?', 'R', '='] <+: (Token.globalRecursion depth).spelling :=
        ⟨depth ++ [')'], rfl⟩
      exact hprefix.isInfix.trans hinfix
    simp [hasRecursionMarker, Text.hasInfix_eq_true_iff.2 hmarker]
  · rw [htoken] at hinfix
    have hopener : ['\\', 'g', '<'] <:+: p := by
      have hprefix : ['\\', 'g', '<'] <+: (Token.subpatternRecursion target depth).spelling :=
        ⟨target ++ ['&', 'R', '='] ++ depth ++ ['>'], by simp [Token.spelling]⟩
      exact hprefix.isInfix.trans hinfix
    have hmiddle : ['&', 'R', '='] <:+: p := by
      have hmid : ['&', 'R', '='] <:+: (Token.subpatternRecursion target depth).spelling :=
        ⟨['\\', 'g', '<'] ++ target, depth ++ ['>'], by simp [Token.spelling]⟩
      exact hmid.trans hinfix
    simp [hasRecursionMarker, Text.hasInfix_eq_true_iff.2 hopener,
      Text.hasInfix_eq_true_iff.2 hmiddle]

/-- The expansion of a pattern whose recursion is known, if it has one. -/
def Expansion.unroll (e : Expansion) (r : Option Recursion) : Expansion :=
  r.elim e fun r => ofRecursion r e.hiddenCaptures e.captureTransfers

/-- The recursion of a pattern is found first, without what is known about the captures. -/
theorem Expansion.expand_eq_map (e : Expansion) (mode : Mode) :
    e.expand mode = e.unroll <$> Recursion.ofPattern e.pattern mode := by
  unfold expand
  rcases Recursion.ofPattern e.pattern mode with r | _ | r <;> rfl

/-- A pattern without directives stays as it is. -/
theorem Expansion.expand_of_directives_eq_nil {e : Expansion} (h : directives e.pattern = [])
    (mode : Mode) : e.expand mode = .ok e := by
  have hnone : Recursion.ofPattern e.pattern mode = .ok none := by
    unfold Recursion.ofPattern
    split
    · rw [h]
    · rfl
  rw [expand_eq_map, hnone]
  rfl

/-- A pattern with directives is expanded where its recursion is found. -/
theorem Expansion.expand_of_directives_eq_cons {e : Expansion} {d : Directive}
    {others : List Directive} (h : directives e.pattern = d :: others) (mode : Mode) :
    e.expand mode = (Recursion.ofDirectives e.pattern mode d others).map fun r =>
      ofRecursion r e.hiddenCaptures e.captureTransfers := by
  -- A directive has a marker in it, so it is not passed over.
  have hd : d ∈ directives e.pattern := by rw [h]; exact List.mem_cons_self
  have hfound : Recursion.ofPattern e.pattern mode =
      some <$> Recursion.ofDirectives e.pattern mode d others := by
    rw [Recursion.ofPattern, if_pos (hasRecursionMarker_of_mem_directives hd), h]
  rw [expand_eq_map, hfound]
  cases Recursion.ofDirectives e.pattern mode d others <;> rfl

/-- A pattern is expanded in one of two ways: it has no directive and stays as it is, or its only
directive is unrolled. -/
theorem Expansion.of_expand_eq_ok {e e' : Expansion} {mode : Mode} (h : e.expand mode = .ok e') :
    directives e.pattern = [] ∧ e' = e ∨
      ∃ d span depth, directives e.pattern = [d] ∧ d.recursed = some span ∧
        MaxDepth.ofLiteral? d.depth = some depth ∧
        e' = ofRecursion (Recursion.around e.pattern d span depth) e.hiddenCaptures
          e.captureTransfers := by
  match hdirectives : directives e.pattern with
  | [] =>
    rw [expand_of_directives_eq_nil hdirectives] at h
    exact .inl ⟨rfl, (Except.ok.inj h).symm⟩
  | d :: others =>
    rw [expand_of_directives_eq_cons hdirectives] at h
    match hr : Recursion.ofDirectives e.pattern mode d others with
    | .error _ =>
      rw [hr] at h
      exact absurd h (by simp [Except.map])
    | .ok r =>
      obtain ⟨rfl, span, depth, hspan, hdepth, rfl⟩ := Recursion.of_ofDirectives_eq_ok hr
      rw [hr] at h
      exact .inr ⟨d, span, depth, rfl, hspan, hdepth, (Except.ok.inj h).symm⟩

/-- What is said of all directives of a pattern is said of the only one. -/
theorem forall_directives_iff {p : Text} {d : Directive} {span : Span}
    (hsingle : directives p = [d]) (hspan : d.recursed = some span)
    {P : Directive → Span → Prop} :
    (∀ d ∈ directives p, ∀ span ∈ d.recursed, P d span) ↔ P d span := by
  simp [hsingle, hspan]

/-- Whether a pattern is expanded by unrolling a directive that recurses into a span to a depth. -/
@[mk_iff] structure Unrolls (e : Expansion) (mode : Mode) (d : Directive) (span : Span)
    (depth : MaxDepth) (e' : Expansion) : Prop where
  /-- The directive is one of the pattern. -/
  mem_directives : d ∈ directives e.pattern
  /-- The directive recurses into the span. -/
  recursed_eq : d.recursed = some span
  /-- The literal of the directive denotes the depth. -/
  ofLiteral?_eq : MaxDepth.ofLiteral? d.depth = some depth
  /-- The pattern is expanded. -/
  expand_eq : e.expand mode = .ok e'

/-- Whether a directive is unrolled is decided by expanding the pattern. -/
instance (e : Expansion) (mode : Mode) (d : Directive) (span : Span) (depth : MaxDepth)
    (e' : Expansion) : Decidable (Unrolls e mode d span depth e') :=
  decidable_of_iff' _ (unrolls_iff e mode d span depth e')

namespace Unrolls

variable {e e' : Expansion} {mode : Mode} {d : Directive} {span : Span} {depth : MaxDepth}

/-- The directive is the only one and the result is the nest in its surroundings. -/
theorem directives_eq_and_eq_ofRecursion (h : Unrolls e mode d span depth e') :
    directives e.pattern = [d] ∧
      e' = Expansion.ofRecursion (Recursion.around e.pattern d span depth) e.hiddenCaptures
        e.captureTransfers := by
  rcases Expansion.of_expand_eq_ok h.expand_eq with
    ⟨hnil, -⟩ | ⟨d', span', depth', hsingle, hspan, hdepth, he'⟩
  · exact absurd h.mem_directives (by simp [hnil])
  · obtain rfl : d = d' := by simpa [hsingle] using h.mem_directives
    obtain rfl : span = span' := Option.some.inj (h.recursed_eq.symm.trans hspan)
    obtain rfl : depth = depth' := Option.some.inj (h.ofLiteral?_eq.symm.trans hdepth)
    exact ⟨hsingle, he'⟩

/-- The directive is the only one. -/
theorem directives_eq (h : Unrolls e mode d span depth e') : directives e.pattern = [d] :=
  h.directives_eq_and_eq_ofRecursion.1

/-- The result is the nest in its surroundings. -/
theorem eq_ofRecursion (h : Unrolls e mode d span depth e') :
    e' = Expansion.ofRecursion (Recursion.around e.pattern d span depth) e.hiddenCaptures
      e.captureTransfers :=
  h.directives_eq_and_eq_ofRecursion.2

end Unrolls

/-- A pattern that is expanded stays as it is, or a directive of it is unrolled. -/
theorem Expansion.eq_or_exists_unrolls {e e' : Expansion} {mode : Mode}
    (h : e.expand mode = .ok e') :
    directives e.pattern = [] ∧ e' = e ∨ ∃ d span depth, Unrolls e mode d span depth e' := by
  rcases of_expand_eq_ok h with hstays | ⟨d, span, depth, hsingle, hspan, hdepth, -⟩
  · exact .inl hstays
  · have hd : d ∈ directives e.pattern := by rw [hsingle]; exact List.mem_cons_self
    exact .inr ⟨d, span, depth, hd, hspan, hdepth, h⟩

/-! ## The texts around the directive -/

/-- Five texts behind each other are cut at the lengths of the first of them. -/
theorem cut_append (b l x r a : Text) :
    (b ++ (l ++ (x ++ (r ++ a)))).takeBytes b.utf8Length = b ∧
      (b ++ (l ++ (x ++ (r ++ a)))).slice ⟨b.utf8Length, b.utf8Length + l.utf8Length⟩ = l ∧
      (b ++ (l ++ (x ++ (r ++ a)))).slice ⟨b.utf8Length + l.utf8Length + x.utf8Length,
        b.utf8Length + l.utf8Length + x.utf8Length + r.utf8Length⟩ = r ∧
      (b ++ (l ++ (x ++ (r ++ a)))).dropBytes
        (b.utf8Length + l.utf8Length + x.utf8Length + r.utf8Length) = a := by
  refine ⟨Text.takeBytes_append _ _, ?_, ?_, ?_⟩
  · have h := Text.slice_append b l (x ++ (r ++ a))
    rwa [List.append_assoc] at h
  · have h := Text.slice_append (b ++ l ++ x) r a
    simpa only [List.append_assoc, Text.utf8Length_append, Nat.add_assoc] using h
  · have h := Text.dropBytes_append (b ++ l ++ x ++ r) a
    simpa only [List.append_assoc, Text.utf8Length_append, Nat.add_assoc] using h

namespace Parts

variable {p : Text} {d : Directive} {span : Span} {before left right after : List Lexeme}
  {x : Lexeme}

/-- The lexemes of the pattern fall apart at the directive. -/
theorem lexemes_eq_directive (h : Parts p d span before left x right after) :
    lexemes p = (before ++ left) ++ x :: (right ++ after) := by
  rw [List.append_assoc]
  exact h.lexemes_eq

/-- The tokens of the parts make up those of the pattern. -/
theorem tokens_eq (h : Parts p d span before left x right after) :
    tokens p = before.map Lexeme.token ++ (left.map Lexeme.token ++ x.token ::
      (right.map Lexeme.token ++ after.map Lexeme.token)) := by
  rw [tokens, h.lexemes_eq]
  simp only [List.map_append, List.map_cons]

/-- The tokens of the parts are legible where they stand. -/
theorem legible (h : Parts p d span before left x right after) :
    Legible 0 (before.map Lexeme.token ++ (left.map Lexeme.token ++ x.token ::
      (right.map Lexeme.token ++ after.map Lexeme.token))) := by
  rw [← h.tokens_eq]
  exact legible_tokensFrom 0 p

/-- The texts of the parts make up the pattern. -/
theorem eq_text (h : Parts p d span before left x right after) :
    p = spell (before.map Lexeme.token) ++ (spell (left.map Lexeme.token) ++
      (x.token.spelling ++
        (spell (right.map Lexeme.token) ++ spell (after.map Lexeme.token)))) := by
  have htext := eq_spell_append h.tokens_eq
  rwa [spell_append, spell_cons, spell_append] at htext

/-- The cuts of the pattern are those between the texts of its parts. -/
theorem texts_eq (h : Parts p d span before left x right after) :
    p.takeBytes span.start = spell (before.map Lexeme.token) ∧
      p.slice ⟨span.start, d.span.start⟩ = spell (left.map Lexeme.token) ∧
      p.slice ⟨d.span.stop, span.stop⟩ = spell (right.map Lexeme.token) ∧
      p.dropBytes span.stop = spell (after.map Lexeme.token) := by
  have hspan := span_eq_of_lexemes_append h.lexemes_eq_directive
  rw [utf8Length_spell_append] at hspan
  have hstop := h.stop_eq
  rw [utf8Length_spell_append, utf8Length_spell_append, List.map_cons, spell_cons,
    Text.utf8Length_append, ← Nat.add_assoc, ← Nat.add_assoc] at hstop
  have hcut := cut_append (spell (before.map Lexeme.token)) (spell (left.map Lexeme.token))
    x.token.spelling (spell (right.map Lexeme.token)) (spell (after.map Lexeme.token))
  rw [← h.eq_text] at hcut
  rw [h.span_eq, hspan, h.start_eq, hstop]
  exact hcut

/-- The recursed text before the directive is the text of its lexemes. -/
theorem slice_left (h : Parts p d span before left x right after) :
    p.slice ⟨span.start, d.span.start⟩ = spell (left.map Lexeme.token) :=
  h.texts_eq.2.1

/-- The recursed text behind the directive is the text of its lexemes. -/
theorem slice_right (h : Parts p d span before left x right after) :
    p.slice ⟨d.span.stop, span.stop⟩ = spell (right.map Lexeme.token) :=
  h.texts_eq.2.2.1

/-- The pattern is taken apart into the texts of its parts. -/
theorem around_eq (h : Parts p d span before left x right after) (depth : MaxDepth) :
    Recursion.around p d span depth =
      ⟨spell (before.map Lexeme.token), spell (left.map Lexeme.token),
        spell (right.map Lexeme.token), spell (after.map Lexeme.token), d.target.scope, depth,
        d.capturesBefore⟩ := by
  obtain ⟨hbefore, hleft, hright, hafter⟩ := h.texts_eq
  rw [Recursion.around, hbefore, hleft, hright, hafter]

/-- The lexemes before the recursed span are those of the first part. -/
theorem lexemesIn_before (h : Parts p d span before left x right after) :
    lexemesIn p ⟨0, span.start⟩ = before := by
  have hsplit : lexemes p = [] ++ (before ++ (left ++ x :: (right ++ after))) := h.lexemes_eq
  rw [h.start_eq]
  exact lexemesIn_eq hsplit

/-- The lexemes behind the recursed span are those of the last part. -/
theorem lexemesIn_after (h : Parts p d span before left x right after) :
    lexemesIn p ⟨span.stop, p.utf8Length⟩ = after := by
  have hsplit : lexemes p = (before ++ (left ++ x :: right)) ++ (after ++ []) := by
    rw [h.lexemes_eq]
    simp
  have hin := lexemesIn_eq hsplit
  have hall : before ++ (left ++ x :: right) ++ after = lexemes p := by
    rw [hsplit, List.append_nil]
  have htext : spell ((lexemes p).map Lexeme.token) = p := spell_tokensFrom 0 p
  rwa [hall, htext, ← h.stop_eq] at hin

/-- The directive starts behind the recursed text before it. -/
theorem start_directive_eq (h : Parts p d span before left x right after) :
    d.span.start = Text.utf8Length (spell ((before ++ left).map Lexeme.token)) := by
  rw [h.span_eq, span_eq_of_lexemes_append h.lexemes_eq_directive]

/-- The directive stops behind its own text. -/
theorem stop_directive_eq (h : Parts p d span before left x right after) :
    d.span.stop = Text.utf8Length (spell ((before ++ left ++ [x]).map Lexeme.token)) := by
  rw [h.span_eq, span_eq_of_lexemes_append h.lexemes_eq_directive,
    utf8Length_spell_append (before ++ left)]
  simp

/-- The recursed lexemes before the directive are those of the second part. -/
theorem lexemesIn_left (h : Parts p d span before left x right after) :
    lexemesIn p ⟨span.start, d.span.start⟩ = left := by
  rw [h.start_eq, h.start_directive_eq]
  exact lexemesIn_eq h.lexemes_eq

/-- The recursed lexemes behind the directive are those of the third part. -/
theorem lexemesIn_right (h : Parts p d span before left x right after) :
    lexemesIn p ⟨d.span.stop, span.stop⟩ = right := by
  have hsplit : lexemes p = (before ++ left ++ [x]) ++ (right ++ after) := by
    rw [h.lexemes_eq]
    simp
  have hin := lexemesIn_eq hsplit
  have hall : before ++ left ++ [x] ++ right = before ++ (left ++ x :: right) := by simp
  rwa [hall, ← h.stop_directive_eq, ← h.stop_eq] at hin

/-- The recursed text is the text of the second part, the directive and the third part. -/
theorem slice_recursed (h : Parts p d span before left x right after) :
    p.slice span = spell ((left ++ x :: right).map Lexeme.token) := by
  have hcut := Text.slice_append (spell (before.map Lexeme.token))
    (spell ((left ++ x :: right).map Lexeme.token)) (spell (after.map Lexeme.token))
  have htext : spell (before.map Lexeme.token) ++ spell ((left ++ x :: right).map Lexeme.token) ++
      spell (after.map Lexeme.token) = p := by
    conv_rhs => rw [h.eq_text]
    simp
  rw [htext, ← utf8Length_spell_append, ← h.start_eq, ← h.stop_eq] at hcut
  exact hcut

/-- The directive leaves no class open. -/
theorem classDepth_directive (h : Parts p d span before left x right after) :
    x.token.classDepthAfter 0 = 0 := by
  rcases Token.eq_of_isRecursion h.isRecursion with ⟨depth, hx⟩ | ⟨target, depth, hx⟩ <;>
    · rw [hx]
      rfl

/-- What stands before the directive is legible on its own. -/
theorem legible_before_left (h : Parts p d span before left x right after) :
    Legible 0 (before.map Lexeme.token ++ left.map Lexeme.token) := by
  have hlegible := h.legible
  rw [← List.append_assoc] at hlegible
  exact hlegible.left_of_append

/-- The recursed text before the directive is legible on its own. -/
theorem legible_left (h : Parts p d span before left x right after) :
    Legible 0 (left.map Lexeme.token) := by
  have hlegible := h.legible_before_left.right_of_append
  rwa [h.classDepth_before] at hlegible

/-- What stands behind the directive is legible on its own. -/
theorem legible_right_after (h : Parts p d span before left x right after) :
    Legible 0 (right.map Lexeme.token ++ after.map Lexeme.token) := by
  have hlegible := h.legible.right_of_append.right_of_append.2
  rwa [h.classDepth_before, h.classDepth_left, h.classDepth_directive] at hlegible

/-- The recursed text before the directive is read as the lexemes there. -/
theorem tokens_left (h : Parts p d span before left x right after) :
    tokens (spell (left.map Lexeme.token)) = left.map Lexeme.token :=
  tokensFrom_spell h.legible_left

/-- The recursed text is read as the lexemes there. -/
theorem tokens_recursed (h : Parts p d span before left x right after) :
    tokens (p.slice span) = left.map Lexeme.token ++ x.token :: right.map Lexeme.token := by
  have hlegible := h.legible.right_of_append
  rw [h.classDepth_before, ← List.cons_append, ← List.append_assoc] at hlegible
  rw [h.slice_recursed, List.map_append, List.map_cons]
  exact tokensFrom_spell hlegible.left_of_append

/-- The recursed text behind the directive is read as the lexemes there. -/
theorem tokens_right (h : Parts p d span before left x right after) :
    tokens (spell (right.map Lexeme.token)) = right.map Lexeme.token :=
  tokensFrom_spell h.legible_right_after.left_of_append

end Parts

end RegexUnroll
