import RegexUnroll.Proofs.Completeness

/-!
# The tokens of a nest

`weave` is the nest of two lists: `left` and `right` around an empty group, with copies of both in
between, the copies of `left` in the order of their depths and those of `right` the other way round.
On tokens it says what a nest of texts is read as (`Nesting.tokens_append_text_append`,
`Nesting.append_copyTokens_append`), and on anything that goes with tokens it says where that stands
in the nest.

Both depend on the joints. A copy of `left` is followed by a group opening, which no opener goes on
with; a copy of `right` ends in the `)` that closes the copy, which no opener goes on behind.
-/

namespace RegexUnroll

/-- The nest of `left` and `right`, where `copy` makes the copy of a depth and `inserted` what goes
with a token of the groups around the copies. -/
def weave {α : Type} (inserted : Token → α) (copy : Nat → α → α) (depths : List Nat)
    (left right : List α) : List α :=
  left ++
    depths.flatMap (fun d => [inserted .groupOpen, inserted (.char ':')] ++ left.map (copy d)) ++
    [inserted .groupOpen, inserted (.char ':'), inserted .groupClose] ++
    depths.reverse.flatMap (fun d => right.map (copy d) ++ [inserted .groupClose]) ++ right

/-- What goes with tokens is nested as the tokens are. -/
theorem map_weave {α β : Type} (g : α → β) {inserted : Token → α} {inserted' : Token → β}
    {copy : Nat → α → α} {copy' : Nat → β → β} (hinserted : ∀ t, g (inserted t) = inserted' t)
    (hcopy : ∀ d x, g (copy d x) = copy' d (g x)) (depths : List Nat) (left right : List α) :
    (weave inserted copy depths left right).map g =
      weave inserted' copy' depths (left.map g) (right.map g) := by
  have hmap : ∀ d (xs : List α), (xs.map (copy d)).map g = (xs.map g).map (copy' d) := by
    intro d xs
    rw [List.map_map, List.map_map]
    exact List.map_congr_left fun x _ => hcopy d x
  simp only [weave, List.map_append, List.map_flatMap, List.map_cons, List.map_nil, hmap,
    hinserted]

/-! ## Copies of a text -/

/-- Lists of tokens one behind the other spell their texts one behind the other. -/
theorem spell_flatMap {α : Type} (g : α → List Token) (xs : List α) :
    spell (xs.flatMap g) = xs.flatMap fun x => spell (g x) :=
  List.flatMap_assoc

/-- The copy of a text spells the copies of its tokens. -/
theorem atDepth_eq_spell (names : CopiedNames) (depth : Nat) (s : Text) :
    atDepth names depth s = spell ((tokens s).map fun t => t.atDepth names depth) := by
  rw [atDepth, substitute_eq_flatMap, spell, tokens, List.map_map, List.flatMap_map]
  refine List.flatMap_congr fun x hx => ?_
  rw [Lexeme.replace, Function.comp_apply]
  by_cases htop : x.isTopLevel
  · rw [if_pos htop, Option.getD_some]
  · -- No name is read inside a class.
    obtain ⟨rest, hrest⟩ := readsInClass_of_not_isTopLevel hx htop
    rw [if_neg htop]
    generalize x.token = t at hrest
    cases t <;> first | rfl | exact hrest.elim

/-- A group opening that a colon follows is read before every text. -/
theorem Legible.groupOpen_colon {ts : List Token} (h : Legible 0 ts) :
    Legible 0 (.groupOpen :: .char ':' :: ts) := by
  refine ⟨⟨?_, ?_⟩, .inl (by decide), h⟩
  · exact Token.namedCaptureOpen?_eq_none_of_head? (by simp [Token.spelling])
  · exact Token.globalRecursion?_eq_none_of_head? (by simp [Token.spelling])

/-- The tokens of a text behind `(?:` are its own, outside classes. -/
theorem tokens_groupOpen_colon_append (s : Text) :
    tokens (['(', '?', ':'] ++ s) = .groupOpen :: .char ':' :: tokens s := by
  refine tokensFrom_eq_iff.2 ⟨?_, (legible_tokensFrom 0 s).groupOpen_colon⟩
  rw [tokens_eq_tokensFrom, spell_cons, spell_cons, spell_tokensFrom]
  rfl

/-- A text behind `(?:` opens the captures that it opens by itself. -/
theorem countCaptures_groupOpen_colon_append (s : Text) :
    countCaptures (['(', '?', ':'] ++ s) = countCaptures s := by
  rw [countCaptures_eq, tokens_groupOpen_colon_append, countCaptures_eq]
  rfl

/-- The tokens of a complete text with a `)` behind it are its own and a closing delimiter. -/
theorem Complete.tokens_append_paren {s : Text} (h : Complete s) :
    tokens (s ++ [')']) = tokens s ++ [.groupClose] := by
  refine tokensFrom_eq_iff.2 ⟨?_, ?_⟩
  · rw [spell_append, tokens_eq_tokensFrom, spell_tokensFrom]
    rfl
  · exact (legible_tokensFrom 0 s).append_groupClose h.settled h.classDepth

/-! ## The copies behind each other -/

/-- Copies of tokens whose text ends in a `)` are legible behind each other. -/
theorem legible_rightCopies (names : CopiedNames) {rs tail : List Token} (hrs : Legible 0 rs)
    (hsettled : Settled 0 rs) (hdepth : classDepthAfter 0 rs = 0)
    (hlast : (spell rs).getLast? = some ')') (htail : Legible 0 tail) (depths : List Nat) :
    Legible 0 (depths.flatMap (fun d => rs.map fun t => t.atDepth names d) ++ tail) := by
  -- A copy is put in front of the later ones, and its own `)` keeps it apart from them.
  induction depths with
  | nil => exact htail
  | cons d depths ih =>
    rw [List.flatMap_cons, List.append_assoc]
    exact hrs.map_append (Token.tagged_atDepth names d) hsettled (.inr hlast) (by rwa [hdepth])

/-- A text that begins with a parenthesis goes on with no opener. -/
theorem joinsTo_of_head? {s u : Text} (h : u.head? = some '(') : JoinsTo s u := by
  refine .inl fun c hc => ?_
  obtain rfl : '(' = c := Option.some.inj (h.symm.trans hc)
  decide

/-- Copies of tokens, each behind a group opening, are legible behind each other. -/
theorem legible_leftCopies (names : CopiedNames) {ls tail : List Token} (hls : Legible 0 ls)
    (hsettled : Settled 0 ls) (hdepth : classDepthAfter 0 ls = 0) (htail : Legible 0 tail)
    (hhead : (spell tail).head? = some '(') (depths : List Nat) :
    Legible 0 (depths.flatMap
        (fun d => [.groupOpen, .char ':'] ++ ls.map fun t => t.atDepth names d) ++ tail) ∧
      (spell (depths.flatMap
        (fun d => [.groupOpen, .char ':'] ++ ls.map fun t => t.atDepth names d) ++ tail)).head? =
        some '(' := by
  -- A copy is put in front of the later ones, whose text begins with a group opening.
  induction depths with
  | nil => exact ⟨htail, hhead⟩
  | cons d depths ih =>
    obtain ⟨hlegible, hhead'⟩ := ih
    rw [List.flatMap_cons, List.append_assoc, List.append_assoc]
    have hcopy := hls.map_append (Token.tagged_atDepth names d) hsettled
      (joinsTo_of_head? hhead') (by rwa [hdepth])
    exact ⟨hcopy.groupOpen_colon, rfl⟩

/-! ## The nest as a whole -/

namespace Nesting

/-- The tokens of the copies in a nest, and of the empty group between them. -/
def copyTokens (n : Nesting) : List Token :=
  n.depths.flatMap (fun d =>
      [.groupOpen, .char ':'] ++ (tokens n.left).map fun t => t.atDepth n.names d) ++
    [.groupOpen, .char ':', .groupClose] ++
    n.depths.reverse.flatMap fun d => (tokens (n.right ++ [')'])).map fun t => t.atDepth n.names d

/-- Copies before the middle of a nest spell the copies of the tokens there. -/
theorem render_left (n : Nesting) (depths : List Nat) :
    n.render (depths.map fun depth => ⟨['(', '?', ':'] ++ n.left, depth⟩) =
      spell (depths.flatMap fun d =>
        [.groupOpen, .char ':'] ++ (tokens n.left).map fun t => t.atDepth n.names d) := by
  rw [spell_flatMap, render, List.flatMap_map]
  refine List.flatMap_congr fun d _ => ?_
  rw [atDepth_eq_spell, tokens_groupOpen_colon_append]
  rfl

/-- Copies after the middle of a nest spell the copies of the tokens there. -/
theorem render_right (n : Nesting) (depths : List Nat) :
    n.render (depths.map fun depth => ⟨n.right ++ [')'], depth⟩) =
      spell (depths.flatMap fun d =>
        (tokens (n.right ++ [')'])).map fun t => t.atDepth n.names d) := by
  rw [spell_flatMap, render, List.flatMap_map]
  exact List.flatMap_congr fun d _ => atDepth_eq_spell ..

/-- The copies stand between the two texts. -/
theorem text_eq (n : Nesting) : n.text = n.left ++ spell n.copyTokens ++ n.right := by
  have hempty : spell [.groupOpen, .char ':', .groupClose] = ['(', '?', ':', ')'] := rfl
  rw [text, leftCopies, rightCopies, render_left, render_right, copyTokens, spell_append,
    spell_append, hempty]
  simp only [List.append_assoc]

/-- Behind a complete text the copies of its tokens end in a closing delimiter each, and the whole
is a nest of the tokens on both sides. -/
theorem append_copyTokens_append (n : Nesting) (h : Complete n.right) :
    tokens n.left ++ n.copyTokens ++ tokens n.right =
      weave id (Token.atDepth n.names) n.depths (tokens n.left) (tokens n.right) := by
  have hcopies : (n.depths.reverse.flatMap fun d =>
      (tokens (n.right ++ [')'])).map fun t => t.atDepth n.names d) =
      n.depths.reverse.flatMap fun d =>
        (tokens n.right).map (Token.atDepth n.names d) ++ [.groupClose] := by
    refine List.flatMap_congr fun d _ => ?_
    rw [h.tokens_append_paren, List.map_append]
    rfl
  rw [copyTokens, hcopies, weave]
  simp only [id, List.append_assoc]

/-- The copies are legible before legible tokens, whichever these are. -/
theorem legible_copyTokens_append (n : Nesting) (hleft : Settled 0 (tokens n.left))
    (hdepth : classDepthAfter 0 (tokens n.left) = 0)
    (hright : Settled 0 (tokens (n.right ++ [')'])))
    (hdepth' : classDepthAfter 0 (tokens (n.right ++ [')'])) = 0) {tail : List Token}
    (htail : Legible 0 tail) :
    Legible 0 (n.copyTokens ++ tail) ∧ (spell (n.copyTokens ++ tail)).head? = some '(' := by
  have hlast : (spell (tokens (n.right ++ [')']))).getLast? = some ')' := by
    rw [tokens_eq_tokensFrom, spell_tokensFrom, List.getLast?_concat]
  have hcopies := legible_rightCopies n.names (legible_tokensFrom 0 (n.right ++ [')'])) hright
    hdepth' hlast htail n.depths.reverse
  have hmiddle : Legible 0 ([.groupOpen, .char ':', .groupClose] ++ (n.depths.reverse.flatMap
      (fun d => (tokens (n.right ++ [')'])).map fun t => t.atDepth n.names d) ++ tail)) :=
    Legible.groupOpen_colon ⟨trivial, hcopies⟩
  rw [copyTokens, List.append_assoc, List.append_assoc]
  exact legible_leftCopies n.names (legible_tokensFrom 0 n.left) hleft hdepth hmiddle rfl n.depths

/-- A nest in its surroundings is read as the tokens around the directive with the copies between
them, where what stands before the directive waits for nothing. -/
theorem tokens_append_text_append (n : Nesting) (bs ws : List Token) {rs : List Token}
    (hrs : spell rs = n.right) (hpre : Legible 0 (bs ++ tokens n.left))
    (hsettled : Settled 0 (bs ++ tokens n.left)) (hbs : classDepthAfter 0 bs = 0)
    (hleft : classDepthAfter 0 (tokens n.left) = 0)
    (hright : Settled 0 (tokens (n.right ++ [')'])))
    (hdepth : classDepthAfter 0 (tokens (n.right ++ [')'])) = 0) (hpost : Legible 0 (rs ++ ws)) :
    tokens (spell bs ++ n.text ++ spell ws) =
      bs ++ tokens n.left ++ (n.copyTokens ++ (rs ++ ws)) := by
  have hsettled' : Settled 0 (tokens n.left) := by
    have h := hsettled.right_of_append
    rwa [hbs] at h
  obtain ⟨hlegible, hhead⟩ := n.legible_copyTokens_append hsettled' hleft hright hdepth hpost
  -- The tokens spell the text, and they are legible where they stand.
  refine tokensFrom_eq_iff.2 ⟨?_, ?_⟩
  · have hspell : spell (tokens n.left) = n.left := spell_tokensFrom 0 n.left
    rw [n.text_eq, ← hrs]
    simp only [spell_append, hspell, List.append_assoc]
  · refine hpre.append hsettled (joinsTo_of_head? hhead) ?_
    rw [classDepthAfter_append, hbs, hleft]
    exact hlegible

end Nesting

end RegexUnroll
