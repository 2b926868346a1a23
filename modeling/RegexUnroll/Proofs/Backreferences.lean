import RegexUnroll.Proofs.Names

/-!
# Backreferences by name in the copies

In the copy of a depth a reference by name follows its group: `\k<n>` reads `\k<n_$d>` there, the
copies of that depth open a group of that name, and those of other depths do not
(`References.opens`, `References.not_opens`). The copies on the right stand in the reverse order of
those on the left, so this is what binds a reference on the right to the copy of the same depth on
the left. A reference to a group outside of both texts is left alone where there can be one.

`Nesting.tokens_text` finds the copies in the nest, and `Nesting.opens_iff` the groups that they
open; `Nesting.followsCopies` says both of the references in complete texts.
-/

namespace RegexUnroll

namespace Nesting

/-- Complete texts are read in their nest as they are by themselves, and so are the copies. -/
theorem tokens_text (n : Nesting) (hleft : Complete n.left) (hright : Complete n.right) :
    tokens n.text =
      weave id (Token.atDepth n.names) n.depths (tokens n.left) (tokens n.right) := by
  have hspell : spell (tokens n.right) = n.right := spell_tokensFrom 0 n.right
  obtain ⟨hreads, hsettled⟩ := hright.toSealed.exists_settled
  have hnest := n.tokens_append_text_append [] [] hspell (legible_tokensFrom 0 n.left)
    hleft.settled rfl hleft.classDepth hsettled hreads.classDepthAfter_eq_zero
    (by rw [List.append_nil]; exact legible_tokensFrom 0 n.right)
  rw [spell_nil, List.nil_append, List.append_nil, List.append_nil, List.nil_append] at hnest
  rw [hnest, ← n.append_copyTokens_append hright, List.append_assoc]

/-- The names of the groups on both sides of the directive. -/
def groupNames (n : Nesting) : List Text :=
  RegexUnroll.groupNames n.left ++ RegexUnroll.groupNames n.right

/-- Whether the copies of a depth open a group with a name, where `copy` makes the copies. -/
def Opens (n : Nesting) (copy : Nat → Token → Token) (depth : Nat) (name : Text) : Prop :=
  ∃ t ∈ tokens n.left ++ tokens n.right, copy depth t = .namedCaptureOpen name

/-- The copies of a depth open the groups of the two texts under their tagged names. -/
theorem opens_iff {n : Nesting} {names : CopiedNames} {depth : Nat} {s : Text} :
    n.Opens (Token.atDepth names) depth s ↔ ∃ name ∈ n.groupNames, depthName name depth = s := by
  have hname : ∀ (t : Token) (name : Text),
      t.openedName? = some name ↔ t = .namedCaptureOpen name := by
    intro t name
    cases t <;> simp [Token.openedName?]
  have hmem : ∀ name, name ∈ n.groupNames ↔
      ∃ t ∈ tokens n.left ++ tokens n.right, t.openedName? = some name := by
    intro name
    rw [groupNames, groupNames_eq, groupNames_eq, ← List.filterMap_append, List.mem_filterMap]
  constructor
  · rintro ⟨t, ht, hcopy⟩
    rw [← hname, Token.openedName?_atDepth, Option.map_eq_some_iff] at hcopy
    obtain ⟨name, hopened, hs⟩ := hcopy
    exact ⟨name, (hmem name).2 ⟨t, ht, hopened⟩, hs⟩
  · rintro ⟨name, hin, rfl⟩
    obtain ⟨t, ht, hopened⟩ := (hmem name).1 hin
    refine ⟨t, ht, ?_⟩
    rw [← hname, Token.openedName?_atDepth, hopened, Option.map_some]

end Nesting

/-- What becomes of a reference to the group `name` in the copies of a depth, where `copy` makes the
copies. -/
structure References (n : Nesting) (copy : Nat → Token → Token) (depth : Nat) (name : Text) :
    Prop where
  /-- A reference to a group of the texts has the name tagged with the depth. -/
  copy_eq : name ∈ n.groupNames →
    copy depth (.namedBackref name) = .namedBackref (depthName name depth)
  /-- The copies of that depth open a group with the tagged name. -/
  opens : name ∈ n.groupNames → n.Opens copy depth (depthName name depth)
  /-- The copies of other depths do not. -/
  not_opens : name ∈ n.groupNames → ∀ depth', depth' ≠ depth →
    ¬n.Opens copy depth' (depthName name depth)
  /-- Only this name has the tagged name, and only with this depth. -/
  eq_of_depthName_eq : ∀ name' depth', depthName name' depth' = depthName name depth →
    name' = name ∧ depth' = depth
  /-- A reference to no group of the texts may be to one outside, and keeps its name. -/
  copy_eq_of_subpattern : name ∉ n.groupNames → n.scope = .subpattern →
    copy depth (.namedBackref name) = .namedBackref name
  /-- Where the texts are all of the pattern, it has the name tagged with the depth, and no copy
  opens a group with the tagged name. -/
  copy_eq_of_global : name ∉ n.groupNames → n.scope = .global →
    copy depth (.namedBackref name) = .namedBackref (depthName name depth) ∧
      ∀ depth', ¬n.Opens copy depth' (depthName name depth)

/-- All references follow the copies of the whole pattern, and those to groups of the texts follow
the copies of a group. -/
theorem Nesting.contains_names_iff (n : Nesting) (name : Text) :
    n.names.contains name ↔ n.scope = .global ∨ name ∈ n.groupNames := by
  rw [names]
  cases n.scope <;> simp [CopiedNames.contains, groupNames]

/-- The references to a name follow the copies. -/
theorem Nesting.references (n : Nesting) (depth : Nat) (name : Text) :
    References n (Token.atDepth n.names) depth name := by
  have htagged : n.scope = .global ∨ name ∈ n.groupNames →
      (Token.namedBackref name).atDepth n.names depth = .namedBackref (depthName name depth) :=
    fun h => if_pos ((n.contains_names_iff name).2 h)
  refine ⟨fun hmem => htagged (.inr hmem), fun hmem => opens_iff.2 ⟨name, hmem, rfl⟩, ?_,
    fun _ _ => depthName_inj, fun hmem hscope => ?_, fun hmem hscope => ⟨htagged (.inl hscope), ?_⟩⟩
  · rintro - depth' hne hopens
    obtain ⟨name', -, h⟩ := opens_iff.1 hopens
    exact hne (depthName_inj h).2
  · have houtside : ¬n.names.contains name := by simp [n.contains_names_iff, hmem, hscope]
    exact if_neg houtside
  · intro depth' hopens
    obtain ⟨name', hmem', h⟩ := opens_iff.1 hopens
    obtain ⟨rfl, -⟩ := depthName_inj h
    exact hmem hmem'

/-- Whether the nest of two texts is read as these and their copies, made by `copy`, and the
references by name in the texts follow the copies. -/
structure FollowsCopies (n : Nesting) (copy : Nat → Token → Token) : Prop where
  /-- The nest is read as the two texts around their copies. -/
  tokens_text : tokens n.text =
    weave id copy (List.range' 2 n.copies) (tokens n.left) (tokens n.right)
  /-- Every reference by name follows the copies. -/
  references : ∀ depth ∈ List.range' 2 n.copies, ∀ x ∈ topLevel n.left ++ topLevel n.right,
    ∀ name, x.token = .namedBackref name → References n copy depth name

/-- In the nest of complete texts the references by name follow the copies. -/
theorem Nesting.followsCopies (n : Nesting) (hleft : Complete n.left) (hright : Complete n.right) :
    FollowsCopies n (Token.atDepth n.names) :=
  ⟨n.tokens_text hleft hright, fun depth _ _ _ name _ => n.references depth name⟩

/-- A reference on each side to a group on the other one, and one to a group outside; one of the
groups is called as a copy of another is going to be called. -/
theorem Nesting.followsCopies_across_sides :
    ∃ n : Nesting, n.left = "(?<a>x)\\k<b>\\k<o>".toList ∧
      n.right = "(?<a_$2>y)\\k<a>(?<b>z)".toList ∧ n.scope = .subpattern ∧
      n.text = ("(?<a>x)\\k<b>\\k<o>(?:(?<a_$2>x)\\k<b_$2>\\k<o>(?:(?<a_$3>x)\\k<b_$3>\\k<o>" ++
        "(?:)(?<a_$2_$3>y)\\k<a_$3>(?<b_$3>z))(?<a_$2_$2>y)\\k<a_$2>(?<b_$2>z))" ++
        "(?<a_$2>y)\\k<a>(?<b>z)").toList ∧
      FollowsCopies n (Token.atDepth n.names) := by
  let n : Nesting :=
    ⟨"(?<a>x)\\k<b>\\k<o>".toList, "(?<a_$2>y)\\k<a>(?<b>z)".toList, 2, .subpattern⟩
  have hleft : Complete n.left := by decide +kernel
  have hright : Complete n.right := by decide +kernel
  exact ⟨n, rfl, rfl, rfl, by decide +kernel, n.followsCopies hleft hright⟩

end RegexUnroll
