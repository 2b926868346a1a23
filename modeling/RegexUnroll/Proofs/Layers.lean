import RegexUnroll.Proofs.Balance
import RegexUnroll.Proofs.Nest

/-!
# The layers of a nest

A nest is made of layers: around its core stand the copies of the greatest depth, one on each side,
around these the copies of the next smaller depth, and so on (`layers`, `layers_eq`). On tokens the
core is the empty group, and each layer is a group with a copy of the tokens on the left behind its
opening and a copy of the tokens on the right before its closing delimiter (`nestLayers`).

A copy on the left may leave groups open that only the copy on the right closes, so neither side is
balanced by itself. But where both sides together are balanced, so is a copy around whatever is
balanced (`Balanced.within_copy`), and by induction from the core outwards all layers are
(`balanced_nestLayers`).
-/

namespace RegexUnroll

/-! ## Layers -/

section Layers

variable {α : Type} (front back : Nat → List α) (core : List α)

/-- A core with layers around it, the first one outermost. -/
def layers : List Nat → List α
  | [] => core
  | d :: ds => front d ++ layers ds ++ back d

/-- The front sides of the layers stand before the core in their order, and the back sides behind it
in the other order. -/
theorem layers_eq (ds : List Nat) :
    layers front back core ds = ds.flatMap front ++ core ++ ds.reverse.flatMap back := by
  induction ds with
  | nil => simp [layers]
  | cons d ds ih => simp [layers, ih, List.flatMap_append]

/-- Outer layers are put around the inner ones. -/
theorem layers_append (ds es : List Nat) :
    layers front back core (ds ++ es) =
      ds.flatMap front ++ layers front back core es ++ ds.reverse.flatMap back := by
  simp [layers_eq, List.flatMap_append]

end Layers

/-- The tokens of a nest stand in layers around the empty group. -/
def nestLayers (names : CopiedNames) (left right : List Token) (depths : List Nat) : List Token :=
  layers (fun d => .groupOpen :: .char ':' :: left.map (Token.atDepth names d))
    (fun d => right.map (Token.atDepth names d) ++ [.groupClose])
    [.groupOpen, .char ':', .groupClose] depths

/-- The nest of tokens has its layers between the tokens that are not copied. -/
theorem weave_eq_nestLayers (names : CopiedNames) (depths : List Nat) (left right : List Token) :
    weave id (Token.atDepth names) depths left right =
      left ++ nestLayers names left right depths ++ right := by
  rw [nestLayers, layers_eq, weave]
  simp only [id, List.cons_append, List.nil_append, List.append_assoc]

/-! ## Balance of the copies -/

namespace Token

/-- A tagged token opens a group where the token without the tag does. -/
theorem Tagged.isGroupOpen_eq {t t' : Token} (h : Tagged t t') :
    t'.isGroupOpen = t.isGroupOpen := by
  cases h <;> rfl

/-- Only a closing delimiter is tagged into one. -/
theorem Tagged.eq_groupClose_iff {t t' : Token} (h : Tagged t t') :
    t' = groupClose ↔ t = groupClose := by
  cases h <;> simp

end Token

section Tagged

variable {f : Token → Token} (hf : ∀ t, Token.Tagged t (f t))
include hf

/-- Tokens with tags are balanced as they are without. -/
theorem Balanced.map_tagged {ts : List Token} (h : Balanced ts) : Balanced (ts.map f) := by
  induction h with
  | nil => exact .nil
  | @cons t _ hopen hclose _ ih =>
    refine .cons ?_ ?_ ih
    · rwa [(hf t).isGroupOpen_eq]
    · rwa [ne_eq, (hf t).eq_groupClose_iff]
  | @group o ts us hopen _ _ iht ihu =>
    have hclose : f .groupClose = .groupClose := (hf .groupClose).eq_groupClose_iff.2 rfl
    rw [List.map_cons, List.map_append, List.map_cons, hclose]
    exact .group (by rwa [(hf o).isGroupOpen_eq]) iht ihu

/-- Tokens with tags leave the same classes open as they do without. -/
theorem classDepthAfter_map_tagged (depth : Nat) (ts : List Token) :
    classDepthAfter depth (ts.map f) = classDepthAfter depth ts := by
  induction ts generalizing depth with
  | nil => rfl
  | cons t ts ih =>
    rw [List.map_cons, classDepthAfter_cons, (hf t).classDepthAfter_eq, ih, classDepthAfter_cons]

end Tagged

section NestLayers

variable {left right : List Token}

/-- Balanced tokens within a copy are balanced with the copy and a colon around them. -/
theorem Balanced.within_copy {ms : List Token} (hms : Balanced ms) (h : Balanced (left ++ right))
    (names : CopiedNames) (d : Nat) :
    Balanced (.char ':' :: (left.map (Token.atDepth names d) ++
      (ms ++ right.map (Token.atDepth names d)))) := by
  have hcopy := h.map_tagged (Token.tagged_atDepth names d)
  rw [List.map_append] at hcopy
  exact .cons (by simp [Token.isGroupOpen]) (by simp) ((balanced_append_iff hms).2 hcopy)

/-- Where the two sides of a directive are balanced together, the layers of the nest are balanced:
each of them is a group around the deeper ones. -/
theorem balanced_nestLayers (h : Balanced (left ++ right)) (names : CopiedNames)
    (depths : List Nat) : Balanced (nestLayers names left right depths) := by
  induction depths with
  | nil =>
    have hcolon : Balanced [.char ':'] := .cons (by simp [Token.isGroupOpen]) (by simp) .nil
    exact .group rfl hcolon .nil
  | cons d ds ih =>
    have hlayer := Balanced.group (o := .groupOpen) rfl (ih.within_copy h names d) .nil
    rw [nestLayers, layers, ← nestLayers]
    simpa only [List.cons_append, List.append_assoc] using hlayer

/-- Lists of tokens behind each other leave no class open if none of them does. -/
theorem classDepthAfter_flatMap {g : Nat → List Token} (h : ∀ d, classDepthAfter 0 (g d) = 0)
    (ds : List Nat) : classDepthAfter 0 (ds.flatMap g) = 0 := by
  induction ds with
  | nil => rfl
  | cons d ds ih => rw [List.flatMap_cons, classDepthAfter_append, h, ih]

/-- A copy on the left leaves no class open, where the text on the left does not. -/
theorem classDepthAfter_front (h : classDepthAfter 0 left = 0) (names : CopiedNames) (d : Nat) :
    classDepthAfter 0 (.groupOpen :: .char ':' :: left.map (Token.atDepth names d)) = 0 :=
  (classDepthAfter_map_tagged (Token.tagged_atDepth names d) 0 left).trans h

/-- A copy on the right leaves no class open, where the text on the right does not. -/
theorem classDepthAfter_back (h : classDepthAfter 0 right = 0) (names : CopiedNames) (d : Nat) :
    classDepthAfter 0 (right.map (Token.atDepth names d) ++ [.groupClose]) = 0 := by
  rw [classDepthAfter_append, classDepthAfter_map_tagged (Token.tagged_atDepth names d), h]
  rfl

/-- The layers of the nest leave no class open, where the two sides of the directive do not. -/
theorem classDepthAfter_nestLayers (hleft : classDepthAfter 0 left = 0)
    (hright : classDepthAfter 0 right = 0) (names : CopiedNames) (depths : List Nat) :
    classDepthAfter 0 (nestLayers names left right depths) = 0 := by
  have hfront := classDepthAfter_flatMap (classDepthAfter_front hleft names) depths
  have hback := classDepthAfter_flatMap (classDepthAfter_back hright names) depths.reverse
  have hcore : classDepthAfter 0 [.groupOpen, .char ':', .groupClose] = 0 := rfl
  rw [nestLayers, layers_eq, classDepthAfter_append, classDepthAfter_append, hfront, hcore, hback]

end NestLayers

end RegexUnroll
