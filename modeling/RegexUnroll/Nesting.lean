import RegexUnroll.Directive
import RegexUnroll.Substitution

/-!
# Nested copies of a text

Unrolling a recursion nests copies of the text around a directive: with two copies, `a` before and
`b` after the directive become `a(?:a(?:a(?:)b)b)b`. The empty group in the middle keeps apart what
it stands between, and a quantifier that followed the directive applies to a group.

The text itself is the nest of depth one, and its copies have the depths from two on. In the copy of
depth `d` a group `n` is called `n_$d`, and so are the backreferences to it, so that a backreference
in a copy means the group of the same copy.
-/

namespace RegexUnroll

/-! ## Names in a copy -/

/-- The name that a group has in the copy of a depth. -/
def depthName (name : Text) (depth : Nat) : Text := name ++ ['_', '$'] ++ Numeral.render depth

/-- The names that a pattern gives to groups, in order. -/
def groupNames (p : Text) : List Text := (topLevel p).filterMap fun x => x.token.openedName?

/-- The groups whose backreferences follow a copy. -/
inductive CopiedNames where
  /-- All groups. -/
  | all
  /-- The groups with these names. -/
  | only (names : List Text)
  deriving DecidableEq, Repr

/-- Whether backreferences to a name follow a copy. -/
def CopiedNames.contains (names : CopiedNames) (name : Text) : Bool :=
  match names with
  | all => true
  | only names => names.contains name

/-- A token as it stands in the copy of a depth. -/
def Token.atDepth (names : CopiedNames) (depth : Nat) : Token → Token
  | namedCaptureOpen name => namedCaptureOpen (depthName name depth)
  | namedBackref name =>
    if names.contains name then namedBackref (depthName name depth) else namedBackref name
  | t => t

/-- A text as it stands in the copy of a depth. -/
def atDepth (names : CopiedNames) (depth : Nat) (s : Text) : Text :=
  substitute (fun t => some (t.atDepth names depth).spelling) s

/-! ## The nest -/

/-- A text on both sides of a directive, with what is needed to nest copies of it. -/
structure Nesting where
  /-- The text before the directive. -/
  left : Text
  /-- The text after the directive. -/
  right : Text
  /-- The number of copies. -/
  copies : Nat
  /-- What the directive recurses into. -/
  scope : Scope
  deriving DecidableEq, Repr

/-- A piece of text that is copied, and the depth of the copy. -/
structure Copy where
  /-- The text before copying. -/
  piece : Text
  /-- The depth of the copy. -/
  depth : Nat
  deriving DecidableEq, Repr

namespace Nesting

/-- The groups whose backreferences follow a copy. Only a text that is not the whole pattern can
refer to a group outside it. -/
def names (n : Nesting) : CopiedNames :=
  match n.scope with
  | .global => .all
  | .subpattern => .only (groupNames n.left ++ groupNames n.right)

/-- The depths of the copies, in ascending order. -/
def depths (n : Nesting) : List Nat := List.range' 2 n.copies

/-- The copies before the middle of the nest, each of which opens a group. -/
def leftCopies (n : Nesting) : List Copy :=
  n.depths.map fun depth => ⟨['(', '?', ':'] ++ n.left, depth⟩

/-- The copies after the middle of the nest, each of which closes a group. -/
def rightCopies (n : Nesting) : List Copy :=
  n.depths.reverse.map fun depth => ⟨n.right ++ [')'], depth⟩

/-- The text of copies. -/
def render (n : Nesting) (copies : List Copy) : Text :=
  let names := n.names
  copies.flatMap fun copy => atDepth names copy.depth copy.piece

/-- The text of the nest. -/
def text (n : Nesting) : Text :=
  n.left ++ n.render n.leftCopies ++ ['(', '?', ':', ')'] ++ n.render n.rightCopies ++ n.right

/-- The number of capturing groups that the copies bring. -/
def newCaptures (n : Nesting) : Nat :=
  (n.leftCopies ++ n.rightCopies).foldl (fun total copy => total + countCaptures copy.piece) 0

/-- Copies of one piece bring its capturing groups as often as there are copies. -/
theorem foldl_countCaptures (piece : Text) (depths : List Nat) (total : Nat) :
    depths.foldl (fun total _ => total + countCaptures piece) total =
      total + depths.length * countCaptures piece := by
  induction depths generalizing total with
  | nil => simp
  | cons depth depths ih => rw [List.foldl_cons, ih, List.length_cons, Nat.succ_mul]; omega

/-- The copies on each side bring the capturing groups of their piece, once for each copy. -/
theorem newCaptures_eq (n : Nesting) :
    n.newCaptures = n.copies *
      (countCaptures (['(', '?', ':'] ++ n.left) + countCaptures (n.right ++ [')'])) := by
  rw [newCaptures, List.foldl_append, leftCopies, rightCopies, List.foldl_map, List.foldl_map,
    foldl_countCaptures, foldl_countCaptures, List.length_reverse, depths, List.length_range']
  rw [Nat.zero_add, Nat.mul_add]

end Nesting

end RegexUnroll
