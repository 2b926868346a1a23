import RegexUnroll.Capture.Hidden
import RegexUnroll.Nesting

/-!
# Writing a nest in one pass

A nest can be written while its new captures are hidden. `Nesting.write` writes the copies one after
the other behind the text on the left, and at each opening of a capture it gives the capture the
next number and moves up the hidden captures from there on. The hidden captures are the state of the
computation, and go from each token to the next one.
-/

namespace RegexUnroll

/-- The text of a token in the copy of a depth, none where the token is kept as written. The capture
that it opens is hidden. -/
def Token.copyM (names : CopiedNames) (depth : Nat) : Token → StateM HiddenCaptures (Option Text)
  | namedCaptureOpen name => do
    modify HiddenCaptures.insertNext
    pure (some (namedCaptureOpen (depthName name depth)).spelling)
  | captureOpen => do
    modify HiddenCaptures.insertNext
    pure none
  | namedBackref name =>
    pure (if names.contains name then some (namedBackref (depthName name depth)).spelling else none)
  | _ => pure none

/-- In which order the depths of copies are gone through. -/
inductive Direction where
  /-- Towards the middle of the nest. -/
  | forward
  /-- Away from the middle of the nest. -/
  | backward
  deriving DecidableEq, Repr

/-- The depth of the copy with index `i` of so many copies. -/
def Direction.depth (copies i : Nat) : Direction → Nat
  | forward => i + 2
  | backward => copies - i + 1

/-- Copies of a piece written behind a text. -/
def writeCopies (out piece : Text) (direction : Direction) (copies : Nat) (names : CopiedNames) :
    StateM HiddenCaptures Text :=
  (List.range copies).foldlM (fun out i => do
    let copy ← substituteM (Token.copyM names (direction.depth copies i)) piece
    pure (out ++ copy)) out

/-- The nest, written from its front to its end. -/
def Nesting.write (n : Nesting) : StateM HiddenCaptures Text := do
  let out ← writeCopies n.left (['(', '?', ':'] ++ n.left) .forward n.copies n.names
  let out ← writeCopies (out ++ ['(', '?', ':', ')']) (n.right ++ [')']) .backward n.copies n.names
  pure (out ++ n.right)

end RegexUnroll
