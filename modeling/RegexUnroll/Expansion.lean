import RegexUnroll.Capture.Transfers
import RegexUnroll.Nesting.Write
import RegexUnroll.Recursion

/-!
# Expanding the recursion of a pattern

`expand` writes out the recursion of a pattern as nested copies, and carries along what is known
about the captures of the pattern: which of them are hidden, and which receive their value from
others. A pattern without recursion stays as it is. `expandInOnePass` does the same, but writes a
nest token by token and hides its captures on the way.
-/

namespace RegexUnroll

/-- A pattern, with what is known about its captures. -/
structure Expansion where
  /-- The pattern. -/
  pattern : Text
  /-- The captures that exist only because text was copied: those known beforehand, then the new
  ones. -/
  hiddenCaptures : List Nat
  /-- The captures that receive their value from others. -/
  captureTransfers : CaptureTransfers
  deriving DecidableEq, Repr

namespace Expansion

/-- A pattern about whose captures nothing is known. -/
def ofPattern (p : Text) : Expansion := ⟨p, [], .empty⟩

/-- Whether a capture is hidden. -/
def isHidden (e : Expansion) (n : Nat) : Bool := e.hiddenCaptures.contains n

/-- The captures up to `total` that are not hidden. -/
def visibleGroups (e : Expansion) (total : Nat) : List Nat :=
  (List.range' 1 total).filter fun n => !e.isHidden n

/-- The pattern of a recursion with its nest written out, where the hidden captures and transfers of
the pattern are known. -/
def ofRecursion (r : Recursion) (hidden : List Nat) (transfers : CaptureTransfers) :
    Expansion where
  pattern := r.before ++ r.nesting.text ++ r.after
  hiddenCaptures := hideNew r.capturesBefore r.nesting.newCaptures hidden
  captureTransfers :=
    transfers.afterUnrolling r.left r.depth.copies r.nesting.newCaptures r.capturesBefore

/-- The expansion of a pattern about whose captures something is known. -/
def expand (e : Expansion) (mode : Mode) : Except Rejection Expansion := do
  match ← Recursion.ofPattern e.pattern mode with
  | some r => pure (ofRecursion r e.hiddenCaptures e.captureTransfers)
  | none => pure e

/-- The pattern of a recursion with its nest written in one pass. The new captures are those that
have been put in. -/
def writeRecursion (r : Recursion) (hidden : List Nat) (transfers : CaptureTransfers) :
    Expansion :=
  let (text, captures) := Id.run (r.nesting.write.run (.ofExisting hidden r.capturesBefore))
  { pattern := r.before ++ text ++ r.after
    hiddenCaptures := captures.all
    captureTransfers :=
      transfers.afterUnrolling r.left r.depth.copies captures.added.length r.capturesBefore }

/-- The expansion of a pattern, where a nest is written in one pass. -/
def expandInOnePass (e : Expansion) (mode : Mode) : Except Rejection Expansion := do
  match ← Recursion.ofPattern e.pattern mode with
  | some r => pure (writeRecursion r e.hiddenCaptures e.captureTransfers)
  | none => pure e

end Expansion

/-- The expansion of a pattern. -/
def expand (p : Text) : Except Rejection Expansion := (Expansion.ofPattern p).expand .plugin

end RegexUnroll
