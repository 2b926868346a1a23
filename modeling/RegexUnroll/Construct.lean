import RegexUnroll.Lexeme

/-!
# Constructs that bear on recursion

Recursion does not go together with backreferences by number and with groups of definitions.
`constructs` says which of the three a pattern uses outside character classes. `hasRecursionMarker`
is a cheaper test for the first: it looks for the characters of a directive anywhere, also where
they are escaped or inside a character class.
-/

namespace RegexUnroll

/-- A construct that bears on recursion. -/
inductive Construct where
  /-- A recursion directive. -/
  | recursion
  /-- A backreference by number: an escaped digit other than `0`. -/
  | numberedBackref
  /-- A group `(?(DEFINE)` of definitions. -/
  | defineGroup
  deriving DecidableEq, Repr

namespace Construct

/-- All constructs, in order. -/
def all : List Construct := [recursion, numberedBackref, defineGroup]

/-- The bit that stands for a construct in a set of them. -/
def bit : Construct → Nat
  | recursion => 1
  | numberedBackref => 2
  | defineGroup => 4

/-- Whether a construct begins at a lexeme of a pattern. -/
def beginsAt (p : Text) (x : Lexeme) : Construct → Bool
  | recursion => x.token.isRecursion
  | numberedBackref =>
    match x.token with
    | .escaped c => '1' ≤ c && c ≤ '9'
    | _ => false
  | defineGroup =>
    x.token == .groupOpen &&
      ['(', 'D', 'E', 'F', 'I', 'N', 'E', ')'].isPrefixOf (p.dropBytes x.span.stop)

/-- Whether a pattern uses a construct outside character classes. -/
def occursIn (construct : Construct) (p : Text) : Bool :=
  (topLevel p).any fun x => construct.beginsAt p x

end Construct

/-- The constructs that a pattern uses, in order. -/
def constructs (p : Text) : List Construct :=
  Construct.all.filter fun construct => construct.occursIn p

/-- The constructs that a pattern uses, as a set of bits. -/
def constructBits (p : Text) : Nat :=
  (constructs p).foldl (fun bits construct => bits ||| construct.bit) 0

/-- Whether the characters of a directive stand somewhere in a pattern, in whatever context. -/
def hasRecursionMarker (p : Text) : Bool :=
  p.hasInfix ['(', '?', 'R', '='] || (p.hasInfix ['\\', 'g', '<'] && p.hasInfix ['&', 'R', '='])

end RegexUnroll
