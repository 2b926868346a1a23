import RegexUnroll.Text

/-!
# Tokens

A token is one piece of a pattern that has a meaning of its own: a delimiter of a group or of a
character class, a named backreference, an escaped character, a recursion directive, or a single
character. `spelling` writes a token as it stands in a pattern; it is never empty.
-/

namespace RegexUnroll

/-- A token of a pattern. -/
inductive Token where
  /-- The opening `(?<name>` of a named capturing group. -/
  | namedCaptureOpen (name : Text)
  /-- The opening `(` of a capturing group without a name. -/
  | captureOpen
  /-- The `(?` that opens a group of any other kind; what says which kind follows as text. -/
  | groupOpen
  /-- The closing `)` of a group. -/
  | groupClose
  /-- The opening `[` of a character class. -/
  | classOpen
  /-- The closing `]` of a character class. -/
  | classClose
  /-- A backreference `\k<name>` to a named group. -/
  | namedBackref (name : Text)
  /-- A backslash with the character after it. -/
  | escaped (c : Char)
  /-- The directive `(?R=depth)`, which recurses into the whole pattern. -/
  | globalRecursion (depth : Text)
  /-- The directive `\g<target&R=depth>`, which recurses into a group around it. -/
  | subpatternRecursion (target depth : Text)
  /-- Any other character. -/
  | char (c : Char)
  deriving DecidableEq, Repr

namespace Token

/-- The text of a token in a pattern. -/
def spelling : Token → Text
  | namedCaptureOpen name => ['(', '?', '<'] ++ name ++ ['>']
  | captureOpen => ['(']
  | groupOpen => ['(', '?']
  | groupClose => [')']
  | classOpen => ['[']
  | classClose => [']']
  | namedBackref name => ['\\', 'k', '<'] ++ name ++ ['>']
  | escaped c => ['\\', c]
  | globalRecursion depth => ['(', '?', 'R', '='] ++ depth ++ [')']
  | subpatternRecursion target depth =>
    ['\\', 'g', '<'] ++ target ++ ['&', 'R', '='] ++ depth ++ ['>']
  | char c => [c]

/-- The spelling of a token is not empty. -/
theorem spelling_ne_nil (t : Token) : t.spelling ≠ [] := by
  cases t <;> simp [spelling]

/-- Whether a token opens a capturing group. -/
def isCaptureOpen : Token → Bool
  | namedCaptureOpen _ | captureOpen => true
  | _ => false

/-- Whether a token opens a group, capturing or not. -/
def isGroupOpen : Token → Bool
  | namedCaptureOpen _ | captureOpen | groupOpen => true
  | _ => false

/-- Whether a token is a recursion directive. -/
def isRecursion : Token → Bool
  | globalRecursion _ | subpatternRecursion .. => true
  | _ => false

/-- The name that a token gives to a group. -/
def openedName? : Token → Option Text
  | namedCaptureOpen name => some name
  | _ => none

/-- The number of character classes that are open after a token, from the number before it. -/
def classDepthAfter (depth : Nat) : Token → Nat
  | classOpen => depth + 1
  | classClose => depth - 1
  | _ => depth

end Token

end RegexUnroll
