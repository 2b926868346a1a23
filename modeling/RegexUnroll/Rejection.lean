import RegexUnroll.Directive

/-!
# Why a pattern is rejected

A `Rejection` is the reason why the recursion of a pattern cannot be unrolled, and
`Rejection.message` says it in words. Some of the words depend on who wrote the directives.
-/

namespace RegexUnroll

/-- Who wrote the directives of a pattern. -/
inductive Mode where
  /-- The author of the pattern. -/
  | plugin
  /-- Another program; the author does not know their syntax. -/
  | external
  deriving DecidableEq, Repr

/-- Why the recursion of a pattern cannot be unrolled. -/
inductive Rejection where
  /-- The literal of a depth is not a numeral within the bounds. -/
  | invalidDepth (literal : Text)
  /-- A backreference by number goes with a directive that copies capturing groups. -/
  | unsupportedBackref (mode : Mode) (scope : Scope)
  /-- The pattern has a group of definitions. -/
  | forbiddenDefine
  /-- The pattern has more than one directive. -/
  | overlappingRecursion
  /-- The directive is not inside the group that it refers to. -/
  | invalidReference (reference : Text)
  deriving DecidableEq, Repr

/-- The kinds of reasons, without what a message adds to them. -/
inductive RejectionKind where
  | invalidDepth
  | unsupportedBackref
  | forbiddenDefine
  | overlappingRecursion
  | invalidReference
  deriving DecidableEq, Repr

/-- The kind of a reason. -/
def Rejection.kind : Rejection → RejectionKind
  | invalidDepth _ => .invalidDepth
  | unsupportedBackref .. => .unsupportedBackref
  | forbiddenDefine => .forbiddenDefine
  | overlappingRecursion => .overlappingRecursion
  | invalidReference _ => .invalidReference

/-- What backreferences by number are called. -/
def Mode.numberedBackrefs : Mode → String
  | plugin => "Numbered backrefs"
  | external => "Backrefs"

/-- What a recursion that copies capturing groups is called. -/
def Scope.recursionOfCaptures : Scope → String
  | global => "global recursion"
  | subpattern => "recursion of capturing groups"

/-- The reason in words. -/
def Rejection.message : Rejection → String
  | invalidDepth literal =>
    "Max depth must be integer between 2 and 100; used " ++ String.ofList literal
  | unsupportedBackref mode scope =>
    mode.numberedBackrefs ++ " cannot be used with " ++ scope.recursionOfCaptures
  | forbiddenDefine => "DEFINE groups cannot be used with recursion"
  | overlappingRecursion => "Cannot use multiple overlapping recursions"
  | invalidReference reference =>
    "Recursive \\g cannot be used outside the referenced group \"" ++ String.ofList reference ++
      "\""

/-- The depth that a literal denotes; any other literal is rejected. -/
def MaxDepth.ofLiteral (literal : Text) : Except Rejection MaxDepth :=
  match ofLiteral? literal with
  | some depth => .ok depth
  | none => .error (.invalidDepth literal)

end RegexUnroll
