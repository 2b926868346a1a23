import RegexUnroll.Construct
import RegexUnroll.Nesting
import RegexUnroll.Rejection

/-!
# The recursion of a pattern

`Recursion.ofPattern` takes a pattern apart around its recursion directive, ready to be unrolled. A
pattern without directives has no recursion. A pattern with directives is rejected for the first of
these reasons that applies, wherever in the pattern it stands: a depth literal that denotes no
depth, a backreference by number where the first directive copies capturing groups, a group of
definitions, a second directive, a directive outside the group that it refers to.
-/

namespace RegexUnroll

/-- A pattern taken apart around a directive that can be unrolled. -/
structure Recursion where
  /-- The text before the recursed text. -/
  before : Text
  /-- The recursed text before the directive. -/
  left : Text
  /-- The recursed text after the directive. -/
  right : Text
  /-- The text after the recursed text. -/
  after : Text
  /-- What the directive recurses into. -/
  scope : Scope
  /-- How deep the text is to be nested. -/
  depth : MaxDepth
  /-- The number of capturing groups opened before the directive. -/
  capturesBefore : Nat
  deriving DecidableEq

namespace Directive

/-- Whether a directive recurses into a text that opens capturing groups. -/
def recursesCaptures (p : Text) (d : Directive) : Bool :=
  d.recursed.any fun span => countCaptures (p.slice span) != 0

/-- The text by which a message refers to a directive. -/
def reference (p : Text) (mode : Mode) (d : Directive) : Text :=
  match mode, d.target with
  | .external, .group reference => reference
  | _, _ => p.slice d.span

end Directive

namespace Recursion

/-- The pattern taken apart around a directive that recurses into a span. -/
def around (p : Text) (d : Directive) (recursed : Span) (depth : MaxDepth) : Recursion where
  before := p.takeBytes recursed.start
  left := p.slice ⟨recursed.start, d.span.start⟩
  right := p.slice ⟨d.span.stop, recursed.stop⟩
  after := p.dropBytes recursed.stop
  scope := d.target.scope
  depth := depth
  capturesBefore := d.capturesBefore

/-- The recursion of a pattern with the directive `d` and the `others` after it. -/
def ofDirectives (p : Text) (mode : Mode) (d : Directive) (others : List Directive) :
    Except Rejection Recursion := do
  -- All depths come first, also those of directives that are rejected below.
  let depth ← MaxDepth.ofLiteral d.depth
  others.forM fun other => discard (MaxDepth.ofLiteral other.depth)
  if Construct.numberedBackref.occursIn p && d.recursesCaptures p then
    throw (.unsupportedBackref mode d.target.scope)
  if Construct.defineGroup.occursIn p then
    throw .forbiddenDefine
  if others ≠ [] then
    throw .overlappingRecursion
  match d.recursed with
  | some recursed => pure (around p d recursed depth)
  | none => throw (.invalidReference (d.reference p mode))

/-- The recursion of a pattern, if it has one. -/
def ofPattern (p : Text) (mode : Mode) : Except Rejection (Option Recursion) :=
  if hasRecursionMarker p then
    match directives p with
    | [] => .ok none
    | d :: others => some <$> ofDirectives p mode d others
  else .ok none

/-- The text around the directive, to be nested. -/
def nesting (r : Recursion) : Nesting where
  left := r.left
  right := r.right
  copies := r.depth.copies
  scope := r.scope

end Recursion

end RegexUnroll
