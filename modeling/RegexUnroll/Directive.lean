import RegexUnroll.Group
import RegexUnroll.MaxDepth

/-!
# Recursion directives

A directive asks for a part of the pattern to be nested into itself: the whole pattern, or a group
around the directive. `directives` finds them all, in order, each with the number of capturing
groups opened before it and the span that it recurses into.
-/

namespace RegexUnroll

/-- What a directive recurses into, by its form alone. -/
inductive Scope where
  /-- The whole pattern. -/
  | global
  /-- A group around the directive. -/
  | subpattern
  deriving DecidableEq, Repr

/-- What a directive refers to. -/
inductive RecursionTarget where
  /-- The whole pattern. -/
  | wholePattern
  /-- The group with a name or a number. -/
  | group (reference : Text)
  deriving DecidableEq, Repr

/-- The scope of a target. -/
def RecursionTarget.scope : RecursionTarget → Scope
  | wholePattern => .global
  | group _ => .subpattern

/-- A recursion directive in a pattern. -/
structure Directive where
  /-- What the directive refers to. -/
  target : RecursionTarget
  /-- The literal of the depth, as written. -/
  depth : Text
  /-- The bytes of the pattern that the directive takes. -/
  span : Span
  /-- The number of capturing groups opened before the directive. -/
  capturesBefore : Nat
  /-- The bytes that the directive recurses into; none if it is not inside the group that it refers
  to. -/
  recursed : Option Span
  deriving DecidableEq, Repr

/-- The directive that a lexeme is, if it is one, where `groups` are open before it. -/
def Directive.ofLexeme? (p : Text) (groups : OpenGroups) (x : Lexeme) : Option Directive :=
  match x.token with
  | .globalRecursion depth =>
    some ⟨.wholePattern, depth, x.span, groups.captures, some ⟨0, p.utf8Length⟩⟩
  | .subpatternRecursion reference depth =>
    some ⟨.group reference, depth, x.span, groups.captures,
      (groups.find? reference).map fun group => contentSpan p group.contentStart⟩
  | _ => none

/-- The directives among lexemes of a pattern, where `groups` are open before the first of them. -/
def directivesFrom (p : Text) (groups : OpenGroups) : List Lexeme → List Directive
  | [] => []
  | x :: xs => (Directive.ofLexeme? p groups x).toList ++ directivesFrom p (groups.after x) xs

/-- The directives of a pattern, in order. -/
def directives (p : Text) : List Directive := directivesFrom p .empty (topLevel p)

/-- Exactly the recursion tokens are directives. -/
theorem Directive.isSome_ofLexeme? (p : Text) (groups : OpenGroups) (x : Lexeme) :
    (Directive.ofLexeme? p groups x).isSome = x.token.isRecursion := by
  unfold Directive.ofLexeme?
  split <;> simp_all [Token.isRecursion]

/-- There is one directive for each recursion token. -/
theorem length_directivesFrom (p : Text) (groups : OpenGroups) (xs : List Lexeme) :
    (directivesFrom p groups xs).length = xs.countP fun x => x.token.isRecursion := by
  induction xs generalizing groups with
  | nil => rfl
  | cons x xs ih =>
    have h := Directive.isSome_ofLexeme? p groups x
    rw [directivesFrom, List.length_append, ih, List.countP_cons, Nat.add_comm, ← h]
    cases Directive.ofLexeme? p groups x <;> rfl

end RegexUnroll
