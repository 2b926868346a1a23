import RegexUnroll.Lexeme
import RegexUnroll.Numeral

/-!
# Groups

`OpenGroups` are the groups that are open at a place of a pattern, with the number of capturing
groups opened before it; `OpenGroups.after` steps over one lexeme. A group is referred to by its
name or by the canonical numeral of its number, and of several such groups the innermost is meant
(`OpenGroups.find?`). `groupContents` is the text of a group from where its contents begin.
-/

namespace RegexUnroll

/-- What a capturing group is referred to by. -/
structure CaptureLabel where
  /-- The place of the group among the capturing groups of the pattern, counted from one. -/
  number : Nat
  /-- The name of the group, if it has one. -/
  name : Option Text
  deriving DecidableEq, Repr

/-- A group that has been opened and not yet closed. -/
structure OpenGroup where
  /-- The label of a capturing group; other groups have none. -/
  label : Option CaptureLabel
  /-- The offset just after the opening of the group. -/
  contentStart : Nat
  deriving DecidableEq, Repr

/-- Whether a target means this label: it is the name, or the numeral of the number. -/
def CaptureLabel.matches (label : CaptureLabel) (target : Text) : Bool :=
  label.name = some target || Numeral.value? target = some label.number

/-- Whether a target means this group. -/
def OpenGroup.matches (group : OpenGroup) (target : Text) : Bool :=
  group.label.any fun label => label.matches target

/-- The groups that are open at a place of a pattern. -/
structure OpenGroups where
  /-- The open groups, the innermost first. -/
  stack : List OpenGroup
  /-- The number of capturing groups opened so far. -/
  captures : Nat
  deriving DecidableEq, Repr

namespace OpenGroups

/-- At the front of a pattern no group is open. -/
def empty : OpenGroups := ⟨[], 0⟩

/-- The open groups after the opening of a capturing group. -/
def openCapture (groups : OpenGroups) (name : Option Text) (contentStart : Nat) : OpenGroups where
  stack := ⟨some ⟨groups.captures + 1, name⟩, contentStart⟩ :: groups.stack
  captures := groups.captures + 1

/-- The open groups after a top-level lexeme. A closing delimiter closes the innermost group, and
without an open group it closes nothing. -/
def after (groups : OpenGroups) (x : Lexeme) : OpenGroups :=
  match x.token with
  | .namedCaptureOpen name => groups.openCapture (some name) x.span.stop
  | .captureOpen => groups.openCapture none x.span.stop
  | .groupOpen => { groups with stack := ⟨none, x.span.stop⟩ :: groups.stack }
  | .groupClose => { groups with stack := groups.stack.tail }
  | _ => groups

/-- The innermost open group that a target means. -/
def find? (groups : OpenGroups) (target : Text) : Option OpenGroup :=
  groups.stack.find? fun group => group.matches target

/-- A capturing group counts once it is opened, whatever its name. -/
theorem captures_after (groups : OpenGroups) (x : Lexeme) :
    (groups.after x).captures = groups.captures + if x.token.isCaptureOpen then 1 else 0 := by
  unfold after
  split <;> simp_all [openCapture, Token.isCaptureOpen]

end OpenGroups

/-! ## The contents of a group -/

/-- The first lexeme that closes a group opened before the given ones, where `depth` of the groups
that are open have been opened since. -/
def closing? : Nat → List Lexeme → Option Lexeme
  | _, [] => none
  | depth, x :: xs =>
    if x.token.isGroupOpen then closing? (depth + 1) xs
    else if x.token = .groupClose then
      match depth with
      | 0 => some x
      | depth + 1 => closing? depth xs
    else closing? depth xs

/-- The contents of the group whose contents begin at an offset: the text up to its closing
delimiter, or to the end of the pattern if it is not closed. -/
def groupContents (p : Text) (start : Nat) : Text :=
  match closing? 0 ((Cursor.ofOffset p start).lexemes.filter Lexeme.isTopLevel) with
  | some x => p.slice ⟨start, x.span.start⟩
  | none => p.dropBytes start

/-- The span of the contents of the group whose contents begin at an offset. -/
def contentSpan (p : Text) (start : Nat) : Span where
  start := start
  stop := start + Text.utf8Length (groupContents p start)

end RegexUnroll
