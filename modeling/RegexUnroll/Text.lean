/-!
# Text and byte offsets

A pattern is a list of characters, and a position in it is a number of UTF-8 bytes. `utf8Length`
measures a text, `takeBytes` and `dropBytes` cut it at a position, `slice` takes the text of a
`Span`, `upTo?` splits it at the first occurrence of a character, and `hasInfix` looks for another
text in it. Whoever knows a text as a
concatenation never counts bytes: cutting `s ++ t` at the length of `s` gives `s` and `t`
(`takeBytes_append`, `dropBytes_append`).
-/

namespace RegexUnroll

/-- A pattern, or a piece of one: its characters in order. -/
abbrev Text := List Char

/-- A range of byte offsets, its end excluded. -/
structure Span where
  /-- The offset of the first byte. -/
  start : Nat
  /-- The offset just after the last byte. -/
  stop : Nat
  deriving DecidableEq, Repr

namespace Text

/-! ## Length in bytes -/

/-- The number of bytes of a text in UTF-8. -/
def utf8Length : Text → Nat
  | [] => 0
  | c :: t => c.utf8Size + utf8Length t

/-- The empty text has no bytes. -/
@[simp] theorem utf8Length_nil : utf8Length [] = 0 := rfl

/-- The first character counts with its own bytes. -/
@[simp] theorem utf8Length_cons (c : Char) (t : Text) :
    utf8Length (c :: t) = c.utf8Size + utf8Length t := rfl

/-- Lengths add up over a concatenation. -/
@[simp] theorem utf8Length_append (s t : Text) :
    utf8Length (s ++ t) = utf8Length s + utf8Length t := by
  induction s with
  | nil => simp
  | cons c s ih => simp [ih, Nat.add_assoc]

/-- Only the empty text has no bytes. -/
@[simp] theorem utf8Length_eq_zero_iff {t : Text} : utf8Length t = 0 ↔ t = [] := by
  cases t with
  | nil => simp
  | cons c t => simpa using fun h => absurd h (Nat.ne_of_gt c.utf8Size_pos)

/-! ## Cutting at an offset -/

/-- The characters that begin within the first `n` bytes. -/
def takeBytes : Nat → Text → Text
  | 0, _ => []
  | _ + 1, [] => []
  | n + 1, c :: t => c :: takeBytes (n + 1 - c.utf8Size) t

/-- The characters that begin after the first `n` bytes. -/
def dropBytes : Nat → Text → Text
  | 0, t => t
  | _ + 1, [] => []
  | n + 1, c :: t => dropBytes (n + 1 - c.utf8Size) t

/-- The text of a span. -/
def slice (t : Text) (span : Span) : Text :=
  takeBytes (span.stop - span.start) (dropBytes span.start t)

/-- Nothing is dropped before offset zero. -/
@[simp] theorem dropBytes_zero (t : Text) : dropBytes 0 t = t := by
  cases t <;> rfl

/-- Nothing stands before offset zero. -/
@[simp] theorem takeBytes_zero (t : Text) : takeBytes 0 t = [] := by
  cases t <;> rfl

/-- The two sides of a cut make up the text. -/
@[simp] theorem takeBytes_append_dropBytes (n : Nat) (t : Text) :
    takeBytes n t ++ dropBytes n t = t := by
  induction t generalizing n with
  | nil => cases n <;> rfl
  | cons c t ih =>
    cases n with
    | zero => rfl
    | succ n => simp [takeBytes, dropBytes, ih]

/-- Dropping the bytes of a character drops that character. -/
theorem dropBytes_utf8Size_add (c : Char) (n : Nat) (t : Text) :
    dropBytes (c.utf8Size + n) (c :: t) = dropBytes n t := by
  obtain ⟨k, hk⟩ : ∃ k, c.utf8Size + n = k + 1 :=
    ⟨c.utf8Size + n - 1, by have := c.utf8Size_pos; omega⟩
  rw [hk, dropBytes, ← hk, Nat.add_sub_cancel_left]

/-- Taking the bytes of a character takes that character. -/
theorem takeBytes_utf8Size_add (c : Char) (n : Nat) (t : Text) :
    takeBytes (c.utf8Size + n) (c :: t) = c :: takeBytes n t := by
  obtain ⟨k, hk⟩ : ∃ k, c.utf8Size + n = k + 1 :=
    ⟨c.utf8Size + n - 1, by have := c.utf8Size_pos; omega⟩
  rw [hk, takeBytes, ← hk, Nat.add_sub_cancel_left]

/-- Dropping past the first part of a concatenation goes on in the second. -/
theorem dropBytes_utf8Length_add (s : Text) (n : Nat) (t : Text) :
    dropBytes (utf8Length s + n) (s ++ t) = dropBytes n t := by
  induction s with
  | nil => simp
  | cons c s ih => simp [Nat.add_assoc, dropBytes_utf8Size_add, ih]

/-- Taking past the first part of a concatenation goes on in the second. -/
theorem takeBytes_utf8Length_add (s : Text) (n : Nat) (t : Text) :
    takeBytes (utf8Length s + n) (s ++ t) = s ++ takeBytes n t := by
  induction s with
  | nil => simp
  | cons c s ih => simp [Nat.add_assoc, takeBytes_utf8Size_add, ih]

/-- Dropping the first part of a concatenation leaves the second. -/
@[simp] theorem dropBytes_append (s t : Text) : dropBytes (utf8Length s) (s ++ t) = t := by
  simpa using dropBytes_utf8Length_add s 0 t

/-- The first part of a concatenation is what stands before its length. -/
@[simp] theorem takeBytes_append (s t : Text) : takeBytes (utf8Length s) (s ++ t) = s := by
  simpa using takeBytes_utf8Length_add s 0 t

/-- The middle of a concatenation is the slice between the offsets of its two ends. -/
@[simp] theorem slice_append (s t u : Text) :
    slice (s ++ t ++ u) ⟨utf8Length s, utf8Length s + utf8Length t⟩ = t := by
  simp [slice, List.append_assoc]

/-! ## Splitting at a character -/

/-- The text before the first `stop` and the text after it; nothing if `stop` does not occur. -/
def upTo? (stop : Char) : Text → Option (Text × Text)
  | [] => none
  | c :: t => if c = stop then some ([], t) else (upTo? stop t).map fun (s, u) => (c :: s, u)

/-- A split at `stop` is the one decomposition whose first part has no `stop`. -/
theorem upTo?_eq_some_iff {stop : Char} {t before after : Text} :
    upTo? stop t = some (before, after) ↔ t = before ++ stop :: after ∧ stop ∉ before := by
  induction t generalizing before after with
  | nil => simp [upTo?]
  | cons c t ih =>
    by_cases hc : c = stop
    · subst hc
      cases before with
      | nil => simp [upTo?]
      | cons d before => simp +contextual [upTo?, eq_comm]
    · cases before with
      | nil => simp [upTo?, hc]
      | cons d before =>
        simp only [upTo?, hc, if_false, Option.map_eq_some_iff, Prod.exists, Prod.mk.injEq,
          List.cons.injEq, ih, List.cons_append, List.mem_cons, not_or]
        constructor
        · rintro ⟨s, u, ⟨rfl, hs⟩, ⟨rfl, rfl⟩, rfl⟩
          exact ⟨⟨rfl, rfl⟩, Ne.symm hc, hs⟩
        · rintro ⟨⟨rfl, rfl⟩, -, hs⟩
          exact ⟨_, _, ⟨rfl, hs⟩, ⟨rfl, rfl⟩, rfl⟩

/-- There is no split exactly when `stop` does not occur. -/
@[simp] theorem upTo?_eq_none_iff {stop : Char} {t : Text} : upTo? stop t = none ↔ stop ∉ t := by
  induction t with
  | nil => simp [upTo?]
  | cons c t ih =>
    by_cases hc : c = stop
    · simp [upTo?, hc]
    · simp [upTo?, hc, ih, Ne.symm hc]

/-! ## Search -/

/-- Whether a text stands somewhere in `t`. -/
def hasInfix (t s : Text) : Bool :=
  match t with
  | [] => s.isEmpty
  | c :: t => s.isPrefixOf (c :: t) || hasInfix t s

/-- A text stands somewhere in another when that is what is before, the text, and what is after. -/
theorem hasInfix_eq_true_iff {t s : Text} : hasInfix t s = true ↔ s <:+: t := by
  induction t with
  | nil => simp [hasInfix]
  | cons c t ih => simp [hasInfix, ih, List.infix_cons_iff]

end Text

end RegexUnroll
