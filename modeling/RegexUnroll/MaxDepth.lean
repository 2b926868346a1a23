import RegexUnroll.Numeral

/-!
# The depth of a recursion

A directive says by a canonical numeral how deep its text may nest, from 2 to 100. `ofLiteral?`
reads that numeral, and the bounds are part of the type.
-/

namespace RegexUnroll

/-- How deep a recursion may nest: a number from 2 to 100. -/
@[ext] structure MaxDepth where
  /-- The depth as a number. -/
  value : Nat
  /-- A recursion has at least two levels. -/
  two_le : 2 ≤ value
  /-- A recursion has at most a hundred levels. -/
  le_hundred : value ≤ 100
  deriving DecidableEq

namespace MaxDepth

/-- Depths are ordered by their numbers. -/
instance : LE MaxDepth := ⟨fun a b => a.value ≤ b.value⟩

/-- The order of depths is the order of their numbers. -/
theorem le_iff {a b : MaxDepth} : a ≤ b ↔ a.value ≤ b.value := Iff.rfl

/-- The order of depths is decided on their numbers. -/
instance (a b : MaxDepth) : Decidable (a ≤ b) := inferInstanceAs (Decidable (a.value ≤ b.value))

/-- A number as a depth, if it is within the bounds. -/
def ofNat? (n : Nat) : Option MaxDepth :=
  if h : 2 ≤ n ∧ n ≤ 100 then some ⟨n, h.1, h.2⟩ else none

/-- The depth that a literal denotes, if it is a canonical numeral within the bounds. -/
def ofLiteral? (literal : Text) : Option MaxDepth :=
  (Numeral.value? literal).bind ofNat?

/-- The literal of a depth. -/
def render (d : MaxDepth) : Text := Numeral.render d.value

/-- The number of copies that are nested in the text: one less than the depth. -/
def copies (d : MaxDepth) : Nat := d.value - 1

/-- The depths of a list in ascending order, each of them once. -/
def ascending (ds : List MaxDepth) : List MaxDepth :=
  (ds.mergeSort fun a b => a ≤ b).eraseReps

/-- A number within the bounds is the depth of that value. -/
theorem ofNat?_eq_some_iff {n : Nat} {d : MaxDepth} : ofNat? n = some d ↔ d.value = n := by
  unfold ofNat?
  split
  · simp [MaxDepth.ext_iff, eq_comm]
  · rename_i h
    simpa using fun hd : d.value = n => h (hd ▸ ⟨d.two_le, d.le_hundred⟩)

/-- A literal denotes a depth exactly when it is that depth's own literal. -/
theorem ofLiteral?_eq_some_iff {literal : Text} {d : MaxDepth} :
    ofLiteral? literal = some d ↔ literal = d.render := by
  have hpos : 0 < d.value := Nat.lt_of_lt_of_le (by decide) d.two_le
  simp only [ofLiteral?, Option.bind_eq_some_iff, ofNat?_eq_some_iff,
    Numeral.value?_eq_some_iff, render]
  exact ⟨fun ⟨_, h, hd⟩ => hd ▸ h.2, fun h => ⟨_, ⟨hpos, h⟩, rfl⟩⟩

/-- There is at least one copy. -/
theorem copies_pos (d : MaxDepth) : 0 < d.copies := Nat.sub_pos_of_lt d.two_le

/-- The depth counts the copies and the text around them. -/
theorem copies_add_one (d : MaxDepth) : d.copies + 1 = d.value :=
  Nat.sub_add_cancel (Nat.le_trans (by decide) d.two_le)

end MaxDepth

end RegexUnroll
