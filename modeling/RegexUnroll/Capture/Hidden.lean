import RegexUnroll.Capture.Number

/-!
# Hidden captures

A hidden capture exists only because a text was copied, and is kept from whoever uses the pattern.
Captures are known by number, so a new one moves up those behind it: in the end each number from the
place of the new captures on is moved up by as many as there are, if a word keeps that
(`foldl_shiftFrom`).

The new captures can be put in all at once (`hideNew`), or one by one while the copies are written
(`HiddenCaptures.insertNext`).
-/

namespace RegexUnroll

/-- The numbers of captures after a new capture has been given the number `new`. -/
def shiftFrom (new : Nat) (captures : List Nat) : List Nat :=
  captures.map fun n => if new ≤ n then addw n 1 else n

/-- The hidden captures after `count` new ones have been put in behind capture `before`, one after
the other. The new ones are hidden too, and come last. They are captures of a text, so their numbers
are exact. -/
def hideNew (before count : Nat) (hidden : List Nat) : List Nat :=
  let new := List.range' (before + 1) count
  new.foldl (fun hidden n => shiftFrom n hidden) hidden ++ new

/-- New captures move up those behind them by their number, as long as these fit into a word. -/
theorem foldl_shiftFrom {before count : Nat} {hidden : List Nat}
    (hfits : ∀ n ∈ hidden, before < n → n + count < UInt64.size) :
    (List.range' (before + 1) count).foldl (fun hidden n => shiftFrom n hidden) hidden =
      hidden.map fun n => if n ≤ before then n else n + count := by
  induction count with
  | zero => simp
  | succ count ih =>
    -- What fits after all shifts fits before the last one.
    have hall := ih fun n hn hlt => Nat.lt_of_succ_lt (hfits n hn hlt)
    rw [List.range'_concat, List.foldl_append, hall, List.foldl_cons, List.foldl_nil, shiftFrom,
      List.map_map]
    refine List.map_congr_left fun n hn => ?_
    by_cases h : n ≤ before
    · simp only [Function.comp_apply, h, if_true]
      rw [if_neg (by omega)]
    · have hlt : n + count + 1 < UInt64.size := hfits n hn (Nat.lt_of_not_le h)
      simp only [Function.comp_apply, h, if_false]
      rw [if_pos (by omega), addw_of_lt hlt, Nat.add_assoc]

/-! ## One by one -/

/-- The hidden captures while copies are written. -/
structure HiddenCaptures where
  /-- The captures hidden beforehand, with the numbers that they have by now. -/
  existing : List Nat
  /-- The new captures so far, in the order in which they are written. -/
  added : List Nat
  /-- The number of captures before the copies. -/
  before : Nat
  deriving DecidableEq, Repr

namespace HiddenCaptures

/-- The hidden captures before any copy is written. -/
def ofExisting (existing : List Nat) (before : Nat) : HiddenCaptures := ⟨existing, [], before⟩

/-- The hidden captures with one more new one, which moves up those from its number on. Its number
counts captures of a text, so it is exact. -/
def insertNext (h : HiddenCaptures) : HiddenCaptures :=
  let new := h.before + h.added.length + 1
  { h with existing := shiftFrom new h.existing, added := h.added ++ [new] }

/-- All hidden captures, the new ones last. -/
def all (h : HiddenCaptures) : List Nat := h.existing ++ h.added

end HiddenCaptures

end RegexUnroll
