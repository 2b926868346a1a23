import RegexUnroll.Capture.Number
import RegexUnroll.Lexeme

/-!
# Capture transfers

A table of capture transfers says of some captures which captures they receive their value from. It
is kept in ascending order of the receiving captures, each of them once. When a recursion is
unrolled, the captures of the pattern get new numbers: `Renumbering` says which, and
`CaptureTransfers.renumber` puts them into a table. New numbers that fit into a word keep the order
of the old ones (`Renumbering.receiver_lt_receiver`); of two receivers that get the same number the
later one supersedes the other.
-/

namespace RegexUnroll

/-! ## Tables -/

/-- From which captures a capture receives its value, in ascending order of the receivers. -/
structure CaptureTransfers where
  /-- Each receiving capture with its sources. -/
  entries : List (Nat × List Nat)
  /-- The receivers ascend, so none of them occurs twice. -/
  ascending : entries.Pairwise fun a b => a.1 < b.1
  deriving DecidableEq, Repr

namespace CaptureTransfers

/-- The table without transfers. -/
def empty : CaptureTransfers := ⟨[], .nil⟩

/-- Entries with one more put in its place; it supersedes an entry for the same receiver. -/
def insertEntry (entry : Nat × List Nat) : List (Nat × List Nat) → List (Nat × List Nat)
  | [] => [entry]
  | e :: es =>
    if entry.1 < e.1 then entry :: e :: es
    else if entry.1 = e.1 then entry :: es
    else e :: insertEntry entry es

/-- The receivers after an insertion are the earlier ones and the new one. -/
theorem fst_of_mem_insertEntry {entry e : Nat × List Nat} {es : List (Nat × List Nat)}
    (h : e ∈ insertEntry entry es) : e.1 = entry.1 ∨ e ∈ es := by
  induction es with
  | nil => simp_all [insertEntry]
  | cons d es ih =>
    unfold insertEntry at h
    split at h
    · rcases List.mem_cons.1 h with rfl | h
      · exact .inl rfl
      · exact .inr h
    · split at h
      · rcases List.mem_cons.1 h with rfl | h
        · exact .inl rfl
        · exact .inr (List.mem_cons_of_mem _ h)
      · rcases List.mem_cons.1 h with rfl | h
        · exact .inr (List.mem_cons_self ..)
        · exact (ih h).imp_right (List.mem_cons_of_mem _)

/-- Insertion keeps the entries in order. -/
theorem pairwise_insertEntry (entry : Nat × List Nat) {es : List (Nat × List Nat)}
    (h : es.Pairwise fun a b => a.1 < b.1) :
    (insertEntry entry es).Pairwise fun a b => a.1 < b.1 := by
  induction es with
  | nil => simp [insertEntry]
  | cons d es ih =>
    obtain ⟨hd, hes⟩ := List.pairwise_cons.1 h
    unfold insertEntry
    split
    · rename_i hlt
      refine List.pairwise_cons.2 ⟨fun e he => ?_, h⟩
      rcases List.mem_cons.1 he with rfl | he
      · exact hlt
      · exact Nat.lt_trans hlt (hd e he)
    · split
      · rename_i heq
        exact List.pairwise_cons.2 ⟨fun e he => heq ▸ hd e he, hes⟩
      · refine List.pairwise_cons.2 ⟨fun e he => ?_, ih hes⟩
        rcases fst_of_mem_insertEntry he with heq | he
        · omega
        · exact hd e he

/-- A table with one more entry; it supersedes an entry for the same receiver. -/
def insert (table : CaptureTransfers) (receiver : Nat) (sources : List Nat) : CaptureTransfers where
  entries := insertEntry (receiver, sources) table.entries
  ascending := pairwise_insertEntry _ table.ascending

/-- The table with the given entries, of which a later one supersedes an earlier one for the same
receiver. -/
def ofList (entries : List (Nat × List Nat)) : CaptureTransfers :=
  entries.foldl (fun table entry => table.insert entry.1 entry.2) empty

end CaptureTransfers

/-! ## New numbers -/

/-- Where captures stand around an unrolled directive, and so which numbers they get. All of these
count captures of a text, so they are exact. -/
structure Renumbering where
  /-- The number of captures before the recursed text. -/
  before : Nat
  /-- The number of captures of the recursed text to the left of the directive. -/
  left : Nat
  /-- The number of captures of the recursed text to the right of the directive. -/
  right : Nat
  /-- The number of copies of the recursed text. -/
  copies : Nat
  /-- The number of captures that the copies bring. -/
  added : Nat
  deriving DecidableEq, Repr

namespace Renumbering

/-- The number under which a capture of the pattern receives. Copies on the left come after the
captures they are copied from, copies on the right before them. -/
def receiver (r : Renumbering) (n : Nat) : Nat :=
  if r.before + r.left < n then addw n r.added else n

/-- The numbers of a capture of the pattern and of its copies, in ascending order. -/
def sources (r : Renumbering) (n : Nat) : List Nat :=
  if n ≤ r.before then [n]
  else if r.before + r.left + r.right < n then [addw n r.added]
  else if n ≤ r.before + r.left then (List.range (r.copies + 1)).map fun i => addw n (r.left * i)
  else (List.range (r.copies + 1)).map fun i => addw (addw n (r.left * r.copies)) (r.right * i)

/-- A receiver behind the directive moves up, as long as it fits into a word. -/
theorem receiver_eq {r : Renumbering} {n : Nat} (hfits : n + r.added < UInt64.size) :
    r.receiver n = if r.before + r.left < n then n + r.added else n := by
  rw [receiver, addw_of_lt hfits]

/-- New numbers that fit into a word keep the order of the receivers. -/
theorem receiver_lt_receiver {r : Renumbering} {m n : Nat} (h : m < n)
    (hfits : n + r.added < UInt64.size) : r.receiver m < r.receiver n := by
  rw [receiver_eq hfits, receiver_eq (by omega)]
  split <;> split <;> omega

/-- The numbers of a source are as far apart as there are captures on its side of the directive, as
long as they fit into a word. -/
theorem sources_eq {r : Renumbering} (hadded : r.added = r.copies * (r.left + r.right)) {n : Nat}
    (hfits : n + r.added < UInt64.size) : r.sources n =
      if n ≤ r.before then [n]
      else if r.before + r.left + r.right < n then [n + r.added]
      else if n ≤ r.before + r.left then (List.range (r.copies + 1)).map fun i => n + r.left * i
      else (List.range (r.copies + 1)).map fun i => n + r.left * r.copies + r.right * i := by
  have hsum : r.added = r.left * r.copies + r.right * r.copies := by
    rw [hadded, Nat.mul_add, Nat.mul_comm r.copies, Nat.mul_comm r.copies]
  -- No copy is further up than by the captures that all copies bring.
  have hcopy : ∀ i ∈ List.range (r.copies + 1), ∀ side, side * i ≤ side * r.copies :=
    fun i hi side => Nat.mul_le_mul_left side (Nat.le_of_lt_succ (List.mem_range.1 hi))
  have hleft : ∀ i ∈ List.range (r.copies + 1), addw n (r.left * i) = n + r.left * i := by
    intro i hi
    have hle := hcopy i hi r.left
    exact addw_of_lt (by omega)
  have hright : ∀ i ∈ List.range (r.copies + 1),
      addw (addw n (r.left * r.copies)) (r.right * i) = n + r.left * r.copies + r.right * i := by
    intro i hi
    have hle := hcopy i hi r.right
    rw [addw_of_lt (show n + r.left * r.copies < UInt64.size by omega)]
    exact addw_of_lt (by omega)
  rw [sources, addw_of_lt hfits, List.map_congr_left hleft, List.map_congr_left hright]

/-- The new numbers of captures, where the recursed text has `left` captures before the directive,
the pattern has `capturesBefore` there, and copies of the text bring `added` captures. -/
def ofUnrolling (left copies added capturesBefore : Nat) : Renumbering where
  before := capturesBefore - left
  left := left
  right := (added - left * copies) / copies
  copies := copies
  added := added

end Renumbering

namespace CaptureTransfers

/-- A table in new numbers: each source stands for itself and its copies. -/
def renumber (table : CaptureTransfers) (r : Renumbering) : CaptureTransfers :=
  .ofList (table.entries.map fun e => (r.receiver e.1, e.2.flatMap r.sources))

/-- A table after copies of a text have been nested around a directive, where `left` is the text
before the directive. -/
def afterUnrolling (table : CaptureTransfers) (left : Text) (copies added capturesBefore : Nat) :
    CaptureTransfers :=
  if added = 0 ∨ copies = 0 then table
  else table.renumber (.ofUnrolling (countCaptures left) copies added capturesBefore)

end CaptureTransfers

end RegexUnroll
