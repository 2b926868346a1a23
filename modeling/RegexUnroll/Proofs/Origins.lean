import Mathlib.Data.List.Basic
import Mathlib.Data.List.Induction
import RegexUnroll.Capture.Hidden
import RegexUnroll.Capture.Transfers

/-!
# The origins of captures

A capture of an unrolled pattern is a capture of the pattern before, or a copy of one at a depth.
`unrolledOrigins` lists these origins in the order in which the captures are opened, so that the
number of a capture is its place in the list. What the program computes from numbers alone agrees
with it, as long as the numbers fit into a word: the place of the captures that are put in
(`numbersOf_copies`), the number of a receiver (`numberOf_unrolledOrigins`), and the numbers of a
source and its copies (`numbersOf_unrolledOrigins`).
-/

namespace RegexUnroll

/-- Where a capture of an unrolled pattern comes from. -/
structure CaptureOrigin where
  /-- The number, before unrolling, of the capture that it is or is a copy of. -/
  capture : Nat
  /-- The depth of the copy, or one for the capture itself. -/
  depth : Nat
  deriving DecidableEq, Repr

/-- The numbers of the captures whose origin has a property, where the first capture of the list has
the number `first`. -/
def numbersFrom (P : CaptureOrigin → Bool) (first : Nat) (origins : List CaptureOrigin) :
    List Nat :=
  (origins.zipIdx first).filterMap fun o => if P o.1 then some o.2 else none

/-- The numbers of the captures whose origin has a property. -/
def numbersOf (P : CaptureOrigin → Bool) (origins : List CaptureOrigin) : List Nat :=
  numbersFrom P 1 origins

/-- The number of the capture that was capture `n` before unrolling. -/
def numberOf (origins : List CaptureOrigin) (n : Nat) : Nat := origins.idxOf ⟨n, 1⟩ + 1

/-- The numbers go on from one list to the next. -/
theorem numbersFrom_append (P : CaptureOrigin → Bool) (first : Nat) (xs ys : List CaptureOrigin) :
    numbersFrom P first (xs ++ ys) =
      numbersFrom P first xs ++ numbersFrom P (first + xs.length) ys := by
  rw [numbersFrom, List.zipIdx_append, List.filterMap_append]
  rfl

/-- The first capture counts if its origin has the property. -/
theorem numbersFrom_cons (P : CaptureOrigin → Bool) (first : Nat) (o : CaptureOrigin)
    (origins : List CaptureOrigin) :
    numbersFrom P first (o :: origins) =
      (if P o then [first] else []) ++ numbersFrom P (first + 1) origins := by
  rw [numbersFrom, List.zipIdx_cons, List.filterMap_cons]
  cases P o <;> rfl

/-- Where all captures count their numbers are consecutive. -/
theorem numbersFrom_of_forall {P : CaptureOrigin → Bool} (first : Nat)
    {origins : List CaptureOrigin} (h : ∀ o ∈ origins, P o = true) :
    numbersFrom P first origins = List.range' first origins.length := by
  induction origins generalizing first with
  | nil => rfl
  | cons o origins ih =>
    rw [numbersFrom_cons, if_pos (h o List.mem_cons_self),
      ih (first + 1) fun o' ho' => h o' (List.mem_cons_of_mem _ ho')]
    rfl

/-- Where no capture counts there is no number. -/
theorem numbersFrom_of_forall_not {P : CaptureOrigin → Bool} (first : Nat)
    {origins : List CaptureOrigin} (h : ∀ o ∈ origins, P o = false) :
    numbersFrom P first origins = [] := by
  induction origins generalizing first with
  | nil => rfl
  | cons o origins ih =>
    rw [numbersFrom_cons, h o List.mem_cons_self,
      ih (first + 1) fun o' ho' => h o' (List.mem_cons_of_mem _ ho')]
    rfl

/-! ## Consecutive captures -/

/-- The captures from `start` on, `count` of them, in the copy of a depth. -/
def block (start count depth : Nat) : List CaptureOrigin :=
  (List.range' start count).map fun n => ⟨n, depth⟩

/-- A block has as many captures as it says. -/
@[simp] theorem length_block (start count depth : Nat) :
    (block start count depth).length = count := by
  rw [block, List.length_map, List.length_range']

/-- A block begins with its first capture. -/
theorem block_succ (start count depth : Nat) :
    block start (count + 1) depth = ⟨start, depth⟩ :: block (start + 1) count depth := rfl

/-- Blocks of consecutive captures are one block. -/
theorem block_append (start m n depth : Nat) :
    block start m depth ++ block (start + m) n depth = block start (m + n) depth := by
  rw [block, block, ← List.map_append, List.range'_append_1, block]

/-- A block has the captures from its start on, at its depth. -/
theorem mem_block {start count depth : Nat} {o : CaptureOrigin} :
    o ∈ block start count depth ↔
      start ≤ o.capture ∧ o.capture < start + count ∧ o.depth = depth := by
  rw [block, List.mem_map]
  constructor
  · rintro ⟨n, hn, rfl⟩
    have hbounds := List.mem_range'_1.1 hn
    exact ⟨hbounds.1, hbounds.2, rfl⟩
  · rintro ⟨hstart, hstop, rfl⟩
    exact ⟨o.capture, List.mem_range'_1.2 ⟨hstart, hstop⟩, rfl⟩

/-- Capture `n` stands in a block as far from the front as it is from the first capture. -/
theorem idxOf_block {start count depth n : Nat} (hstart : start ≤ n) (hstop : n < start + count) :
    (block start count depth).idxOf ⟨n, depth⟩ = n - start := by
  induction count generalizing start with
  | zero => omega
  | succ count ih =>
    rw [block_succ, List.idxOf_cons]
    by_cases hn : start = n
    · simp [hn]
    · have hne : (CaptureOrigin.mk start depth == ⟨n, depth⟩) = false := by simp [hn]
      rw [hne, cond_false, ih (by omega) (by omega)]
      omega

/-- Capture `n` has one number in a block that it is in. -/
theorem numbersFrom_block (n first start count depth : Nat) :
    numbersFrom (fun o => o.capture = n) first (block start count depth) =
      if start ≤ n ∧ n < start + count then [first + (n - start)] else [] := by
  induction count generalizing first start with
  | zero =>
    rw [if_neg (by omega)]
    rfl
  | succ count ih =>
    rw [block_succ, numbersFrom_cons, ih]
    by_cases hn : start = n
    · subst hn
      rw [if_pos (by simp), if_neg (by omega), if_pos (by omega), Nat.sub_self]
      rfl
    · rw [if_neg (by simpa using hn), List.nil_append]
      by_cases hin : start ≤ n ∧ n < start + (count + 1)
      · rw [if_pos (by omega), if_pos hin]
        congr 1
        omega
      · rw [if_neg (by omega), if_neg hin]

/-! ## Copies of a block -/

/-- Copies of a block have its captures once for each depth. -/
theorem length_flatMap_block (start count : Nat) (depths : List Nat) :
    (depths.flatMap (block start count)).length = depths.length * count := by
  induction depths with
  | nil => simp
  | cons d depths ih =>
    rw [List.flatMap_cons, List.length_append, ih, length_block, List.length_cons, Nat.succ_mul]
    omega

/-- Copies of a block have its captures at their depths. -/
theorem mem_flatMap_block {start count : Nat} {depths : List Nat} {o : CaptureOrigin} :
    o ∈ depths.flatMap (block start count) ↔
      o.depth ∈ depths ∧ start ≤ o.capture ∧ o.capture < start + count := by
  rw [List.mem_flatMap]
  constructor
  · rintro ⟨d, hd, ho⟩
    obtain ⟨hstart, hstop, rfl⟩ := mem_block.1 ho
    exact ⟨hd, hstart, hstop⟩
  · rintro ⟨hd, hstart, hstop⟩
    exact ⟨o.depth, hd, mem_block.2 ⟨hstart, hstop, rfl⟩⟩

/-- The copies of capture `n` are as far apart as there are captures in the block. -/
theorem numbersFrom_flatMap_block {n start count : Nat} (hstart : start ≤ n)
    (hstop : n < start + count) (first : Nat) (depths : List Nat) :
    numbersFrom (fun o => o.capture = n) first (depths.flatMap (block start count)) =
      (List.range depths.length).map fun i => first + (n - start) + count * i := by
  induction depths generalizing first with
  | nil => rfl
  | cons d depths ih =>
    rw [List.flatMap_cons, numbersFrom_append, numbersFrom_block, if_pos ⟨hstart, hstop⟩,
      length_block, ih, List.length_cons, List.range_succ_eq_map, List.map_cons, List.map_map]
    refine congrArg₂ List.cons (by rw [Nat.mul_zero, Nat.add_zero]) ?_
    refine List.map_congr_left fun i _ => ?_
    rw [Function.comp_apply, Nat.mul_succ]
    omega

/-- Outside the block there are no copies. -/
theorem numbersFrom_flatMap_block_of_not {n start count : Nat}
    (h : ¬(start ≤ n ∧ n < start + count)) (first : Nat) (depths : List Nat) :
    numbersFrom (fun o => o.capture = n) first (depths.flatMap (block start count)) = [] := by
  refine numbersFrom_of_forall_not first fun o ho => ?_
  obtain ⟨-, hstart, hstop⟩ := mem_flatMap_block.1 ho
  exact decide_eq_false fun hn => h (by omega)

/-! ## The unrolled pattern -/

/-- The origins of the captures of an unrolled pattern with `before`, `left`, `right` and `after`
captures in its parts: up to the directive, copies of those on the left, copies of those on the
right, from the directive on. -/
def unrolledOrigins (before left right after : Nat) (depths : List Nat) : List CaptureOrigin :=
  block 1 (before + left) 1 ++ (depths.flatMap (block (before + 1) left) ++
    (depths.reverse.flatMap (block (before + left + 1) right) ++
      block (before + left + 1) (right + after) 1))

section Unrolled

variable (before left right after : Nat) {depths : List Nat}

/-- The captures are those from before and the copies. -/
theorem length_unrolledOrigins :
    (unrolledOrigins before left right after depths).length =
      before + left + right + after + depths.length * (left + right) := by
  simp only [unrolledOrigins, List.length_append, length_block, length_flatMap_block,
    List.length_reverse, Nat.mul_add]
  omega

/-- Each capture from before is there once itself. -/
theorem mem_unrolledOrigins_iff (hdepths : 1 ∉ depths) (n : Nat) :
    (⟨n, 1⟩ : CaptureOrigin) ∈ unrolledOrigins before left right after depths ↔
      0 < n ∧ n ≤ before + left + right + after := by
  simp only [unrolledOrigins, List.mem_append, mem_block, mem_flatMap_block, List.mem_reverse,
    hdepths, false_and, false_or, and_true]
  omega

/-- The copies have consecutive numbers, behind the captures before the directive. -/
theorem numbersOf_copies (hdepths : 1 ∉ depths) :
    numbersOf (fun o => o.depth ≠ 1) (unrolledOrigins before left right after depths) =
      List.range' (before + left + 1) (depths.length * (left + right)) := by
  -- The captures of the pattern do not count, and all those in between do.
  have hblock : ∀ first start count,
      numbersFrom (fun o => o.depth ≠ 1) first (block start count 1) = [] := by
    intro first start count
    refine numbersFrom_of_forall_not first fun o ho => ?_
    simp [(mem_block.1 ho).2.2]
  have hcopies : ∀ first start count (ds : List Nat), 1 ∉ ds →
      numbersFrom (fun o => o.depth ≠ 1) first (ds.flatMap (block start count)) =
        List.range' first (ds.length * count) := by
    intro first start count ds hds
    rw [← length_flatMap_block start count ds]
    refine numbersFrom_of_forall first fun o ho => decide_eq_true ?_
    rintro hone
    exact hds (hone ▸ (mem_flatMap_block.1 ho).1)
  rw [numbersOf, unrolledOrigins, numbersFrom_append, numbersFrom_append, numbersFrom_append,
    hblock, hblock, hcopies _ _ _ _ hdepths, hcopies _ _ _ _ (by simpa using hdepths)]
  rw [length_block, length_flatMap_block, List.nil_append, List.append_nil, List.length_reverse,
    List.range'_append_1, ← Nat.mul_add, Nat.add_comm 1]

/-- A capture from before keeps its number up to the directive and moves up by the number of copies
behind it. -/
theorem numberOf_unrolledOrigins (hdepths : 1 ∉ depths) {n : Nat} (hn : 0 < n)
    (hle : n ≤ before + left + right + after) :
    numberOf (unrolledOrigins before left right after depths) n =
      if before + left < n then n + depths.length * (left + right) else n := by
  have hcopies : ∀ start count (ds : List Nat), 1 ∉ ds →
      (⟨n, 1⟩ : CaptureOrigin) ∉ ds.flatMap (block start count) :=
    fun start count ds hds ho => hds (mem_flatMap_block.1 ho).1
  rw [numberOf, unrolledOrigins]
  by_cases hlt : before + left < n
  · -- The capture is found behind the first block and all copies.
    have hfirst : (⟨n, 1⟩ : CaptureOrigin) ∉ block 1 (before + left) 1 := by
      intro ho
      have hstop : n < 1 + (before + left) := (mem_block.1 ho).2.1
      omega
    rw [List.idxOf_append_of_notMem hfirst, List.idxOf_append_of_notMem (hcopies _ _ _ hdepths),
      List.idxOf_append_of_notMem (hcopies _ _ _ (by simpa using hdepths)),
      idxOf_block (by omega) (by omega), length_block, length_flatMap_block, length_flatMap_block,
      List.length_reverse, if_pos hlt, Nat.mul_add]
    omega
  · have hfirst : (⟨n, 1⟩ : CaptureOrigin) ∈ block 1 (before + left) 1 := by
      refine mem_block.2 ⟨hn, ?_, rfl⟩
      show n < 1 + (before + left)
      omega
    rw [List.idxOf_append_of_mem hfirst, idxOf_block (by omega) (by omega), if_neg hlt]
    omega

/-- The numbers of capture `n` and its copies are those that a source is replaced by. -/
theorem numbersOf_unrolledOrigins {n : Nat} (hn : 0 < n)
    (hle : n ≤ before + left + right + after)
    (hfits : n + depths.length * (left + right) < UInt64.size) :
    numbersOf (fun o => o.capture = n) (unrolledOrigins before left right after depths) =
      (Renumbering.mk before left right depths.length
        (depths.length * (left + right))).sources n := by
  rw [numbersOf, unrolledOrigins, numbersFrom_append, numbersFrom_append, numbersFrom_append,
    numbersFrom_block, numbersFrom_block, length_block, length_flatMap_block, length_flatMap_block,
    List.length_reverse, Renumbering.sources_eq rfl hfits]
  by_cases hbefore : n ≤ before
  · -- Before the recursed text nothing is copied.
    rw [if_pos (by omega), if_neg (by omega), numbersFrom_flatMap_block_of_not (by omega),
      numbersFrom_flatMap_block_of_not (by omega), if_pos hbefore]
    simp only [List.append_nil]
    exact congrArg (fun m => [m]) (by omega)
  rw [if_neg hbefore]
  by_cases hafter : before + left + right < n
  · -- Nor is it behind the recursed text.
    rw [if_neg (by omega), if_pos (by omega), numbersFrom_flatMap_block_of_not (by omega),
      numbersFrom_flatMap_block_of_not (by omega), if_pos hafter, Nat.mul_add]
    simp only [List.nil_append]
    exact congrArg (fun m => [m]) (by omega)
  rw [if_neg hafter]
  by_cases hleft : n ≤ before + left
  · -- On the left the copies follow, each behind the captures of the one before it.
    rw [if_pos (by omega), if_neg (by omega), numbersFrom_flatMap_block (by omega) (by omega),
      numbersFrom_flatMap_block_of_not (by omega), if_pos hleft, List.range_succ_eq_map,
      List.map_cons, List.map_map]
    simp only [List.append_nil]
    refine congrArg₂ List.cons (by omega) (List.map_congr_left fun i _ => ?_)
    rw [Function.comp_apply, Nat.mul_succ]
    omega
  · -- On the right the copies come first, and the capture itself is the last.
    rw [if_neg (by omega), if_pos (by omega), numbersFrom_flatMap_block_of_not (by omega),
      numbersFrom_flatMap_block (by omega) (by omega), if_neg hleft, List.range_succ,
      List.map_append, List.map_singleton, List.length_reverse]
    simp only [List.nil_append]
    refine congrArg₂ (· ++ ·) (List.map_congr_left fun i _ => ?_) (congrArg (fun m => [m]) ?_)
    · rw [Nat.mul_comm depths.length]
      omega
    · rw [Nat.mul_comm depths.length left, Nat.mul_comm depths.length right]
      omega

end Unrolled

/-! ## What is computed from numbers alone -/

/-- The captures of the parts are found from those before the directive and those that the copies
bring. -/
theorem Renumbering.ofUnrolling_eq {copies : Nat} (hcopies : 0 < copies) (before left right : Nat) :
    ofUnrolling left copies (copies * (left + right)) (before + left) =
      ⟨before, left, right, copies, copies * (left + right)⟩ := by
  have hright : (copies * (left + right) - left * copies) / copies = right := by
    rw [Nat.mul_add, Nat.mul_comm left, Nat.add_sub_cancel_left, Nat.mul_div_cancel_left _ hcopies]
  rw [ofUnrolling, Nat.add_sub_cancel, hright]

/-- The hidden captures keep their order under their new numbers, and the copies follow. -/
theorem hideNew_eq {before left right after : Nat} {depths : List Nat} (hdepths : 1 ∉ depths)
    (hfits : before + left + right + after + depths.length * (left + right) < UInt64.size)
    {hidden : List Nat} (hhidden : ∀ n ∈ hidden, 0 < n ∧ n ≤ before + left + right + after) :
    hideNew (before + left) (depths.length * (left + right)) hidden =
      hidden.map (numberOf (unrolledOrigins before left right after depths)) ++
        numbersOf (fun o => o.depth ≠ 1) (unrolledOrigins before left right after depths) := by
  have hmoved : ∀ n ∈ hidden, before + left < n →
      n + depths.length * (left + right) < UInt64.size := by
    intro n hn _
    have hle := (hhidden n hn).2
    omega
  rw [numbersOf_copies _ _ _ _ hdepths, hideNew, foldl_shiftFrom hmoved]
  refine congrArg (· ++ _) (List.map_congr_left fun n hn => ?_)
  obtain ⟨hpos, hle⟩ := hhidden n hn
  rw [numberOf_unrolledOrigins _ _ _ _ hdepths hpos hle]
  by_cases hlt : before + left < n
  · rw [if_pos hlt, if_neg (Nat.not_le_of_lt hlt)]
  · rw [if_neg hlt, if_pos (Nat.le_of_not_lt hlt)]

/-- Where the copies bring no captures all numbers stay. -/
theorem Renumbering.eq_self_of_no_captures (before copies : Nat) {n : Nat} (hn : n < UInt64.size) :
    (mk before 0 0 copies 0).receiver n = n ∧ (mk before 0 0 copies 0).sources n = [n] := by
  have hself : addw n 0 = n := addw_of_lt hn
  constructor
  · simp only [receiver, hself, ite_self]
  · simp only [sources, Nat.add_zero, hself]
    by_cases hbefore : n ≤ before
    · rw [if_pos hbefore]
    · rw [if_neg hbefore, if_pos (Nat.lt_of_not_le hbefore)]

/-! ## Tables -/

namespace CaptureTransfers

/-- An entry behind all others is put in at the end. -/
theorem insertEntry_of_forall_lt {entry : Nat × List Nat} {es : List (Nat × List Nat)}
    (h : ∀ e ∈ es, e.1 < entry.1) : insertEntry entry es = es ++ [entry] := by
  induction es with
  | nil => rfl
  | cons e es ih =>
    obtain ⟨he, hes⟩ := List.forall_mem_cons.1 h
    rw [insertEntry, if_neg (Nat.lt_asymm he), if_neg (Nat.ne_of_gt he), ih hes, List.cons_append]

/-- Entries in the order of their receivers are all kept. -/
theorem entries_ofList {es : List (Nat × List Nat)} (h : es.Pairwise fun a b => a.1 < b.1) :
    (ofList es).entries = es := by
  -- Each entry is put in behind those before it.
  induction es using List.reverseRecOn with
  | nil => rfl
  | append_singleton es entry ih =>
    obtain ⟨hes, -, hlast⟩ := List.pairwise_append.1 h
    have hinsert : (ofList (es ++ [entry])).entries = insertEntry entry (ofList es).entries := by
      rw [ofList, List.foldl_append]
      rfl
    rw [hinsert, ih hes]
    exact insertEntry_of_forall_lt fun e he => hlast e he entry (List.mem_singleton_self entry)

/-- Where the receivers keep their order no entry is lost under the new numbers. -/
theorem entries_renumber {table : CaptureTransfers} {r : Renumbering}
    (hfits : ∀ entry ∈ table.entries, entry.1 + r.added < UInt64.size) :
    (table.renumber r).entries =
      table.entries.map fun entry => (r.receiver entry.1, entry.2.flatMap r.sources) := by
  refine entries_ofList (List.pairwise_map.2 (table.ascending.imp_of_mem fun _ hb hlt => ?_))
  exact Renumbering.receiver_lt_receiver hlt (hfits _ hb)

/-- Where the copies bring no captures a table in new numbers has the entries from before. -/
theorem entries_renumber_of_no_captures {table : CaptureTransfers} (before copies : Nat)
    (hwords : ∀ entry ∈ table.entries,
      entry.1 < UInt64.size ∧ ∀ n ∈ entry.2, n < UInt64.size) :
    (table.renumber ⟨before, 0, 0, copies, 0⟩).entries = table.entries := by
  have hsame : ∀ entry ∈ table.entries,
      ((Renumbering.mk before 0 0 copies 0).receiver entry.1,
        entry.2.flatMap (Renumbering.mk before 0 0 copies 0).sources) = entry := by
    intro entry hentry
    obtain ⟨hreceiver, hsources⟩ := hwords entry hentry
    rw [(Renumbering.eq_self_of_no_captures before copies hreceiver).1,
      List.flatMap_congr fun n hn =>
        (Renumbering.eq_self_of_no_captures before copies (hsources n hn)).2,
      List.flatMap_singleton']
  have hentries : (table.renumber ⟨before, 0, 0, copies, 0⟩).entries = _ :=
    entries_renumber fun entry hentry => (hwords entry hentry).1
  rw [hentries, List.map_congr_left hsame, List.map_id']

/-- Where copies bring captures, a table gets the numbers that belong to the parts of the
pattern. -/
theorem afterUnrolling_eq_renumber (table : CaptureTransfers) {leftText : Text} (before : Nat)
    {left right copies : Nat} (hadded : copies * (left + right) ≠ 0)
    (hleft : countCaptures leftText = left) :
    table.afterUnrolling leftText copies (copies * (left + right)) (before + left) =
      table.renumber ⟨before, left, right, copies, copies * (left + right)⟩ := by
  have hcopies : copies ≠ 0 := (Nat.mul_ne_zero_iff.1 hadded).1
  rw [afterUnrolling, if_neg (not_or.2 ⟨hadded, hcopies⟩), hleft,
    Renumbering.ofUnrolling_eq (Nat.pos_of_ne_zero hcopies)]

/-- The entries of a table that speaks of captures by words are those in new numbers, whether or not
the copies bring captures. -/
theorem entries_afterUnrolling_eq_entries_renumber {table : CaptureTransfers} {leftText : Text}
    (before right : Nat) {left copies : Nat} (hcopies : 0 < copies)
    (hleft : countCaptures leftText = left)
    (hwords : ∀ entry ∈ table.entries,
      entry.1 < UInt64.size ∧ ∀ n ∈ entry.2, n < UInt64.size) :
    (table.afterUnrolling leftText copies (copies * (left + right)) (before + left)).entries =
      (table.renumber ⟨before, left, right, copies, copies * (left + right)⟩).entries := by
  by_cases hadded : copies * (left + right) = 0
  · -- The table stays as it is, since there is nothing to renumber.
    have hsum := (Nat.mul_eq_zero.1 hadded).resolve_left (Nat.ne_of_gt hcopies)
    obtain ⟨rfl, rfl⟩ : left = 0 ∧ right = 0 := Nat.add_eq_zero_iff.1 hsum
    rw [afterUnrolling, if_pos (.inl hadded), hadded, entries_renumber_of_no_captures _ _ hwords]
  · rw [afterUnrolling_eq_renumber table before hadded hleft]

/-- A table has its receivers under their new numbers, and for each source that source and its
copies. -/
theorem entries_afterUnrolling {table : CaptureTransfers} {leftText : Text}
    {before left right after : Nat} {depths : List Nat} (hdepths : 1 ∉ depths) (hne : depths ≠ [])
    (hfits : before + left + right + after + depths.length * (left + right) < UInt64.size)
    (hleft : countCaptures leftText = left)
    (htable : ∀ entry ∈ table.entries, (0 < entry.1 ∧ entry.1 ≤ before + left + right + after) ∧
      ∀ n ∈ entry.2, 0 < n ∧ n ≤ before + left + right + after) :
    (table.afterUnrolling leftText depths.length (depths.length * (left + right))
        (before + left)).entries =
      table.entries.map fun entry =>
        (numberOf (unrolledOrigins before left right after depths) entry.1,
          entry.2.flatMap fun n => numbersOf (fun o => o.capture = n)
            (unrolledOrigins before left right after depths)) := by
  have hmoved : ∀ n, n ≤ before + left + right + after →
      n + depths.length * (left + right) < UInt64.size := by
    intro n hle
    omega
  have hwords : ∀ entry ∈ table.entries,
      entry.1 < UInt64.size ∧ ∀ n ∈ entry.2, n < UInt64.size := by
    intro entry hentry
    obtain ⟨⟨-, hle⟩, hsources⟩ := htable entry hentry
    exact ⟨Nat.lt_of_add_right_lt (hmoved _ hle),
      fun n hn => Nat.lt_of_add_right_lt (hmoved n (hsources n hn).2)⟩
  rw [entries_afterUnrolling_eq_entries_renumber before right (List.length_pos_iff.2 hne) hleft
    hwords, entries_renumber fun entry hentry => hmoved _ (htable entry hentry).1.2]
  refine List.map_congr_left fun entry hentry => ?_
  obtain ⟨⟨hpos, hle⟩, hsources⟩ := htable entry hentry
  refine Prod.ext ?_ (List.flatMap_congr fun n hn => ?_)
  · rw [numberOf_unrolledOrigins _ _ _ _ hdepths hpos hle]
    exact Renumbering.receiver_eq (hmoved _ hle)
  · obtain ⟨hpos, hle⟩ := hsources n hn
    exact (numbersOf_unrolledOrigins _ _ _ _ hpos hle (hmoved n hle)).symm

end CaptureTransfers

end RegexUnroll
