import RegexUnroll.Proofs.NumberedBackrefs
import RegexUnroll.Proofs.RecursiveNest
import RegexUnroll.Proofs.Unchanged

/-!
# New numbers without remainder

The new numbers of captures are computed from three counts: the captures before the directive, those
of the recursed text to its left, and those that the copies have brought. The first is counted over
the whole pattern, the second over a text cut out of it, and the third by the loops that write the
copies. What is left after two subtractions and a division is taken for the captures on the right.

`CountsExactly` says that nothing is lost on the way: no subtraction goes below zero and the
division leaves no remainder. This holds of every pattern that is unrolled
(`Expansion.countsExactly_write`), whether or not its groups are balanced. The number on the right
is that of the text with a `)` behind it, as it is copied. It may be smaller than that of the text
by itself, where the `)` completes what was cut off.
-/

namespace RegexUnroll

/-- Whether the captures around an unrolled directive are computed without loss, where its copies
have brought `added` captures. -/
structure CountsExactly (r : Recursion) (added : Nat) : Prop where
  /-- The captures on the left are among those before the directive. -/
  left_le : countCaptures r.left ≤ r.capturesBefore
  /-- The copies of the text on the left have brought a part of the new captures. -/
  left_mul_copies_le : countCaptures r.left * r.depth.copies ≤ added
  /-- There are copies to divide by. -/
  copies_pos : 0 < r.depth.copies
  /-- The other new captures are as many in each copy. -/
  copies_dvd : r.depth.copies ∣ added - countCaptures r.left * r.depth.copies
  /-- In each copy they are those of the text on the right, as it is copied. -/
  div_copies_eq : (added - countCaptures r.left * r.depth.copies) / r.depth.copies =
    countCaptures (r.right ++ [')'])
  /-- As it is copied, the text on the right opens no more captures than by itself. -/
  right_le : countCaptures (r.right ++ [')']) ≤ countCaptures r.right
  /-- So the captures on both sides make up the new ones. -/
  added_eq : added = r.depth.copies * (countCaptures r.left + countCaptures (r.right ++ [')']))
  /-- The new numbers are computed from the numbers of the parts. -/
  renumbering_eq :
    Renumbering.ofUnrolling (countCaptures r.left) r.depth.copies added r.capturesBefore =
      ⟨r.capturesBefore - countCaptures r.left, countCaptures r.left,
        countCaptures (r.right ++ [')']), r.depth.copies, added⟩

/-- Counts that fit together lose nothing: the first includes the captures on the left, and the new
captures are those of both sides, once for each copy. -/
theorem CountsExactly.of_counts {r : Recursion} {added : Nat}
    (hbefore : countCaptures r.left ≤ r.capturesBefore)
    (hadded : added =
      r.depth.copies * (countCaptures r.left + countCaptures (r.right ++ [')']))) :
    CountsExactly r added := by
  have hcopies : 0 < r.depth.copies := r.depth.copies_pos
  have hsplit : added =
      countCaptures r.left * r.depth.copies + r.depth.copies * countCaptures (r.right ++ [')']) := by
    rw [hadded, Nat.mul_add, Nat.mul_comm (countCaptures r.left)]
  have hrest : added - countCaptures r.left * r.depth.copies =
      r.depth.copies * countCaptures (r.right ++ [')']) := by
    rw [hsplit, Nat.add_sub_cancel_left]
  have hrenumbering := Renumbering.ofUnrolling_eq hcopies
    (r.capturesBefore - countCaptures r.left) (countCaptures r.left)
    (countCaptures (r.right ++ [')']))
  rw [Nat.sub_add_cancel hbefore, ← hadded] at hrenumbering
  exact {
    left_le := hbefore
    left_mul_copies_le := hsplit ▸ Nat.le_add_right ..
    copies_pos := hcopies
    copies_dvd := hrest ▸ Nat.dvd_mul_right ..
    div_copies_eq := by rw [hrest, Nat.mul_div_cancel_left _ hcopies]
    right_le := countCaptures_append_paren_le r.right
    added_eq := hadded
    renumbering_eq := hrenumbering }

namespace Recursion

variable {p : Text} {mode : Mode} {r : Recursion}

/-- A pattern with a recursion is taken apart around the first of its directives, between
lexemes. -/
theorem exists_parts_of_ofPattern (h : ofPattern p mode = .ok (some r)) :
    ∃ d span depth before left x right after, Parts p d span before left x right after ∧
      r = around p d span depth := by
  rw [ofPattern_eq_ofScan, ofScan] at h
  rcases hdirectives : directives p with _ | ⟨d, others⟩
  · simp [hdirectives] at h
  · rw [hdirectives] at h
    dsimp only at h
    rcases hfound : ofDirectives p mode d others with _ | r'
    · simp [hfound] at h
    · rw [hfound] at h
      obtain rfl : r' = r := Option.some.inj (Except.ok.inj h)
      obtain ⟨-, span, depth, hspan, -, rfl⟩ := of_ofDirectives_eq_ok hfound
      have hd : d ∈ directives p := hdirectives ▸ List.mem_cons_self
      obtain ⟨before, left, x, right, after, hparts⟩ := exists_parts hd hspan
      exact ⟨d, span, depth, before, left, x, right, after, hparts, rfl⟩

/-- The captures on the left are opened before the directive, whether they are counted on the text
cut out there or over the whole pattern. -/
theorem countCaptures_left_le (h : ofPattern p mode = .ok (some r)) :
    countCaptures r.left ≤ r.capturesBefore := by
  obtain ⟨d, span, depth, before, left, x, right, after, hparts, rfl⟩ := exists_parts_of_ofPattern h
  rw [hparts.around_eq]
  calc countCaptures (spell (left.map Lexeme.token))
    _ = opened left := hparts.countCaptures_left
    _ ≤ opened before + opened left := Nat.le_add_left ..
    _ = d.capturesBefore := hparts.capturesBefore_eq_opened.symm

end Recursion

/-- A pattern that has a recursion is unrolled, and its captures get new numbers without loss. -/
theorem Expansion.countsExactly_write {e : Expansion} {mode : Mode} {r : Recursion}
    (h : Recursion.ofPattern e.pattern mode = .ok (some r)) :
    e.expand mode = .ok (writeRecursion r e.hiddenCaptures e.captureTransfers) ∧
      CountsExactly r
        (Id.run (r.nesting.write.run (.ofExisting e.hiddenCaptures r.capturesBefore))).2.added.length
      := by
  constructor
  · rw [← expandInOnePass_eq, expandInOnePass, h]
    rfl
  · refine .of_counts (Recursion.countCaptures_left_le h) ?_
    exact (r.nesting.length_added_write ..).trans r.nesting.newCaptures_eq_mul

/-- The `)` behind a copied text may complete a directive that was cut off, and take two openings of
captures into it: of three on the right one is copied. -/
theorem Expansion.countsExactly_write_of_cutOff_directive :
    let e : Expansion := ⟨"(a)(?R=3)(b)(?R=((".toList, [1, 3], .ofList [(1, [2, 3])]⟩
    let r : Recursion :=
      ⟨[], "(a)".toList, "(b)(?R=((".toList, [], .global, ⟨3, by decide, by decide⟩, 1⟩
    Recursion.ofPattern e.pattern .plugin = .ok (some r) ∧
      e.expand .plugin = .ok (writeRecursion r e.hiddenCaptures e.captureTransfers) ∧
      CountsExactly r 4 ∧
      countCaptures r.right = 3 ∧ countCaptures (r.right ++ [')']) = 1 := by
  intro e r
  have hr : Recursion.ofPattern e.pattern .plugin = .ok (some r) := by decide +kernel
  obtain ⟨hexpand, hcounts⟩ := countsExactly_write hr
  have hadded : (Id.run (r.nesting.write.run
      (.ofExisting e.hiddenCaptures r.capturesBefore))).2.added.length = 4 := by decide +kernel
  exact ⟨hr, hexpand, hadded ▸ hcounts, by decide +kernel, by decide +kernel⟩

end RegexUnroll
