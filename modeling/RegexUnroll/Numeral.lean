import RegexUnroll.Text

/-!
# Decimal numerals

The canonical numeral of a positive number is its decimal rendering: ASCII digits without sign,
the first of them not a zero. `render` writes one, `isCanonical` recognises one and `value?` reads
it. Reading accepts exactly what writing produces (`value?_eq_some_iff`), so every positive number
has one numeral and every numeral one number.
-/

namespace RegexUnroll.Numeral

/-- The decimal digits of a number. -/
def render (n : Nat) : Text := Nat.toDigits 10 n

/-- Whether a text is the rendering of a positive number: digits only, and the first not `0`. -/
def isCanonical : Text → Bool
  | [] => false
  | c :: t => c != '0' && (c :: t).all Char.isDigit

/-- The number that a canonical numeral denotes. -/
def value? (t : Text) : Option Nat :=
  if isCanonical t then some (Nat.ofDigitChars 10 t 0) else none

/-! ## Digits -/

/-- The digits are the ten characters that `Nat.digitChar` gives below ten. -/
theorem exists_digitChar_of_isDigit {c : Char} (h : c.isDigit) : ∃ d < 10, c = d.digitChar := by
  have hc : 48 ≤ c.toNat ∧ c.toNat ≤ 57 := Char.isDigit_iff_toNat.1 h
  refine ⟨c.toNat - 48, by omega, Char.toNat_inj.1 ?_⟩
  rw [Nat.toNat_digitChar_of_lt_ten (by omega)]
  omega

/-- Digits after a positive number extend its rendering. -/
theorem render_ofDigitChars {n : Nat} (hn : 0 < n) {t : Text} (ht : t.all Char.isDigit) :
    render (Nat.ofDigitChars 10 t n) = render n ++ t := by
  induction t generalizing n with
  | nil => simp
  | cons c t ih =>
    simp only [List.all_cons, Bool.and_eq_true] at ht
    obtain ⟨d, hd, rfl⟩ := exists_digitChar_of_isDigit ht.1
    rw [Nat.ofDigitChars_cons_digitChar_of_lt_ten hd, ih (by omega) ht.2, render, render,
      ← Nat.toDigits_append_toDigits (by decide) hn hd, Nat.toDigits_of_lt_base hd]
    simp

/-- Every character of a rendering is a digit. -/
theorem isDigit_of_mem_render {n : Nat} {c : Char} (h : c ∈ render n) : c.isDigit :=
  Nat.isDigit_of_mem_toDigits (by decide) (by decide) h

/-- A rendering has at least one digit. -/
theorem render_ne_nil (n : Nat) : render n ≠ [] := Nat.toDigits_ne_nil

/-- The rendering of a positive number does not begin with a zero. -/
theorem head?_render_ne_zero {n : Nat} (hn : 0 < n) : (render n).head? ≠ some '0' := by
  induction n using Nat.strongRecOn with
  | _ n ih =>
    rw [render, Nat.toDigits_eq_if (by decide)]
    split
    · simpa using by omega
    · obtain ⟨c, t, hr⟩ := List.exists_cons_of_ne_nil (render_ne_nil (n / 10))
      have := ih (n / 10) (by omega) (by omega)
      rw [hr] at this
      rw [← render, hr]
      exact this

/-! ## Reading and writing -/

/-- Reading accepts exactly the renderings of the positive numbers. -/
theorem value?_eq_some_iff {t : Text} {n : Nat} : value? t = some n ↔ 0 < n ∧ t = render n := by
  constructor
  · intro h
    match t with
    | [] => simp [value?, isCanonical] at h
    | c :: t =>
      simp only [value?, isCanonical, List.all_cons, Bool.and_eq_true, bne_iff_ne,
        Option.ite_none_right_eq_some, Option.some.injEq] at h
      obtain ⟨⟨h0, hc, ht⟩, rfl⟩ := h
      obtain ⟨d, hd, rfl⟩ := exists_digitChar_of_isDigit hc
      have hpos : 0 < d := Nat.pos_of_ne_zero fun h => h0 (by simp [h])
      rw [Nat.ofDigitChars_cons_digitChar_of_lt_ten hd, Nat.mul_zero, Nat.zero_add]
      refine ⟨?_, ?_⟩
      · rw [Nat.ofDigitChars_eq_ofDigitChars_zero]
        exact Nat.add_pos_left (Nat.mul_pos (Nat.pow_pos (by decide)) hpos) _
      · rw [render_ofDigitChars hpos ht, render, Nat.toDigits_of_lt_base hd]
        rfl
  · rintro ⟨hn, rfl⟩
    have hcanonical : isCanonical (render n) = true := by
      match hr : render n with
      | [] => exact absurd hr (render_ne_nil n)
      | c :: t =>
        have h0 : c ≠ '0' := by simpa [hr] using head?_render_ne_zero hn
        have hd : ∀ x ∈ c :: t, x.isDigit := fun x hx => isDigit_of_mem_render (hr ▸ hx)
        simpa [isCanonical, h0] using hd
    rw [value?, if_pos hcanonical, render, Nat.ofDigitChars_ten_toDigits]

/-- The rendering of a positive number is read back. -/
theorem value?_render {n : Nat} (hn : 0 < n) : value? (render n) = some n :=
  value?_eq_some_iff.2 ⟨hn, rfl⟩

/-- A text is canonical exactly when it denotes a number. -/
theorem isSome_value? (t : Text) : (value? t).isSome = isCanonical t := by
  by_cases h : isCanonical t <;> simp [value?, h]

end RegexUnroll.Numeral
