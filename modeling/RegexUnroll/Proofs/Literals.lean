import RegexUnroll.MaxDepth.Bytes
import RegexUnroll.Proofs.Names
import RegexUnroll.Proofs.Validation

/-!
# The literals of depths

`MaxDepth.ofBytes` checks the literal of a depth on its bytes. No byte of a character outside ASCII
is a digit (`all_isDigitByte_utf8EncodeChar`), so the bytes of a numeral are its characters, and
what overflows eight bits is beyond all depths. The check therefore accepts what
`MaxDepth.ofLiteral` accepts (`MaxDepth.ofBytes_eq`).

`ReadsExactly` says what that is: the decimal renderings of the numbers within the bounds, each of
which denotes its number. It holds of every text (`MaxDepth.readsExactly`).
-/

namespace RegexUnroll

/-! ## Bytes -/

/-- The digits are the bytes from 48 to 57. -/
theorem isDigitByte_ofNat {n : Nat} (hn : n < 256) :
    isDigitByte (UInt8.ofNat n) ↔ 48 ≤ n ∧ n ≤ 57 := by
  have hvalue : (UInt8.ofNat n).toNat = n := UInt8.toNat_ofNat_of_lt' hn
  simp only [isDigitByte, Bool.and_eq_true, decide_eq_true_eq, UInt8.le_iff_toNat_le, hvalue]
  rfl

/-- The bytes of a character are all digits exactly when it is one, as the first byte of a character
outside ASCII is beyond 191. -/
theorem all_isDigitByte_utf8EncodeChar (c : Char) :
    (String.utf8EncodeChar c).all isDigitByte = c.isDigit := by
  have hdigit : c.isDigit ↔ 48 ≤ c.val.toNat ∧ c.val.toNat ≤ 57 := Char.isDigit_iff_toNat
  have hfirst : ∀ {n : Nat} {bs : List UInt8}, 127 < c.val.toNat → 192 ≤ n → n < 256 →
      (UInt8.ofNat n :: bs).all isDigitByte = c.isDigit := by
    intro n bs hc hn hlt
    have hbyte : ¬isDigitByte (UInt8.ofNat n) := fun h => by
      have := (isDigitByte_ofNat hlt).1 h
      omega
    have hchar : ¬c.isDigit := fun h => by
      have := hdigit.1 h
      omega
    rw [List.all_cons, Bool.eq_false_iff.2 hbyte, Bool.eq_false_iff.2 hchar, Bool.false_and]
  rw [String.utf8EncodeChar]
  split
  · rw [List.all_cons, List.all_nil, Bool.and_true, Bool.eq_iff_iff,
      isDigitByte_ofNat (by omega), hdigit]
  · split
    · exact hfirst (by omega) (by omega) (by omega)
    · split <;> exact hfirst (by omega) (by omega) (by omega)

/-- A digit has one byte. -/
theorem utf8EncodeChar_digitChar {d : Nat} (hd : d < 10) :
    String.utf8EncodeChar d.digitChar = [UInt8.ofNat (48 + d)] := by
  have hvalue : d.digitChar.val.toNat = 48 + d := Nat.toNat_digitChar_of_lt_ten hd
  rw [String.utf8EncodeChar, hvalue, if_pos (by omega)]

/-- The byte of a digit comes before those of the text behind it. -/
theorem Text.bytes_digitChar_cons {d : Nat} (hd : d < 10) (t : Text) :
    Text.bytes (d.digitChar :: t) = UInt8.ofNat (48 + d) :: Text.bytes t := by
  rw [bytes, List.flatMap_cons, utf8EncodeChar_digitChar hd]
  rfl

/-- A text of digits has one byte for each of them. -/
theorem Text.length_bytes_of_digits {t : Text} (ht : t.all Char.isDigit) :
    t.bytes.length = t.length := by
  induction t with
  | nil => rfl
  | cons c t ih =>
    obtain ⟨hc, htail⟩ := Bool.and_eq_true_iff.1 (List.all_cons ▸ ht)
    obtain ⟨d, hd, rfl⟩ := Numeral.exists_digitChar_of_isDigit hc
    rw [bytes_digitChar_cons hd, List.length_cons, ih htail, List.length_cons]

/-! ## Numerals -/

namespace Numeral

/-- A digit other than `0` is one of the others. -/
theorem between_iff_ne_zero {c : Char} (hc : c.isDigit) : '1' ≤ c ∧ c ≤ '9' ↔ c ≠ '0' := by
  obtain ⟨d, hd, rfl⟩ := exists_digitChar_of_isDigit hc
  revert d
  decide

/-- In bytes the same texts are recognised. -/
theorem isCanonicalInBytes_eq (t : Text) : isCanonicalInBytes t = isCanonical t := by
  have hbytes : t.bytes.all isDigitByte = t.all Char.isDigit := by
    rw [Text.bytes, List.all_flatMap]
    exact congrArg t.all (funext all_isDigitByte_utf8EncodeChar)
  rw [isCanonicalInBytes, hbytes]
  match t with
  | [] => rfl
  | c :: t =>
    by_cases hc : c.isDigit
    · have hhead : ('1' ≤ c && c ≤ '9') = (c != '0') := by
        rw [Bool.eq_iff_iff]
        simpa using between_iff_ne_zero hc
      rw [isCanonical, List.head?_cons, Option.any_some, hhead]
    · simp [isCanonical, hc]

/-- The numerals are the renderings of the positive numbers. -/
theorem isCanonical_iff {t : Text} : isCanonical t ↔ ∃ n, 1 ≤ n ∧ t = render n := by
  rw [← isSome_value?, Option.isSome_iff_exists]
  exact exists_congr fun n => value?_eq_some_iff

/-- A rendering has digits only. -/
theorem all_isDigit_render (n : Nat) : (render n).all Char.isDigit :=
  List.all_eq_true.2 fun _ => isDigit_of_mem_render

/-- The value of digits is at least that of the digits before them. -/
theorem le_ofDigitChars (n : Nat) (t : Text) : n ≤ Nat.ofDigitChars 10 t n := by
  have hpow : 0 < 10 ^ t.length := Nat.pow_pos (by decide)
  rw [Nat.ofDigitChars_eq_ofDigitChars_zero]
  exact Nat.le_add_right_of_le (Nat.le_mul_of_pos_left n hpow)

end Numeral

/-! ## Numbers of eight bits -/

/-- One more digit is read as long as the number has eight bits. -/
theorem pushDigit?_digit (n : UInt8) {d : Nat} (hd : d < 10) :
    pushDigit? n (UInt8.ofNat (48 + d)) =
      if 10 * n.toNat + d < 256 then some (UInt8.ofNat (10 * n.toNat + d)) else none := by
  have hbyte : isDigitByte (UInt8.ofNat (48 + d)) := (isDigitByte_ofNat (by omega)).2 (by omega)
  have hdigit : UInt8.ofNat (48 + d) - 48 = UInt8.ofNat d := by
    revert d
    decide
  have hvalue : (UInt8.ofNat d).toNat = d := UInt8.toNat_ofNat_of_lt' (show d < 256 by omega)
  have hten : (10 : UInt8).toNat = 10 := rfl
  rw [pushDigit?, if_pos hbyte, hdigit, mulOctet?, hten]
  by_cases htens : n.toNat * 10 < 256
  · have hproduct : (n * 10).toNat = 10 * n.toNat := by
      rw [UInt8.toNat_mul, hten, Nat.mod_eq_of_lt htens, Nat.mul_comm]
    have hsum : n * 10 + UInt8.ofNat d = UInt8.ofNat (10 * n.toNat + d) := by
      rw [UInt8.ofNat_add, ← hproduct, UInt8.ofNat_toNat]
    rw [if_pos htens, Option.bind_eq_bind, Option.bind_some, addOctet?, hproduct, hvalue, hsum]
  · rw [if_neg htens, if_neg (by omega)]
    rfl

/-- Digits are read on from a number as long as the number has eight bits. -/
theorem foldlM_pushDigit? {t : Text} (ht : t.all Char.isDigit) (n : UInt8) :
    t.bytes.foldlM pushDigit? n =
      if Nat.ofDigitChars 10 t n.toNat < 256 then some (UInt8.ofNat (Nat.ofDigitChars 10 t n.toNat))
      else none := by
  induction t generalizing n with
  | nil =>
    rw [Nat.ofDigitChars_nil, if_pos n.toNat_lt, UInt8.ofNat_toNat]
    rfl
  | cons c t ih =>
    obtain ⟨hc, htail⟩ := Bool.and_eq_true_iff.1 (List.all_cons ▸ ht)
    obtain ⟨d, hd, rfl⟩ := Numeral.exists_digitChar_of_isDigit hc
    rw [Text.bytes_digitChar_cons hd, List.foldlM_cons, pushDigit?_digit n hd,
      Nat.ofDigitChars_cons_digitChar_of_lt_ten hd]
    by_cases hlt : 10 * n.toNat + d < 256
    · rw [if_pos hlt, Option.bind_eq_bind, Option.bind_some, ih htail, UInt8.toNat_ofNat_of_lt' hlt]
    · -- The number does not fit, and with the digits behind it it does so even less.
      have hle := Numeral.le_ofDigitChars (10 * n.toNat + d) t
      rw [if_neg hlt, if_neg (by omega)]
      rfl

/-- The rendering of a number is read as it, if it has eight bits. -/
theorem readOctet?_render (n : Nat) :
    readOctet? (Numeral.render n).bytes = if n < 256 then some (UInt8.ofNat n) else none := by
  have hread := foldlM_pushDigit? (Numeral.all_isDigit_render n) 0
  have hvalue : Nat.ofDigitChars 10 (Numeral.render n) (0 : UInt8).toNat = n :=
    Nat.ofDigitChars_ten_toDigits
  have hsign : ∀ d < 10, some (UInt8.ofNat (48 + d)) ≠ some 43 := by decide
  -- There is a first byte, and it is the one of a digit, not of a sign.
  obtain ⟨c, t, ht⟩ := List.exists_cons_of_ne_nil (Numeral.render_ne_nil n)
  obtain ⟨d, hd, rfl⟩ := Numeral.exists_digitChar_of_isDigit
    (Numeral.isDigit_of_mem_render (ht ▸ List.mem_cons_self))
  rw [hvalue] at hread
  rw [← hread, readOctet?, ht, Text.bytes_digitChar_cons hd, List.head?_cons, if_neg (hsign d hd),
    if_neg (List.cons_ne_nil _ _)]

/-! ## Depths -/

namespace MaxDepth

/-- No number beyond a hundred is a depth. -/
theorem ofNat?_eq_none {n : Nat} (hn : 100 < n) : ofNat? n = none :=
  dif_neg fun h => Nat.not_le_of_lt hn h.2

/-- The numbers that do not have eight bits are no depths, so none is missed. -/
theorem readOctet?_render_bind_ofNat? (n : Nat) :
    ((readOctet? (Numeral.render n).bytes).bind fun n => ofNat? n.toNat) = ofNat? n := by
  rw [readOctet?_render]
  by_cases hlt : n < 256
  · rw [if_pos hlt, Option.bind_some, UInt8.toNat_ofNat_of_lt' hlt]
  · rw [if_neg hlt, Option.bind_none, ofNat?_eq_none (by omega)]

/-- On bytes the same literals denote the same depths. -/
theorem ofBytes_eq (literal : Text) : ofBytes literal = ofLiteral literal := by
  rw [ofBytes, Numeral.isCanonicalInBytes_eq]
  by_cases hcanonical : Numeral.isCanonical literal
  · obtain ⟨n, hn, rfl⟩ := Numeral.isCanonical_iff.1 hcanonical
    have hdepth : ofLiteral? (Numeral.render n) = ofNat? n := by
      rw [ofLiteral?, Numeral.value?_render hn, Option.bind_some]
    have hlength : (Numeral.render n).length ≤ 3 ↔ n < 1000 :=
      Nat.length_toDigits_le_iff (by decide) (by decide)
    rw [hcanonical, Text.length_bytes_of_digits (Numeral.all_isDigit_render n),
      readOctet?_render_bind_ofNat?, ← hdepth]
    by_cases hlong : 3 < (Numeral.render n).length
    · have hnone : ofLiteral? (Numeral.render n) = none := by
        rw [hdepth, ofNat?_eq_none (by omega)]
      rw [if_pos (by simp [hlong]), ofLiteral_eq_error hnone]
    · rw [if_neg (by simp [hlong])]
      rfl
  · have hnone : ofLiteral? literal = none := by
      rw [ofLiteral?, Numeral.value?, if_neg hcanonical, Option.bind_none]
    rw [if_pos (by simp [hcanonical]), ofLiteral_eq_error hnone]

/-- Neither signs nor leading zeros nor digits of other scripts are taken, nor numbers out of
bounds. -/
example : ∀ s ∈ ["", "+2", "-2", "02", "2.5", "\u0662", "1", "101", "256", "1000"],
    ofBytes s.toList = .error (.invalidDepth s.toList) := by
  decide +kernel

end MaxDepth

/-- What a text is read as, where a numeral is expected or the literal of a depth. -/
structure ReadsExactly (s : Text) : Prop where
  /-- The numerals are the renderings of the positive numbers. -/
  isCanonical_iff : Numeral.isCanonical s ↔ ∃ n, 1 ≤ n ∧ s = Numeral.render n
  /-- They are recognised by their bytes. -/
  isCanonicalInBytes_eq : Numeral.isCanonicalInBytes s = Numeral.isCanonical s
  /-- A literal denotes the depth within the bounds whose rendering it is. -/
  ofLiteral_eq_ok_iff : ∀ d : MaxDepth,
    MaxDepth.ofLiteral s = .ok d ↔ (2 ≤ d.value ∧ d.value ≤ 100) ∧ s = Numeral.render d.value
  /-- So every number within the bounds has a literal. -/
  exists_ofLiteral_eq_ok_iff : (∃ d, MaxDepth.ofLiteral s = .ok d) ↔ IsDepth s
  /-- All other texts are rejected, and reported as they stand. -/
  ofLiteral_eq_error_iff : ∀ rejection,
    MaxDepth.ofLiteral s = .error rejection ↔ ¬IsDepth s ∧ rejection = .invalidDepth s
  /-- Depths are found on the bytes. -/
  ofBytes_eq : MaxDepth.ofBytes s = MaxDepth.ofLiteral s
  /-- A depth is rendered as the literal that it has been read from. -/
  render_eq : ∀ d, MaxDepth.ofLiteral s = .ok d → d.render = s
  /-- Another literal denotes another depth. -/
  eq_of_ofLiteral_eq_ok : ∀ s' d,
    MaxDepth.ofLiteral s = .ok d → MaxDepth.ofLiteral s' = .ok d → s = s'
  /-- The depths are in the order of the numbers that the literals render. -/
  le_iff : ∀ s' d d' n n', MaxDepth.ofLiteral s = .ok d → MaxDepth.ofLiteral s' = .ok d' →
    s = Numeral.render n → s' = Numeral.render n' → (d ≤ d' ↔ n ≤ n')

/-- A literal is accepted as a depth exactly when it is the rendering of that depth. -/
theorem MaxDepth.ofLiteral_eq_ok_iff_eq_render {s : Text} {d : MaxDepth} :
    ofLiteral s = .ok d ↔ s = d.render :=
  ofLiteral_eq_ok_iff.trans ofLiteral?_eq_some_iff

/-- Whatever is no depth is rejected as an invalid one. -/
theorem MaxDepth.ofLiteral_eq_error_iff {s : Text} {rejection : Rejection} :
    ofLiteral s = .error rejection ↔ ¬IsDepth s ∧ rejection = .invalidDepth s := by
  rw [← isSome_ofLiteral?_iff]
  match hfound : ofLiteral? s with
  | some d => simp [ofLiteral_eq_ok_iff.2 hfound]
  | none => simp [ofLiteral_eq_error hfound, eq_comm]

/-- Numerals and the literals of depths are read exactly in their canonical form. -/
theorem MaxDepth.readsExactly (s : Text) : ReadsExactly s where
  isCanonical_iff := Numeral.isCanonical_iff
  isCanonicalInBytes_eq := Numeral.isCanonicalInBytes_eq s
  ofLiteral_eq_ok_iff d := by
    rw [ofLiteral_eq_ok_iff_eq_render, and_iff_right ⟨d.two_le, d.le_hundred⟩]
    rfl
  exists_ofLiteral_eq_ok_iff := by
    rw [← isSome_ofLiteral?_iff, Option.isSome_iff_exists]
    exact exists_congr fun d => ofLiteral_eq_ok_iff
  ofLiteral_eq_error_iff _ := MaxDepth.ofLiteral_eq_error_iff
  ofBytes_eq := ofBytes_eq s
  render_eq _ hd := (ofLiteral_eq_ok_iff_eq_render.1 hd).symm
  eq_of_ofLiteral_eq_ok s' d hd hd' := by
    rw [ofLiteral_eq_ok_iff_eq_render.1 hd, ofLiteral_eq_ok_iff_eq_render.1 hd']
  le_iff s' d d' n n' hd hd' hn hn' := by
    have hvalue : ∀ {s : Text} {d : MaxDepth} {n : Nat}, ofLiteral s = .ok d →
        s = Numeral.render n → d.value = n := fun hd hn =>
      Numeral.render_inj ((ofLiteral_eq_ok_iff_eq_render.1 hd).symm.trans hn)
    rw [MaxDepth.le_iff, hvalue hd hn, hvalue hd' hn']

end RegexUnroll
