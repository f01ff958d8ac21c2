import DesignTokens.Proofs.Decimal.Text

/-!
# The text of a float in a document

* `mantissa_of_beq_zero` : what equals zero has the mantissa zero;
* `writes_scientific`, `writes_decimalChars` : a decimal is read back with its exponent and
  without;
* `readFinite?_floatChars` : so the text of a finite float is read back as that float, as a decimal text and
  not as a number of a document;
* `floatChars_injective` : finite floats with the same text are the same.
-/

namespace DesignTokens

/-! ## Zeros -/

namespace Decimal

open Float.Model

variable {x : Float}

theorem fields_of_unpack_eq_zero {b : BitVec 64} {sign : UnpackedFloat.Sign}
    (h : UnpackedFloat.unpack .binary64 b = .zero sign) :
    (@UnpackedFloat.unpackExponent .binary64 b).toNat = 0 ∧ (@UnpackedFloat.unpackMantissa .binary64 b).toNat = 0 := by
  unfold UnpackedFloat.unpack at h
  dsimp only at h
  split_ifs at h with hones hfraction hexponent hmantissa
  exact ⟨by rw [hexponent]; rfl, by rw [hmantissa]; rfl⟩

theorem mantissa_of_beq_zero (h : (x == 0.0) = true) : mantissa x = 0 := by
  have hbeq : (UnpackedFloat.unpack .binary64 x.toBits.toBitVec).beq (.zero .positive) = true := h
  obtain ⟨sign, hzero⟩ : ∃ sign, UnpackedFloat.unpack .binary64 x.toBits.toBitVec = .zero sign := by
    generalize UnpackedFloat.unpack .binary64 x.toBits.toBitVec = u at hbeq
    cases u with
    | notANumber => cases hbeq
    | infinity sign => cases sign <;> cases hbeq
    | finite sign m e hm => cases sign <;> cases hbeq
    | zero sign => exact ⟨sign, rfl⟩
  obtain ⟨hexponent, hfraction⟩ := fields_of_unpack_eq_zero hzero
  rw [toNat_unpackExponent] at hexponent
  rw [toNat_unpackMantissa] at hfraction
  rw [mantissa, biasedExponent, fraction, if_pos hexponent, hfraction]

end Decimal

namespace Decimal

variable {cs whole part rest : List Char} {e : ℤ} {x : Float}

/-! ## Unsigned decimals -/

/-- The text begins with a digit, and the decimal that it writes is nearest to `x`. -/
def Writes (cs : List Char) (x : Float) : Prop :=
  cs.takeWhile Char.isDigit ≠ [] ∧ readUnsigned? cs = some x

theorem writes_of_takeDigits (htake : takeDigits cs = (whole, part, rest)) (hwhole : whole ≠ [])
    (hrest : readTail? rest = some e) : Writes cs (ofScaled (natOfDigits (whole ++ part)) (e - part.length)) := by
  refine ⟨?_, ?_⟩
  · rwa [← takeDigits_fst, htake]
  · rw [readUnsigned?, htake]
    simp [hwhole, hrest]

theorem toLower_of_isDigit {c : Char} (h : c.isDigit = true) : c.toLower = c := by
  unfold Char.toLower
  simp only [Char.isDigit, Bool.and_eq_true, decide_eq_true_eq] at h
  grind

/-- What begins with a digit is none of the words for floats that are not finite. -/
theorem readWord?_eq_none (h : cs.takeWhile Char.isDigit ≠ []) : readWord? cs = none := by
  cases cs with
  | nil => exact absurd rfl h
  | cons c cs =>
    have hdigit : c.isDigit = true := by
      by_contra hc
      exact h (List.takeWhile_cons_of_neg hc)
    have hword (word : String) (hletter : ∀ d ∈ word.toList.head?, d.isDigit = false) :
        String.ofList ((c :: cs).map Char.toLower) ≠ word := by
      rintro rfl
      rw [String.toList_ofList, List.map_cons, toLower_of_isDigit hdigit] at hletter
      have hno := hletter c rfl
      rw [hdigit] at hno
      cases hno
    unfold readWord?
    split
    · exact absurd ‹_› (hword "inf" (by simp))
    · exact absurd ‹_› (hword "infinity" (by simp))
    · exact absurd ‹_› (hword "nan" (by simp))
    · rfl

/-- What a text writes is read of it, also behind a minus. -/
theorem Writes.read? (h : Writes cs x) : Decimal.read? cs = some x ∧ Decimal.read? ('-' :: cs) = some (-x) := by
  have hword := readWord?_eq_none h.1
  constructor
  · rw [Decimal.read?, takeSign_of_digits h.1]
    simp [hword, h.2]
  · rw [Decimal.read?, takeSign]
    simp [hword, h.2]

end Decimal

namespace Number

open Decimal

variable {x y : Float} {s : Scaled}

/-! ## Decimals -/

theorem readTail?_exponentChars (e : ℤ) : readTail? ('e' :: exponentChars e) = some e := by
  have hdigits : (digitsOf e.natAbs).all Char.isDigit = true :=
    List.all_eq_true.2 fun c hc => digitsOf_isDigit hc
  have hne : (digitsOf e.natAbs).isEmpty = false := by simpa using digitsOf_ne_nil e.natAbs
  rw [readTail?, if_pos (by decide), exponentChars]
  by_cases hnegative : e < 0
  · rw [if_pos hnegative, readExponent?]
    simp [takeSign, hdigits, hne, natOfDigits_digitsOf, abs_of_neg hnegative]
  · rw [if_neg hnegative, readExponent?]
    simp [takeSign, hdigits, hne, natOfDigits_digitsOf, abs_of_nonneg (not_lt.1 hnegative)]

/-- The first digit stands before the point, if there is one, and the others behind it. -/
theorem writes_scientific (s : Scaled) : Writes (scientific s) (ofScaled s.coefficient s.power) := by
  have hdigits : ∀ c ∈ digitsOf s.coefficient, c.isDigit = true := fun c hc => digitsOf_isDigit hc
  have hvalue := natOfDigits_digitsOf s.coefficient
  unfold scientific
  cases hds : digitsOf s.coefficient with
  | nil => exact absurd hds (digitsOf_ne_nil _)
  | cons d rest =>
    rw [hds] at hdigits hvalue
    obtain ⟨hd, hrest⟩ := List.forall_mem_cons.1 hdigits
    have hlength : s.power + ((d :: rest).length : ℤ) - 1 - rest.length = s.power := by
      rw [List.length_cons]
      omega
    dsimp only
    generalize s.power + ((d :: rest).length : ℤ) - 1 = e at hlength
    rw [← hlength, ← hvalue]
    have htail := readTail?_exponentChars e
    cases rest with
    | nil =>
      have htake : takeDigits ([d] ++ 'e' :: exponentChars e) = ([d], [], 'e' :: exponentChars e) := by
        simp [takeDigits, hd]
      exact writes_of_takeDigits htake (List.cons_ne_nil _ _) htail
    | cons d' rest =>
      have hletter : ∀ c ∈ ('e' :: exponentChars e).head?, c.isDigit = false := by simp
      have htake : takeDigits ([d] ++ '.' :: (d' :: rest ++ 'e' :: exponentChars e)) =
          ([d], d' :: rest, 'e' :: exponentChars e) :=
        takeDigits_point_append (by simpa using hd) hrest hletter
      exact writes_of_takeDigits htake (List.cons_ne_nil _ _) htail

/-- A whole number has a zero behind its point, which does not change what the digits write. -/
theorem writes_positional_point (hpower : 0 ≤ s.power) :
    Writes (positional s ++ ['.', '0']) (ofScaled s.coefficient s.power) := by
  obtain ⟨hdigits, hne, hvalue⟩ := digits_positional hpower
  have htake : takeDigits (positional s ++ '.' :: ['0']) = (positional s, ['0'], []) :=
    takeDigits_point hdigits (by simp)
  have hzero : natOfDigits (positional s ++ ['0']) = natOfDigits (positional s) * 10 ^ 1 :=
    natOfDigits_append_zeros _ 1
  have hscaled : ofScaled (natOfDigits (positional s ++ ['0'])) (0 - (['0'].length : ℤ)) =
      ofScaled s.coefficient s.power := by
    refine ofScaled_congr ?_
    rw [hzero, Nat.cast_mul, hvalue, Scaled.value]
    simp
  rw [← hscaled]
  exact writes_of_takeDigits htake hne rfl

theorem writes_decimalChars (s : Scaled) : Writes (decimalChars s) (ofScaled s.coefficient s.power) := by
  unfold decimalChars
  dsimp only
  split
  · split
    · exact writes_positional_point ‹_›
    · obtain ⟨whole, part, htake, hwhole, hvalue⟩ := takeDigits_positional s
      rw [List.append_nil, ← ofScaled_congr hvalue, ← zero_sub]
      exact writes_of_takeDigits htake hwhole rfl
  · exact writes_scientific s

theorem writes_zero : Writes ['0', '.', '0'] (ofScaled 0 0) := by
  have hpositional : positional ⟨0, 0⟩ = ['0'] := by decide
  have hwrites : Writes (positional ⟨0, 0⟩ ++ ['.', '0']) (ofScaled 0 0) := writes_positional_point le_rfl
  rwa [hpositional] at hwrites

/-! ## Floats -/

/-- Behind its sign the text of a finite float writes its magnitude. -/
theorem exists_floatChars (hx : x.isFinite = true) : ∃ unsigned, floatChars x = withSign x unsigned ∧
    Writes unsigned (Float.ofBits (x.toBits.toNat % signBit).toUInt64) := by
  rw [floatChars, if_pos hx, ← ofScaled_shortest hx .toEven]
  refine ⟨_, rfl, ?_⟩
  split
  · have hzero : shortest .toEven x = ⟨0, 0⟩ := by
      rw [shortest, if_pos (mantissa_of_beq_zero ‹_›)]
    rw [hzero]
    exact writes_zero
  · exact writes_decimalChars _

theorem readFinite?_floatChars (hx : x.isFinite = true) : readFinite? (floatChars x) = some x := by
  obtain ⟨unsigned, hchars, hwrites⟩ := exists_floatChars hx
  have hread : Decimal.read? (floatChars x) = some x := by
    have hsigned := signed_ofBits hx
    rw [hchars, withSign]
    cases hnegative : isNegative x with
    | true =>
      rw [hnegative, if_pos rfl] at hsigned
      rw [if_pos rfl, hwrites.read?.2, hsigned]
    | false =>
      rw [hnegative, if_neg Bool.false_ne_true] at hsigned
      rw [if_neg Bool.false_ne_true, hwrites.read?.1, hsigned]
  rw [readFinite?, hread]
  simpa using hx

theorem floatChars_injective (hx : x.isFinite = true) (hy : y.isFinite = true)
    (h : floatChars x = floatChars y) : x = y := by
  have hread := readFinite?_floatChars hx
  rw [h, readFinite?_floatChars hy] at hread
  exact (Option.some.inj hread).symm

end Number

end DesignTokens
