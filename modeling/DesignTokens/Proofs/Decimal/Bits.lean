import DesignTokens.Decimal.Nearest
import Mathlib

/-!
# The bits of a float

* `isFinite_iff` : a float is finite if not all its exponent bits are set;
* `toBits_ofBits` : the bits up to those of infinity are the bits of a float;
* `signed_ofBits` : a finite float is the one of its bits without the sign, negated if the sign is set;
* `bits_eq` : these bits count the units of the exponents below, and then the mantissa.
-/

namespace DesignTokens.Decimal

open Float.Model

variable {x : Float} {n : Nat}

/-! ## The three fields -/

theorem toNat_unpackExponent (w : UInt64) :
    (@UnpackedFloat.unpackExponent .binary64 w.toBitVec).toNat = w.toNat / fractions % 2048 := by
  simp [UnpackedFloat.unpackExponent_def, Nat.shiftRight_eq_div_pow, fractions]

theorem toNat_unpackMantissa (w : UInt64) :
    (@UnpackedFloat.unpackMantissa .binary64 w.toBitVec).toNat = w.toNat % fractions := by
  simp [UnpackedFloat.unpackMantissa_def, fractions]

theorem toNat_unpackSign (w : UInt64) :
    (@UnpackedFloat.unpackSign .binary64 w.toBitVec).toNat = w.toNat / signBit := by
  have hlt := w.toNat_lt
  simp [UnpackedFloat.unpackSign_def, Nat.shiftRight_eq_div_pow, signBit]
  omega

theorem isFinite_unpack (b : BitVec 64) : (UnpackedFloat.unpack .binary64 b).isFinite = true ↔
    @UnpackedFloat.unpackExponent .binary64 b ≠ -1#11 := by
  simp only [UnpackedFloat.unpack]
  split_ifs <;> simp_all [UnpackedFloat.isFinite]

theorem isFinite_iff : x.isFinite = true ↔ biasedExponent x ≠ 2047 := by
  have hfields : x.isFinite = (UnpackedFloat.unpack .binary64 x.toBits.toBitVec).isFinite := rfl
  rw [hfields, isFinite_unpack, ne_eq, ← BitVec.toNat_inj, toNat_unpackExponent]
  rfl

theorem isNaN_isInf_of_isFinite (h : x.isFinite = true) : x.isNaN = false ∧ x.isInf = false := by
  have hnan : x.isNaN = (UnpackedFloat.unpack .binary64 x.toBits.toBitVec).isNaN := rfl
  have hinf : x.isInf = (UnpackedFloat.unpack .binary64 x.toBits.toBitVec).isInf := rfl
  have hfinite : (UnpackedFloat.unpack .binary64 x.toBits.toBitVec).isFinite = true := h
  rw [hnan, hinf]
  generalize UnpackedFloat.unpack .binary64 x.toBits.toBitVec = unpacked at hfinite
  cases unpacked with
  | infinity sign => cases hfinite
  | notANumber => cases hfinite
  | zero sign => exact ⟨rfl, rfl⟩
  | finite sign m e hm => exact ⟨rfl, rfl⟩

/-! ## Floats of bits -/

theorem toNat_toUInt64 (h : n ≤ infinityBits + signBit) : n.toUInt64.toNat = n := by
  rw [Nat.toUInt64_eq, UInt64.toNat_ofNat_of_lt']
  exact lt_of_le_of_lt h (by decide)

theorem isNaNBits_eq_false {w : UInt64} (h : w.toNat % signBit ≤ infinityBits) :
    @UnpackedFloat.isNaNBits .binary64 w.toBitVec = false := by
  rw [UnpackedFloat.isNaNBits, decide_eq_false_iff_not]
  rintro ⟨hexponent, hmantissa⟩
  rw [← BitVec.toNat_inj, toNat_unpackExponent] at hexponent
  rw [ne_eq, ← BitVec.toNat_inj, toNat_unpackMantissa] at hmantissa
  simp [fractions, infinityBits, signBit] at h hexponent hmantissa
  omega

theorem pack_unpack {w : UInt64} (h : w.toNat % signBit ≤ infinityBits) :
    UnpackedFloat.pack .binary64 (UnpackedFloat.unpack .binary64 w.toBitVec) = w.toBitVec := by
  rw [UnpackedFloat.pack_unpack, isNaNBits_eq_false h]
  rfl

theorem toBits_ofBits {w : UInt64} (h : w.toNat % signBit ≤ infinityBits) : (Float.ofBits w).toBits = w :=
  UInt64.toBitVec_inj.1 (pack_unpack h)

/-- The sign of an unpacked float is its only part that depends on the sign bit. -/
theorem unpack_neg {v w : UInt64} (hrest : w.toNat % signBit = v.toNat % signBit)
    (hv : v.toNat < signBit) (hw : signBit ≤ w.toNat) :
    UnpackedFloat.unpack .binary64 w.toBitVec = (UnpackedFloat.unpack .binary64 v.toBitVec).neg := by
  have hexponent : @UnpackedFloat.unpackExponent .binary64 w.toBitVec =
      @UnpackedFloat.unpackExponent .binary64 v.toBitVec := by
    rw [← BitVec.toNat_inj, toNat_unpackExponent, toNat_unpackExponent]
    simp only [fractions, signBit] at hrest ⊢
    omega
  have hmantissa : @UnpackedFloat.unpackMantissa .binary64 w.toBitVec =
      @UnpackedFloat.unpackMantissa .binary64 v.toBitVec := by
    rw [← BitVec.toNat_inj, toNat_unpackMantissa, toNat_unpackMantissa]
    simp only [fractions, signBit] at hrest ⊢
    omega
  have hpositive : @UnpackedFloat.unpackSign .binary64 v.toBitVec = 0#1 := by
    rw [← BitVec.toNat_inj, toNat_unpackSign, Nat.div_eq_of_lt hv]
    rfl
  have hnegative : @UnpackedFloat.unpackSign .binary64 w.toBitVec = 1#1 := by
    have hlt := w.toNat_lt
    rw [← BitVec.toNat_inj, toNat_unpackSign]
    simp only [signBit] at hw ⊢
    simp
    omega
  simp only [UnpackedFloat.unpack, hexponent, hmantissa, hpositive, hnegative]
  split_ifs <;> rfl

theorem neg_ofBits {v w : UInt64} (hrest : w.toNat % signBit = v.toNat % signBit)
    (hv : v.toNat < signBit) (hw : signBit ≤ w.toNat) (h : v.toNat ≤ infinityBits) :
    -Float.ofBits v = Float.ofBits w := by
  have hbits : (Float.ofBits v).toBits = v := toBits_ofBits (by rwa [Nat.mod_eq_of_lt hv])
  have hneg : (-Float.ofBits v).toBits.toBitVec = UnpackedFloat.pack .binary64
      (UnpackedFloat.unpack .binary64 (Float.ofBits v).toBits.toBitVec).neg := rfl
  have hpack : (Float.ofBits w).toBits.toBitVec =
      UnpackedFloat.pack .binary64 (UnpackedFloat.unpack .binary64 w.toBitVec) := rfl
  rw [← Float.toBits_inj, ← UInt64.toBitVec_inj, hneg, hpack, hbits, unpack_neg hrest hv hw]

/-! ## Finite floats -/

theorem bits_lt_of_isFinite (h : x.isFinite = true) : x.toBits.toNat % signBit < infinityBits := by
  have hexponent := isFinite_iff.1 h
  simp only [biasedExponent, fractions] at hexponent
  simp only [signBit, infinityBits, fractions]
  omega

theorem signed_ofBits (h : x.isFinite = true) :
    (if isNegative x then -Float.ofBits (x.toBits.toNat % signBit).toUInt64
      else Float.ofBits (x.toBits.toNat % signBit).toUInt64) = x := by
  have hlt := bits_lt_of_isFinite h
  have hnat : (x.toBits.toNat % signBit).toUInt64.toNat = x.toBits.toNat % signBit :=
    toNat_toUInt64 (by omega)
  cases hsign : isNegative x with
  | true =>
    rw [if_pos rfl, neg_ofBits (w := x.toBits), Float.ofBits_toBits]
    · rw [hnat, Nat.mod_mod]
    · rw [hnat]
      exact Nat.mod_lt _ (by decide)
    · exact of_decide_eq_true hsign
    · rw [hnat]
      exact hlt.le
  | false =>
    have hbits : x.toBits.toNat < signBit := not_le.1 (of_decide_eq_false hsign)
    rw [if_neg Bool.false_ne_true, Nat.mod_eq_of_lt hbits, Nat.toUInt64_eq, UInt64.ofNat_toNat,
      Float.ofBits_toBits]

theorem exponent_ge (x : Float) : -1074 ≤ exponent x := by
  unfold exponent
  split <;> omega

theorem exponent_le (h : x.isFinite = true) : exponent x ≤ 971 := by
  have hexponent := isFinite_iff.1 h
  have hlt : biasedExponent x < 2048 := Nat.mod_lt _ (by decide)
  unfold exponent
  split <;> omega

theorem mantissa_lt (x : Float) : mantissa x < 2 * fractions := by
  have hlt : fraction x < fractions := Nat.mod_lt _ (by decide)
  unfold mantissa
  split <;> omega

theorem fractions_le_mantissa (h : exponent x ≠ -1074) : fractions ≤ mantissa x := by
  unfold exponent at h
  unfold mantissa
  split at h
  · exact absurd rfl h
  · rename_i hbiased
    rw [if_neg hbiased]
    omega

theorem bits_eq (x : Float) :
    x.toBits.toNat % signBit = (exponent x + 1074).toNat * fractions + mantissa x := by
  have hfields : x.toBits.toNat % signBit = biasedExponent x * fractions + fraction x := by
    simp only [biasedExponent, fraction, fractions, signBit]
    omega
  rw [hfields, fractions, exponent, mantissa, fractions]
  by_cases h : biasedExponent x = 0
  · rw [if_pos h, if_pos h]
    omega
  · rw [if_neg h, if_neg h]
    omega

end DesignTokens.Decimal
