import DesignTokens.Proofs.Decimal.Bits

/-!
# The float nearest to a fraction

* `nearestBits_eq` : a fraction within half a unit of a mantissa is rounded to it. Below a power of two the
  units are half as long, so there it must lie within a quarter;
* `nearestBits_congr` : what a fraction is rounded to depends on its value only;
* `nearestBits_lt`, `isFinite_ofRatio` : a fraction below `2 ^ 1023` has a finite float;
* `ofScaled_eq_ofRatio`, `ofScaled_congr` : so does the float of a decimal, for any power of ten.
-/

namespace DesignTokens.Decimal

variable {a b a' b' c d d' m : ℕ} {e e' k q : ℤ}

theorem zpow_of_nonneg (c : ℕ) (h : 0 ≤ k) : (c : ℚ) ^ k = ((c ^ k.toNat : ℕ) : ℚ) := by
  obtain ⟨n, rfl⟩ := Int.eq_ofNat_of_zero_le h
  simp

theorem zpow_of_neg (c : ℕ) (h : ¬ 0 ≤ k) : (c : ℚ) ^ k = 1 / ((c ^ (-k).toNat : ℕ) : ℚ) := by
  obtain ⟨n, rfl⟩ : ∃ n : ℕ, k = -n := ⟨(-k).toNat, by omega⟩
  simp

/-! ## Rounding to a whole number -/

theorem roundHalfEven_eq (hlow : 2 * m * b < 2 * a + b) (hhigh : 2 * a < 2 * m * b + b) :
    roundHalfEven a b = m := by
  have hsplit := Nat.div_add_mod a b
  have hlt : a % b < b := Nat.mod_lt a (by omega)
  unfold roundHalfEven
  generalize a / b = quotient at hsplit ⊢
  generalize a % b = rest at hsplit hlt ⊢
  subst hsplit
  have hle : quotient < m + 1 := by
    refine Nat.lt_of_mul_lt_mul_left (a := b) ?_
    nlinarith
  have hge : m < quotient + 2 := by
    refine Nat.lt_of_mul_lt_mul_left (a := b) ?_
    nlinarith
  obtain rfl | rfl : m = quotient ∨ m = quotient + 1 := by omega
  · rw [if_pos (by nlinarith)]
  · rw [if_neg (by nlinarith), if_pos (by nlinarith)]

theorem le_roundHalfEven (hb : 0 < b) (h : m * b ≤ a) : m ≤ roundHalfEven a b := by
  have hle := (Nat.le_div_iff_mul_le hb).2 h
  unfold roundHalfEven
  dsimp only
  split_ifs <;> omega

theorem roundHalfEven_le (hb : 0 < b) (h : a ≤ m * b) : roundHalfEven a b ≤ m := by
  have hle : a / b ≤ m := Nat.div_le_of_le_mul (by rwa [mul_comm])
  have hsplit := Nat.div_add_mod a b
  unfold roundHalfEven
  dsimp only
  rcases hle.lt_or_eq with hlt | heq
  · split_ifs <;> omega
  · rw [heq, mul_comm] at hsplit
    split_ifs <;> omega

theorem roundHalfEven_mul_right (a b : ℕ) (hc : 0 < c) : roundHalfEven (a * c) (b * c) = roundHalfEven a b := by
  unfold roundHalfEven
  have hhalf (r s : ℕ) : 2 * (r * c) < s * c ↔ 2 * r < s := by
    rw [← mul_assoc]
    exact Nat.mul_lt_mul_right hc
  have hhalf' (r s : ℕ) : s * c < 2 * (r * c) ↔ s < 2 * r := by
    rw [← mul_assoc]
    exact Nat.mul_lt_mul_right hc
  simp only [Nat.mul_div_mul_right a b hc, Nat.mul_mod_mul_right, hhalf, hhalf']

theorem roundHalfEven_congr (hb : 0 < b) (hb' : 0 < b') (h : a * b' = a' * b) :
    roundHalfEven a b = roundHalfEven a' b' := by
  rw [← roundHalfEven_mul_right a b hb', ← roundHalfEven_mul_right a' b' hb, h, mul_comm b b']

/-! ## Rounding to a multiple of a power of two -/

theorem log2_bounds (ha : 0 < a) : (2 : ℚ) ^ (a.log2 : ℤ) ≤ a ∧ (a : ℚ) < 2 ^ ((a.log2 : ℤ) + 1) := by
  constructor
  · rw [zpow_natCast]
    exact_mod_cast Nat.log2_self_le ha.ne'
  · have := @Nat.lt_log2_self a
    rw [← Nat.cast_succ, zpow_natCast]
    exact_mod_cast this

theorem two_zpow_le_iff (hb : 0 < b) : (if 0 ≤ k then b <<< k.toNat ≤ a else b ≤ a <<< (-k).toNat) ↔
    (2 : ℚ) ^ k ≤ (a : ℚ) / b := by
  rw [le_div_iff₀ (Nat.cast_pos.2 hb), ← Nat.cast_ofNat (n := 2)]
  simp only [Nat.shiftLeft_eq]
  split
  · rename_i hk
    rw [zpow_of_nonneg 2 hk, mul_comm b, ← Nat.cast_mul, Nat.cast_le]
  · rename_i hk
    have hp : (0 : ℚ) < ((2 ^ (-k).toNat : ℕ) : ℚ) := by positivity
    rw [zpow_of_neg 2 hk, one_div_mul_eq_div, div_le_iff₀ hp, ← Nat.cast_mul, Nat.cast_le]

theorem log_eq {r : ℚ} (hr : 0 < r) (hlow : (2 : ℚ) ^ k ≤ r) (hhigh : r < 2 ^ (k + 1)) : Int.log 2 r = k := by
  have h1 := (Int.zpow_le_iff_le_log (by decide : 1 < 2) hr).1 hlow
  have h2 := (Int.lt_zpow_iff_log_lt (by decide : 1 < 2) hr).1 hhigh
  omega

theorem floorLog2_eq (ha : 0 < a) (hb : 0 < b) : floorLog2 a b = Int.log 2 ((a : ℚ) / b) := by
  have haq : (0 : ℚ) < a := Nat.cast_pos.2 ha
  have hbq : (0 : ℚ) < b := Nat.cast_pos.2 hb
  have hpos : (0 : ℚ) < a / b := div_pos haq hbq
  obtain ⟨ha₁, ha₂⟩ := log2_bounds ha
  obtain ⟨hb₁, hb₂⟩ := log2_bounds hb
  have hlow : (2 : ℚ) ^ ((a.log2 : ℤ) - b.log2 - 1) ≤ a / b := by
    rw [sub_sub, zpow_sub₀ two_ne_zero]
    exact div_le_div₀ haq.le ha₁ hbq hb₂.le
  have hhigh : (a : ℚ) / b < 2 ^ ((a.log2 : ℤ) - b.log2 + 1) := by
    rw [sub_add_eq_add_sub, zpow_sub₀ two_ne_zero]
    exact div_lt_div₀ ha₂ hb₁ (by positivity) (by positivity)
  simp only [floorLog2, two_zpow_le_iff hb]
  split
  · rename_i hk
    exact (log_eq hpos hk hhigh).symm
  · rename_i hk
    refine (log_eq hpos hlow ?_).symm
    rw [sub_add_cancel]
    exact not_le.1 hk

/-- The whole number of units `2 ^ q` nearest to `a / b`. -/
def units (a b : ℕ) (q : ℤ) : ℕ :=
  if 0 ≤ q then roundHalfEven a (b <<< q.toNat) else roundHalfEven (a <<< (-q).toNat) b

theorem units_eq (hb : 0 < b) (hlow : ((m : ℚ) - 1 / 2) * 2 ^ q < a / b)
    (hhigh : (a : ℚ) / b < (m + 1 / 2) * 2 ^ q) : units a b q = m := by
  have hbq : (0 : ℚ) < b := Nat.cast_pos.2 hb
  rw [lt_div_iff₀ hbq] at hlow
  rw [div_lt_iff₀ hbq] at hhigh
  unfold units
  split
  · rename_i hq
    rw [← Nat.cast_ofNat (n := 2), zpow_of_nonneg 2 hq] at hlow hhigh
    rw [Nat.shiftLeft_eq]
    generalize 2 ^ q.toNat = p at hlow hhigh ⊢
    refine roundHalfEven_eq ?_ ?_
    · qify
      linarith
    · qify
      linarith
  · rename_i hq
    rw [← Nat.cast_ofNat (n := 2), zpow_of_neg 2 hq] at hlow hhigh
    rw [Nat.shiftLeft_eq]
    have hp : (0 : ℚ) < ((2 ^ (-q).toNat : ℕ) : ℚ) := by positivity
    generalize 2 ^ (-q).toNat = p at hlow hhigh hp ⊢
    rw [mul_one_div, div_mul_eq_mul_div, div_lt_iff₀ hp] at hlow
    rw [mul_one_div, div_mul_eq_mul_div, lt_div_iff₀ hp] at hhigh
    refine roundHalfEven_eq ?_ ?_
    · qify
      linarith
    · qify
      linarith

theorem units_congr (hb : 0 < b) (hb' : 0 < b') (h : a * b' = a' * b) (q : ℤ) :
    units a b q = units a' b' q := by
  unfold units
  simp only [Nat.shiftLeft_eq]
  split
  · refine roundHalfEven_congr (by positivity) (by positivity) ?_
    rw [← mul_assoc, h, mul_assoc]
  · refine roundHalfEven_congr hb hb' ?_
    rw [mul_right_comm, h, mul_right_comm]

theorem le_units (hb : 0 < b) (h : (m : ℚ) * 2 ^ q ≤ a / b) : m ≤ units a b q := by
  rw [le_div_iff₀ (Nat.cast_pos.2 hb), ← Nat.cast_ofNat (n := 2)] at h
  unfold units
  simp only [Nat.shiftLeft_eq]
  split
  · rename_i hq
    rw [zpow_of_nonneg 2 hq] at h
    refine le_roundHalfEven (by positivity) ?_
    rw [← mul_assoc, mul_right_comm]
    exact_mod_cast h
  · rename_i hq
    rw [zpow_of_neg 2 hq, mul_one_div, div_mul_eq_mul_div, div_le_iff₀ (by positivity)] at h
    exact le_roundHalfEven hb (by exact_mod_cast h)

theorem units_le (hb : 0 < b) (h : (a : ℚ) / b ≤ m * 2 ^ q) : units a b q ≤ m := by
  rw [div_le_iff₀ (Nat.cast_pos.2 hb), ← Nat.cast_ofNat (n := 2)] at h
  unfold units
  simp only [Nat.shiftLeft_eq]
  split
  · rename_i hq
    rw [zpow_of_nonneg 2 hq] at h
    refine roundHalfEven_le (by positivity) ?_
    rw [← mul_assoc, mul_right_comm]
    exact_mod_cast h
  · rename_i hq
    rw [zpow_of_neg 2 hq, mul_one_div, div_mul_eq_mul_div, le_div_iff₀ (by positivity)] at h
    exact roundHalfEven_le hb (by exact_mod_cast h)

/-! ## Rounding to a float -/

/-- The power of two that is the unit of the mantissa of the float nearest to `r`. -/
def unitOf (r : ℚ) : ℤ := max (Int.log 2 r - 52) (-1074)

theorem nearestBits_of_pos (ha : 0 < a) (hb : 0 < b) : nearestBits a b =
    min ((unitOf (a / b) + 1074).toNat * fractions + units a b (unitOf (a / b))) infinityBits := by
  rw [nearestBits, if_neg ha.ne', floorLog2_eq ha hb]
  rfl

theorem nearestBits_le (a b : ℕ) : nearestBits a b ≤ infinityBits := by
  unfold nearestBits
  split
  · exact Nat.zero_le _
  · exact min_le_right _ _

theorem toBits_ofRatio (a b : ℕ) : (ofRatio a b).toBits.toNat = nearestBits a b := by
  have hle := nearestBits_le a b
  have hnat : (nearestBits a b).toUInt64.toNat = nearestBits a b := toNat_toUInt64 (by omega)
  rw [ofRatio, toBits_ofBits, hnat]
  exact (Nat.mod_le _ _).trans (hnat.trans_le hle)

theorem nearestBits_congr (hb : 0 < b) (hb' : 0 < b') (h : a * b' = a' * b) :
    nearestBits a b = nearestBits a' b' := by
  have hzero : a = 0 ↔ a' = 0 := by
    constructor
    · rintro rfl
      simpa [hb.ne'] using h.symm
    · rintro rfl
      simpa [hb'.ne'] using h
  by_cases ha : a = 0
  · rw [nearestBits, nearestBits, if_pos ha, if_pos (hzero.1 ha)]
  · have ha' := mt hzero.2 ha
    have hvalue : (a : ℚ) / b = a' / b' := by
      rw [div_eq_div_iff (Nat.cast_ne_zero.2 hb.ne') (Nat.cast_ne_zero.2 hb'.ne')]
      exact_mod_cast h
    rw [nearestBits_of_pos (Nat.pos_of_ne_zero ha) hb, nearestBits_of_pos (Nat.pos_of_ne_zero ha') hb',
      hvalue, units_congr hb hb' h]

theorem unitOf_eq {r : ℚ} (hr : 0 < r) (he : -1074 ≤ e) (hlow : e ≠ -1074 → (2 : ℚ) ^ (e + 52) ≤ r)
    (hhigh : r < 2 ^ (e + 53)) : unitOf r = e := by
  have hlt := (Int.lt_zpow_iff_log_lt (by decide : 1 < 2) hr).1 hhigh
  unfold unitOf
  by_cases hleast : e = -1074
  · omega
  · have hle := (Int.zpow_le_iff_le_log (by decide : 1 < 2) hr).1 (hlow hleast)
    omega

theorem nearestBits_of_units (ha : 0 < a) (hb : 0 < b) (hunit : unitOf ((a : ℚ) / b) = e)
    (hunits : units a b e = m) (he : -1074 ≤ e) (he' : e ≤ 971) (hm : m ≤ 2 * fractions) :
    nearestBits a b = (e + 1074).toNat * fractions + m := by
  rw [nearestBits_of_pos ha hb, hunit, hunits]
  refine min_eq_left ?_
  simp only [infinityBits, fractions] at hm ⊢
  omega

/-- A fraction is rounded to a mantissa of a unit if it is less than half a unit away from it, or less
than a quarter where the units below are half as long. -/
theorem nearestBits_eq (hb : 0 < b) (he : -1074 ≤ e) (he' : e ≤ 971) (hm : m < 2 * fractions)
    (hnormal : e ≠ -1074 → fractions ≤ m) (hlow : ((m : ℚ) - 1 / 2) * 2 ^ e < a / b)
    (hhigh : (a : ℚ) / b < (m + 1 / 2) * 2 ^ e)
    (hpower : m = fractions → ((m : ℚ) - 1 / 4) * 2 ^ e < a / b) :
    nearestBits a b = (e + 1074).toNat * fractions + m := by
  have hunit : (0 : ℚ) < 2 ^ e := by positivity
  have hm' : (m : ℚ) + 1 ≤ 2 ^ 53 := by exact_mod_cast (show m + 1 ≤ 2 ^ 53 from hm)
  have hbinade (n : ℕ) : (2 : ℚ) ^ (e + n) = 2 ^ n * 2 ^ e := by
    rw [zpow_add₀ two_ne_zero, zpow_natCast, mul_comm]
  have hbelow : (a : ℚ) / b < 2 ^ (e + 53) := by
    refine hhigh.trans_le ?_
    rw [show e + 53 = e + (53 : ℕ) from rfl, hbinade]
    exact mul_le_mul_of_nonneg_right (by linarith) hunit.le
  rcases Nat.eq_zero_or_pos a with rfl | ha
  · -- only zero is this near to zero
    have hzero : m = 0 := by
      rw [Nat.cast_zero, zero_div] at hlow
      have hneg := neg_of_mul_neg_left hlow hunit.le
      have hlt : (m : ℚ) < 1 := by linarith
      exact Nat.lt_one_iff.1 (by exact_mod_cast hlt)
    subst hzero
    have hleast : e = -1074 := by
      by_contra hne
      exact absurd (hnormal hne) (by decide)
    subst hleast
    rfl
  have hr : (0 : ℚ) < a / b := div_pos (Nat.cast_pos.2 ha) (Nat.cast_pos.2 hb)
  by_cases hbig : e ≠ -1074 → (2 : ℚ) ^ (e + 52) ≤ a / b
  · exact nearestBits_of_units ha hb (unitOf_eq hr he hbig hbelow) (units_eq hb hlow hhigh) he he' hm.le
  · -- just below a power of two: the nearest multiple of the shorter unit is this power
    push Not at hbig
    obtain ⟨hleast, hsmall⟩ := hbig
    rw [show e + 52 = e + (52 : ℕ) from rfl, hbinade] at hsmall
    have hfractions : m = fractions := by
      have hlt : (m : ℚ) - 1 / 2 < 2 ^ 52 := lt_of_mul_lt_mul_right (hlow.trans hsmall) hunit.le
      have hlt' : (m : ℚ) < ((2 ^ 52 + 1 : ℕ) : ℚ) := by
        push_cast
        linarith
      exact le_antisymm (Nat.lt_succ_iff.1 (Nat.cast_lt.1 hlt')) (hnormal hleast)
    have hquarter := hpower hfractions
    have hhalf : (2 : ℚ) ^ e = 2 * 2 ^ (e - 1) := by
      rw [zpow_sub_one₀ two_ne_zero]
      ring
    have hcast : (fractions : ℚ) = 2 ^ 52 := by norm_num [fractions]
    rw [hfractions, hcast, hhalf] at hquarter
    rw [hhalf] at hsmall
    have hunits : units a b (e - 1) = 2 * fractions := by
      refine units_eq hb ?_ ?_ <;> push_cast <;> rw [hcast] <;> linarith
    have hle : (2 : ℚ) ^ (e - 1 + 52) ≤ a / b := by
      rw [zpow_add₀ two_ne_zero]
      linarith
    have hlt : (a : ℚ) / b < 2 ^ (e - 1 + 53) := by
      rw [zpow_add₀ two_ne_zero]
      linarith
    rw [nearestBits_of_units ha hb (unitOf_eq hr (by omega) (fun _ => hle) hlt) hunits (by omega) (by omega) le_rfl,
      hfractions, fractions]
    omega

theorem nearestBits_of_lt (hb : 0 < b) (h : (a : ℚ) / b < 2 ^ (-1075 : ℤ)) : nearestBits a b = 0 := by
  have hhalf : (2 : ℚ) ^ (-1074 : ℤ) = 2 * 2 ^ (-1075 : ℤ) := by
    rw [← zpow_one_add₀ two_ne_zero]
    rfl
  have hpos : (0 : ℚ) < 2 ^ (-1074 : ℤ) := by positivity
  have hr : (0 : ℚ) ≤ a / b := by positivity
  refine nearestBits_eq (m := 0) hb le_rfl (by decide) (by decide) (fun h => absurd rfl h) ?_ ?_ (fun h => ?_)
  · rw [Nat.cast_zero]
    linarith
  · rw [Nat.cast_zero, hhalf]
    linarith
  · exact absurd h (by decide)

theorem nearestBits_of_le (hb : 0 < b) (h : (2 : ℚ) ^ (1024 : ℤ) ≤ a / b) :
    nearestBits a b = infinityBits := by
  have hr : (0 : ℚ) < a / b := lt_of_lt_of_le (by positivity) h
  have ha : 0 < a := by
    refine Nat.pos_of_ne_zero fun hzero => ?_
    rw [hzero, Nat.cast_zero, zero_div] at hr
    exact lt_irrefl _ hr
  have hlog := (Int.zpow_le_iff_le_log (by decide : 1 < 2) hr).1 h
  have hunit : unitOf ((a : ℚ) / b) = Int.log 2 ((a : ℚ) / b) - 52 := by
    unfold unitOf
    omega
  have hunits : fractions ≤ units a b (unitOf (a / b)) := by
    refine le_units hb ?_
    have hself := Int.zpow_log_le_self (by decide : 1 < 2) hr
    rw [hunit, show (fractions : ℚ) = 2 ^ (52 : ℤ) by norm_num [fractions], ← zpow_add₀ two_ne_zero]
    rwa [add_sub_cancel]
  rw [nearestBits_of_pos ha hb]
  refine min_eq_right ?_
  simp only [infinityBits, fractions] at hunits ⊢
  omega

theorem nearestBits_lt (hb : 0 < b) (h : (a : ℚ) / b < 2 ^ (1023 : ℤ)) : nearestBits a b < infinityBits := by
  rcases Nat.eq_zero_or_pos a with rfl | ha
  · exact Nat.zero_lt_of_lt (by decide : 0 < infinityBits)
  have hr : (0 : ℚ) < a / b := by positivity
  have hlog := (Int.lt_zpow_iff_log_lt (by decide : 1 < 2) hr).1 h
  have hunit : Int.log 2 ((a : ℚ) / b) + 1 ≤ unitOf (a / b) + 53 ∧ unitOf ((a : ℚ) / b) ≤ 970 := by
    unfold unitOf
    omega
  have hunits : units a b (unitOf (a / b)) ≤ 2 * fractions := by
    refine units_le hb ?_
    have hself := Int.lt_zpow_succ_log_self (by decide : 1 < 2) ((a : ℚ) / b)
    rw [show ((2 * fractions : ℕ) : ℚ) = 2 ^ (53 : ℤ) by norm_num [fractions], ← zpow_add₀ two_ne_zero, add_comm]
    exact hself.le.trans (zpow_le_zpow_right₀ one_le_two hunit.1)
  rw [nearestBits_of_pos ha hb]
  refine (min_le_left _ _).trans_lt ?_
  simp only [infinityBits, fractions] at hunits ⊢
  omega

/-- A fraction that is not too large has a finite float, with either sign. -/
theorem isFinite_ofRatio (hb : 0 < b) (h : (a : ℚ) / b < 2 ^ (1023 : ℤ)) :
    (ofRatio a b).isFinite = true ∧ (-ofRatio a b).isFinite = true := by
  have hlt := nearestBits_lt hb h
  have hnat : (nearestBits a b).toUInt64.toNat = nearestBits a b := toNat_toUInt64 (by omega)
  have hnat' : (nearestBits a b + signBit).toUInt64.toNat = nearestBits a b + signBit := toNat_toUInt64 (by omega)
  have hneg : -ofRatio a b = Float.ofBits (nearestBits a b + signBit).toUInt64 := by
    refine neg_ofBits ?_ ?_ ?_ ?_
    · rw [hnat, hnat', Nat.add_mod_right]
    · exact hnat.trans_lt (hlt.trans (by decide))
    · rw [hnat']
      exact Nat.le_add_left _ _
    · exact hnat.trans_le hlt.le
  rw [hneg, isFinite_iff, isFinite_iff, biasedExponent, biasedExponent, toBits_ofRatio, toBits_ofBits, hnat']
  · simp only [infinityBits, fractions, signBit] at hlt ⊢
    omega
  · rw [hnat', Nat.add_mod_right]
    exact (Nat.mod_le _ _).trans hlt.le

/-! ## The float of a decimal -/

theorem ofScaled_eq_ofRatio (hb : 0 < b) (h : (d : ℚ) * 10 ^ e = a / b) : ofScaled d e = ofRatio a b := by
  have hofRatio {n : ℕ} (hbits : nearestBits a b = n) : ofRatio a b = Float.ofBits n.toUInt64 := by
    rw [ofRatio, hbits]
  rcases Nat.eq_zero_or_pos d with rfl | hd
  · rw [Nat.cast_zero, zero_mul] at h
    exact (hofRatio (nearestBits_of_lt hb (h ▸ by positivity))).symm
  have hone : (1 : ℚ) ≤ d := Nat.one_le_cast.2 hd
  have hpos : (0 : ℚ) < 10 ^ e := by positivity
  rw [ofScaled, if_neg hd.ne']
  split_ifs with hlarge hsmall hsign
  · refine (hofRatio (nearestBits_of_le hb ?_)).symm
    rw [← h]
    calc (2 : ℚ) ^ (1024 : ℤ) ≤ 10 ^ (401 : ℤ) := by
          rw [zpow_ofNat, zpow_ofNat]
          exact_mod_cast (by decide +kernel : 2 ^ 1024 ≤ 10 ^ 401)
      _ ≤ 10 ^ e := zpow_le_zpow_right₀ (by norm_num) (by omega)
      _ ≤ d * 10 ^ e := le_mul_of_one_le_left hpos.le hone
  · refine (hofRatio (nearestBits_of_lt hb ?_)).symm
    rw [← h]
    have hdigits : (d : ℚ) < 10 ^ ((d.log2 : ℤ) + 1) := by
      refine (log2_bounds hd).2.trans_le ?_
      exact zpow_le_zpow_left₀ (by omega) (by norm_num) (by norm_num)
    calc (d : ℚ) * 10 ^ e < 10 ^ ((d.log2 : ℤ) + 1) * 10 ^ e := mul_lt_mul_of_pos_right hdigits hpos
      _ = 10 ^ ((d.log2 : ℤ) + 1 + e) := (zpow_add₀ (by norm_num) _ _).symm
      _ ≤ 10 ^ (-400 : ℤ) := zpow_le_zpow_right₀ (by norm_num) (by omega)
      _ < 2 ^ (-1075 : ℤ) := by
          rw [zpow_neg, zpow_neg, zpow_ofNat, zpow_ofNat]
          refine inv_strictAnti₀ (by positivity) ?_
          exact_mod_cast (by decide +kernel : 2 ^ 1075 < 10 ^ 400)
  · rw [ofRatio, ofRatio, nearestBits_congr one_pos hb]
    rw [← Nat.cast_ofNat (n := 10), zpow_of_nonneg 10 hsign, eq_div_iff (Nat.cast_ne_zero.2 hb.ne')] at h
    rw [mul_one]
    exact_mod_cast h
  · have hten : 0 < Nat.pow 10 (-e).toNat := Nat.pow_pos (by decide)
    rw [ofRatio, ofRatio, nearestBits_congr hten hb]
    rw [← Nat.cast_ofNat (n := 10), zpow_of_neg 10 hsign, mul_one_div,
      div_eq_div_iff (by positivity) (Nat.cast_ne_zero.2 hb.ne')] at h
    exact_mod_cast h

theorem exists_ratio (d : ℕ) (e : ℤ) : ∃ a b : ℕ, 0 < b ∧ (d : ℚ) * 10 ^ e = a / b := by
  refine ⟨d * 10 ^ e.toNat, 10 ^ (-e).toNat, by positivity, ?_⟩
  have hsplit : (10 : ℚ) ^ e = 10 ^ ((e.toNat : ℤ) - ((-e).toNat : ℤ)) := by rw [Int.toNat_sub_toNat_neg]
  rw [hsplit, zpow_sub₀ (by norm_num), zpow_natCast, zpow_natCast]
  push_cast
  ring

theorem ofScaled_congr (h : (d : ℚ) * 10 ^ e = d' * 10 ^ e') : ofScaled d e = ofScaled d' e' := by
  obtain ⟨a, b, hb, hvalue⟩ := exists_ratio d' e'
  rw [ofScaled_eq_ofRatio hb hvalue, ofScaled_eq_ofRatio hb (h.trans hvalue)]

end DesignTokens.Decimal
