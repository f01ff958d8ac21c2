import DesignTokens.Decimal.Shortest
import DesignTokens.Proofs.Decimal.Nearest

/-!
# The shortest decimal reads back

* `magnitude x` : the number that the absolute value of a finite float is;
* `readsBack_of_near` : a decimal near enough to it reads back;
* `ten_zpow_floorLog10_le` : the search for the first digit stops at a power of ten that is not greater;
* `isSome_onGrid?` : seventeen digits suffice, since from the sixteenth digit after the first on the steps
  of the grid are shorter than the unit of the mantissa;
* `readsBack_shortest` : so the shortest decimal reads back, for every finite float.
-/

namespace DesignTokens.Decimal

variable {x : Float} {s t : Scaled} {tie : Tie} {a b q r d : ℕ} {k u v : ℤ}

/-! ## Magnitudes -/

/-- The number that the absolute value of a finite float is. -/
def magnitude (x : Float) : ℚ := mantissa x * 2 ^ exponent x

/-- The number that a decimal writes. -/
def Scaled.value (s : Scaled) : ℚ := s.coefficient * 10 ^ s.power

theorem denominator_pos (x : Float) : 0 < denominator x := by
  unfold denominator
  split
  · exact one_pos
  · rw [Nat.shiftLeft_eq]
    positivity

theorem magnitude_eq (x : Float) : magnitude x = numerator x / denominator x := by
  unfold magnitude numerator denominator
  rw [← Nat.cast_ofNat (n := 2)]
  split
  · rename_i h
    rw [zpow_of_nonneg 2 h, Nat.shiftLeft_eq, Nat.cast_mul, Nat.cast_one, div_one]
  · rename_i h
    rw [zpow_of_neg 2 h, Nat.shiftLeft_eq, one_mul, mul_one_div]

theorem readsBack_congr (h : s.value = t.value) : readsBack x s = readsBack x t := by
  rw [readsBack, readsBack, ofScaled_congr h]

theorem readsBack_of_near (hx : x.isFinite = true)
    (hlow : ((mantissa x : ℚ) - 1 / 2) * 2 ^ exponent x < s.value)
    (hhigh : s.value < (mantissa x + 1 / 2) * 2 ^ exponent x)
    (hpower : mantissa x = fractions → ((mantissa x : ℚ) - 1 / 4) * 2 ^ exponent x < s.value) :
    readsBack x s = true := by
  obtain ⟨a, b, hb, hvalue⟩ := exists_ratio s.coefficient s.power
  have hratio : s.value = a / b := hvalue
  rw [hratio] at hlow hhigh hpower
  refine decide_eq_true ?_
  rw [ofScaled_eq_ofRatio hb hvalue, toBits_ofRatio, bits_eq]
  exact nearestBits_eq hb (exponent_ge x) (exponent_le hx) (mantissa_lt x) fractions_le_mantissa hlow hhigh hpower

theorem readsBack_of_value (hx : x.isFinite = true) (h : s.value = magnitude x) : readsBack x s = true := by
  have hunit : (0 : ℚ) < 2 ^ exponent x := by positivity
  unfold magnitude at h
  refine readsBack_of_near hx ?_ ?_ fun _ => ?_ <;> rw [h] <;> nlinarith

/-! ## The first digit -/

theorem atLeastPower_iff (hb : 0 < b) : atLeastPower a b k = true ↔ (10 : ℚ) ^ k ≤ (a : ℚ) / b := by
  rw [le_div_iff₀ (Nat.cast_pos.2 hb), ← Nat.cast_ofNat (n := 10)]
  simp only [atLeastPower, Nat.pow_eq]
  split
  · rename_i hk
    rw [decide_eq_true_eq, zpow_of_nonneg 10 hk, mul_comm, ← Nat.cast_mul, Nat.cast_le]
  · rename_i hk
    rw [decide_eq_true_eq, zpow_of_neg 10 hk, one_div_mul_eq_div, div_le_iff₀ (by positivity),
      ← Nat.cast_mul, Nat.cast_le]

theorem down_spec (hb : 0 < b) (fuel : ℕ) (k : ℤ) : (10 : ℚ) ^ floorLog10.down a b fuel k ≤ (a : ℚ) / b ∨
    floorLog10.down a b fuel k = k - fuel := by
  induction fuel generalizing k with
  | zero => exact .inr (by simp [floorLog10.down])
  | succ fuel ih =>
    rw [floorLog10.down]
    split
    · rename_i h
      exact .inl ((atLeastPower_iff hb).1 h)
    · refine (ih (k - 1)).imp_right fun h => ?_
      rw [h]
      push_cast
      ring

/-- A thousand is less than the tenth power of two. -/
theorem ten_zpow_le_two_zpow_of_nonneg (hv : 0 ≤ v) (h : 10 * u ≤ 3 * v) : (10 : ℚ) ^ u ≤ 2 ^ v := by
  refine le_of_pow_le_pow_left₀ (n := 10) (by decide) (by positivity) ?_
  calc ((10 : ℚ) ^ u) ^ 10 = 10 ^ (10 * u) := by rw [← zpow_natCast, ← zpow_mul, mul_comm]; rfl
    _ ≤ 10 ^ (3 * v) := zpow_le_zpow_right₀ (by norm_num) h
    _ = (10 ^ (3 : ℤ)) ^ v := zpow_mul _ _ _
    _ ≤ (2 ^ (10 : ℤ)) ^ v := zpow_le_zpow_left₀ hv (by norm_num) (by norm_num)
    _ = (2 ^ v) ^ 10 := by rw [← zpow_mul, mul_comm, zpow_mul]; rfl

/-- The 28th power of ten is greater than the 93rd power of two. -/
theorem ten_zpow_le_two_zpow_of_nonpos (hv : v ≤ 0) (h : 93 * u ≤ 28 * v) : (10 : ℚ) ^ u ≤ 2 ^ v := by
  obtain ⟨n, rfl⟩ : ∃ n : ℕ, v = -n := ⟨(-v).toNat, by omega⟩
  refine le_of_pow_le_pow_left₀ (n := 93) (by decide) (by positivity) ?_
  calc ((10 : ℚ) ^ u) ^ 93 = 10 ^ (93 * u) := by rw [← zpow_natCast, ← zpow_mul, mul_comm]; rfl
    _ ≤ 10 ^ (28 * -(n : ℤ)) := zpow_le_zpow_right₀ (by norm_num) h
    _ = (10 ^ (28 : ℤ)) ^ (-(n : ℤ)) := zpow_mul _ _ _
    _ ≤ (2 ^ (93 : ℤ)) ^ (-(n : ℤ)) := by
      rw [zpow_neg, zpow_neg, zpow_natCast, zpow_natCast]
      exact inv_anti₀ (by positivity) (pow_le_pow_left₀ (by positivity) (by norm_num) n)
    _ = (2 ^ (-(n : ℤ))) ^ 93 := by rw [← zpow_mul, mul_comm, zpow_mul]; rfl

theorem ten_zpow_floorLog10_le (ha : 0 < a) (hb : 0 < b) (hlow : (2 : ℚ) ^ (-1074 : ℤ) ≤ a / b)
    (hhigh : (a : ℚ) / b < 2 ^ (1024 : ℤ)) : (10 : ℚ) ^ floorLog10 a b ≤ a / b := by
  have hr : (0 : ℚ) < a / b := div_pos (Nat.cast_pos.2 ha) (Nat.cast_pos.2 hb)
  have hge := (Int.zpow_le_iff_le_log (by decide : 1 < 2) hr).1 hlow
  have hlt := (Int.lt_zpow_iff_log_lt (by decide : 1 < 2) hr).1 hhigh
  have hself := Int.zpow_log_le_self (by decide : 1 < 2) hr
  unfold floorLog10
  rw [floorLog2_eq ha hb]
  dsimp only
  generalize Int.log 2 ((a : ℚ) / b) = l at hge hlt hself
  rcases down_spec (a := a) hb 8 ((l + 1) * 30103 / 100000 + 1) with h | h
  · exact h
  · rw [h]
    refine le_trans ?_ hself
    -- eight powers of ten below the estimate there is room for its error
    rcases le_total 0 l with hl | hl
    · exact ten_zpow_le_two_zpow_of_nonneg hl (by omega)
    · exact ten_zpow_le_two_zpow_of_nonpos hl (by omega)

/-! ## The two neighbours on a grid -/

theorem quotient_add_rest (hb : 0 < b) (a : ℕ) : ((a / b : ℕ) : ℚ) + (a % b : ℕ) / b = a / b := by
  have hbq : (b : ℚ) ≠ 0 := Nat.cast_ne_zero.2 hb.ne'
  rw [eq_div_iff hbq, add_mul, div_mul_cancel₀ _ hbq]
  exact_mod_cast Nat.div_add_mod' a b

theorem lowerNeighbour_spec (hb : 0 < b) (h : lowerNeighbour a b k = (q, r, d)) :
    r < d ∧ (a : ℚ) / b = (q + r / d) * 10 ^ k := by
  have hpower (n : ℕ) : ((10 ^ n : ℕ) : ℚ) ≠ 0 := by positivity
  rw [← Nat.cast_ofNat (n := 10)]
  simp only [lowerNeighbour, Nat.pow_eq] at h
  split at h
  · rename_i hk
    obtain ⟨rfl, rfl, rfl⟩ := h
    have hstep : 0 < b * 10 ^ k.toNat := by positivity
    refine ⟨Nat.mod_lt a hstep, ?_⟩
    rw [quotient_add_rest hstep, zpow_of_nonneg 10 hk, Nat.cast_mul, div_mul_eq_mul_div,
      mul_div_mul_right _ _ (hpower _)]
  · rename_i hk
    obtain ⟨rfl, rfl, rfl⟩ := h
    refine ⟨Nat.mod_lt _ hb, ?_⟩
    rw [quotient_add_rest hb, zpow_of_neg 10 hk, Nat.cast_mul, mul_one_div, div_right_comm,
      mul_div_cancel_right₀ _ (hpower _)]

theorem readsBack_of_onGrid? (h : onGrid? tie x k = some s) : readsBack x s = true := by
  unfold onGrid? at h
  rcases hneighbour : lowerNeighbour (numerator x) (denominator x) k with ⟨q, r, d⟩
  simp only [hneighbour] at h
  cases hlower : readsBack x ⟨q, k⟩ <;> cases hupper : readsBack x ⟨q + 1, k⟩ <;>
    simp only [hlower, hupper] at h <;> grind

theorem isSome_onGrid?_of_neighbour (hneighbour : lowerNeighbour (numerator x) (denominator x) k = (q, r, d))
    (h : readsBack x ⟨q, k⟩ = true ∨ r ≠ 0 ∧ readsBack x ⟨q + 1, k⟩ = true) :
    (onGrid? tie x k).isSome = true := by
  unfold onGrid?
  simp only [hneighbour]
  cases hlower : readsBack x ⟨q, k⟩ <;> cases hupper : readsBack x ⟨q + 1, k⟩ <;> grind

/-- The step of a grid that has the seventeenth digit of `|x|` is less than a unit of the mantissa, and
less than half a unit where the units below are half as long: one of the neighbours is near enough. -/
theorem isSome_onGrid? (hx : x.isFinite = true) (hk : (10 : ℚ) ^ (k + 16) ≤ magnitude x) :
    (onGrid? tie x k).isSome = true := by
  rcases hneighbour : lowerNeighbour (numerator x) (denominator x) k with ⟨q, r, d⟩
  obtain ⟨hrest, hvalue⟩ := lowerNeighbour_spec (denominator_pos x) hneighbour
  rw [← magnitude_eq] at hvalue
  refine isSome_onGrid?_of_neighbour hneighbour ?_
  have hd : (0 : ℚ) < d := Nat.cast_pos.2 (by omega)
  have hpart : (r : ℚ) / d < 1 := (div_lt_one hd).2 (Nat.cast_lt.2 hrest)
  have hlower : (⟨q, k⟩ : Scaled).value = magnitude x - r / d * 10 ^ k := by
    rw [hvalue, Scaled.value]
    ring
  have hupper : (⟨q + 1, k⟩ : Scaled).value = magnitude x + (1 - r / d) * 10 ^ k := by
    rw [hvalue, Scaled.value]
    push_cast
    ring
  rcases Nat.eq_zero_or_pos r with rfl | hr
  · refine .inl (readsBack_of_value hx ?_)
    rw [hlower, Nat.cast_zero, zero_div, zero_mul, sub_zero]
  have hpart' : (0 : ℚ) < r / d := div_pos (Nat.cast_pos.2 hr) hd
  have hstep : (0 : ℚ) < 10 ^ k := by positivity
  have hunit : (0 : ℚ) < 2 ^ exponent x := by positivity
  rw [zpow_add₀ (by norm_num), magnitude] at hk
  rw [magnitude] at hlower hupper
  by_cases hpower : mantissa x = fractions
  · have hcast : (mantissa x : ℚ) = 2 ^ 52 := by
      rw [hpower]
      norm_num [fractions]
    rw [hcast] at hk
    have hhalf : (10 : ℚ) ^ k < 1 / 2 * 2 ^ exponent x := by linarith
    have hgap : (0 : ℚ) < (1 - r / d) * 10 ^ k := mul_pos (by linarith) hstep
    have hgap' : (1 - (r : ℚ) / d) * 10 ^ k < 1 * 10 ^ k := mul_lt_mul_of_pos_right (by linarith) hstep
    refine .inr ⟨hr.ne', readsBack_of_near hx ?_ ?_ fun _ => ?_⟩ <;> rw [hupper] <;> linarith
  · have hmantissa : (mantissa x : ℚ) < 2 ^ 53 := by exact_mod_cast mantissa_lt x
    have hbelow := mul_lt_mul_of_pos_right hmantissa hunit
    have hlt : (10 : ℚ) ^ k < 2 ^ exponent x := by linarith
    have hgap : (0 : ℚ) < r / d * 10 ^ k := mul_pos hpart' hstep
    rcases lt_or_ge ((r : ℚ) / d * 10 ^ k) (1 / 2 * 2 ^ exponent x) with hnear | hfar
    · refine .inl (readsBack_of_near hx ?_ ?_ fun h => absurd h hpower) <;> rw [hlower] <;> linarith
    · have hgap' : (0 : ℚ) < (1 - r / d) * 10 ^ k := mul_pos (by linarith) hstep
      refine .inr ⟨hr.ne', readsBack_of_near hx ?_ ?_ fun h => absurd h hpower⟩ <;> rw [hupper] <;> linarith

/-! ## The shortest decimal -/

theorem value_trimmed (s : Scaled) : s.trimmed.value = s.value := by
  unfold Scaled.trimmed
  generalize s.coefficient.log2 = fuel
  induction fuel generalizing s with
  | zero => rfl
  | succ fuel ih =>
    rw [Scaled.trimmed.go]
    split
    · rename_i h
      have hten : s.coefficient = s.coefficient / 10 * 10 := by
        simp only [Bool.and_eq_true, decide_eq_true_eq] at h
        omega
      rw [ih, Scaled.value, Scaled.value, zpow_add_one₀ (by norm_num), mul_comm _ (10 : ℚ), ← mul_assoc]
      congr 1
      exact_mod_cast hten.symm
    · rfl

theorem magnitude_bounds (hx : x.isFinite = true) (hm : mantissa x ≠ 0) :
    (2 : ℚ) ^ (-1074 : ℤ) ≤ magnitude x ∧ magnitude x < 2 ^ (1024 : ℤ) := by
  have hone : (1 : ℚ) ≤ mantissa x := Nat.one_le_cast.2 (Nat.pos_of_ne_zero hm)
  have hmantissa : (mantissa x : ℚ) < 2 ^ (53 : ℤ) := by exact_mod_cast mantissa_lt x
  have hunit : (0 : ℚ) < 2 ^ exponent x := by positivity
  constructor
  · calc (2 : ℚ) ^ (-1074 : ℤ) ≤ 2 ^ exponent x := zpow_le_zpow_right₀ (by norm_num) (exponent_ge x)
      _ ≤ magnitude x := le_mul_of_one_le_left hunit.le hone
  · calc magnitude x < 2 ^ (53 : ℤ) * 2 ^ exponent x := mul_lt_mul_of_pos_right hmantissa hunit
      _ = 2 ^ (53 + exponent x) := (zpow_add₀ two_ne_zero _ _).symm
      _ ≤ 2 ^ (1024 : ℤ) := zpow_le_zpow_right₀ (by norm_num) (by have := exponent_le hx; omega)

/-- The shortest decimal of a finite float reads back as its absolute value. -/
theorem readsBack_shortest (hx : x.isFinite = true) (tie : Tie) : readsBack x (shortest tie x) = true := by
  unfold shortest
  split
  · rename_i hm
    refine readsBack_of_value hx ?_
    rw [magnitude, hm, Scaled.value, Nat.cast_zero, zero_mul, zero_mul]
  · rename_i hm
    rw [readsBack_congr (value_trimmed _)]
    obtain ⟨hlow, hhigh⟩ := magnitude_bounds hx hm
    have hnumerator : 0 < numerator x := by
      refine Nat.pos_of_ne_zero fun hzero => ?_
      rw [magnitude_eq, hzero, Nat.cast_zero, zero_div] at hlow
      exact absurd hlow (by norm_num)
    rw [magnitude_eq] at hlow hhigh
    have htop := ten_zpow_floorLog10_le hnumerator (denominator_pos x) hlow hhigh
    generalize floorLog10 (numerator x) (denominator x) = top at htop
    have hlast : (onGrid? tie x (top - 16)).isSome = true := by
      refine isSome_onGrid? hx ?_
      rwa [sub_add_cancel, magnitude_eq]
    obtain ⟨s, hs⟩ : ∃ s, (List.range 17).findSome? (fun n : ℕ => onGrid? tie x (top - n)) = some s := by
      rw [← Option.isSome_iff_exists, List.findSome?_isSome_iff]
      exact ⟨16, by decide, hlast⟩
    obtain ⟨n, -, hgrid⟩ := List.exists_of_findSome?_eq_some hs
    rw [hs]
    exact readsBack_of_onGrid? hgrid

end DesignTokens.Decimal
