import DesignTokens.Expr.Evaluate
import DesignTokens.Proofs.Decimal.Order

/-!
# What the operators of expressions make of numbers

* `Arithmetic.no_result_iff` : just a division by a number of too small a magnitude has no value;
* `lesser_of_le`, `lesser_of_lt`, `greater_of_le`, `greater_of_lt` : the smaller and the greater number;
* `clampBetween_of_lt`, `clampBetween_of_between`, `clampBetween_of_gt` : a number below the bounds, between
  them or above; `clampBetween_of_crossed` : the lower bound if it is above the other one;
* `Test.existsUnique_holds` : of the three tests just one holds.

The numbers that an evaluation hands to an operator have been checked to be finite, so they are not NaN.
-/

namespace DesignTokens

open Decimal

variable {x y lo hi : Float}

theorem Arithmetic.no_result_iff {op : Arithmetic} :
    op.apply? x y = none ↔ op = .div ∧ y.abs < smallestDivisor := by
  unfold Arithmetic.apply?
  cases op <;> simp

theorem lesser_of_le (h : x ≤ y) : lesser x y = x := if_neg (float_not_lt_of_le h)

theorem lesser_of_lt (h : y < x) : lesser x y = y := if_pos h

theorem greater_of_le (h : y ≤ x) : greater x y = x := if_neg (float_not_lt_of_le h)

theorem greater_of_lt (h : x < y) : greater x y = y := if_pos h

theorem clampBetween_of_lt (hbounds : lo ≤ hi) (h : x < lo) : clampBetween lo hi x = lo := by
  have hle : x ≤ hi := float_le_of_lt (float_lt_of_lt_of_le h hbounds)
  rw [clampBetween, lesser_of_le hle, greater_of_lt h]

theorem clampBetween_of_between (hlo : lo ≤ x) (hhi : x ≤ hi) : clampBetween lo hi x = x := by
  rw [clampBetween, lesser_of_le hhi, greater_of_le hlo]

theorem clampBetween_of_gt (hbounds : lo ≤ hi) (h : hi < x) : clampBetween lo hi x = hi := by
  rw [clampBetween, lesser_of_lt h, greater_of_le hbounds]

theorem clampBetween_of_crossed (hx : x.isNaN = false) (h : hi < lo) : clampBetween lo hi x = lo := by
  rw [clampBetween]
  by_cases hless : hi < x
  · rw [lesser_of_lt hless, greater_of_lt h]
  · have hle : x ≤ hi := float_le_of_not_lt (float_lt_iff.1 h).1 hx hless
    rw [lesser_of_le hle, greater_of_lt (float_lt_of_le_of_lt hle h)]

/-- Floats are equal, less or greater as their places are. -/
theorem Test.existsUnique_holds (hx : x.isNaN = false) (hy : y.isNaN = false) :
    ∃! op : Test, op.holds x y = true := by
  have heq : Test.eq.holds x y = true ↔ place x.toModel.unpack = place y.toModel.unpack := by
    rw [holds, float_beq_iff]
    exact ⟨fun h => h.2.2, fun h => ⟨hx, hy, h⟩⟩
  have hlt : Test.lt.holds x y = true ↔ place x.toModel.unpack < place y.toModel.unpack := by
    rw [holds, decide_eq_true_iff, float_lt_iff]
    exact ⟨fun h => h.2.2, fun h => ⟨hx, hy, h⟩⟩
  have hgt : Test.gt.holds x y = true ↔ place y.toModel.unpack < place x.toModel.unpack := by
    rw [holds, decide_eq_true_iff, float_lt_iff]
    exact ⟨fun h => h.2.2, fun h => ⟨hy, hx, h⟩⟩
  rcases lt_trichotomy (place x.toModel.unpack) (place y.toModel.unpack) with h | h | h
  · refine ⟨.lt, hlt.2 h, fun op hop => ?_⟩
    cases op with
    | lt => rfl
    | eq => exact absurd (heq.1 hop) h.ne
    | gt => exact absurd (hgt.1 hop) h.not_gt
  · refine ⟨.eq, heq.2 h, fun op hop => ?_⟩
    cases op with
    | lt => exact absurd (hlt.1 hop) h.not_lt
    | eq => rfl
    | gt => exact absurd (hgt.1 hop) h.not_gt
  · refine ⟨.gt, hgt.2 h, fun op hop => ?_⟩
    cases op with
    | lt => exact absurd (hlt.1 hop) h.not_gt
    | eq => exact absurd (heq.1 hop) h.ne'
    | gt => rfl

end DesignTokens
