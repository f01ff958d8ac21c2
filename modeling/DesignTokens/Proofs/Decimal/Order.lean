import DesignTokens.Proofs.Decimal.Bits

/-!
# The order of floats

* `place u` : where an unpacked float stands, by its sign and whether it is infinite, then by its exponent,
  then by its mantissa;
* `float_le_iff`, `float_lt_iff`, `float_beq_iff` : floats compare as their places do, and NaN with nothing;
* `float_le_trans`, `float_lt_of_lt_of_le`, `float_le_of_not_lt` : so the order is transitive, and total
  apart from NaN;
* `isNaN_abs` : the magnitude of a finite float compares with something.
-/

namespace DesignTokens.Decimal

open Float.Model

variable {u v : UnpackedFloat} {x y z : Float}

/-- Where an unpacked float stands. -/
def place : UnpackedFloat → ℤ ×ₗ ℤ ×ₗ ℤ
  | .infinity .negative => toLex (-2, toLex (0, 0))
  | .finite .negative m e _ => toLex (-1, toLex (-e, -m))
  | .zero _ => toLex (0, toLex (0, 0))
  | .finite .positive m e _ => toLex (1, toLex (e, m))
  | .infinity .positive => toLex (2, toLex (0, 0))
  | .notANumber => toLex (3, toLex (0, 0))

/-! ## Comparing places -/

theorem compare_toLex {α β : Type} [Ord α] [Ord β] (a b : α) (c d : β) :
    compare (toLex (a, c)) (toLex (b, d)) = (compare a b).then (compare c d) := by
  rw [Prod.Lex.compare_def]
  rfl

theorem compare_neg (a b : ℤ) : compare (-a) (-b) = (compare a b).swap := by
  have hanti : StrictAnti fun a : ℤ => -a := fun _ _ => Int.neg_lt_neg
  rw [← cmp_eq_compare, ← cmp_eq_compare, cmp_swap]
  exact hanti.cmp_map_eq a b

theorem compare_natCast (m n : ℕ) : compare (m : ℤ) (n : ℤ) = compare m n := by
  rw [← cmp_eq_compare, ← cmp_eq_compare]
  exact Nat.strictMono_cast.cmp_map_eq m n

theorem compare_place_negative {m n : ℕ} {e f : ℤ} (hm : 0 < m) (hn : 0 < n) :
    compare (place (.finite .negative m e hm)) (place (.finite .negative n f hn)) =
      ((compare e f).then (compare m n)).swap := by
  unfold place
  rw [compare_toLex, compare_toLex, compare_neg e f, compare_neg m n, compare_natCast, Ordering.swap_then]
  rfl

theorem compare_place_positive {m n : ℕ} {e f : ℤ} (hm : 0 < m) (hn : 0 < n) :
    compare (place (.finite .positive m e hm)) (place (.finite .positive n f hn)) =
      (compare e f).then (compare m n) := by
  unfold place
  rw [compare_toLex, compare_toLex, compare_natCast]
  rfl

/-- By cases on what both are; only two finite ones of one sign need a look at exponent and mantissa. -/
theorem compare_eq (hu : u ≠ .notANumber) (hv : v ≠ .notANumber) :
    u.compare v = some (compare (place u) (place v)) := by
  cases u with
  | notANumber => exact absurd rfl hu
  | infinity s =>
    cases v with
    | notANumber => exact absurd rfl hv
    | infinity t => cases s <;> cases t <;> rfl
    | zero t => cases s <;> rfl
    | finite t n f hn => cases s <;> cases t <;> rfl
  | zero s =>
    cases v with
    | notANumber => exact absurd rfl hv
    | infinity t => cases t <;> rfl
    | zero t => rfl
    | finite t n f hn => cases t <;> rfl
  | finite s m e hm =>
    cases v with
    | notANumber => exact absurd rfl hv
    | infinity t => cases s <;> cases t <;> rfl
    | zero t => cases s <;> rfl
    | finite t n f hn =>
      cases s <;> cases t
      case negative.negative => rw [compare_place_negative]; rfl
      case negative.positive => rfl
      case positive.negative => rfl
      case positive.positive => rw [compare_place_positive]; rfl

theorem compare_eq_some_iff {o : Ordering} : u.compare v = some o ↔
    u ≠ .notANumber ∧ v ≠ .notANumber ∧ compare (place u) (place v) = o := by
  by_cases hu : u = .notANumber
  · subst hu
    simp [UnpackedFloat.compare]
  by_cases hv : v = .notANumber
  · subst hv
    cases u <;> simp [UnpackedFloat.compare]
  · rw [compare_eq hu hv, Option.some.injEq]
    exact ⟨fun h => ⟨hu, hv, h⟩, fun h => h.2.2⟩

theorem unpacked_le_iff : u.le v = true ↔ u ≠ .notANumber ∧ v ≠ .notANumber ∧ place u ≤ place v := by
  rw [UnpackedFloat.le, Option.any_eq_true]
  constructor
  · rintro ⟨o, hcompare, hle⟩
    obtain ⟨hu, hv, rfl⟩ := compare_eq_some_iff.1 hcompare
    exact ⟨hu, hv, compare_le_iff_le.1 (Ordering.ne_gt_iff_isLE.2 hle)⟩
  · rintro ⟨hu, hv, hle⟩
    exact ⟨_, compare_eq hu hv, Ordering.ne_gt_iff_isLE.1 (compare_le_iff_le.2 hle)⟩

theorem unpacked_lt_iff : u.lt v = true ↔ u ≠ .notANumber ∧ v ≠ .notANumber ∧ place u < place v := by
  rw [UnpackedFloat.lt, beq_iff_eq, compare_eq_some_iff, compare_lt_iff_lt]

theorem unpacked_beq_iff : u.beq v = true ↔ u ≠ .notANumber ∧ v ≠ .notANumber ∧ place u = place v := by
  rw [UnpackedFloat.beq, beq_iff_eq, compare_eq_some_iff, compare_eq_iff_eq]

/-! ## Comparing floats -/

theorem isNaN_eq_false_iff : x.isNaN = false ↔ x.toModel.unpack ≠ .notANumber := by
  rw [ne_eq, ← UnpackedFloat.isNaN_iff, Bool.not_eq_true]
  rfl

theorem float_le_iff : x ≤ y ↔
    x.isNaN = false ∧ y.isNaN = false ∧ place x.toModel.unpack ≤ place y.toModel.unpack := by
  have hle : x ≤ y ↔ x.toModel.unpack.le y.toModel.unpack = true := by
    show x.le y = true ↔ _
    unfold Float.le
    exact decide_eq_true_iff
  rw [hle, unpacked_le_iff, isNaN_eq_false_iff, isNaN_eq_false_iff]

theorem float_lt_iff : x < y ↔
    x.isNaN = false ∧ y.isNaN = false ∧ place x.toModel.unpack < place y.toModel.unpack := by
  have hlt : x < y ↔ x.toModel.unpack.lt y.toModel.unpack = true := by
    show x.lt y = true ↔ _
    unfold Float.lt
    exact decide_eq_true_iff
  rw [hlt, unpacked_lt_iff, isNaN_eq_false_iff, isNaN_eq_false_iff]

theorem float_beq_iff : (x == y) = true ↔
    x.isNaN = false ∧ y.isNaN = false ∧ place x.toModel.unpack = place y.toModel.unpack := by
  have hbeq : (x == y) = x.toModel.unpack.beq y.toModel.unpack := rfl
  rw [hbeq, unpacked_beq_iff, isNaN_eq_false_iff, isNaN_eq_false_iff]

theorem float_le_trans (hxy : x ≤ y) (hyz : y ≤ z) : x ≤ z := by
  obtain ⟨hx, -, hxy⟩ := float_le_iff.1 hxy
  obtain ⟨-, hz, hyz⟩ := float_le_iff.1 hyz
  exact float_le_iff.2 ⟨hx, hz, hxy.trans hyz⟩

theorem float_le_of_not_lt (hx : x.isNaN = false) (hy : y.isNaN = false) (h : ¬ x < y) : y ≤ x := by
  rw [float_lt_iff, not_and, not_and, not_lt] at h
  exact float_le_iff.2 ⟨hy, hx, h hx hy⟩

theorem float_not_lt_of_le (h : x ≤ y) : ¬ y < x := fun hlt =>
  not_lt_of_ge (float_le_iff.1 h).2.2 (float_lt_iff.1 hlt).2.2

theorem float_le_of_lt (h : x < y) : x ≤ y := by
  obtain ⟨hx, hy, hlt⟩ := float_lt_iff.1 h
  exact float_le_iff.2 ⟨hx, hy, hlt.le⟩

theorem float_lt_of_lt_of_le (hxy : x < y) (hyz : y ≤ z) : x < z := by
  obtain ⟨hx, -, hxy⟩ := float_lt_iff.1 hxy
  obtain ⟨-, hz, hyz⟩ := float_le_iff.1 hyz
  exact float_lt_iff.2 ⟨hx, hz, hxy.trans_le hyz⟩

theorem float_lt_of_le_of_lt (hxy : x ≤ y) (hyz : y < z) : x < z := by
  obtain ⟨hx, -, hxy⟩ := float_le_iff.1 hxy
  obtain ⟨-, hz, hyz⟩ := float_lt_iff.1 hyz
  exact float_lt_iff.2 ⟨hx, hz, hxy.trans_lt hyz⟩

theorem exponent_of_packComponents_eq_packedNaN {s : UnpackedFloat.Sign} {e : BitVec 11} {m : BitVec 52}
    (h : UnpackedFloat.packComponents .binary64 s e m = UnpackedFloat.packedNaN .binary64) :
    e = -1#11 := by
  have he := congrArg (@UnpackedFloat.unpackExponent .binary64) h
  unfold UnpackedFloat.packedNaN at he
  rw [UnpackedFloat.unpackExponent_packComponents, UnpackedFloat.unpackExponent_packComponents] at he
  exact he

/-- Packing gives the bits of NaN for nothing finite. -/
theorem pack_ne_packedNaN (h : u.isFinite = true) :
    UnpackedFloat.pack .binary64 u ≠ UnpackedFloat.packedNaN .binary64 := by
  cases u with
  | infinity s => cases h
  | notANumber => cases h
  | zero s => cases s <;> decide
  | finite s m e hm =>
    unfold UnpackedFloat.pack
    dsimp only
    split_ifs with hlarge hnormal
    · cases s <;> decide
    · intro heq
      have hbits := congrArg BitVec.toNat (exponent_of_packComponents_eq_packedNaN heq)
      have hones : (-1#11).toNat = 2047 := by decide
      rw [BitVec.toNat_ofNat, Nat.mod_eq_of_lt (by omega), hones] at hbits
      omega
    · intro heq
      exact absurd (exponent_of_packComponents_eq_packedNaN heq) (by decide)

theorem isNaN_abs (h : x.isFinite = true) : x.abs.isNaN = false := by
  have hfinite : x.toModel.unpack.abs.isFinite = true := by
    have hx : x.toModel.unpack.isFinite = true := h
    generalize x.toModel.unpack = u at hx
    cases u with
    | infinity s => cases hx
    | notANumber => cases hx
    | zero s => rfl
    | finite s m e hm => rfl
  have hnan : x.abs.isNaN = (UnpackedFloat.unpack .binary64
      (UnpackedFloat.pack .binary64 x.toModel.unpack.abs)).isNaN := rfl
  rw [hnan, ← Bool.not_eq_true, UnpackedFloat.isNaN_unpack_iff_of_valid (UnpackedFloat.valid_pack)]
  exact pack_ne_packedNaN hfinite

end DesignTokens.Decimal
