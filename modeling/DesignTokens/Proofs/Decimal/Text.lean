import DesignTokens.Decimal.Reader
import DesignTokens.Decimal.Text
import DesignTokens.Proofs.Decimal.Shortest
import DesignTokens.Proofs.Json.Numeral

/-!
# The text of a float reads back

* `takeDigits_positional` : the text of a decimal is digits with at most one point, and these write the
  decimal;
* `plainChars_spec` : the text of a finite float is such a text, with a minus if its sign is set, and the
  float of what is written is the float itself.
-/

namespace DesignTokens.Decimal

variable {x : Float} {s : Scaled} {whole part rest cs : List Char}

/-! ## Digits -/

theorem natOfDigits_eq (cs : List Char) : natOfDigits cs = Nat.ofDigitChars 10 cs 0 := rfl

theorem natOfDigits_digitsOf (n : ℕ) : natOfDigits (digitsOf n) = n :=
  Nat.ofDigitChars_toDigits (by decide) (by decide)

theorem natOfDigits_append_zeros (cs : List Char) (n : ℕ) :
    natOfDigits (cs ++ List.replicate n '0') = natOfDigits cs * 10 ^ n := by
  simp only [natOfDigits_eq, Nat.ofDigitChars_append]
  generalize Nat.ofDigitChars 10 cs 0 = start
  induction n with
  | zero => simp
  | succ n ih =>
    rw [List.replicate_succ', Nat.ofDigitChars_append, ih, Nat.ofDigitChars_cons, Nat.ofDigitChars_nil,
      Nat.sub_self, add_zero, pow_succ]
    ring

theorem natOfDigits_zeros_append (n : ℕ) (cs : List Char) :
    natOfDigits (List.replicate n '0' ++ cs) = natOfDigits cs := by
  have hzeros : natOfDigits (List.replicate n '0') = 0 :=
    (natOfDigits_append_zeros [] n).trans (Nat.zero_mul _)
  rw [natOfDigits_eq, Nat.ofDigitChars_append, ← natOfDigits_eq, hzeros]
  rfl

theorem isDigit_of_mem_replicate {n : ℕ} {c : Char} (h : c ∈ List.replicate n '0') : c.isDigit = true := by
  rw [List.eq_of_mem_replicate h]
  rfl

theorem takeDigits_of_forall (h : ∀ c ∈ whole, c.isDigit = true) : takeDigits whole = (whole, [], []) := by
  have htake : whole.takeWhile Char.isDigit = whole := List.takeWhile_eq_self_iff.2 h
  have hdrop : whole.dropWhile Char.isDigit = [] := List.dropWhile_eq_nil_iff.2 h
  rw [takeDigits, hdrop, htake]

theorem takeDigits_point_append (hwhole : ∀ c ∈ whole, c.isDigit = true) (hpart : ∀ c ∈ part, c.isDigit = true)
    (hrest : ∀ c ∈ rest.head?, c.isDigit = false) :
    takeDigits (whole ++ '.' :: (part ++ rest)) = (whole, part, rest) := by
  have htake : (whole ++ '.' :: (part ++ rest)).takeWhile Char.isDigit = whole := by
    rw [List.takeWhile_append_of_pos hwhole, List.takeWhile_cons_of_neg (by decide), List.append_nil]
  have hdrop : (whole ++ '.' :: (part ++ rest)).dropWhile Char.isDigit = '.' :: (part ++ rest) := by
    rw [List.dropWhile_append_of_pos hwhole, List.dropWhile_cons_of_neg (by decide)]
  obtain ⟨hpart', hrest'⟩ := takeWhile_append_of_head? hrest part
  rw [takeDigits, hdrop, htake]
  show (whole, (part ++ rest).takeWhile Char.isDigit, (part ++ rest).dropWhile Char.isDigit) = _
  rw [hpart', hrest', List.takeWhile_eq_self_iff.2 hpart, List.dropWhile_eq_nil_iff.2 hpart, List.nil_append]

theorem takeDigits_point (hwhole : ∀ c ∈ whole, c.isDigit = true) (hpart : ∀ c ∈ part, c.isDigit = true) :
    takeDigits (whole ++ '.' :: part) = (whole, part, []) := by
  have hend : ∀ c ∈ ([] : List Char).head?, c.isDigit = false := by simp
  have htake := takeDigits_point_append hwhole hpart hend
  rwa [List.append_nil] at htake

theorem takeDigits_fst (cs : List Char) : (takeDigits cs).1 = cs.takeWhile Char.isDigit := by
  unfold takeDigits
  split <;> rfl

theorem takeSign_of_digits (h : cs.takeWhile Char.isDigit ≠ []) : takeSign cs = (false, cs) := by
  unfold takeSign
  split
  · exact absurd (List.takeWhile_cons_of_neg (by decide)) h
  · exact absurd (List.takeWhile_cons_of_neg (by decide)) h
  · rfl

/-- A whole number is written by its digits alone. -/
theorem digits_positional (hpower : 0 ≤ s.power) : (∀ c ∈ positional s, c.isDigit = true) ∧
    positional s ≠ [] ∧ (natOfDigits (positional s) : ℚ) = s.value := by
  have hdigits : ∀ c ∈ digitsOf s.coefficient, c.isDigit = true := fun c hc => digitsOf_isDigit hc
  unfold positional Scaled.value
  dsimp only
  rw [if_pos hpower]
  split_ifs with hzero
  · refine ⟨hdigits, digitsOf_ne_nil _, ?_⟩
    rw [natOfDigits_digitsOf, hzero, Nat.cast_zero, zero_mul]
  · refine ⟨fun c hc => (List.mem_append.1 hc).elim (hdigits c) isDigit_of_mem_replicate,
      by simp [digitsOf_ne_nil], ?_⟩
    have hten := zpow_of_nonneg 10 hpower
    rw [Nat.cast_ofNat] at hten
    rw [natOfDigits_append_zeros, natOfDigits_digitsOf, hten]
    simp

theorem takeDigits_positional (s : Scaled) : ∃ whole part, takeDigits (positional s) = (whole, part, []) ∧
    whole ≠ [] ∧ (natOfDigits (whole ++ part) : ℚ) * 10 ^ (-(part.length : ℤ)) = s.value := by
  by_cases hpower : 0 ≤ s.power
  · obtain ⟨hdigits, hne, hvalue⟩ := digits_positional hpower
    refine ⟨_, [], takeDigits_of_forall hdigits, hne, ?_⟩
    rw [List.append_nil, hvalue, List.length_nil, Nat.cast_zero, neg_zero, zpow_zero, mul_one]
  have hdigits : ∀ c ∈ digitsOf s.coefficient, c.isDigit = true := fun c hc => digitsOf_isDigit hc
  unfold positional Scaled.value
  dsimp only
  rw [if_neg hpower]
  split_ifs with hplaces
  · have hlength : (digitsOf s.coefficient).length - ((digitsOf s.coefficient).length - (-s.power).toNat) =
        (-s.power).toNat := by omega
    refine ⟨_, _, takeDigits_point (fun c hc => hdigits c (List.mem_of_mem_take hc))
      (fun c hc => hdigits c (List.mem_of_mem_drop hc)), ?_, ?_⟩
    · refine List.ne_nil_of_length_pos ?_
      rw [List.length_take]
      omega
    · rw [List.take_append_drop, natOfDigits_digitsOf, List.length_drop, hlength, Int.toNat_of_nonneg (by omega),
        neg_neg]
  · have hzero : ∀ c ∈ ['0'], c.isDigit = true := by simp
    refine ⟨['0'], _, takeDigits_point hzero ?_, List.cons_ne_nil _ _, ?_⟩
    · intro c hc
      exact (List.mem_append.1 hc).elim isDigit_of_mem_replicate (hdigits c)
    · have hlength : (((-s.power).toNat - (digitsOf s.coefficient).length +
          (digitsOf s.coefficient).length : ℕ) : ℤ) = -s.power := by omega
      rw [← List.replicate_one, ← List.append_assoc, List.replicate_append_replicate, natOfDigits_zeros_append,
        natOfDigits_digitsOf, List.length_append, List.length_replicate, hlength, neg_neg]

/-! ## Texts of floats -/

theorem ofScaled_shortest (hx : x.isFinite = true) (tie : Tie) :
    ofScaled (shortest tie x).coefficient (shortest tie x).power =
      Float.ofBits (x.toBits.toNat % signBit).toUInt64 := by
  have hbits := of_decide_eq_true (readsBack_shortest hx tie)
  rw [← hbits, Nat.toUInt64_eq, UInt64.ofNat_toNat, Float.ofBits_toBits]

theorem plainChars_of_isFinite (hx : x.isFinite = true) :
    plainChars x = withSign x (positional (shortest .up x)) := by
  obtain ⟨hnan, hinf⟩ := isNaN_isInf_of_isFinite hx
  rw [plainChars, hnan, hinf]
  rfl

/-- The text of a finite float is an optional minus, and digits with at most one point that write its
absolute value. -/
theorem plainChars_spec (hx : x.isFinite = true) : ∃ unsigned whole part,
    takeSign (plainChars x) = (isNegative x, unsigned) ∧ takeDigits unsigned = (whole, part, []) ∧ whole ≠ [] ∧
      (if isNegative x then -ofScaled (natOfDigits (whole ++ part)) (-(part.length : ℤ))
        else ofScaled (natOfDigits (whole ++ part)) (-(part.length : ℤ))) = x := by
  obtain ⟨whole, part, htake, hwhole, hvalue⟩ := takeDigits_positional (shortest .up x)
  have hunsigned : takeSign (positional (shortest .up x)) = (false, positional (shortest .up x)) := by
    refine takeSign_of_digits ?_
    rwa [← takeDigits_fst, htake]
  refine ⟨positional (shortest .up x), whole, part, ?_, htake, hwhole, ?_⟩
  · rw [plainChars_of_isFinite hx, withSign]
    cases isNegative x with
    | true => rfl
    | false => exact hunsigned
  · rw [ofScaled_congr hvalue, ofScaled_shortest hx]
    exact signed_ofBits hx

end DesignTokens.Decimal
