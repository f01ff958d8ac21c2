import DesignTokens.Json.Number
import Mathlib.Data.List.TakeWhile

/-!
# The characters of numerals

* `isNumeralChar c` : digits, signs, the point and the letter of an exponent;
* `takeWhile_append_of_head?`, `Decimal.takeSign_append_of_head?` : a text that cannot go on with what
  stands behind it is read as if it stood alone;
* `Numeral.take?_consumes` : reading a numeral takes such characters only, and at least one;
* `Number.numeralChars_chars` : the text of a number is `null` or one or more such characters.
-/

namespace DesignTokens

def isNumeralChar (c : Char) : Bool :=
  c.isDigit || c == '-' || c == '+' || c == '.' || c == 'e' || c == 'E'

/-- The second text is the first one after some characters of numerals. -/
def Consumes (cs left : List Char) : Prop :=
  ∃ used, cs = used ++ left ∧ ∀ c ∈ used, isNumeralChar c = true

theorem Consumes.refl (cs : List Char) : Consumes cs cs := ⟨[], rfl, by simp⟩

theorem Consumes.trans {cs mid left : List Char} (h : Consumes cs mid) (h' : Consumes mid left) :
    Consumes cs left := by
  obtain ⟨used, rfl, hused⟩ := h
  obtain ⟨used', rfl, hused'⟩ := h'
  refine ⟨used ++ used', (List.append_assoc _ _ _).symm, ?_⟩
  intro c hc
  exact (List.mem_append.1 hc).elim (hused c) (hused' c)

theorem consumes_cons {c : Char} (cs : List Char) (hc : isNumeralChar c = true) : Consumes (c :: cs) cs :=
  ⟨[c], rfl, by simpa using hc⟩

theorem consumes_digits (cs : List Char) : Consumes cs (cs.dropWhile Char.isDigit) := by
  refine ⟨cs.takeWhile Char.isDigit, List.takeWhile_append_dropWhile.symm, ?_⟩
  intro c hc
  have hdigit : c.isDigit = true := List.mem_takeWhile_imp hc
  simp [isNumeralChar, hdigit]

theorem consumes_takeSign (cs : List Char) : Consumes cs (Decimal.takeSign cs).2 := by
  unfold Decimal.takeSign
  split
  · exact consumes_cons _ rfl
  · exact consumes_cons _ rfl
  · exact .refl _

/-! ## Text before other text -/

section Behind

variable {rest : List Char}

theorem takeWhile_append_of_head? {p : Char → Bool} (hrest : ∀ c ∈ rest.head?, p c = false)
    (cs : List Char) : (cs ++ rest).takeWhile p = cs.takeWhile p ∧
      (cs ++ rest).dropWhile p = cs.dropWhile p ++ rest := by
  induction cs with
  | nil =>
    cases rest with
    | nil => exact ⟨rfl, rfl⟩
    | cons c rest =>
      have hc : p c = false := hrest c rfl
      simp [hc]
  | cons c cs ih => cases hc : p c <;> simp [hc, ih]

namespace Decimal

theorem takeSign_of_ne {c : Char} (hminus : c ≠ '-') (hplus : c ≠ '+') (cs : List Char) :
    takeSign (c :: cs) = (false, c :: cs) := by
  unfold takeSign
  split <;> simp_all

theorem takeSign_append_of_head? (hrest : ∀ c ∈ rest.head?, c ≠ '-' ∧ c ≠ '+') (cs : List Char) :
    takeSign (cs ++ rest) = ((takeSign cs).1, (takeSign cs).2 ++ rest) := by
  cases cs with
  | nil =>
    cases rest with
    | nil => rfl
    | cons c rest => exact takeSign_of_ne (hrest c rfl).1 (hrest c rfl).2 rest
  | cons c cs =>
    by_cases hminus : c = '-'
    · rw [hminus]
      rfl
    by_cases hplus : c = '+'
    · rw [hplus]
      rfl
    rw [List.cons_append, takeSign_of_ne hminus hplus, takeSign_of_ne hminus hplus]
    rfl

end Decimal

end Behind

namespace Numeral

variable {cs left : List Char}

theorem takePart?_consumes {part : List Char} (h : takePart? cs = some (part, left)) :
    Consumes cs left := by
  unfold takePart? at h
  split at h
  · dsimp only at h
    split at h
    · cases h
    · cases h
      exact (consumes_cons _ rfl).trans (consumes_digits _)
  · cases h
    exact .refl _

theorem takeExponent?_consumes {e : Option Int} (h : takeExponent? cs = some (e, left)) :
    Consumes cs left := by
  unfold takeExponent? at h
  split at h
  · cases h
    exact .refl _
  · rename_i c cs
    split at h
    · rename_i hletter
      dsimp only at h
      split at h
      · cases h
      · cases h
        have hc : isNumeralChar c = true := by
          simp only [Bool.or_eq_true, decide_eq_true_eq] at hletter
          rcases hletter with rfl | rfl <;> rfl
        exact ((consumes_cons _ hc).trans (consumes_takeSign cs)).trans (consumes_digits _)
    · cases h
      exact .refl _

theorem wholeAllowed_ne_nil {ds : List Char} (h : wholeAllowed ds = true) : ds ≠ [] := by
  rintro rfl
  cases h

/-- A numeral has at least one character. -/
theorem take?_consumes {n : Numeral} (h : take? cs = some (n, left)) :
    ∃ c rest, cs = c :: rest ∧ isNumeralChar c = true ∧ Consumes rest left := by
  unfold take? at h
  split at h
  rename_i negative unsigned hsign
  dsimp only at h
  split at h
  · cases h
  · rename_i hwhole
    obtain ⟨⟨part, afterPart⟩, hpart, h⟩ := Option.bind_eq_some_iff.1 h
    obtain ⟨⟨e, afterExponent⟩, hexponent, h⟩ := Option.bind_eq_some_iff.1 h
    obtain ⟨-, rfl⟩ := Prod.mk.inj (Option.some.inj h)
    have hrest : Consumes (unsigned.dropWhile Char.isDigit) afterExponent :=
      (takePart?_consumes hpart).trans (takeExponent?_consumes hexponent)
    split at hsign
    · cases hsign
      exact ⟨_, _, rfl, rfl, (consumes_digits _).trans hrest⟩
    · cases hsign
      have hne : cs.takeWhile Char.isDigit ≠ [] := wholeAllowed_ne_nil (by simpa using hwhole)
      cases cs with
      | nil => exact absurd rfl hne
      | cons c rest =>
        have hc : c.isDigit = true := by
          by_contra hc
          exact hne (List.takeWhile_cons_of_neg hc)
        rw [List.dropWhile_cons_of_pos hc] at hrest
        exact ⟨c, rest, rfl, by simp [isNumeralChar, hc], (consumes_digits rest).trans hrest⟩

end Numeral

namespace Decimal

theorem digitsOf_isDigit {n : Nat} {c : Char} (h : c ∈ digitsOf n) : c.isDigit = true :=
  Nat.isDigit_of_mem_toDigits (by decide) (by decide) h

theorem digitsOf_ne_nil (n : Nat) : digitsOf n ≠ [] := Nat.toDigits_ne_nil

end Decimal

def NumeralChars (cs : List Char) : Prop := cs ≠ [] ∧ ∀ c ∈ cs, isNumeralChar c = true

theorem numeralChars_digitsOf (n : Nat) : NumeralChars (Decimal.digitsOf n) := by
  refine ⟨Decimal.digitsOf_ne_nil n, fun c hc => ?_⟩
  simp [isNumeralChar, Decimal.digitsOf_isDigit hc]

theorem NumeralChars.append {cs ds : List Char} (h : NumeralChars cs)
    (hds : ∀ c ∈ ds, isNumeralChar c = true) : NumeralChars (cs ++ ds) := by
  refine ⟨by simp [h.1], fun c hc => ?_⟩
  exact (List.mem_append.1 hc).elim (h.2 c) (hds c)

theorem NumeralChars.cons {c : Char} {cs : List Char} (hc : isNumeralChar c = true)
    (hcs : ∀ c ∈ cs, isNumeralChar c = true) : NumeralChars (c :: cs) :=
  ⟨List.cons_ne_nil c cs, List.forall_mem_cons.2 ⟨hc, hcs⟩⟩

theorem numeralChars_positional (s : Decimal.Scaled) : NumeralChars (Decimal.positional s) := by
  have hdigits := numeralChars_digitsOf s.coefficient
  have hzeros : ∀ n, ∀ c ∈ List.replicate n '0', isNumeralChar c = true := by
    intro n c hc
    rw [List.eq_of_mem_replicate hc]
    rfl
  unfold Decimal.positional
  dsimp only
  split
  · split
    · exact hdigits
    · exact hdigits.append (hzeros _)
  · split
    · refine ⟨by simp, fun c hc => ?_⟩
      rcases List.mem_append.1 hc with hc | hc
      · exact hdigits.2 c (List.mem_of_mem_take hc)
      · rcases List.mem_cons.1 hc with rfl | hc
        · rfl
        · exact hdigits.2 c (List.mem_of_mem_drop hc)
    · refine .cons rfl (List.forall_mem_cons.2 ⟨rfl, fun c hc => ?_⟩)
      exact (List.mem_append.1 hc).elim (hzeros _ c) (hdigits.2 c)

namespace Number

theorem numeralChars_scientific (s : Decimal.Scaled) : NumeralChars (scientific s) := by
  have hdigits := (numeralChars_digitsOf s.coefficient).2
  have hexponent (e : Int) : ∀ c ∈ 'e' :: exponentChars e, isNumeralChar c = true := by
    intro c hc
    rcases List.mem_cons.1 hc with rfl | hc
    · rfl
    · unfold exponentChars at hc
      rcases List.mem_cons.1 hc with rfl | hc
      · split <;> rfl
      · exact (numeralChars_digitsOf _).2 c hc
  unfold scientific
  dsimp only
  refine ⟨by simp, fun c hc => ?_⟩
  rcases List.mem_append.1 hc with hc | hc
  · split at hc
    · cases hc
    · rename_i d hd
      exact hdigits c (hd ▸ hc)
    · rename_i d rest hd
      rw [hd] at hdigits
      simp only [List.mem_cons] at hc hdigits
      rcases hc with rfl | rfl | hc
      · exact hdigits c (.inl rfl)
      · rfl
      · exact hdigits c (.inr hc)
  · exact hexponent _ c hc

theorem numeralChars_decimalChars (s : Decimal.Scaled) : NumeralChars (decimalChars s) := by
  unfold decimalChars
  dsimp only
  split
  · refine (numeralChars_positional s).append ?_
    split <;> simp [isNumeralChar]
  · exact numeralChars_scientific s

theorem numeralChars_chars (n : Number) : n.chars = ['n', 'u', 'l', 'l'] ∨ NumeralChars n.chars := by
  cases n with
  | int n =>
    right
    rw [chars, intChars]
    split
    · exact .cons rfl (numeralChars_digitsOf _).2
    · exact numeralChars_digitsOf _
  | float x =>
    rw [chars, floatChars, Decimal.withSign]
    have hchars : NumeralChars
        (if x == 0.0 then ['0', '.', '0'] else decimalChars (Decimal.shortest .toEven x)) := by
      split
      · simp [NumeralChars, isNumeralChar]
      · exact numeralChars_decimalChars _
    split
    · right
      split
      · exact .cons rfl hchars.2
      · exact hchars
    · exact .inl rfl

end Number

end DesignTokens
