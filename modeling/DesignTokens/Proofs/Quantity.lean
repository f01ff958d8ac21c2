import DesignTokens.Quantity
import DesignTokens.Proofs.Decimal.Text
import DesignTokens.Proofs.Text.Blank

/-!
# Reading quantities

* `Quantity.take?_append` : what stands behind a text does not change what is read at its start, if it
  begins with a character that no quantity has there;
* `Quantity.exists_body` : the characters of what is read;
* `Quantity.scanFrom_delimiter` : behind a delimiter the scan starts afresh, so that a plus between two
  quantities may count as a delimiter and as a sign;
* `Quantity.scan_of_whole?` : in a text that is one quantity the scan finds this quantity only;
* `firstLength?_of_size?` : so the first length in a text that is a size is this size;
* `size?_plain` : the text of a finite float is this float as a size.
-/

namespace DesignTokens

variable {c : Char} {cs bs rest : List Char} {q : Quantity} {s : String} {x : Float}

/-! ## Blanks -/

def isBodyChar (c : Char) : Bool := c.isDigit || c.isAlpha || c == '.' || c == '%'

/-- The character may stand in a quantity. -/
def isQuantityChar (c : Char) : Bool := isBodyChar c || c == '-' || c == '+'

theorem isQuantityChar_eq_false_of_isBlank (h : Text.isBlank c = true) : isQuantityChar c = false := by
  have hother (d : Char) (hd : Text.isBlank d = false) : c ≠ d := by
    rintro rfl
    rw [h] at hd
    cases hd
  have hdigit : c.isDigit = false := by
    by_contra hdigit
    have hn : 48 ≤ c.toNat ∧ c.toNat ≤ 57 := by
      simpa [Char.isDigit, UInt32.le_iff_toNat_le, ← Char.toNat_val] using hdigit
    simp [Text.isBlank] at h
    omega
  have hletter : c.isAlpha = false := by
    by_contra hletter
    have hn : (65 ≤ c.toNat → 90 < c.toNat) → 97 ≤ c.toNat ∧ c.toNat ≤ 122 := by
      simpa [Char.isAlpha, Char.isUpper, Char.isLower, UInt32.le_iff_toNat_le, ← Char.toNat_val] using hletter
    simp [Text.isBlank] at h
    omega
  simp [isQuantityChar, isBodyChar, hdigit, hletter, hother _ (show Text.isBlank '-' = false by decide),
    hother _ (show Text.isBlank '+' = false by decide), hother _ (show Text.isBlank '.' = false by decide),
    hother _ (show Text.isBlank '%' = false by decide)]

theorem isQuantityChar_of_isNumeralChar (h : isNumeralChar c = true) : isQuantityChar c = true := by
  simp only [isNumeralChar, Bool.or_eq_true, beq_iff_eq] at h
  rcases h with ((((hdigit | rfl) | rfl) | rfl) | rfl) | rfl
  · simp [isQuantityChar, isBodyChar, hdigit]
  all_goals rfl

theorem isBodyChar_eq_false (h : isQuantityChar c = false) : isBodyChar c = false := by
  simp_all [isQuantityChar]

theorem isBodyChar_eq_false_of_isBlank (h : Text.isBlank c = true) : isBodyChar c = false :=
  isBodyChar_eq_false (isQuantityChar_eq_false_of_isBlank h)

/-! ## One quantity with something behind -/

theorem takeSign_append_of_ne_nil (hcs : cs ≠ []) (bs : List Char) :
    Decimal.takeSign (cs ++ bs) = ((Decimal.takeSign cs).1, (Decimal.takeSign cs).2 ++ bs) := by
  obtain ⟨c, cs, rfl⟩ := List.exists_cons_of_ne_nil hcs
  by_cases hminus : c = '-'
  · rw [hminus]
    rfl
  by_cases hplus : c = '+'
  · rw [hplus]
    rfl
  rw [List.cons_append, Decimal.takeSign_of_ne hminus hplus, Decimal.takeSign_of_ne hminus hplus]
  rfl

section Behind

variable (hbs : ∀ c ∈ bs.head?, isBodyChar c = false)

include hbs

theorem takeDigits_append (cs : List Char) : Decimal.takeDigits (cs ++ bs) =
    ((Decimal.takeDigits cs).1, (Decimal.takeDigits cs).2.1, (Decimal.takeDigits cs).2.2 ++ bs) := by
  have hdigit : ∀ c ∈ bs.head?, c.isDigit = false := fun c hc => by simp_all [isBodyChar]
  obtain ⟨htake, hdrop⟩ := takeWhile_append_of_head? hdigit cs
  unfold Decimal.takeDigits
  rw [htake, hdrop]
  cases cs.dropWhile Char.isDigit with
  | nil =>
    cases bs with
    | nil => rfl
    | cons b bs =>
      have hb := hbs b rfl
      split
      · rename_i hpoint
        cases hpoint
        cases hb
      · rfl
  | cons d ds =>
    obtain ⟨htake', hdrop'⟩ := takeWhile_append_of_head? hdigit ds
    by_cases hd : d = '.'
    · subst hd
      simp only [List.cons_append, htake', hdrop']
    · simp [hd]

theorem Quantity.takeUnit_append (cs : List Char) :
    takeUnit (cs ++ bs) = ((takeUnit cs).1, (takeUnit cs).2 ++ bs) := by
  have hletter : ∀ c ∈ bs.head?, c.isAlpha = false := fun c hc => by simp_all [isBodyChar]
  have hname {cs : List Char} (hcs : cs.head? ≠ some '%') :
      takeUnit cs = (.ofName (String.ofList ((cs.takeWhile Char.isAlpha).map Char.toLower)),
        cs.dropWhile Char.isAlpha) := by
    unfold takeUnit
    split
    · exact absurd rfl hcs
    · rfl
  by_cases hpercent : cs.head? = some '%'
  · obtain ⟨cs, rfl⟩ := List.head?_eq_some_iff.1 hpercent
    rfl
  · obtain ⟨htake, hdrop⟩ := takeWhile_append_of_head? hletter cs
    have hpercent' : (cs ++ bs).head? ≠ some '%' := by
      cases cs with
      | nil =>
        intro hhead
        cases hbs '%' hhead
      | cons c cs => exact hpercent
    rw [hname hpercent, hname hpercent', htake, hdrop]

/-- What cannot go on with a quantity does not change whether and how one is read before it. -/
theorem Quantity.take?_append (hcs : cs ≠ []) :
    take? (cs ++ bs) = (take? cs).map fun t => (t.1, t.2 ++ bs) := by
  unfold take?
  rw [takeSign_append_of_ne_nil hcs]
  dsimp only
  rw [takeDigits_append hbs]
  dsimp only
  split
  · rfl
  · rw [takeUnit_append hbs]
    rfl

end Behind

/-! ## A text that is one quantity -/

namespace Quantity

def isFirstChar (c : Char) : Bool := c.isDigit || c == '.' || c == '-' || c == '+'

theorem take?_of_isFirstChar_eq_false (hc : isFirstChar c = false) (cs : List Char) : take? (c :: cs) = none := by
  have hdigit : c.isDigit = false := by simp_all [isFirstChar]
  have hsign : Decimal.takeSign (c :: cs) = (false, c :: cs) := by
    refine Decimal.takeSign_of_ne ?_ ?_ cs <;> rintro rfl <;> cases hc
  have hdigits : Decimal.takeDigits (c :: cs) = ([], [], c :: cs) := by
    rw [Decimal.takeDigits, List.takeWhile_cons_of_neg (by simp [hdigit]),
      List.dropWhile_cons_of_neg (by simp [hdigit])]
    split
    · rename_i hpoint
      cases hpoint
      cases hc
    · rfl
  rw [take?, hsign]
  dsimp only
  rw [hdigits]
  rfl

theorem isBodyChar_eq_false_of_isDelimiter (hc : isDelimiter c = true) : isBodyChar c = false := by
  simp only [isDelimiter, Bool.or_eq_true, beq_iff_eq] at hc
  rcases hc with ((((hblank | rfl) | rfl) | rfl) | rfl) | rfl
  · exact isBodyChar_eq_false_of_isBlank hblank
  all_goals rfl

theorem eq_plus_of_isDelimiter (hc : isDelimiter c = true) (htake : (take? (c :: cs)).isSome) : c = '+' := by
  by_contra hplus
  have hfirst : isFirstChar c = false := by
    have hbody := isBodyChar_eq_false_of_isDelimiter hc
    have hminus : c ≠ '-' := by
      rintro rfl
      cases hc
    simp_all [isFirstChar, isBodyChar]
  rw [take?_of_isFirstChar_eq_false hfirst] at htake
  cases htake

theorem exists_digits (cs : List Char) : ∃ ds, cs = ds ++ (Decimal.takeDigits cs).2.2 ∧
    (∀ c ∈ ds, isBodyChar c = true) ∧
    (ds = [] → (Decimal.takeDigits cs).1 = [] ∧ (Decimal.takeDigits cs).2.1 = []) := by
  have hdigits (ds : List Char) : ∀ c ∈ ds.takeWhile Char.isDigit, isBodyChar c = true :=
    fun c hc => by simp [isBodyChar, List.mem_takeWhile_imp hc]
  have hcs := List.takeWhile_append_dropWhile (p := Char.isDigit) (l := cs)
  unfold Decimal.takeDigits
  split
  · rename_i rest hrest
    rw [hrest] at hcs
    refine ⟨cs.takeWhile Char.isDigit ++ '.' :: rest.takeWhile Char.isDigit, ?_, ?_, by simp⟩
    · rw [List.append_assoc, List.cons_append, List.takeWhile_append_dropWhile, hcs]
    · exact List.forall_mem_append.2 ⟨hdigits cs, List.forall_mem_cons.2 ⟨rfl, hdigits rest⟩⟩
  · exact ⟨cs.takeWhile Char.isDigit, hcs.symm, hdigits cs, fun h => ⟨h, rfl⟩⟩

theorem exists_unit (cs : List Char) : ∃ us, cs = us ++ (takeUnit cs).2 ∧ ∀ c ∈ us, isBodyChar c = true := by
  unfold takeUnit
  split
  · exact ⟨['%'], rfl, by simp [isBodyChar]⟩
  · refine ⟨cs.takeWhile Char.isAlpha, List.takeWhile_append_dropWhile.symm, fun c hc => ?_⟩
    simp [isBodyChar, List.mem_takeWhile_imp hc]

theorem exists_sign (cs : List Char) : ∃ sign, cs = sign ++ (Decimal.takeSign cs).2 ∧
    (sign = [] ∨ sign = ['-'] ∨ sign = ['+']) := by
  unfold Decimal.takeSign
  split
  · exact ⟨['-'], rfl, by simp⟩
  · exact ⟨['+'], rfl, by simp⟩
  · exact ⟨[], rfl, by simp⟩

/-- What a quantity is taken from: an optional sign and a body that is not empty. -/
theorem exists_body (h : take? cs = some (q, rest)) : ∃ sign body, cs = sign ++ (body ++ rest) ∧
    (sign = [] ∨ sign = ['-'] ∨ sign = ['+']) ∧ body ≠ [] ∧ ∀ c ∈ body, isBodyChar c = true := by
  obtain ⟨sign, hcs, hsign⟩ := exists_sign cs
  obtain ⟨ds, hdigits, hds, hne⟩ := exists_digits (Decimal.takeSign cs).2
  obtain ⟨us, hunit, hus⟩ := exists_unit (Decimal.takeDigits (Decimal.takeSign cs).2).2.2
  unfold take? at h
  dsimp only at h
  split at h
  · cases h
  · rename_i hsome
    cases h
    refine ⟨sign, ds ++ us, ?_, hsign, ?_, List.forall_mem_append.2 ⟨hds, hus⟩⟩
    · rw [List.append_assoc, ← hunit, ← hdigits, ← hcs]
    · intro hnil
      obtain ⟨hwhole, hpart⟩ := hne (List.append_eq_nil_iff.1 hnil).1
      simp [hwhole, hpart] at hsome

/-- A number is the same with a plus before it. -/
theorem take?_of_plus (h : take? ('+' :: cs) = some (q, rest)) : take? cs = some (q, rest) := by
  obtain ⟨sign, body, hcs, hsign, hne, hbody⟩ := exists_body h
  obtain ⟨b, body, rfl⟩ := List.exists_cons_of_ne_nil hne
  have hb : isBodyChar b = true := hbody b List.mem_cons_self
  have hplus : b ≠ '+' := by
    rintro rfl
    cases hb
  have hminus : b ≠ '-' := by
    rintro rfl
    cases hb
  have hunsigned : cs = b :: (body ++ rest) := by
    rcases hsign with rfl | rfl | rfl
    · exact absurd (List.cons.inj hcs).1.symm hplus
    · exact absurd (List.cons.inj hcs).1 (by decide)
    · exact (List.cons.inj hcs).2
  have htakeSign : Decimal.takeSign cs = Decimal.takeSign ('+' :: cs) := by
    rw [hunsigned, Decimal.takeSign_of_ne hminus hplus]
    rfl
  rw [← h, take?, take?, htakeSign]

theorem scanFrom_of_take? {cs : List Char} (h : take? cs = some (q, rest)) :
    scanFrom true cs = q :: scanFrom false rest := by
  cases cs with
  | nil => cases h
  | cons c cs =>
    rw [scanFrom, if_pos rfl]
    split
    · rename_i h'
      rw [h] at h'
      cases h'
      rfl
    · rename_i h'
      rw [h] at h'
      cases h'

theorem scanFrom_of_take?_eq_none (h : take? (c :: cs) = none) :
    scanFrom true (c :: cs) = scanFrom (isDelimiter c) cs := by
  rw [scanFrom, if_pos rfl]
  split
  · rename_i h'
    rw [h] at h'
    cases h'
  · rfl

theorem scanFrom_false_cons (c : Char) (cs : List Char) :
    scanFrom false (c :: cs) = scanFrom (isDelimiter c) cs := by
  rw [scanFrom, if_neg (by simp)]

theorem isDelimiter_of_isBlank (hc : Text.isBlank c = true) : isDelimiter c = true := by
  simp [isDelimiter, hc]

/-- A plus is a delimiter and a sign: the quantity that it is taken for starts right behind it. -/
theorem scanFrom_delimiter (hc : isDelimiter c = true) (boundary : Bool) (cs : List Char) :
    scanFrom boundary (c :: cs) = scanFrom true cs := by
  cases boundary with
  | false => rw [scanFrom_false_cons, hc]
  | true =>
    cases htake : take? (c :: cs) with
    | none => rw [scanFrom_of_take?_eq_none htake, hc]
    | some t =>
      obtain rfl : c = '+' := eq_plus_of_isDelimiter hc (by rw [htake]; rfl)
      rw [scanFrom_of_take? htake, scanFrom_of_take? (take?_of_plus htake)]

theorem scanFrom_blanks_append (hbs : ∀ c ∈ bs, Text.isBlank c = true) (cs : List Char) :
    scanFrom true (bs ++ cs) = scanFrom true cs := by
  induction bs with
  | nil => rfl
  | cons b bs ih =>
    rw [List.forall_mem_cons] at hbs
    rw [List.cons_append, scanFrom_delimiter (isDelimiter_of_isBlank hbs.1), ih hbs.2]

theorem scanFrom_blanks (hbs : ∀ c ∈ bs, Text.isBlank c = true) (boundary : Bool) :
    scanFrom boundary bs = [] := by
  cases bs with
  | nil => simp [scanFrom]
  | cons b bs =>
    rw [List.forall_mem_cons] at hbs
    have hrest := scanFrom_blanks_append hbs.2 []
    rw [List.append_nil] at hrest
    rw [scanFrom_delimiter (isDelimiter_of_isBlank hbs.1), hrest, scanFrom]

theorem whole?_eq_some : whole? s = some q ↔ take? (Text.trim s.toList) = some (q, []) := by
  unfold whole?
  split <;> simp_all

theorem scan_of_whole? (h : whole? s = some q) : scan s = [q] := by
  obtain ⟨before, after, hbefore, hafter, hsplit⟩ := Text.exists_trim s.toList
  have hwhole := whole?_eq_some.1 h
  have hne : Text.trim s.toList ≠ [] := fun hnil => by
    rw [hnil] at hwhole
    cases hwhole
  have hend : ∀ c ∈ after.head?, isBodyChar c = false := fun c hc =>
    isBodyChar_eq_false_of_isBlank (hafter c (List.mem_of_mem_head? hc))
  have htake := take?_append hend hne
  rw [hwhole] at htake
  rw [scan, hsplit, scanFrom_blanks_append hbefore, scanFrom_of_take? htake, List.nil_append,
    scanFrom_blanks hafter]

end Quantity

/-- The first length in a text that is a size is this size. -/
theorem firstLength?_of_size? (h : size? s = some x) : firstLength? s = some x := by
  obtain ⟨q, hwhole, hsize⟩ := Option.bind_eq_some_iff.1 h
  rw [firstLength?, Quantity.scan_of_whole? hwhole, h, List.findSome?_cons]
  split at hsize
  · rename_i hunit
    have hlength : q.length? = none := by simp [Quantity.length?, hunit]
    rw [hlength]
    rfl
  · rw [hsize]
    rfl

/-! ## The text of a float -/

theorem take?_plainChars (hx : x.isFinite = true) :
    Quantity.take? (Decimal.plainChars x) = some (⟨x, .unitless⟩, []) := by
  obtain ⟨unsigned, whole, part, hsign, hdigits, hwhole, hvalue⟩ := Decimal.plainChars_spec hx
  have hsome : (whole.isEmpty && part.isEmpty) = false := by simp [hwhole]
  have hvalueOf : Quantity.valueOf (Decimal.isNegative x) whole part = x := hvalue
  rw [Quantity.take?, hsign]
  dsimp only
  rw [hdigits]
  dsimp only
  rw [hsome, hvalueOf]
  rfl

theorem plainChars_not_blank (hx : x.isFinite = true) :
    ∀ c ∈ Decimal.plainChars x, Text.isBlank c = false := by
  have hnumeral : ∀ c ∈ Decimal.plainChars x, isNumeralChar c = true := by
    rw [Decimal.plainChars_of_isFinite hx, Decimal.withSign]
    have hdigits := (numeralChars_positional (Decimal.shortest .up x)).2
    split
    · exact List.forall_mem_cons.2 ⟨rfl, hdigits⟩
    · exact hdigits
  intro c hc
  by_contra hblank
  have hpart := isQuantityChar_of_isNumeralChar (hnumeral c hc)
  rw [isQuantityChar_eq_false_of_isBlank (eq_true_of_ne_false hblank)] at hpart
  cases hpart

theorem size?_plain (hx : x.isFinite = true) : size? (Decimal.plain x) = some x := by
  have hwhole : Quantity.whole? (Decimal.plain x) = some ⟨x, .unitless⟩ := by
    rw [Quantity.whole?_eq_some, Decimal.plain, String.toList_ofList, Text.trim_of_forall (plainChars_not_blank hx)]
    exact take?_plainChars hx
  rw [size?, hwhole]
  rfl

end DesignTokens
