import DesignTokens.Proofs.Json.Float
import DesignTokens.Proofs.Json.Layout

/-!
# Documents with the same text

* `Json.Finite j` : the floats of the document are finite; one that is not is written as `null` is;
* `Number.chars_append_inj`, `Json.quote_append_inj` : of a text that goes on behind a number or a
  quoted text, the number or the text is determined and so is what stands behind it;
* `Json.chars_append_inj` : so it is for documents, since what stands behind a number in one is no
  character of a numeral;
* `Json.compress_injective` : finite documents with the same text are the same.
-/

namespace DesignTokens

open Written (EndsNumeral)

variable {rest rest' : List Char}

/-! ## Numbers -/

namespace Number

open Decimal

variable {n n' : Number} {a b : ℤ} {x : Float}

/-- The number is not a float without a numeral. -/
def Finite : Number → Prop
  | int _ => True
  | float x => x.isFinite = true

theorem takeSign_intChars (a : ℤ) : takeSign (intChars a) = (decide (a < 0), digitsOf a.natAbs) := by
  unfold intChars
  split_ifs with hnegative
  · rw [takeSign, decide_eq_true hnegative]
  · have hdigits : (digitsOf a.natAbs).takeWhile Char.isDigit = digitsOf a.natAbs :=
      List.takeWhile_eq_self_iff.2 fun c hc => digitsOf_isDigit hc
    have hne : (digitsOf a.natAbs).takeWhile Char.isDigit ≠ [] := by
      rw [hdigits]
      exact digitsOf_ne_nil _
    rw [takeSign_of_digits hne, decide_eq_false hnegative]

theorem intChars_injective (h : intChars a = intChars b) : a = b := by
  have hsigned := congrArg takeSign h
  rw [takeSign_intChars, takeSign_intChars] at hsigned
  obtain ⟨hsign, hdigits⟩ := Prod.mk.inj hsigned
  have hnatAbs := congrArg natOfDigits hdigits
  rw [natOfDigits_digitsOf, natOfDigits_digitsOf] at hnatAbs
  have hnegative : a < 0 ↔ b < 0 := decide_eq_decide.1 hsign
  omega

/-- A float has a point or an exponent. -/
def Broken (cs : List Char) : Prop := ∃ c ∈ cs, c = '.' ∨ c = 'e'

theorem broken_decimalChars (s : Scaled) : Broken (decimalChars s) := by
  have hpoint : ∀ before after : List Char, Broken (before ++ '.' :: after) := fun before after =>
    ⟨'.', by simp, .inl rfl⟩
  unfold decimalChars
  dsimp only
  split_ifs with hplain hpower
  · exact hpoint _ ['0']
  · rw [List.append_nil, positional, if_neg hpower]
    dsimp only
    split_ifs
    · exact hpoint _ _
    · exact hpoint ['0'] _
  · exact ⟨'e', by simp [scientific], .inr rfl⟩

theorem broken_floatChars (hx : x.isFinite = true) : Broken (floatChars x) := by
  have hunsigned : Broken (if x == 0.0 then ['0', '.', '0'] else decimalChars (shortest .toEven x)) := by
    split
    · exact ⟨'.', by simp, .inl rfl⟩
    · exact broken_decimalChars _
  rw [floatChars, if_pos hx, withSign]
  split
  · obtain ⟨c, hc, hbreak⟩ := hunsigned
    exact ⟨c, List.mem_cons_of_mem _ hc, hbreak⟩
  · exact hunsigned

theorem not_broken_intChars (a : ℤ) : ¬ Broken (intChars a) := by
  rintro ⟨c, hc, hbreak⟩
  have hdigit : c ∈ digitsOf a.natAbs → False := fun hc => by
    have := digitsOf_isDigit hc
    rcases hbreak with rfl | rfl <;> cases this
  unfold intChars at hc
  split_ifs at hc
  · rcases List.mem_cons.1 hc with rfl | hc
    · rcases hbreak with h | h <;> cases h
    · exact hdigit hc
  · exact hdigit hc

theorem chars_injective (hn : n.Finite) (hn' : n'.Finite) (h : n.chars = n'.chars) : n = n' := by
  cases n with
  | int a =>
    cases n' with
    | int b => rw [intChars_injective h]
    | float y =>
      have hbroken : Broken (chars (float y)) := broken_floatChars hn'
      rw [← h] at hbroken
      exact absurd hbroken (not_broken_intChars a)
  | float x =>
    cases n' with
    | int b =>
      have hbroken : Broken (chars (float x)) := broken_floatChars hn
      rw [h] at hbroken
      exact absurd hbroken (not_broken_intChars b)
    | float y => rw [floatChars_injective hn hn' h]

theorem numeralChars_of_finite (hn : n.Finite) : NumeralChars n.chars := by
  refine n.numeralChars_chars.resolve_left fun hnull => ?_
  cases n with
  | int a =>
    have hsign := takeSign_intChars a
    rw [← chars, hnull] at hsign
    have hletter : 'n' ∈ digitsOf a.natAbs := by
      rw [← (Prod.mk.inj hsign).2]
      exact List.mem_cons_self
    exact absurd (digitsOf_isDigit hletter) (by decide)
  | float x =>
    obtain ⟨c, hc, hbreak⟩ : Broken (chars (float x)) := broken_floatChars hn
    rw [hnull] at hc
    rcases hbreak with rfl | rfl <;> simp at hc

/-- The numeral goes up to the first character that is none of a numeral. -/
theorem chars_append_inj (hn : n.Finite) (hn' : n'.Finite) (hrest : EndsNumeral rest)
    (hrest' : EndsNumeral rest') (h : n.chars ++ rest = n'.chars ++ rest') : n = n' ∧ rest = rest' := by
  have htake {m : Number} (hm : m.Finite) {after : List Char} (hafter : EndsNumeral after) :
      (m.chars ++ after).takeWhile isNumeralChar = m.chars := by
    rw [(takeWhile_append_of_head? hafter m.chars).1,
      List.takeWhile_eq_self_iff.2 (numeralChars_of_finite hm).2]
  have hchars : n.chars = n'.chars := by
    rw [← htake hn hrest, h, htake hn' hrest']
  rw [hchars] at h
  exact ⟨chars_injective hn hn' hchars, List.append_cancel_left h⟩

end Number

/-! ## Documents -/

namespace Json

variable {s s' : String} {j j' : Json}

/-- A quoted text goes up to the first quote that is not escaped. -/
theorem quote_append_inj (h : quote s ++ rest = quote s' ++ rest') : s = s' ∧ rest = rest' := by
  simp only [quote, List.cons_append, List.append_assoc, List.nil_append] at h
  have htext := (List.cons.inj h).2
  let fuel := (s.toList.flatMap escapeChar).length + (s'.toList.flatMap escapeChar).length + 1
  have hread : Written.takeText? fuel (s.toList.flatMap escapeChar ++ '"' :: rest) = some (some s, rest) :=
    Written.takeText?_quoted (by omega)
  rw [htext, Written.takeText?_quoted (by omega)] at hread
  obtain ⟨hs, hrest⟩ := Prod.mk.inj (Option.some.inj hread)
  exact ⟨(Option.some.inj hs).symm, hrest.symm⟩

mutual

/-- Every number of the document is finite. -/
def Finite : Json → Prop
  | arr js => ItemsFinite js
  | obj ms => MembersFinite ms
  | num n => n.Finite
  | null => True
  | bool _ => True
  | str _ => True

def ItemsFinite : List Json → Prop
  | [] => True
  | j :: js => Finite j ∧ ItemsFinite js

def MembersFinite : List (String × Json) → Prop
  | [] => True
  | (_, j) :: ms => Finite j ∧ MembersFinite ms

end

theorem membersFinite_iff {ms : List (String × Json)} : MembersFinite ms ↔ ∀ m ∈ ms, Finite m.2 := by
  induction ms with
  | nil => simp [MembersFinite]
  | cons m ms ih => simp [MembersFinite, ih]

/-- The kind of document that a text with this first character can write; `0` stands for a number. -/
def kindOf (c : Char) : Char :=
  if isNumeralChar c then '0' else if c = 't' ∨ c = 'f' then 'b' else c

def kind : Json → Char
  | null => 'n'
  | bool _ => 'b'
  | num _ => '0'
  | str _ => '"'
  | arr _ => '['
  | obj _ => '{'

theorem exists_chars_kind (hj : j.Finite) : ∃ c cs, j.chars = c :: cs ∧ kindOf c = j.kind := by
  match j with
  | null => exact ⟨_, _, rfl, rfl⟩
  | bool true => exact ⟨_, _, rfl, rfl⟩
  | bool false => exact ⟨_, _, rfl, rfl⟩
  | str s => exact ⟨_, _, rfl, rfl⟩
  | arr [] => exact ⟨_, _, rfl, rfl⟩
  | arr (j :: js) => exact ⟨_, _, by rw [chars]; rfl, rfl⟩
  | obj [] => exact ⟨_, _, rfl, rfl⟩
  | obj ((k, j) :: ms) => exact ⟨_, _, by rw [chars]; rfl, rfl⟩
  | num n =>
    obtain ⟨hne, hall⟩ := Number.numeralChars_of_finite (n := n) hj
    obtain ⟨c, cs, hcs⟩ := List.exists_cons_of_ne_nil hne
    exact ⟨c, cs, by rw [chars, hcs], if_pos (hall c (by simp [hcs]))⟩

/-- Documents of different kinds have different first characters. -/
theorem kind_eq_of_append (hj : j.Finite) (hj' : j'.Finite) (h : j.chars ++ rest = j'.chars ++ rest') :
    j.kind = j'.kind := by
  obtain ⟨c, cs, hcs, hkind⟩ := exists_chars_kind hj
  obtain ⟨c', cs', hcs', hkind'⟩ := exists_chars_kind hj'
  rw [hcs, hcs'] at h
  rw [← hkind, ← hkind', (List.cons.inj h).1]

theorem end_ne_chars_append (j : Json) : ']' :: rest ≠ j.chars ++ rest' := by
  obtain ⟨c, cs, hcs, hopens⟩ := Written.exists_chars_eq_cons j
  rw [hcs]
  exact fun h => hopens.2.1 (List.cons.inj h).1.symm

/-- The items of an array stand as further ones do, but for the comma before the first. -/
theorem itemChars_of_arr : ∀ {js js' : List Json}, (arr js).chars ++ rest = (arr js').chars ++ rest' →
    itemChars js ++ rest = itemChars js' ++ rest'
  | [], [], h => (List.cons.inj h).2
  | [], j' :: js', h => by
    simp only [chars, List.cons_append, List.append_assoc] at h
    exact absurd (List.cons.inj h).2 (end_ne_chars_append j')
  | j :: js, [], h => by
    simp only [chars, List.cons_append, List.append_assoc] at h
    exact absurd (List.cons.inj h).2.symm (end_ne_chars_append j)
  | j :: js, j' :: js', h => by simpa [chars, itemChars] using h

theorem memberChars_of_obj : ∀ {ms ms' : List (String × Json)}, (obj ms).chars ++ rest = (obj ms').chars ++ rest' →
    memberChars ms ++ rest = memberChars ms' ++ rest'
  | [], [], h => (List.cons.inj h).2
  | [], (_, _) :: _, h => by simp [chars, quote] at h
  | (_, _) :: _, [], h => by simp [chars, quote] at h
  | (k, j) :: ms, (k', j') :: ms', h => by simpa [chars, memberChars] using h

mutual

/-- By recursion on the first document. Behind an item or a member stands a comma or the end, which no
numeral goes on with. -/
theorem chars_append_inj : ∀ {j j' : Json} {rest rest' : List Char}, j.Finite → j'.Finite → EndsNumeral rest →
    EndsNumeral rest' → j.chars ++ rest = j'.chars ++ rest' → j = j' ∧ rest = rest'
  | null, j', _, _, hj, hj', _, _, h => by
    have hkind := kind_eq_of_append hj hj' h
    cases j' with
    | null => exact ⟨rfl, List.append_cancel_left h⟩
    | _ => simp [kind] at hkind
  | bool b, j', _, _, hj, hj', _, _, h => by
    have hkind := kind_eq_of_append hj hj' h
    cases j' with
    | bool b' => cases b <;> cases b' <;> simp_all [chars]
    | _ => simp [kind] at hkind
  | num n, j', _, _, hj, hj', hrest, hrest', h => by
    have hkind := kind_eq_of_append hj hj' h
    cases j' with
    | num n' =>
      obtain ⟨rfl, hrest⟩ := Number.chars_append_inj hj hj' hrest hrest' h
      exact ⟨rfl, hrest⟩
    | _ => simp [kind] at hkind
  | str s, j', _, _, hj, hj', _, _, h => by
    have hkind := kind_eq_of_append hj hj' h
    cases j' with
    | str s' =>
      obtain ⟨rfl, hrest⟩ := quote_append_inj h
      exact ⟨rfl, hrest⟩
    | _ => simp [kind] at hkind
  | arr js, j', _, _, hj, hj', _, _, h => by
    have hkind := kind_eq_of_append hj hj' h
    cases j' with
    | arr js' =>
      obtain ⟨rfl, hrest⟩ := itemChars_append_inj hj hj' (itemChars_of_arr h)
      exact ⟨rfl, hrest⟩
    | _ => simp [kind] at hkind
  | obj ms, j', _, _, hj, hj', _, _, h => by
    have hkind := kind_eq_of_append hj hj' h
    cases j' with
    | obj ms' =>
      obtain ⟨rfl, hrest⟩ := memberChars_append_inj hj hj' (memberChars_of_obj h)
      exact ⟨rfl, hrest⟩
    | _ => simp [kind] at hkind

theorem itemChars_append_inj : ∀ {js js' : List Json} {rest rest' : List Char}, ItemsFinite js → ItemsFinite js' →
    itemChars js ++ rest = itemChars js' ++ rest' → js = js' ∧ rest = rest'
  | [], [], _, _, _, _, h => ⟨rfl, List.append_cancel_left h⟩
  | [], _ :: _, _, _, _, _, h => by simp [itemChars] at h
  | _ :: _, [], _, _, _, _, h => by simp [itemChars] at h
  | j :: js, j' :: js', rest, rest', hjs, hjs', h => by
    simp only [itemChars, List.cons_append, List.append_assoc] at h
    obtain ⟨rfl, hitems⟩ := chars_append_inj hjs.1 hjs'.1 (Written.follows_itemChars js rest).ends
      (Written.follows_itemChars js' rest').ends (List.cons.inj h).2
    obtain ⟨rfl, hrest⟩ := itemChars_append_inj hjs.2 hjs'.2 hitems
    exact ⟨rfl, hrest⟩

theorem memberChars_append_inj : ∀ {ms ms' : List (String × Json)} {rest rest' : List Char}, MembersFinite ms →
    MembersFinite ms' → memberChars ms ++ rest = memberChars ms' ++ rest' → ms = ms' ∧ rest = rest'
  | [], [], _, _, _, _, h => ⟨rfl, List.append_cancel_left h⟩
  | [], (_, _) :: _, _, _, _, _, h => by simp [memberChars] at h
  | (_, _) :: _, [], _, _, _, _, h => by simp [memberChars] at h
  | (k, j) :: ms, (k', j') :: ms', rest, rest', hms, hms', h => by
    simp only [memberChars, List.cons_append, List.append_assoc] at h
    obtain ⟨rfl, hvalue⟩ := quote_append_inj (List.cons.inj h).2
    obtain ⟨rfl, hmembers⟩ := chars_append_inj hms.1 hms'.1 (Written.follows_memberChars ms rest).ends
      (Written.follows_memberChars ms' rest').ends (List.cons.inj hvalue).2
    obtain ⟨rfl, hrest⟩ := memberChars_append_inj hms.2 hms'.2 hmembers
    exact ⟨rfl, hrest⟩

end

theorem compress_injective (hj : j.Finite) (hj' : j'.Finite) (h : j.compress = j'.compress) : j = j' := by
  have hends : EndsNumeral [] := by simp [EndsNumeral]
  have hchars : j.chars ++ [] = j'.chars ++ [] := by
    rw [List.append_nil, List.append_nil]
    exact String.ofList_injective h
  exact (chars_append_inj hj hj' hends hends hchars).1

end Json

end DesignTokens
