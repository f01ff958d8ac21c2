import DesignTokens.Proofs.Json.Reread

/-!
# Documents are read in any layout

* `Number.ReadsBack n` : the text of a number is read as the number again. It does not hold of every
  float (`Number.exists_not_readsBack`): the reader rounds the digits before it scales them;
* `Json.ReadsBack depth j` : the numbers of a document read back, and it is nested at most `depth`
  deep;
* `Numeral.take?_append`, `takeQuoted?_quoted` : what follows a numeral or a quoted text does not
  change how it is read;
* `j.LaidOut cs` : the characters write the document, with any spacing between its parts;
* `takeValue?_laidOut` : of such characters, with anything after them, the document is read;
* `Json.normal_eq_self` : a normal document is its normal form;
* `Json.parse?_of_laidOut` : a normal document that reads back is what any layout of it is read as.
-/

namespace DesignTokens

/-- The text of the number is read as the number again. -/
def Number.ReadsBack (n : Number) : Prop :=
  ∃ m, Numeral.take? n.chars = some (m, []) ∧ m.value? = some n

/-- An eleventh is printed as `0.09090909090909091`, and that is read as another float. -/
theorem Number.exists_not_readsBack : ∃ x : Float, x.isFinite = true ∧ ¬ (float x).ReadsBack := by
  refine ⟨1.0 / 11.0, by decide +kernel, ?_⟩
  rintro ⟨m, htake, hvalue⟩
  have hchars : Numeral.take? (float (1.0 / 11.0)).chars =
      some (⟨false, ['0'], "09090909090909091".toList, none⟩, []) := by decide +kernel
  rw [hchars] at htake
  cases htake
  exact absurd hvalue (by decide +kernel)

namespace Json

mutual

/-- The numbers of the document read back, and it is nested at most `depth` deep. -/
def ReadsBack (depth : Nat) : Json → Prop
  | arr js => 0 < depth ∧ ItemsReadBack (depth - 1) js
  | obj ms => 0 < depth ∧ MembersReadBack (depth - 1) ms
  | num n => n.ReadsBack
  | null => True
  | bool _ => True
  | str _ => True

def ItemsReadBack (depth : Nat) : List Json → Prop
  | [] => True
  | j :: js => ReadsBack depth j ∧ ItemsReadBack depth js

def MembersReadBack (depth : Nat) : List (String × Json) → Prop
  | [] => True
  | (_, j) :: ms => ReadsBack depth j ∧ MembersReadBack depth ms

end

theorem membersReadBack_iff {depth : Nat} {ms : List (String × Json)} :
    MembersReadBack depth ms ↔ ∀ m ∈ ms, ReadsBack depth m.2 := by
  induction ms with
  | nil => simp [MembersReadBack]
  | cons m ms ih => simp [MembersReadBack, ih]

end Json

namespace Written

variable {rest : List Char}

/-! ## Numerals before other text -/

theorem EndsNumeral.ne {d : Char} (h : EndsNumeral rest) (hd : isNumeralChar d = true) :
    ∀ c ∈ rest.head?, c ≠ d := by
  rintro c hc rfl
  rw [h c hc] at hd
  cases hd

theorem EndsNumeral.isDigit (h : EndsNumeral rest) : ∀ c ∈ rest.head?, c.isDigit = false := by
  intro c hc
  have hnone := h c hc
  by_contra hdigit
  simp [isNumeralChar, hdigit] at hnone

end Written

namespace Numeral

open Written

variable {cs left rest part : List Char} {c : Char} {e : Option Int} {m : Numeral}

theorem takeDigits_append (hrest : EndsNumeral rest) (cs : List Char) :
    (cs ++ rest).takeWhile Char.isDigit = cs.takeWhile Char.isDigit ∧
      (cs ++ rest).dropWhile Char.isDigit = cs.dropWhile Char.isDigit ++ rest :=
  takeWhile_append_of_head? hrest.isDigit cs

theorem takeSign_append (hrest : EndsNumeral rest) (cs : List Char) :
    Decimal.takeSign (cs ++ rest) = ((Decimal.takeSign cs).1, (Decimal.takeSign cs).2 ++ rest) :=
  Decimal.takeSign_append_of_head? (fun c hc => ⟨hrest.ne rfl c hc, hrest.ne rfl c hc⟩) cs

theorem takePart?_cons_of_ne (hc : c ≠ '.') (cs : List Char) : takePart? (c :: cs) = some ([], c :: cs) := by
  unfold takePart?
  split
  · rename_i heq
    exact absurd (List.cons.inj heq).1 hc
  · rfl

theorem takePart?_append (hrest : EndsNumeral rest) (h : takePart? cs = some (part, left)) :
    takePart? (cs ++ rest) = some (part, left ++ rest) := by
  cases cs with
  | nil =>
    cases h
    cases rest with
    | nil => rfl
    | cons c rest => exact takePart?_cons_of_ne (hrest.ne rfl c rfl) rest
  | cons c cs =>
    by_cases hc : c = '.'
    · subst hc
      rw [takePart?] at h
      rw [List.cons_append, takePart?, (takeDigits_append hrest _).1, (takeDigits_append hrest _).2]
      split at h
      · cases h
      · rename_i hne
        cases h
        exact if_neg hne
    · rw [takePart?_cons_of_ne hc] at h
      cases h
      exact takePart?_cons_of_ne hc (cs ++ rest)

theorem takeExponent?_append (hrest : EndsNumeral rest) (h : takeExponent? cs = some (e, left)) :
    takeExponent? (cs ++ rest) = some (e, left ++ rest) := by
  cases cs with
  | nil =>
    cases h
    cases rest with
    | nil => rfl
    | cons c rest =>
      have hletter : ¬ (c = 'e' ∨ c = 'E') := by
        rintro (rfl | rfl) <;> exact hrest.ne rfl _ rfl rfl
      rw [List.nil_append, takeExponent?, if_neg (by simpa using hletter)]
  | cons c cs =>
    rw [takeExponent?] at h
    rw [List.cons_append, takeExponent?]
    by_cases hletter : (decide (c = 'e') || decide (c = 'E')) = true
    · rw [if_pos hletter] at h ⊢
      rw [takeSign_append hrest]
      dsimp only at h ⊢
      rw [(takeDigits_append hrest _).1, (takeDigits_append hrest _).2]
      split at h
      · cases h
      · rename_i hne
        cases h
        rw [if_neg hne]
    · rw [if_neg hletter] at h ⊢
      cases h
      rfl

/-- The numeral without its sign at the start of a text, and the rest. -/
def takeUnsigned? (negative : Bool) (cs : List Char) : Option (Numeral × List Char) :=
  if !wholeAllowed (cs.takeWhile Char.isDigit) then none
  else do
    let (part, left) ← takePart? (cs.dropWhile Char.isDigit)
    let (exponent, left) ← takeExponent? left
    some (⟨negative, cs.takeWhile Char.isDigit, part, exponent⟩, left)

theorem take?_minus (cs : List Char) : take? ('-' :: cs) = takeUnsigned? true cs := rfl

theorem take?_of_ne (h : cs.head? ≠ some '-') : take? cs = takeUnsigned? false cs := by
  unfold take?
  split
  rename_i hsign
  split at hsign
  · exact absurd rfl h
  · cases hsign
    rfl

theorem takeUnsigned?_append {negative : Bool} (hrest : EndsNumeral rest)
    (h : takeUnsigned? negative cs = some (m, left)) :
    takeUnsigned? negative (cs ++ rest) = some (m, left ++ rest) := by
  unfold takeUnsigned? at h ⊢
  rw [(takeDigits_append hrest _).1, (takeDigits_append hrest _).2]
  split at h
  · cases h
  · rename_i hwhole
    obtain ⟨⟨part, afterPart⟩, hpart, h⟩ := Option.bind_eq_some_iff.1 h
    obtain ⟨⟨e, afterExponent⟩, hexponent, h⟩ := Option.bind_eq_some_iff.1 h
    cases h
    rw [if_neg hwhole, takePart?_append hrest hpart]
    simp only [Option.bind_eq_bind, Option.bind_some, takeExponent?_append hrest hexponent]

/-- What follows a numeral does not change how it is read. -/
theorem take?_append (hrest : EndsNumeral rest) (h : take? cs = some (m, left)) :
    take? (cs ++ rest) = some (m, left ++ rest) := by
  cases cs with
  | nil => cases h
  | cons c cs =>
    by_cases hminus : c = '-'
    · subst hminus
      rw [take?_minus] at h
      rw [List.cons_append, take?_minus]
      exact takeUnsigned?_append hrest h
    · have hhead : (c :: cs).head? ≠ some '-' := by simpa using hminus
      rw [take?_of_ne hhead] at h
      rw [take?_of_ne (by simpa using hminus)]
      exact takeUnsigned?_append hrest h

end Numeral

namespace Written

open Json (escapeChar newLine prettyChars prettyItems prettyMembers)

variable {rest : List Char} {fuel : Nat}

/-! ## Quoted texts before other text -/

theorem escapeChar_ne_nil (c : Char) : escapeChar c ≠ [] := by
  rcases escapeChar_cases c [] with ⟨h, -⟩ | ⟨cs, h, -⟩
  · simp [h]
  · intro hnil
    rw [hnil] at h
    cases h

theorem takeQuoted?_quoted {s : List Char} (h : (s.flatMap escapeChar).length < fuel) :
    takeQuoted? fuel (s.flatMap escapeChar ++ '"' :: rest) = some (some s, rest) := by
  induction s generalizing fuel with
  | nil =>
    obtain ⟨fuel, rfl⟩ := Nat.exists_eq_succ_of_ne_zero (Nat.ne_of_gt (Nat.zero_lt_of_lt h))
    rw [List.flatMap_nil, List.nil_append, takeQuoted?, if_pos rfl]
  | cons c s ih =>
    obtain ⟨fuel, rfl⟩ := Nat.exists_eq_succ_of_ne_zero (Nat.ne_of_gt (Nat.zero_lt_of_lt h))
    rw [List.flatMap_cons, List.length_append] at h
    have hpos : 0 < (escapeChar c).length := List.length_pos_iff.2 (escapeChar_ne_nil c)
    have hrest : takeQuoted? fuel (s.flatMap escapeChar ++ '"' :: rest) = some (some s, rest) :=
      ih (by omega)
    rw [List.flatMap_cons, List.append_assoc]
    rcases escapeChar_cases c (s.flatMap escapeChar ++ '"' :: rest) with
      ⟨hc, hquote, hslash, hlow⟩ | ⟨cs, hcs, htake⟩
    · rw [hc, List.singleton_append, takeQuoted?, if_neg hquote, if_neg hslash, if_neg hlow, hrest]
      rfl
    · rw [hcs, takeQuoted?, if_neg (by decide), if_pos rfl, htake]
      simp only [Option.bind_eq_bind, Option.bind_some, hrest]
      rfl

theorem takeText?_quoted {s : String} (h : (s.toList.flatMap escapeChar).length < fuel) :
    takeText? fuel (s.toList.flatMap escapeChar ++ '"' :: rest) = some (some s, rest) := by
  rw [takeText?, takeQuoted?_quoted h]
  simp

/-! ## Layouts -/

/-- Nothing but spacing. -/
def Spacing (cs : List Char) : Prop := ∀ c ∈ cs, isSpacing c = true

theorem spacing_nil : Spacing [] := by simp [Spacing]

theorem Spacing.skip {gap : List Char} (h : Spacing gap) (cs : List Char) :
    skipSpacing (gap ++ cs) = skipSpacing cs := List.dropWhile_append_of_pos h

/-- The name of a member and the colon, with any spacing around the colon. -/
def NameLaidOut (k : String) (cs : List Char) : Prop :=
  ∃ before after, Spacing before ∧ Spacing after ∧ cs = Json.quote k ++ before ++ ':' :: after

end Written

namespace Json

open Written (Spacing NameLaidOut)

mutual

/-- The characters write the document, with any spacing between its parts. -/
def LaidOut : Json → List Char → Prop
  | arr [], cs => ∃ gap, Spacing gap ∧ cs = '[' :: (gap ++ [']'])
  | arr (j :: js), cs => ∃ gap text tail, Spacing gap ∧ LaidOut j text ∧ ItemsLaidOut js tail ∧
      cs = '[' :: (gap ++ text ++ tail)
  | obj [], cs => ∃ gap, Spacing gap ∧ cs = '{' :: (gap ++ ['}'])
  | obj ((k, j) :: ms), cs => ∃ gap name text tail, Spacing gap ∧ NameLaidOut k name ∧ LaidOut j text ∧
      MembersLaidOut ms tail ∧ cs = '{' :: (gap ++ name ++ text ++ tail)
  | null, cs => cs = chars null
  | bool b, cs => cs = chars (bool b)
  | num n, cs => cs = chars (num n)
  | str s, cs => cs = chars (str s)

/-- The characters write the further items of an array, and its end. -/
def ItemsLaidOut : List Json → List Char → Prop
  | [], cs => ∃ gap, Spacing gap ∧ cs = gap ++ [']']
  | j :: js, cs => ∃ gap gap' text tail, Spacing gap ∧ Spacing gap' ∧ LaidOut j text ∧ ItemsLaidOut js tail ∧
      cs = gap ++ ',' :: gap' ++ text ++ tail

/-- The characters write the further members of an object, and its end. -/
def MembersLaidOut : List (String × Json) → List Char → Prop
  | [], cs => ∃ gap, Spacing gap ∧ cs = gap ++ ['}']
  | (k, j) :: ms, cs => ∃ gap gap' name text tail, Spacing gap ∧ Spacing gap' ∧ NameLaidOut k name ∧
      LaidOut j text ∧ MembersLaidOut ms tail ∧ cs = gap ++ ',' :: gap' ++ name ++ text ++ tail

end

end Json

namespace Written

variable {cs text tail name gap mid left : List Char} {c : Char} {v : Written} {j : Json} {k : String}

theorem exists_eq_cons_of_laidOut (h : j.LaidOut text) : ∃ c cs, text = c :: cs ∧ Opens c := by
  have hopens : ∀ c ∈ ['[', '{'], Opens c := by simp [Opens, isSpacing]
  cases j with
  | arr js =>
    cases js with
    | nil =>
      obtain ⟨gap, -, rfl⟩ := h
      exact ⟨'[', _, rfl, hopens _ (by simp)⟩
    | cons j js =>
      obtain ⟨gap, text, tail, -, -, -, rfl⟩ := h
      exact ⟨'[', _, rfl, hopens _ (by simp)⟩
  | obj ms =>
    cases ms with
    | nil =>
      obtain ⟨gap, -, rfl⟩ := h
      exact ⟨'{', _, rfl, hopens _ (by simp)⟩
    | cons m ms =>
      obtain ⟨gap, name, text, tail, -, -, -, -, rfl⟩ := h
      exact ⟨'{', _, rfl, hopens _ (by simp)⟩
  | null => exact h ▸ exists_chars_eq_cons .null
  | bool b => exact h ▸ exists_chars_eq_cons (.bool b)
  | num n => exact h ▸ exists_chars_eq_cons (.num n)
  | str s => exact h ▸ exists_chars_eq_cons (.str s)

theorem skipSpacing_laidOut (h : j.LaidOut text) (rest : List Char) :
    skipSpacing (text ++ rest) = text ++ rest := by
  obtain ⟨c, cs, rfl, hopens⟩ := exists_eq_cons_of_laidOut h
  rw [List.cons_append, skipSpacing_cons hopens.1]

theorem skipSpacing_name (h : NameLaidOut k name) (rest : List Char) :
    skipSpacing (name ++ rest) = name ++ rest := by
  obtain ⟨before, after, -, -, rfl⟩ := h
  rw [List.append_assoc, List.append_assoc, skipSpacing_quote]

theorem takeName?_laidOut (h : NameLaidOut k name) (hfuel : name.length ≤ fuel)
    (hrest : skipSpacing rest = rest) : takeName? fuel (name ++ rest) = some (some k, rest) := by
  obtain ⟨before, after, hbefore, hafter, rfl⟩ := h
  simp only [Json.quote, List.length_append, List.length_cons] at hfuel
  simp only [Json.quote, List.cons_append, List.append_assoc, List.nil_append, takeName?]
  rw [takeText?_quoted (by omega), Option.bind_eq_bind, Option.bind_some]
  simp only [hbefore.skip, skipSpacing_cons (show isSpacing ':' = false from rfl), hafter.skip, hrest]

theorem endsNumeral_of_spacing (h : Spacing rest) : EndsNumeral rest := by
  intro c hc
  have hspacing := h c (List.mem_of_mem_head? hc)
  by_contra hnumeral
  rw [Bool.not_eq_false] at hnumeral
  rw [isSpacing_of_isNumeralChar hnumeral] at hspacing
  cases hspacing

theorem endsNumeral_of_gap (hgap : Spacing gap) (hc : isNumeralChar c = false) (cs : List Char) :
    EndsNumeral (gap ++ c :: cs) := by
  cases gap with
  | nil => simpa [EndsNumeral] using hc
  | cons d gap => simpa [EndsNumeral] using endsNumeral_of_spacing hgap

theorem endsNumeral_items {js : List Json} (h : Json.ItemsLaidOut js tail) (rest : List Char) :
    EndsNumeral (tail ++ rest) := by
  cases js with
  | nil =>
    obtain ⟨gap, hgap, rfl⟩ := h
    simpa using endsNumeral_of_gap hgap rfl rest
  | cons j js =>
    obtain ⟨gap, gap', text, tail, hgap, -, -, -, rfl⟩ := h
    simpa using endsNumeral_of_gap hgap rfl (gap' ++ (text ++ (tail ++ rest)))

theorem endsNumeral_members {ms : List (String × Json)} (h : Json.MembersLaidOut ms tail)
    (rest : List Char) : EndsNumeral (tail ++ rest) := by
  cases ms with
  | nil =>
    obtain ⟨gap, hgap, rfl⟩ := h
    simpa using endsNumeral_of_gap hgap rfl rest
  | cons m ms =>
    obtain ⟨gap, gap', name, text, tail, hgap, -, -, -, -, rfl⟩ := h
    simpa using endsNumeral_of_gap hgap rfl (gap' ++ (name ++ (text ++ (tail ++ rest))))

/-! ## Documents in any layout -/

theorem takeValue?_num_of_readsBack {n : Number} (fuel : Nat) (hn : n.ReadsBack)
    (hrest : EndsNumeral rest) : ∃ w, takeValue? (fuel + 1) (n.chars ++ rest) = some (w, rest) ∧
      ∀ depth, w.read? depth .whole = some (.num n) := by
  obtain ⟨m, htake, hvalue⟩ := hn
  obtain ⟨c, cs, hcs, hc, -⟩ := Numeral.take?_consumes htake
  have htake' := Numeral.take?_append hrest htake
  refine ⟨num m, ?_, fun depth => by rw [read?, hvalue]; rfl⟩
  rw [hcs] at htake' ⊢
  rw [List.cons_append] at htake' ⊢
  rw [takeValue?_numeral hc, htake']
  rfl

/-! Each part of an array or object is read with one step less than the whole. -/

theorem takeValue?_arr_of {vs : List Written} (hc : Opens c) (hcs : skipSpacing cs = c :: mid)
    (hv : takeValue? fuel (c :: mid) = some (v, left))
    (hvs : takeItems? fuel (skipSpacing left) = some (vs, rest)) :
    takeValue? (fuel + 1) ('[' :: cs) = some (arr (v :: vs), rest) := by
  rw [takeValue?, hcs]
  split
  · rename_i heq
    exact absurd (List.cons.inj heq).1 hc.2.1
  · simp only [Option.bind_eq_bind, Option.bind_some, hv, hvs]

theorem takeItems?_of {vs : List Written} (hv : takeValue? fuel (skipSpacing cs) = some (v, mid))
    (hvs : takeItems? fuel (skipSpacing mid) = some (vs, rest)) :
    takeItems? (fuel + 1) (',' :: cs) = some (v :: vs, rest) := by
  rw [takeItems?]
  simp only [Option.bind_eq_bind, Option.bind_some, hv, hvs]

theorem takeValue?_obj_of {ms : List (Option String × Written)}
    (hname : takeName? fuel (skipSpacing cs) = some (some k, mid))
    (hv : takeValue? fuel mid = some (v, left))
    (hms : takeMembers? fuel (skipSpacing left) = some (ms, rest)) :
    takeValue? (fuel + 1) ('{' :: cs) = some (obj ((some k, v) :: ms), rest) := by
  rw [takeValue?]
  split
  · rename_i heq
    rw [heq] at hname
    cases hname
  · simp only [Option.bind_eq_bind, Option.bind_some, hname, hv, hms]

theorem takeMembers?_of {ms : List (Option String × Written)}
    (hname : takeName? fuel (skipSpacing cs) = some (some k, mid))
    (hv : takeValue? fuel mid = some (v, left))
    (hms : takeMembers? fuel (skipSpacing left) = some (ms, rest)) :
    takeMembers? (fuel + 1) (',' :: cs) = some ((some k, v) :: ms, rest) := by
  rw [takeMembers?]
  simp only [Option.bind_eq_bind, Option.bind_some, hname, hv, hms]

mutual

/-- By recursion on the document: its characters are read to their end, and no further. -/
theorem takeValue?_laidOut : ∀ (j : Json) {text : List Char} (fuel : Nat) {depth : Nat} {rest : List Char},
    j.LaidOut text → j.ReadsBack depth → EndsNumeral rest → text.length ≤ fuel →
      ∃ w, takeValue? fuel (text ++ rest) = some (w, rest) ∧ w.read? depth .whole = some j
  | j, text, 0, _, _, htext, _, _, hfuel => by
    obtain ⟨c, cs, rfl, -⟩ := exists_eq_cons_of_laidOut htext
    exact absurd hfuel (Nat.not_succ_le_zero _)
  | .null, _, fuel + 1, depth, rest, htext, _, _, _ => ⟨null, by rw [htext]; rfl, rfl⟩
  | .bool true, _, fuel + 1, depth, rest, htext, _, _, _ => ⟨bool true, by rw [htext]; rfl, rfl⟩
  | .bool false, _, fuel + 1, depth, rest, htext, _, _, _ => ⟨bool false, by rw [htext]; rfl, rfl⟩
  | .num n, _, fuel + 1, depth, rest, htext, hread, hrest, _ => by
    obtain ⟨w, htake, hw⟩ := takeValue?_num_of_readsBack fuel hread hrest
    exact ⟨w, by rw [htext]; exact htake, hw depth⟩
  | .str s, text, fuel + 1, depth, rest, htext, _, _, hfuel => by
    obtain rfl : text = Json.quote s := htext
    simp only [Json.quote, List.length_append, List.length_cons, List.length_nil] at hfuel
    have hquoted : takeText? fuel (s.toList.flatMap Json.escapeChar ++ '"' :: rest) = some (some s, rest) :=
      takeText?_quoted (by omega)
    refine ⟨str (some s), ?_, rfl⟩
    rw [Json.quote]
    simp only [List.cons_append, List.append_assoc, List.nil_append, takeValue?]
    rw [hquoted]
    rfl
  | .arr [], _, fuel + 1, depth, rest, ⟨gap, hgap, htext⟩, hread, _, _ => by
    refine ⟨arr [], ?_, ?_⟩
    · have hskip : skipSpacing (gap ++ ']' :: rest) = ']' :: rest := by
        rw [hgap.skip, skipSpacing_cons rfl]
      simp only [htext, List.cons_append, List.append_assoc, List.nil_append, takeValue?, hskip]
    · rw [read?, if_neg (Nat.ne_of_gt hread.1)]
      rfl
  | .arr (j :: js), _, fuel + 1, depth, rest,
      ⟨gap, text, tail, hgap, htext, htail, heq⟩, hread, _, hfuel => by
    rw [Json.ReadsBack, Json.ItemsReadBack] at hread
    obtain ⟨hdepth, hj, hjs⟩ := hread
    subst heq
    simp only [List.length_append, List.length_cons] at hfuel
    obtain ⟨v, hv, hvread⟩ :=
      takeValue?_laidOut j fuel htext hj (endsNumeral_items htail rest) (by omega)
    obtain ⟨vs, hvs, hvsread⟩ := takeItems?_laidOut js fuel rest htail hjs (by omega)
    refine ⟨arr (v :: vs), ?_, ?_⟩
    · obtain ⟨c, cs, rfl, hopens⟩ := exists_eq_cons_of_laidOut htext
      rw [List.cons_append] at hv
      simp only [List.cons_append, List.append_assoc]
      refine takeValue?_arr_of hopens ?_ hv hvs
      rw [hgap.skip, skipSpacing_cons hopens.1]
    · rw [read?, if_neg (Nat.ne_of_gt hdepth)]
      simp only [readItems?, Shape.item, hvread, hvsread, Option.bind_eq_bind, Option.bind_some]
      rfl
  | .obj [], _, fuel + 1, depth, rest, ⟨gap, hgap, htext⟩, hread, _, _ => by
    refine ⟨obj [], ?_, ?_⟩
    · have hskip : skipSpacing (gap ++ '}' :: rest) = '}' :: rest := by
        rw [hgap.skip, skipSpacing_cons rfl]
      simp only [htext, List.cons_append, List.append_assoc, List.nil_append, takeValue?, hskip]
    · rw [read?, if_neg (Nat.ne_of_gt hread.1)]
      rfl
  | .obj ((k, j) :: ms), _, fuel + 1, depth, rest,
      ⟨gap, name, text, tail, hgap, hname, htext, htail, heq⟩, hread, _, hfuel => by
    rw [Json.ReadsBack, Json.MembersReadBack] at hread
    obtain ⟨hdepth, hj, hms⟩ := hread
    subst heq
    simp only [List.length_append, List.length_cons] at hfuel
    obtain ⟨v, hv, hvread⟩ :=
      takeValue?_laidOut j fuel htext hj (endsNumeral_members htail rest) (by omega)
    obtain ⟨vs, hvs, hvsread⟩ := takeMembers?_laidOut ms fuel rest htail hms (by omega)
    refine ⟨obj ((some k, v) :: vs), ?_, ?_⟩
    · simp only [List.cons_append, List.append_assoc]
      refine takeValue?_obj_of ?_ hv hvs
      rw [hgap.skip, skipSpacing_name hname]
      exact takeName?_laidOut hname (by omega) (skipSpacing_laidOut htext _)
    · rw [read?, if_neg (Nat.ne_of_gt hdepth)]
      simp only [readMembers?, Shape.member?, hvread, hvsread, Option.bind_eq_bind, Option.bind_some]
      rfl

theorem takeItems?_laidOut : ∀ (js : List Json) {text : List Char} (fuel : Nat) (rest : List Char)
    {depth : Nat}, Json.ItemsLaidOut js text → Json.ItemsReadBack depth js → text.length ≤ fuel →
      ∃ ws, takeItems? fuel (skipSpacing (text ++ rest)) = some (ws, rest) ∧
        ∀ index, readItems? depth .whole index ws = some js
  | [], _, fuel, rest, depth, ⟨gap, hgap, htext⟩, _, hfuel => by
    subst htext
    rw [List.append_assoc, hgap.skip]
    cases fuel with
    | zero => simp at hfuel
    | succ fuel => exact ⟨[], rfl, fun _ => rfl⟩
  | j :: js, _, 0, rest, depth, ⟨gap, gap', text, tail, _, _, _, _, htext⟩, _, hfuel => by
    simp [htext] at hfuel
  | j :: js, _, fuel + 1, rest, depth,
      ⟨gap, gap', text, tail, hgap, hgap', htext, htail, heq⟩, hread, hfuel => by
    obtain ⟨hj, hjs⟩ := hread
    subst heq
    simp only [List.length_append, List.length_cons] at hfuel
    obtain ⟨v, hv, hvread⟩ :=
      takeValue?_laidOut j fuel htext hj (endsNumeral_items htail rest) (by omega)
    obtain ⟨vs, hvs, hvsread⟩ := takeItems?_laidOut js fuel rest htail hjs (by omega)
    refine ⟨v :: vs, ?_, fun index => ?_⟩
    · simp only [List.cons_append, List.append_assoc]
      rw [hgap.skip, skipSpacing_cons rfl]
      refine takeItems?_of ?_ hvs
      rwa [hgap'.skip, skipSpacing_laidOut htext]
    · simp only [readItems?, Shape.item, hvread, hvsread, Option.bind_eq_bind, Option.bind_some]

theorem takeMembers?_laidOut : ∀ (ms : List (String × Json)) {text : List Char} (fuel : Nat)
    (rest : List Char) {depth : Nat}, Json.MembersLaidOut ms text → Json.MembersReadBack depth ms → text.length ≤ fuel →
      ∃ ws, takeMembers? fuel (skipSpacing (text ++ rest)) = some (ws, rest) ∧
        readMembers? depth .whole ws = some ms
  | [], _, fuel, rest, depth, ⟨gap, hgap, htext⟩, _, hfuel => by
    subst htext
    rw [List.append_assoc, hgap.skip]
    cases fuel with
    | zero => simp at hfuel
    | succ fuel => exact ⟨[], rfl, rfl⟩
  | (k, j) :: ms, _, 0, rest, depth, ⟨gap, gap', name, text, tail, _, _, _, _, _, htext⟩, _, hfuel => by
    simp [htext] at hfuel
  | (k, j) :: ms, _, fuel + 1, rest, depth,
      ⟨gap, gap', name, text, tail, hgap, hgap', hname, htext, htail, heq⟩, hread, hfuel => by
    obtain ⟨hj, hms⟩ := hread
    subst heq
    simp only [List.length_append, List.length_cons] at hfuel
    obtain ⟨v, hv, hvread⟩ :=
      takeValue?_laidOut j fuel htext hj (endsNumeral_members htail rest) (by omega)
    obtain ⟨vs, hvs, hvsread⟩ := takeMembers?_laidOut ms fuel rest htail hms (by omega)
    refine ⟨(some k, v) :: vs, ?_, ?_⟩
    · simp only [List.cons_append, List.append_assoc]
      rw [hgap.skip, skipSpacing_cons rfl]
      refine takeMembers?_of ?_ hv hvs
      rw [hgap'.skip, skipSpacing_name hname]
      exact takeName?_laidOut hname (by omega) (skipSpacing_laidOut htext _)
    · simp only [readMembers?, Shape.member?, hvread, hvsread, Option.bind_eq_bind, Option.bind_some]

end

/-! ## The whole text -/

theorem parseChars?_laidOut {depth : Nat} (htext : j.LaidOut text) (hread : j.ReadsBack depth)
    (hgap : Spacing gap) (hrest : Spacing rest) :
    ∃ w, parseChars? (gap ++ text ++ rest) = some w ∧ w.read? depth .whole = some j := by
  obtain ⟨w, htake, hw⟩ := takeValue?_laidOut j (2 * (gap ++ text ++ rest).length + 2) htext hread
    (endsNumeral_of_spacing hrest) (by simp only [List.length_append]; omega)
  have hend : (skipSpacing rest).isEmpty = true := by
    rw [List.isEmpty_iff]
    exact List.dropWhile_eq_nil_iff.2 hrest
  refine ⟨w, ?_, hw⟩
  rw [parseChars?, List.append_assoc, hgap.skip, skipSpacing_laidOut htext, ← List.append_assoc, htake]
  exact if_pos hend

end Written

/-! ## Normal documents -/

theorem insertEntry_eq_append {α : Type} {k : String} {v : α} {es : List (String × α)}
    (h : ∀ e ∈ es, compare e.1 k = .lt) : insertEntry k v es = es ++ [(k, v)] := by
  induction es with
  | nil => rfl
  | cons e es ih =>
    obtain ⟨he, hes⟩ := List.forall_mem_cons.1 h
    rw [insertEntry, Std.OrientedCmp.gt_of_lt he, List.cons_append]
    exact congrArg _ (ih hes)

namespace Json

mutual

theorem normal_eq_self : ∀ {j : Json}, Normal j → normal j = j
  | arr _, h => by rw [normal, normalItems_eq_self h]
  | obj ms, h => by
    have hmembers : normalMembers [] ms = [] ++ ms := normalMembers_eq_append h.1 h.2
    rw [normal, hmembers, List.nil_append]
  | null, _ => rfl
  | bool _, _ => rfl
  | num _, _ => rfl
  | str _, _ => rfl

theorem normalItems_eq_self : ∀ {js : List Json}, NormalItems js → normalItems js = js
  | [], _ => rfl
  | _ :: _, h => by rw [normalItems, normal_eq_self h.1, normalItems_eq_self h.2]

theorem normalMembers_eq_append : ∀ {ms done : List (String × Json)},
    Ascending (done ++ ms) → NormalMembers ms → normalMembers done ms = done ++ ms
  | [], done, _, _ => by rw [normalMembers, List.append_nil]
  | (k, j) :: ms, done, hascending, h => by
    have hlast : ∀ e ∈ done, compare e.1 k = .lt := fun e he =>
      (List.pairwise_append.1 hascending).2.2 e he (k, j) List.mem_cons_self
    have happend : done ++ (k, j) :: ms = done ++ [(k, j)] ++ ms := by simp
    rw [normalMembers, normal_eq_self h.1, insertEntry_eq_append hlast,
      normalMembers_eq_append (happend ▸ hascending) h.2, happend]

end

/-- A normal document is what any layout of it is read as. -/
theorem parse?_of_laidOut {j : Json} {s : String} {before text after : List Char}
    (hread : j.ReadsBack maxDepth) (hnormal : j.Normal) (htext : j.LaidOut text)
    (hbefore : Written.Spacing before) (hafter : Written.Spacing after)
    (hs : s.toList = before ++ text ++ after) : parse? s = some j := by
  obtain ⟨w, hparse, hw⟩ := Written.parseChars?_laidOut htext hread hbefore hafter
  rw [parse?, parseAs?, Written.parse?, hs, hparse, Option.bind_some, hw, Option.map_some,
    normal_eq_self hnormal]

end Json

end DesignTokens
