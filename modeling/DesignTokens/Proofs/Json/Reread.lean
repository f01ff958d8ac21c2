import DesignTokens.Json.Parser
import DesignTokens.Json.Printer
import DesignTokens.Proofs.Json.Leaves
import DesignTokens.Proofs.Json.Numeral
import Mathlib.Tactic.IntervalCases

/-!
# Reading what is printed

* `takeQuoted?_escape` : of a quoted text just the text is read;
* `takeValue?_chars` : of a printed document just its texts are read, whatever becomes of its numbers;
* `Json.leaves_subset_of_parse?_compress` : if a printed document is read back, then every text of the
  result is one of the document.
-/

namespace DesignTokens

/-! ## Quoted texts -/

namespace Written

open Json (escapeChar)

theorem takeEscape?_control : ∀ n < 32, ∀ rest, ∃ cs, escapeChar (Char.ofNat n) ++ rest = '\\' :: cs ∧
    takeEscape? cs = some (some (Char.ofNat n), rest) := by
  intro n hn rest
  interval_cases n <;> exact ⟨_, rfl, rfl⟩

/-- A character stands for itself or is escaped. -/
theorem escapeChar_cases (c : Char) (rest : List Char) :
    (escapeChar c = [c] ∧ c ≠ '"' ∧ c ≠ '\\' ∧ ¬ c.toNat < 32) ∨
      ∃ cs, escapeChar c ++ rest = '\\' :: cs ∧ takeEscape? cs = some (some c, rest) := by
  by_cases hquote : c = '"'
  · exact .inr ⟨_, by rw [hquote]; rfl, by rw [hquote]; rfl⟩
  by_cases hslash : c = '\\'
  · exact .inr ⟨_, by rw [hslash]; rfl, by rw [hslash]; rfl⟩
  by_cases hlow : c.toNat < 32
  · have h := takeEscape?_control c.toNat hlow rest
    rw [Char.ofNat_toNat] at h
    exact .inr h
  · refine .inl ⟨?_, hquote, hslash, hlow⟩
    rw [escapeChar, if_neg hquote, if_neg hslash, if_pos (by omega)]

theorem takeQuoted?_escape {s rest : List Char} {fuel : Nat} {p : Option (List Char) × List Char}
    (h : takeQuoted? fuel (s.flatMap escapeChar ++ '"' :: rest) = some p) : p = (some s, rest) := by
  induction s generalizing fuel p with
  | nil =>
    cases fuel with
    | zero => cases h
    | succ fuel =>
      rw [List.flatMap_nil, List.nil_append, takeQuoted?, if_pos rfl] at h
      exact (Option.some.inj h).symm
  | cons c s ih =>
    rw [List.flatMap_cons, List.append_assoc] at h
    cases fuel with
    | zero => cases h
    | succ fuel =>
      rcases escapeChar_cases c (s.flatMap escapeChar ++ '"' :: rest) with
        ⟨hc, hquote, hslash, hlow⟩ | ⟨cs, hcs, htake⟩
      · rw [hc, List.singleton_append, takeQuoted?, if_neg hquote, if_neg hslash, if_neg hlow] at h
        obtain ⟨q, hq, h⟩ := Option.bind_eq_some_iff.1 h
        obtain rfl := ih hq
        exact (Option.some.inj h).symm
      · rw [hcs, takeQuoted?, if_neg (by decide), if_pos rfl, htake] at h
        have hbind : Option.bind (takeQuoted? fuel _) _ = some p := h
        obtain ⟨q, hq, h⟩ := Option.bind_eq_some_iff.1 hbind
        obtain rfl := ih hq
        exact (Option.some.inj h).symm

variable {fuel : Nat} {cs rest left : List Char} {c : Char}

theorem takeText?_quote {s : String} {p : Option String × List Char}
    (h : takeText? fuel (s.toList.flatMap escapeChar ++ '"' :: rest) = some p) : p = (some s, rest) := by
  obtain ⟨q, hq, rfl⟩ := Option.map_eq_some_iff.1 h
  obtain rfl := takeQuoted?_escape hq
  simp

/-! ## The start of a printed document -/

theorem skipSpacing_cons (h : isSpacing c = false) : skipSpacing (c :: cs) = c :: cs := by
  rw [skipSpacing, List.dropWhile_cons_of_neg (by simp [h])]

theorem isSpacing_of_isNumeralChar (h : isNumeralChar c = true) : isSpacing c = false := by
  by_contra hspacing
  rw [Bool.not_eq_false] at hspacing
  simp only [isSpacing, Bool.or_eq_true, beq_iff_eq] at hspacing
  rcases hspacing with ((rfl | rfl) | rfl) | rfl <;> cases h

/-- Neither spacing nor the end of an array or object. -/
def Opens (c : Char) : Prop := isSpacing c = false ∧ c ≠ ']' ∧ c ≠ '}'

theorem opens_of_isNumeralChar (h : isNumeralChar c = true) : Opens c := by
  refine ⟨isSpacing_of_isNumeralChar h, ?_, ?_⟩ <;> rintro rfl <;> cases h

theorem exists_chars_eq_cons (j : Json) : ∃ c cs, j.chars = c :: cs ∧ Opens c := by
  have hopens : ∀ c ∈ ['n', 't', 'f', '"', '[', '{'], Opens c := by simp [Opens, isSpacing]
  match j with
  | .null => exact ⟨_, _, rfl, hopens _ (by simp)⟩
  | .bool true => exact ⟨_, _, rfl, hopens _ (by simp)⟩
  | .bool false => exact ⟨_, _, rfl, hopens _ (by simp)⟩
  | .str s => exact ⟨_, _, rfl, hopens _ (by simp)⟩
  | .arr [] => exact ⟨_, _, rfl, hopens _ (by simp)⟩
  | .arr (j :: js) => exact ⟨_, _, by rw [Json.chars]; rfl, hopens _ (by simp)⟩
  | .obj [] => exact ⟨_, _, rfl, hopens _ (by simp)⟩
  | .obj ((k, j) :: ms) => exact ⟨_, _, by rw [Json.chars]; rfl, hopens _ (by simp)⟩
  | .num n =>
    rw [Json.chars]
    rcases n.numeralChars_chars with hnull | ⟨hne, hall⟩
    · exact ⟨_, _, hnull, hopens _ (by simp)⟩
    · obtain ⟨c, cs, hcs⟩ := List.exists_cons_of_ne_nil hne
      exact ⟨c, cs, hcs, opens_of_isNumeralChar (hall c (by simp [hcs]))⟩

/-- The next character, if any, is none of a numeral. -/
def EndsNumeral (rest : List Char) : Prop := ∀ c ∈ rest.head?, isNumeralChar c = false

/-- What is left starts after the document, or inside a numeral at its end. -/
def StopsAt (left rest : List Char) : Prop :=
  left = rest ∨ ∃ c cs, left = c :: cs ∧ isNumeralChar c = true

theorem stopsAt_of_consumes (hcs : ∀ c ∈ cs, isNumeralChar c = true) (hrest : EndsNumeral rest)
    (h : Consumes (cs ++ rest) left) : StopsAt left rest := by
  obtain ⟨used, heq, hused⟩ := h
  rcases List.append_eq_append_iff.1 heq with ⟨more, rfl, hmore⟩ | ⟨unread, rfl, rfl⟩
  · cases more with
    | nil => exact .inl hmore.symm
    | cons c more =>
      have hc : isNumeralChar c = false := hrest c (by simp [hmore])
      rw [hused c (by simp)] at hc
      cases hc
  · cases unread with
    | nil => exact .inl rfl
    | cons c unread => exact .inr ⟨c, unread ++ rest, rfl, hcs c (by simp)⟩

/-! ## Printed documents -/

variable {w : Written}

theorem takeValue?_numeral (h : isNumeralChar c = true) : takeValue? (fuel + 1) (c :: cs) =
    (Numeral.take? (c :: cs)).map fun (n, cs) => (num n, cs) := by
  rw [takeValue?]
  all_goals
    rintro _ h'
    cases h'
    cases h

theorem takeItems?_numeral (h : isNumeralChar c = true) : takeItems? fuel (c :: cs) = none := by
  cases fuel with
  | zero => rfl
  | succ fuel =>
    rw [takeItems?]
    all_goals
      rintro _ h'
      cases h'
      cases h

theorem takeMembers?_numeral (h : isNumeralChar c = true) : takeMembers? fuel (c :: cs) = none := by
  cases fuel with
  | zero => rfl
  | succ fuel =>
    rw [takeMembers?]
    all_goals
      rintro _ h'
      cases h'
      cases h

theorem takeValue?_num {n : Number} (hrest : EndsNumeral rest)
    (h : takeValue? fuel (n.chars ++ rest) = some (w, left)) : w.leaves = [] ∧ StopsAt left rest := by
  cases fuel with
  | zero => cases h
  | succ fuel =>
    rcases n.numeralChars_chars with hnull | ⟨hne, hall⟩
    · rw [hnull] at h
      rw [List.cons_append, List.cons_append, List.cons_append, List.cons_append, takeValue?] at h
      cases h
      exact ⟨by rw [leaves], .inl rfl⟩
    · obtain ⟨c, cs, hcs⟩ := List.exists_cons_of_ne_nil hne
      rw [hcs] at h hall
      rw [List.cons_append, takeValue?_numeral (hall c List.mem_cons_self)] at h
      obtain ⟨⟨m, left'⟩, htake, heq⟩ := Option.map_eq_some_iff.1 h
      obtain ⟨rfl, rfl⟩ := Prod.mk.inj heq
      obtain ⟨c', used, hcons, -, hused⟩ := Numeral.take?_consumes htake
      obtain ⟨rfl, rfl⟩ := List.cons.inj hcons
      have hcs : ∀ d ∈ cs, isNumeralChar d = true := fun d hd => hall d (List.mem_cons_of_mem c hd)
      exact ⟨by rw [leaves], stopsAt_of_consumes hcs hrest hused⟩

theorem takeValue?_arr_cons (hc : Opens c) (h : takeValue? (fuel + 1) ('[' :: c :: cs) = some (w, left)) :
    ∃ v vs mid, takeValue? fuel (c :: cs) = some (v, mid) ∧
      takeItems? fuel (skipSpacing mid) = some (vs, left) ∧ w = arr (v :: vs) := by
  rw [takeValue?, skipSpacing_cons hc.1] at h
  split at h
  · rename_i heq
    cases heq
    exact absurd rfl hc.2.1
  · obtain ⟨⟨v, mid⟩, hv, h⟩ := Option.bind_eq_some_iff.1 h
    obtain ⟨⟨vs, mid'⟩, hvs, h⟩ := Option.bind_eq_some_iff.1 h
    cases h
    exact ⟨v, vs, mid, hv, hvs, rfl⟩

theorem takeValue?_obj_cons (h : takeValue? (fuel + 1) ('{' :: '"' :: cs) = some (w, left)) :
    ∃ name v ms mid mid', takeName? fuel ('"' :: cs) = some (name, mid) ∧
      takeValue? fuel mid = some (v, mid') ∧
      takeMembers? fuel (skipSpacing mid') = some (ms, left) ∧ w = obj ((name, v) :: ms) := by
  rw [takeValue?, skipSpacing_cons rfl] at h
  obtain ⟨⟨name, mid⟩, hname, h⟩ := Option.bind_eq_some_iff.1 h
  obtain ⟨⟨v, mid'⟩, hv, h⟩ := Option.bind_eq_some_iff.1 h
  obtain ⟨⟨ms, mid''⟩, hms, h⟩ := Option.bind_eq_some_iff.1 h
  cases h
  exact ⟨name, v, ms, mid, mid', hname, hv, hms, rfl⟩

theorem takeItems?_cons {ws : List Written} (h : takeItems? fuel (',' :: cs) = some (ws, left)) :
    ∃ fuel v vs mid, takeValue? fuel (skipSpacing cs) = some (v, mid) ∧
      takeItems? fuel (skipSpacing mid) = some (vs, left) ∧ ws = v :: vs := by
  cases fuel with
  | zero => cases h
  | succ fuel =>
    rw [takeItems?] at h
    obtain ⟨⟨v, mid⟩, hv, h⟩ := Option.bind_eq_some_iff.1 h
    obtain ⟨⟨vs, mid'⟩, hvs, h⟩ := Option.bind_eq_some_iff.1 h
    cases h
    exact ⟨fuel, v, vs, mid, hv, hvs, rfl⟩

theorem takeMembers?_cons {ms : List (Option String × Written)}
    (h : takeMembers? fuel (',' :: cs) = some (ms, left)) :
    ∃ fuel name v vs mid mid', takeName? fuel (skipSpacing cs) = some (name, mid) ∧
      takeValue? fuel mid = some (v, mid') ∧
      takeMembers? fuel (skipSpacing mid') = some (vs, left) ∧ ms = (name, v) :: vs := by
  cases fuel with
  | zero => cases h
  | succ fuel =>
    rw [takeMembers?] at h
    obtain ⟨⟨name, mid⟩, hname, h⟩ := Option.bind_eq_some_iff.1 h
    obtain ⟨⟨v, mid'⟩, hv, h⟩ := Option.bind_eq_some_iff.1 h
    obtain ⟨⟨vs, mid''⟩, hvs, h⟩ := Option.bind_eq_some_iff.1 h
    cases h
    exact ⟨fuel, name, v, vs, mid, mid', hname, hv, hvs, rfl⟩

theorem skipSpacing_chars (j : Json) (rest : List Char) :
    skipSpacing (j.chars ++ rest) = j.chars ++ rest := by
  obtain ⟨c, cs, hcs, hopens⟩ := exists_chars_eq_cons j
  rw [hcs, List.cons_append, skipSpacing_cons hopens.1]

theorem skipSpacing_quote (k : String) (rest : List Char) :
    skipSpacing (Json.quote k ++ rest) = Json.quote k ++ rest := skipSpacing_cons rfl

theorem takeName?_quote {k : String} {j : Json} {name : Option String} {mid : List Char}
    (h : takeName? fuel (Json.quote k ++ ':' :: (j.chars ++ rest)) = some (name, mid)) :
    mid = j.chars ++ rest := by
  simp only [Json.quote, List.cons_append, List.append_assoc, List.nil_append, takeName?] at h
  obtain ⟨p, hp, h⟩ := Option.bind_eq_some_iff.1 h
  obtain rfl := takeText?_quote hp
  rw [skipSpacing_cons rfl] at h
  obtain ⟨-, rfl⟩ := Prod.mk.inj (Option.some.inj h)
  exact skipSpacing_chars j rest

/-- What follows a value in an array or object. -/
structure Follows (rest : List Char) : Prop where
  ends : EndsNumeral rest
  skip : skipSpacing rest = rest

theorem follows_itemChars (js : List Json) (rest : List Char) : Follows (Json.itemChars js ++ rest) := by
  cases js <;>
    exact ⟨by simp [Json.itemChars, EndsNumeral, isNumeralChar], by rw [Json.itemChars]; rfl⟩

theorem follows_memberChars (ms : List (String × Json)) (rest : List Char) :
    Follows (Json.memberChars ms ++ rest) := by
  cases ms <;>
    exact ⟨by simp [Json.memberChars, EndsNumeral, isNumeralChar], by rw [Json.memberChars]; rfl⟩

/-- After a numeral that is read in part only nothing more can be read. -/
theorem eq_some_of_stopsAt {α : Type} {take? : List Char → Option α} {mid : List Char} {a : α}
    (hnumeral : ∀ c cs, isNumeralChar c = true → take? (c :: cs) = none) (hstops : StopsAt mid rest)
    (hrest : Follows rest) (h : take? (skipSpacing mid) = some a) : take? rest = some a := by
  rcases hstops with rfl | ⟨c, cs, rfl, hc⟩
  · rwa [hrest.skip] at h
  · rw [skipSpacing_cons (isSpacing_of_isNumeralChar hc), hnumeral c cs hc] at h
    cases h

variable {mid : List Char} {js : List Json} {ms : List (String × Json)}

theorem takeItems?_after (hstops : StopsAt mid (Json.itemChars js ++ rest)) {ws : List Written}
    (h : takeItems? fuel (skipSpacing mid) = some (ws, left)) :
    takeItems? fuel (Json.itemChars js ++ rest) = some (ws, left) :=
  eq_some_of_stopsAt (fun _ _ => takeItems?_numeral) hstops (follows_itemChars js rest) h

theorem takeMembers?_after (hstops : StopsAt mid (Json.memberChars ms ++ rest))
    {vs : List (Option String × Written)}
    (h : takeMembers? fuel (skipSpacing mid) = some (vs, left)) :
    takeMembers? fuel (Json.memberChars ms ++ rest) = some (vs, left) :=
  eq_some_of_stopsAt (fun _ _ => takeMembers?_numeral) hstops (follows_memberChars ms rest) h

mutual

/-- By recursion on the document. That reading succeeds decides what a numeral read in part would leave
open: after it neither a comma nor an end could be read. -/
theorem takeValue?_chars : ∀ (j : Json) {fuel : Nat} {rest left : List Char} {w : Written}, EndsNumeral rest →
    takeValue? fuel (j.chars ++ rest) = some (w, left) →
      w.leaves = j.leaves.map some ∧ StopsAt left rest
  | _, 0, _, _, _, _, h => by cases h
  | .null, fuel + 1, rest, left, w, _, h => by
    rw [Json.chars] at h
    simp only [List.cons_append, List.nil_append, takeValue?] at h
    cases h
    exact ⟨by simp [leaves, Json.leaves], .inl rfl⟩
  | .bool true, fuel + 1, rest, left, w, _, h => by
    rw [Json.chars] at h
    simp only [List.cons_append, List.nil_append, takeValue?] at h
    cases h
    exact ⟨by simp [leaves, Json.leaves], .inl rfl⟩
  | .bool false, fuel + 1, rest, left, w, _, h => by
    rw [Json.chars] at h
    simp only [List.cons_append, List.nil_append, takeValue?] at h
    cases h
    exact ⟨by simp [leaves, Json.leaves], .inl rfl⟩
  | .num n, fuel + 1, rest, left, w, hrest, h => by
    rw [Json.chars] at h
    rw [Json.leaves]
    exact takeValue?_num hrest h
  | .str s, fuel + 1, rest, left, w, _, h => by
    rw [Json.chars, Json.quote] at h
    simp only [List.cons_append, List.append_assoc, List.nil_append, takeValue?] at h
    obtain ⟨p, hp, heq⟩ := Option.map_eq_some_iff.1 h
    obtain rfl := takeText?_quote hp
    cases heq
    exact ⟨by simp [leaves, Json.leaves], .inl rfl⟩
  | .arr [], fuel + 1, rest, left, w, _, h => by
    rw [Json.chars] at h
    simp only [List.cons_append, List.nil_append, takeValue?] at h
    rw [skipSpacing_cons rfl] at h
    cases h
    exact ⟨by simp [leaves, itemLeaves, Json.leaves, Json.itemLeaves], .inl rfl⟩
  | .arr (j :: js), fuel + 1, rest, left, w, _, h => by
    obtain ⟨c, cs, hcs, hopens⟩ := exists_chars_eq_cons j
    rw [Json.chars] at h
    simp only [List.cons_append, List.append_assoc, hcs] at h
    obtain ⟨v, vs, mid, hv, hvs, rfl⟩ := takeValue?_arr_cons hopens h
    rw [← List.cons_append, ← hcs] at hv
    obtain ⟨hhead, hmid⟩ := takeValue?_chars j (follows_itemChars js rest).ends hv
    obtain ⟨htail, hleft⟩ := takeItems?_itemChars js (takeItems?_after hmid hvs)
    exact ⟨by simp [leaves, itemLeaves, Json.leaves, Json.itemLeaves, hhead, htail], .inl hleft⟩
  | .obj [], fuel + 1, rest, left, w, _, h => by
    rw [Json.chars] at h
    simp only [List.cons_append, List.nil_append, takeValue?] at h
    rw [skipSpacing_cons rfl] at h
    cases h
    exact ⟨by simp [leaves, memberLeaves, Json.leaves, Json.memberLeaves], .inl rfl⟩
  | .obj ((k, j) :: ms), fuel + 1, rest, left, w, _, h => by
    rw [Json.chars] at h
    have hquote : Json.quote k = '"' :: (k.toList.flatMap escapeChar ++ ['"']) := rfl
    simp only [List.cons_append, List.append_assoc, hquote] at h
    obtain ⟨name, v, vs, mid, mid', hname, hv, hvs, rfl⟩ := takeValue?_obj_cons h
    obtain rfl := takeName?_quote (k := k) (j := j) (by simpa [hquote] using hname)
    obtain ⟨hhead, hmid⟩ := takeValue?_chars j (follows_memberChars ms rest).ends hv
    obtain ⟨htail, hleft⟩ := takeMembers?_memberChars ms (takeMembers?_after hmid hvs)
    exact ⟨by simp [leaves, memberLeaves, Json.leaves, Json.memberLeaves, hhead, htail], .inl hleft⟩

theorem takeItems?_itemChars : ∀ (js : List Json) {fuel : Nat} {rest left : List Char} {ws : List Written},
    takeItems? fuel (Json.itemChars js ++ rest) = some (ws, left) →
      itemLeaves ws = (Json.itemLeaves js).map some ∧ left = rest
  | _, 0, _, _, _, h => by cases h
  | [], fuel + 1, rest, left, ws, h => by
    rw [Json.itemChars, List.singleton_append, takeItems?] at h
    cases h
    exact ⟨by simp [itemLeaves, Json.itemLeaves], rfl⟩
  | j :: js, fuel + 1, rest, left, ws, h => by
    rw [Json.itemChars] at h
    simp only [List.cons_append, List.append_assoc] at h
    obtain ⟨fuel, v, vs, mid, hv, hvs, rfl⟩ := takeItems?_cons h
    rw [skipSpacing_chars] at hv
    obtain ⟨hhead, hmid⟩ := takeValue?_chars j (follows_itemChars js rest).ends hv
    obtain ⟨htail, hleft⟩ := takeItems?_itemChars js (takeItems?_after hmid hvs)
    exact ⟨by simp [itemLeaves, Json.itemLeaves, hhead, htail], hleft⟩

theorem takeMembers?_memberChars : ∀ (ms : List (String × Json)) {fuel : Nat} {rest left : List Char}
    {vs : List (Option String × Written)},
    takeMembers? fuel (Json.memberChars ms ++ rest) = some (vs, left) →
      memberLeaves vs = (Json.memberLeaves ms).map some ∧ left = rest
  | _, 0, _, _, _, h => by cases h
  | [], fuel + 1, rest, left, vs, h => by
    rw [Json.memberChars, List.singleton_append, takeMembers?] at h
    cases h
    exact ⟨by simp [memberLeaves, Json.memberLeaves], rfl⟩
  | (k, j) :: ms, fuel + 1, rest, left, vs, h => by
    rw [Json.memberChars] at h
    simp only [List.cons_append, List.append_assoc] at h
    obtain ⟨fuel, name, v, vs, mid, mid', hname, hv, hvs, rfl⟩ := takeMembers?_cons h
    rw [skipSpacing_quote] at hname
    obtain rfl := takeName?_quote hname
    obtain ⟨hhead, hmid⟩ := takeValue?_chars j (follows_memberChars ms rest).ends hv
    obtain ⟨htail, hleft⟩ := takeMembers?_memberChars ms (takeMembers?_after hmid hvs)
    exact ⟨by simp [memberLeaves, Json.memberLeaves, hhead, htail], hleft⟩

end

/-! ## The whole document -/

theorem leaves_of_parse?_compress {j : Json} (h : parse? j.compress = some w) :
    w.leaves = j.leaves.map some := by
  rw [parse?, Json.compress, String.toList_ofList, parseChars?] at h
  obtain ⟨⟨v, left⟩, hv, h⟩ := Option.bind_eq_some_iff.1 h
  have hchars := skipSpacing_chars j []
  rw [List.append_nil] at hchars
  rw [hchars, ← List.append_nil j.chars] at hv
  obtain rfl : v = w := by
    dsimp only at h
    split at h
    · exact Option.some.inj h
    · cases h
  exact (takeValue?_chars j (by simp [EndsNumeral]) hv).1

end Written

namespace Json

theorem leaves_subset_of_parse?_compress {j d : Json} (h : parse? j.compress = some d) :
    d.leaves ⊆ j.leaves := by
  obtain ⟨d, hd, rfl⟩ := Option.map_eq_some_iff.1 h
  obtain ⟨w, hw, hread⟩ := Option.bind_eq_some_iff.1 hd
  have hleaves : d.leaves = j.leaves := by
    have hsome : d.leaves.map some = j.leaves.map some := by
      rw [← Written.leaves_of_read? w hread, Written.leaves_of_parse?_compress hw]
    exact (List.map_inj_right fun _ _ => Option.some.inj).1 hsome
  rw [← hleaves]
  exact leaves_normal_subset d

end Json

end DesignTokens
