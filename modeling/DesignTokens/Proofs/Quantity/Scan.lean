import DesignTokens.Proofs.Quantity
import DesignTokens.Proofs.Text.Pieces

/-!
# Quantities and the pieces of a text

* `leading? cs` : the quantity at the start of a text;
* `scanFrom_piece` : of a text without delimiters the scan takes the quantity at its start, if it starts
  there, and nothing else;
* `scan_eq_filterMap_pieces` : so the scan takes what stands at the start of each piece between
  delimiters.
-/

namespace DesignTokens.Quantity

variable {c d : Char} {cs w rest : List Char} {q : Quantity} {s t : String}

/-- The quantity at the start of a text. -/
def leading? (cs : List Char) : Option Quantity := (take? cs).map Prod.fst

/-! ## One piece -/

theorem scanFrom_nil (boundary : Bool) : scanFrom boundary [] = [] := by rw [scanFrom]

theorem scanFrom_false_append (hw : ∀ c ∈ w, isDelimiter c = false) (cs : List Char) :
    scanFrom false (w ++ cs) = scanFrom false cs := by
  induction w with
  | nil => rfl
  | cons c w ih =>
    rw [List.forall_mem_cons] at hw
    rw [List.cons_append, scanFrom_false_cons, hw.1, ih hw.2]

theorem leading?_append (hw : w ≠ []) (hcs : ∀ d ∈ cs.head?, isDelimiter d = true) :
    leading? (w ++ cs) = leading? w := by
  rw [leading?, take?_append (fun d hd => isBodyChar_eq_false_of_isDelimiter (hcs d hd)) hw, Option.map_map]
  rfl

/-- By cases on what is read at the start: what it leaves of the piece, or the piece behind its first
character, is passed over up to the next delimiter. -/
theorem scanFrom_piece (hw : ∀ c ∈ w, isDelimiter c = false) (hcs : ∀ d ∈ cs.head?, isDelimiter d = true) :
    scanFrom true (w ++ cs) = (leading? w).toList ++ scanFrom false cs := by
  cases w with
  | nil =>
    cases cs with
    | nil => rw [List.append_nil, scanFrom_nil, scanFrom_nil]; rfl
    | cons d cs => rw [List.nil_append, scanFrom_delimiter (hcs d rfl), scanFrom_delimiter (hcs d rfl)]; rfl
  | cons c w =>
    have happend := take?_append (fun d hd => isBodyChar_eq_false_of_isDelimiter (hcs d hd))
      (List.cons_ne_nil c w)
    cases htake : take? (c :: w) with
    | none =>
      rw [List.forall_mem_cons] at hw
      rw [htake, Option.map_none, List.cons_append] at happend
      rw [List.cons_append, scanFrom_of_take?_eq_none happend, hw.1, scanFrom_false_append hw.2, leading?, htake]
      rfl
    | some t =>
      obtain ⟨q, rest⟩ := t
      obtain ⟨sign, body, hbody, -⟩ := exists_body htake
      have hrest : ∀ c ∈ rest, isDelimiter c = false := fun c hc => hw c (by rw [hbody]; simp [hc])
      rw [htake, Option.map_some] at happend
      rw [scanFrom_of_take? happend, scanFrom_false_append hrest, leading?, htake]
      rfl

/-- What is taken ends with a character that is no delimiter, so that no quantity starts right behind it. -/
theorem take?_ends (h : take? cs = some (q, rest)) :
    ∃ taken c, cs = taken ++ c :: rest ∧ isDelimiter c = false := by
  obtain ⟨sign, body, hcs, -, hne, hbody⟩ := exists_body h
  obtain ⟨body, c, rfl⟩ := (List.eq_nil_or_concat' body).resolve_left hne
  refine ⟨sign ++ body, c, by rw [hcs]; simp, ?_⟩
  by_contra hc
  have hfree := isBodyChar_eq_false_of_isDelimiter (eq_true_of_ne_false hc)
  rw [hbody c (by simp)] at hfree
  cases hfree

/-! ## All pieces -/

theorem scanFrom_eq_filterMap_pieces (cs : List Char) :
    scanFrom true cs = (Text.pieces isDelimiter cs).filterMap leading? := by
  induction cs using Text.pieces_induction (p := isDelimiter) with
  | last w hw =>
    have hend : ∀ d ∈ ([] : List Char).head?, isDelimiter d = true := fun _ h => by cases h
    have hpiece := scanFrom_piece hw hend
    rw [List.append_nil] at hpiece
    rw [hpiece, Text.pieces_of_forall hw, scanFrom]
    cases hlead : leading? w <;> simp [hlead]
  | more w d cs hw hd ih =>
    rw [scanFrom_piece hw (by simpa using hd), scanFrom_delimiter hd, ih, Text.pieces_append_cons hd,
      Text.pieces_of_forall hw, List.filterMap_append]
    cases hlead : leading? w <;> simp [hlead]

theorem exists_start_of_mem_scan (h : q ∈ scan s) : ∃ before after, s.toList = before ++ after ∧
    leading? after = some q ∧ (before = [] ∨ ∃ b c, before = b ++ [c] ∧ isDelimiter c = true) := by
  rw [scan, scanFrom_eq_filterMap_pieces] at h
  obtain ⟨w, hw, hq⟩ := List.mem_filterMap.1 h
  obtain ⟨before, after, hs, hbefore, -, hafter⟩ := Text.exists_of_mem_pieces hw
  have hne : w ≠ [] := by
    rintro rfl
    cases hq
  exact ⟨before, w ++ after, hs, by rw [leading?_append hne hafter, hq], hbefore⟩

theorem leading?_of_isFirstChar_eq_false (h : ∀ c ∈ w.head?, isFirstChar c = false) : leading? w = none := by
  cases w with
  | nil => rfl
  | cons c w => rw [leading?, take?_of_isFirstChar_eq_false (h c rfl)]; rfl

/-- The scan takes the quantity at the start of each piece between delimiters, if there is one. So texts with
a delimiter between them are scanned one after the other, each quantity starts at the start of the text or
right behind a delimiter, and a name gives none. -/
theorem scan_eq_filterMap_pieces (s t : String) (d : Char) :
    scan s = (Text.pieces isDelimiter s.toList).filterMap leading? ∧
      (isDelimiter d = true → scan (s ++ String.singleton d ++ t) = scan s ++ scan t) ∧
      (∀ q ∈ scan s, ∃ before after, s.toList = before ++ after ∧ leading? after = some q ∧
        (before = [] ∨ ∃ b c, before = b ++ [c] ∧ isDelimiter c = true)) ∧
      (∀ w ∈ Text.pieces isDelimiter s.toList, (∀ c ∈ w.head?, isFirstChar c = false) → leading? w = none) ∧
      ∀ cs q rest, take? cs = some (q, rest) → ∃ taken c, cs = taken ++ c :: rest ∧ isDelimiter c = false := by
  refine ⟨scanFrom_eq_filterMap_pieces _, fun hd => ?_, fun q hq => exists_start_of_mem_scan hq,
    fun w _ hw => leading?_of_isFirstChar_eq_false hw, fun cs q rest h => take?_ends h⟩
  have hchars : (s ++ String.singleton d ++ t).toList = s.toList ++ d :: t.toList := by simp
  simp only [scan, scanFrom_eq_filterMap_pieces]
  rw [hchars, Text.pieces_append_cons hd, List.filterMap_append]

/-- Names with digits, a sum with a sign behind the plus, and two units. -/
def sumText : String := "h1*(-2-1,+.5rem"

theorem scan_sumText : isDelimiter '+' = true ∧
    scan (sumText ++ String.singleton '+' ++ "-50%/x2") =
      [⟨-2, .unitless⟩, ⟨0.5, .rem⟩, ⟨-50, .percent⟩] := by
  obtain ⟨hfirst, hjoin, -⟩ := scan_eq_filterMap_pieces sumText "-50%/x2" '+'
  obtain ⟨hsecond, -⟩ := scan_eq_filterMap_pieces "-50%/x2" "" ' '
  have hplus : isDelimiter '+' = true := by decide
  refine ⟨hplus, ?_⟩
  rw [hjoin hplus, hfirst, hsecond]
  decide +kernel

end DesignTokens.Quantity
