import DesignTokens.Text.Pieces
import Mathlib.Data.List.TakeWhile

/-!
# The pieces of texts that were joined

* `pieces_append_cons` : a separator ends a piece; `pieces_induction` : piece after piece;
* `exists_of_mem_pieces` : where a piece stands in the text;
* `splitString_intercalate` : the pieces of texts that are joined by a separator are those of each of
  them, and one without the separator is a piece of its own (`splitString_of_not_mem`);
* `intercalate_splitString` : joined again, the pieces of a text are the text; no piece has the
  separator in it (`not_mem_of_mem_splitString`);
* `splitString_isPrefix_iff` : the pieces of a text begin with those of another one if it is that text, or
  goes on from it with a separator;
* `mem_replaceChar` : the characters of a text with one character replaced;
* `stripStart?_eq_some`, `stripEnd?_eq_some`, `cutAt_eq_some` : what a text is of which a part was cut off.
-/

namespace DesignTokens.Text

variable {p : Char → Bool} {sep c : Char} {s : String}

theorem pieces_ne_nil (p : Char → Bool) (cs : List Char) : pieces p cs ≠ [] := by
  cases cs with
  | nil => simp [pieces]
  | cons c cs =>
    unfold pieces
    split
    · simp
    · split <;> simp

theorem pieces_append_cons (hc : p c = true) (before after : List Char) :
    pieces p (before ++ c :: after) = pieces p before ++ pieces p after := by
  induction before with
  | nil => simp [pieces, hc]
  | cons d before ih =>
    rw [List.cons_append, pieces, pieces, ih]
    by_cases hd : p d = true
    · simp [hd]
    · obtain ⟨w, ws, hw⟩ := List.exists_cons_of_ne_nil (pieces_ne_nil p before)
      simp [hd, hw]

theorem pieces_of_forall {cs : List Char} (h : ∀ c ∈ cs, p c = false) : pieces p cs = [cs] := by
  induction cs with
  | nil => rfl
  | cons c cs ih =>
    obtain ⟨hc, hcs⟩ := List.forall_mem_cons.1 h
    rw [pieces, ih hcs]
    simp [hc]

/-- Piece after piece: a text is one without separators, or such a one with a separator and a text behind. -/
theorem pieces_induction {motive : List Char → Prop} (last : ∀ w, (∀ c ∈ w, p c = false) → motive w)
    (more : ∀ w d cs, (∀ c ∈ w, p c = false) → p d = true → motive cs → motive (w ++ d :: cs))
    (cs : List Char) : motive cs := by
  have hfree : ∀ c ∈ cs.takeWhile (!p ·), p c = false := fun c hc => by simpa using List.mem_takeWhile_imp hc
  have hcs := List.takeWhile_append_dropWhile (p := (!p ·)) (l := cs)
  cases hrest : cs.dropWhile (!p ·) with
  | nil =>
    rw [hrest, List.append_nil] at hcs
    exact last cs (hcs ▸ hfree)
  | cons d rest =>
    have hd : p d = true := by
      have hhead := List.head?_dropWhile_not (!p ·) cs
      rw [hrest] at hhead
      simpa using hhead
    have hshorter : rest.length < cs.length := by
      rw [← hcs, hrest]
      simp
      omega
    rw [← hcs, hrest]
    exact more _ d rest hfree hd (pieces_induction last more rest)
termination_by cs.length

/-- A piece stands between two separators, or between one and an end of the text. -/
theorem exists_of_mem_pieces {cs w : List Char} (h : w ∈ pieces p cs) : ∃ before after,
    cs = before ++ (w ++ after) ∧ (before = [] ∨ ∃ b d, before = b ++ [d] ∧ p d = true) ∧
      (∀ c ∈ w, p c = false) ∧ ∀ d ∈ after.head?, p d = true := by
  induction cs using pieces_induction (p := p) with
  | last v hv =>
    rw [pieces_of_forall hv, List.mem_singleton] at h
    subst h
    exact ⟨[], [], by simp, .inl rfl, hv, by simp⟩
  | more v d cs hv hd ih =>
    rw [pieces_append_cons hd, pieces_of_forall hv, List.singleton_append, List.mem_cons] at h
    rcases h with rfl | h
    · exact ⟨[], d :: cs, rfl, .inl rfl, hv, by simpa using hd⟩
    · obtain ⟨before, after, rfl, hbefore, hw, hafter⟩ := ih h
      refine ⟨v ++ d :: before, after, by simp, .inr ?_, hw, hafter⟩
      rcases hbefore with rfl | ⟨b, e, rfl, he⟩
      · exact ⟨v, d, rfl, hd⟩
      · exact ⟨v ++ d :: b, e, by simp, he⟩

theorem splitString_of_not_mem (h : sep ∉ s.toList) : splitString sep s = [s] := by
  unfold splitString
  rw [pieces_of_forall, List.map_singleton, String.ofList_toList]
  intro c hc
  rw [beq_eq_false_iff_ne]
  rintro rfl
  exact h hc

theorem splitString_intercalate (sep : Char) {ss : List String} (h : ss ≠ []) :
    splitString sep (String.intercalate (String.singleton sep) ss) = ss.flatMap (splitString sep) := by
  induction ss with
  | nil => exact absurd rfl h
  | cons s ss ih =>
    cases ss with
    | nil => simp
    | cons t ss =>
      have hrest := ih (List.cons_ne_nil t ss)
      rw [List.flatMap_cons, ← hrest, String.intercalate_cons_cons]
      unfold splitString
      rw [String.toList_append, String.toList_append, String.toList_singleton, List.append_assoc,
        List.singleton_append, pieces_append_cons (by simp), List.map_append]

theorem splitString_ne_nil (sep : Char) (s : String) : splitString sep s ≠ [] := by
  unfold splitString
  rw [ne_eq, List.map_eq_nil_iff]
  exact pieces_ne_nil _ _

theorem not_mem_of_mem_pieces {cs w : List Char} (h : w ∈ pieces (· == sep) cs) : sep ∉ w := by
  induction cs generalizing w with
  | nil => simp_all [pieces]
  | cons c cs ih =>
    obtain ⟨v, ws, hpieces⟩ := List.exists_cons_of_ne_nil (pieces_ne_nil (· == sep) cs)
    rw [hpieces] at ih
    rw [pieces, hpieces] at h
    by_cases hc : c = sep
    · rw [if_pos (by simpa using hc)] at h
      rcases List.mem_cons.1 h with rfl | h
      · exact List.not_mem_nil
      · exact ih h
    · rw [if_neg (by simpa using hc)] at h
      rcases List.mem_cons.1 h with rfl | h
      · intro hsep
        rcases List.mem_cons.1 hsep with rfl | hsep
        · exact hc rfl
        · exact ih List.mem_cons_self hsep
      · exact ih (List.mem_cons_of_mem _ h)

theorem not_mem_of_mem_splitString {t : String} (h : t ∈ splitString sep s) : sep ∉ t.toList := by
  obtain ⟨w, hw, rfl⟩ := List.mem_map.1 h
  rw [String.toList_ofList]
  exact not_mem_of_mem_pieces hw

theorem intercalate_cons_ofList (separator : String) (c : Char) (w : List Char) (ss : List String) :
    String.intercalate separator (String.ofList (c :: w) :: ss) =
      String.ofList [c] ++ String.intercalate separator (String.ofList w :: ss) := by
  have hcons : String.ofList (c :: w) = String.ofList [c] ++ String.ofList w := by
    rw [← String.ofList_append, List.singleton_append]
  cases ss with
  | nil => rw [String.intercalate_singleton, String.intercalate_singleton, hcons]
  | cons t ss =>
    rw [String.intercalate_cons_cons, String.intercalate_cons_cons, hcons, String.append_assoc,
      String.append_assoc, String.append_assoc]

theorem intercalate_pieces (sep : Char) (cs : List Char) :
    String.intercalate (String.singleton sep) ((pieces (· == sep) cs).map String.ofList) =
      String.ofList cs := by
  induction cs with
  | nil => simp [pieces]
  | cons c cs ih =>
    obtain ⟨w, ws, hpieces⟩ := List.exists_cons_of_ne_nil (pieces_ne_nil (· == sep) cs)
    have hcons : String.ofList (c :: cs) = String.ofList [c] ++ String.ofList cs := by
      rw [← String.ofList_append, List.singleton_append]
    rw [hpieces, List.map_cons] at ih
    rw [pieces, hpieces, hcons, ← ih]
    by_cases hc : c = sep
    · subst hc
      rw [if_pos (beq_self_eq_true c), List.map_cons, List.map_cons, String.intercalate_cons_cons]
      rfl
    · rw [if_neg (by simpa using hc)]
      exact intercalate_cons_ofList _ c w _

theorem intercalate_splitString (sep : Char) (s : String) :
    String.intercalate (String.singleton sep) (splitString sep s) = s := by
  unfold splitString
  rw [intercalate_pieces, String.ofList_toList]

theorem intercalate_append {separator : String} {ss ts : List String} (hs : ss ≠ []) (ht : ts ≠ []) :
    String.intercalate separator (ss ++ ts) =
      String.intercalate separator ss ++ separator ++ String.intercalate separator ts := by
  induction ss with
  | nil => exact absurd rfl hs
  | cons s ss ih =>
    cases ss with
    | nil =>
      obtain ⟨t, ts, rfl⟩ := List.exists_cons_of_ne_nil ht
      rw [List.singleton_append, String.intercalate_cons_cons, String.intercalate_singleton]
    | cons s' ss =>
      have hrest := ih (List.cons_ne_nil s' ss)
      rw [List.cons_append] at hrest
      rw [List.cons_append, List.cons_append, String.intercalate_cons_cons, hrest,
        String.intercalate_cons_cons]
      simp only [String.append_assoc]

theorem splitString_isPrefix_iff {t : String} : splitString sep s <+: splitString sep t ↔
    t = s ∨ ∃ rest, t.toList = s.toList ++ sep :: rest := by
  constructor
  · rintro ⟨ss, hsplit⟩
    have hjoin := intercalate_splitString sep t
    rw [← hsplit] at hjoin
    by_cases hss : ss = []
    · left
      rw [hss, List.append_nil, intercalate_splitString] at hjoin
      exact hjoin.symm
    · right
      rw [intercalate_append (splitString_ne_nil sep s) hss, intercalate_splitString] at hjoin
      exact ⟨(String.intercalate (String.singleton sep) ss).toList, by simp [← hjoin]⟩
  · rintro (rfl | ⟨rest, ht⟩)
    · exact List.prefix_refl _
    · refine ⟨(pieces (· == sep) rest).map String.ofList, ?_⟩
      unfold splitString
      rw [ht, pieces_append_cons (p := (· == sep)) (beq_self_eq_true sep), List.map_append]

theorem mem_replaceChar {c d : Char} {t s : String} :
    d ∈ (replaceChar c t s).toList ↔ d ∈ t.toList ∧ c ∈ s.toList ∨ d ∈ s.toList ∧ d ≠ c := by
  rw [replaceChar, String.toList_ofList, List.mem_flatMap]
  constructor
  · rintro ⟨e, he, hd⟩
    split at hd
    · subst e
      exact .inl ⟨hd, he⟩
    · rw [List.mem_singleton.1 hd]
      exact .inr ⟨he, ‹_›⟩
  · rintro (⟨hd, hc⟩ | ⟨hd, hne⟩)
    · exact ⟨c, hc, by simpa using hd⟩
    · exact ⟨d, hd, by simp [hne]⟩

/-! ## Parts that are cut off -/

theorem stripStart?_eq_some {start cs rest : List Char} :
    stripStart? start cs = some rest ↔ cs = start ++ rest := by
  rw [stripStart?, Option.ite_none_right_eq_some, List.isPrefixOf_iff_prefix, Option.some.injEq]
  constructor
  · rintro ⟨⟨tail, rfl⟩, rfl⟩
    rw [List.drop_left]
  · rintro rfl
    exact ⟨List.prefix_append _ _, List.drop_left⟩

theorem stripEnd?_eq_some {tail cs start : List Char} :
    stripEnd? tail cs = some start ↔ cs = start ++ tail := by
  rw [stripEnd?, Option.ite_none_right_eq_some, List.isSuffixOf_iff_suffix, Option.some.injEq]
  constructor
  · rintro ⟨⟨before, rfl⟩, rfl⟩
    simp
  · rintro rfl
    exact ⟨List.suffix_append _ _, by simp⟩

theorem cutAt_eq_some {cs before after : List Char} : cutAt p cs = some (before, after) ↔
    ∃ d, cs = before ++ d :: after ∧ p d = true ∧ ∀ c ∈ before, p c = false := by
  induction cs generalizing before with
  | nil => simp [cutAt]
  | cons c cs ih =>
    rw [cutAt]
    by_cases hc : p c = true
    · rw [if_pos hc, Option.some.injEq, Prod.mk.injEq]
      constructor
      · rintro ⟨rfl, rfl⟩
        exact ⟨c, rfl, hc, by simp⟩
      · rintro ⟨d, hcs, -, hbefore⟩
        cases before with
        | nil => exact ⟨rfl, (List.cons.inj hcs).2⟩
        | cons b before =>
          obtain ⟨rfl, -⟩ := List.cons.inj hcs
          rw [hbefore c List.mem_cons_self] at hc
          cases hc
    · rw [if_neg hc, Option.map_eq_some_iff]
      constructor
      · rintro ⟨⟨before, after⟩, hcut, heq⟩
        obtain ⟨rfl, rfl⟩ := Prod.mk.inj heq
        obtain ⟨d, rfl, hd, hbefore⟩ := ih.1 hcut
        exact ⟨d, rfl, hd, List.forall_mem_cons.2 ⟨by simpa using hc, hbefore⟩⟩
      · rintro ⟨d, hcs, hd, hbefore⟩
        cases before with
        | nil =>
          obtain ⟨rfl, -⟩ := List.cons.inj hcs
          exact absurd hd hc
        | cons b before =>
          obtain ⟨rfl, rfl⟩ := List.cons.inj hcs
          exact ⟨(before, after), ih.2 ⟨d, rfl, hd, (List.forall_mem_cons.1 hbefore).2⟩, rfl⟩

end DesignTokens.Text
