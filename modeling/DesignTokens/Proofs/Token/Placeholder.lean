import DesignTokens.Proofs.Token.Substitute
import Mathlib.Data.Nat.Find

/-!
# Placeholders as pairs of braces

* `BracePair cs before inner after` : an opening brace and the next brace after it, which is a closing one,
  with something between the two;
* `PairSearch cs finds rest` : a search from the left, which goes on behind each pair that it finds. It
  finds all pairs (`PairSearch.bracePair_iff`), since no two of them overlap (`BracePair.eq_or_behind`);
* `PairSearch.segments_eq` : the parts of a text are the pairs that a search finds and the characters around
  them;
* `placeholders_found` : the ids that a text cites, and what it is filled to, as told by its pairs;
* `substitute_reads_refs` : substitution reads the cited ids only, and in a plain text it reads all of them.
-/

namespace DesignTokens

variable {cs before inner after rest : List Char} {lookup : String → Option TokenValue} {s : String}
  {pending : Option (List Char)} {parts earlier later : List Segment}

/-- An opening brace and the next brace after it, which is a closing one, with something between the two;
`before` and `after` stand around them. -/
structure BracePair (cs before inner after : List Char) : Prop where
  text_eq : cs = before ++ '{' :: inner ++ '}' :: after
  ne_nil : inner ≠ []
  no_brace : ∀ c ∈ inner, c ≠ '{' ∧ c ≠ '}'

/-! ## The parts of a text around a pair -/

theorem segmentsFrom_append_open (pending : Option (List Char)) (before cs : List Char) :
    segmentsFrom pending (before ++ '{' :: cs) =
      segmentsFrom pending before ++ segmentsFrom (some []) cs := by
  induction pending, before using segmentsFrom.induct with
  | case1 => simp [segmentsFrom]
  | case2 p => simp [segmentsFrom]
  | case3 before ih => simp [segmentsFrom, ih]
  | case4 c before h ih => simp [segmentsFrom, h, ih]
  | case5 p before ih => simp [segmentsFrom, ih]
  | case6 p before h ih => simp [segmentsFrom, ih]
  | case7 p c before h h' ih => simp [segmentsFrom, h, h', ih]

theorem BracePair.segments_eq (h : BracePair cs before inner after) :
    segments cs = segments before ++ .placeholder inner :: segments after := by
  obtain ⟨rfl, hne, hbraces⟩ := h
  rw [segments, List.append_assoc, List.cons_append, segmentsFrom_append_open,
    segmentsFrom_placeholder (.inr hne) hbraces]
  rfl

/-- What was read since an opening brace has no brace in it, so a placeholder has none. -/
theorem inner_of_mem_segmentsFrom (hpending : ∀ p ∈ pending, ∀ c ∈ p, c ≠ '{' ∧ c ≠ '}')
    (h : .placeholder inner ∈ segmentsFrom pending cs) : inner ≠ [] ∧ ∀ c ∈ inner, c ≠ '{' ∧ c ≠ '}' := by
  induction pending, cs using segmentsFrom.induct with
  | case1 => simp [segmentsFrom] at h
  | case2 p => simp [segmentsFrom, literals] at h
  | case3 cs ih =>
    rw [segmentsFrom, if_pos rfl] at h
    exact ih (by simp) h
  | case4 c cs hopen ih =>
    rw [segmentsFrom, if_neg hopen] at h
    exact ih hpending (by simpa using h)
  | case5 p cs ih =>
    rw [segmentsFrom, if_pos rfl] at h
    exact ih (by simp) (by simpa [literals] using h)
  | case6 p cs hopen ih =>
    rw [segmentsFrom, if_neg hopen, if_pos rfl] at h
    have hp : ∀ c ∈ p, c ≠ '{' ∧ c ≠ '}' := hpending p rfl
    cases p with
    | nil => exact ih (by simp) (by simpa [literals] using h)
    | cons c p =>
      rcases List.mem_append.1 h with h | h
      · simp only [List.isEmpty_cons, Bool.false_eq_true, ↓reduceIte, List.mem_singleton,
          Segment.placeholder.injEq] at h
        subst h
        exact ⟨by simp, fun d hd => hp d (List.mem_reverse.1 hd)⟩
      · exact ih (by simp) h
  | case7 p c cs hopen hclose ih =>
    rw [segmentsFrom, if_neg hopen, if_neg hclose] at h
    refine ih ?_ h
    rintro q hq
    cases hq
    exact List.forall_mem_cons.2 ⟨⟨hopen, hclose⟩, hpending p rfl⟩

theorem bracePair_of_segments_eq (h : segments cs = earlier ++ .placeholder inner :: later) :
    BracePair cs (earlier.flatMap Segment.written) inner (later.flatMap Segment.written) := by
  have hmem : .placeholder inner ∈ segmentsFrom none cs := by
    rw [← segments, h]
    simp
  obtain ⟨hne, hbraces⟩ := inner_of_mem_segmentsFrom (by simp) hmem
  refine ⟨?_, hne, hbraces⟩
  rw [← written_segments cs, h]
  simp [Segment.written]

theorem eq_literals {parts : List Segment} (h : ∀ inner, .placeholder inner ∉ parts) :
    parts = literals (parts.flatMap Segment.written) := by
  induction parts with
  | nil => rfl
  | cons part parts ih =>
    cases part with
    | literal c => exact congrArg _ (ih fun inner hinner => h inner (List.mem_cons_of_mem _ hinner))
    | placeholder inner => exact absurd List.mem_cons_self (h inner)

theorem segments_eq_literals (h : ∀ before inner after, ¬ BracePair cs before inner after) :
    segments cs = literals cs := by
  have hparts : segments cs = literals ((segments cs).flatMap Segment.written) := by
    refine eq_literals fun inner hinner => ?_
    obtain ⟨earlier, later, hsplit⟩ := List.append_of_mem hinner
    exact h _ _ _ (bracePair_of_segments_eq hsplit)
  rw [hparts, written_segments]

/-! ## Pairs do not overlap -/

/-- What stands before a closing brace, if it has none itself, is known from the whole. -/
theorem append_close_inj {inner' after' : List Char} (h : '}' ∉ inner) (h' : '}' ∉ inner')
    (heq : inner ++ '}' :: after = inner' ++ '}' :: after') : inner = inner' ∧ after = after' := by
  rcases List.append_eq_append_iff.1 heq with ⟨more, rfl, hmore⟩ | ⟨more, rfl, hmore⟩
  all_goals
    cases more with
    | nil => simp_all
    | cons c more =>
      obtain rfl : '}' = c := (List.cons.inj hmore).1
      simp at h h'

/-- Two pairs are the same, or one stands behind the other. -/
theorem BracePair.eq_or_behind {before' inner' after' : List Char} (h : BracePair cs before inner after)
    (h' : BracePair cs before' inner' after') (hle : before.length ≤ before'.length) :
    (before' = before ∧ inner' = inner ∧ after' = after) ∨
      ∃ between, before' = before ++ '{' :: inner ++ '}' :: between ∧
        BracePair after between inner' after' := by
  obtain ⟨rfl, -, hbraces⟩ := h
  obtain ⟨heq, hne', hbraces'⟩ := h'
  rw [List.append_assoc, List.append_assoc] at heq
  obtain ⟨gap, rfl⟩ : before <+: before' :=
    List.prefix_of_prefix_length_le (heq ▸ List.prefix_append _ _) (List.prefix_append _ _) hle
  rw [List.append_assoc, List.append_cancel_left_eq] at heq
  cases gap with
  | nil =>
    have hclose {inner : List Char} (h : ∀ c ∈ inner, c ≠ '{' ∧ c ≠ '}') : '}' ∉ inner :=
      fun hmem => (h _ hmem).2 rfl
    obtain ⟨rfl, rfl⟩ := append_close_inj (hclose hbraces) (hclose hbraces') (List.cons.inj heq).2
    exact .inl ⟨List.append_nil _, rfl, rfl⟩
  | cons c gap =>
    obtain ⟨rfl, htail⟩ := List.cons.inj heq
    refine .inr ?_
    -- The first brace behind the opening one is the closing one, so the gap goes on behind it.
    rcases List.append_eq_append_iff.1 htail with ⟨more, rfl, hmore⟩ | ⟨more, rfl, hmore⟩
    · cases more with
      | nil => cases (List.cons.inj hmore).1
      | cons c between =>
        obtain ⟨rfl, rfl⟩ := List.cons.inj hmore
        exact ⟨between, by simp, by simp, hne', hbraces'⟩
    · cases more with
      | nil => cases (List.cons.inj hmore).1
      | cons c more =>
        obtain rfl : '{' = c := (List.cons.inj hmore).1
        exact absurd rfl (hbraces '{' (by simp)).1

/-! ## The search -/

/-- A search from the left: each pair that it finds is the first one behind the pair before it. Of each pair
`finds` has the characters since the last one and what is between its braces; `rest` is what follows. -/
inductive PairSearch : List Char → List (List Char × List Char) → List Char → Prop
  | nothing {cs : List Char} (h : ∀ before inner after, ¬ BracePair cs before inner after) :
    PairSearch cs [] cs
  | next {cs before inner after rest : List Char} {finds : List (List Char × List Char)}
    (h : BracePair cs before inner after)
    (hfirst : ∀ before' inner' after', BracePair cs before' inner' after' → before.length ≤ before'.length)
    (hrest : PairSearch after finds rest) : PairSearch cs ((before, inner) :: finds) rest

/-- What a search found, with `fill` of each pair in its place. -/
def refill (fill : Segment → List Char) (finds : List (List Char × List Char)) (rest : List Char) :
    List Char :=
  finds.flatMap (fun f => f.1 ++ fill (.placeholder f.2)) ++ rest

variable {finds : List (List Char × List Char)}

theorem refill_cons (fill : Segment → List Char) (gap inner : List Char) :
    refill fill ((gap, inner) :: finds) rest =
      gap ++ fill (.placeholder inner) ++ refill fill finds rest := by
  simp [refill]

theorem exists_pairSearch (cs : List Char) : ∃ finds rest, PairSearch cs finds rest := by
  classical
  induction hn : cs.length using Nat.strongRecOn generalizing cs with
  | _ n ih =>
    subst hn
    by_cases hpair : ∃ n before inner after, BracePair cs before inner after ∧ before.length = n
    · obtain ⟨before, inner, after, h, hlength⟩ := Nat.find_spec hpair
      have hlt : after.length < cs.length := by
        rw [h.text_eq]
        simp only [List.length_append, List.length_cons]
        omega
      obtain ⟨finds, rest, hrest⟩ := ih _ hlt after rfl
      refine ⟨_, _, .next h (fun before' inner' after' h' => ?_) hrest⟩
      rw [hlength]
      exact Nat.find_min' hpair ⟨before', inner', after', h', rfl⟩
    · exact ⟨[], cs, .nothing fun before inner after h => hpair ⟨_, before, inner, after, h, rfl⟩⟩

/-- The parts of a text are the pairs that a search finds and the characters between them. -/
theorem PairSearch.segments_eq (h : PairSearch cs finds rest) :
    segments cs = finds.flatMap (fun f => literals f.1 ++ [.placeholder f.2]) ++ literals rest := by
  induction h with
  | nothing h => exact segments_eq_literals h
  | @next cs before inner after rest finds h hfirst _ ih =>
    have hbefore : segments before = literals before := by
      refine segments_eq_literals fun before' inner' after' h' => ?_
      obtain ⟨rfl, hne, hbraces⟩ := h'
      have hle := hfirst before' inner' (after' ++ '{' :: inner ++ '}' :: after)
        ⟨by rw [h.text_eq]; simp, hne, hbraces⟩
      simp only [List.length_append, List.length_cons] at hle
      omega
    rw [h.segments_eq, hbefore, ih]
    simp

theorem PairSearch.flatMap_segments {fill : Segment → List Char} (hfill : ∀ c, fill (.literal c) = [c])
    (h : PairSearch cs finds rest) : (segments cs).flatMap fill = refill fill finds rest := by
  have hliterals (cs : List Char) : (literals cs).flatMap fill = cs := by
    induction cs with
    | nil => rfl
    | cons c cs ih => rw [literals, List.map_cons, List.flatMap_cons, ← literals, ih, hfill]; rfl
  rw [h.segments_eq, List.flatMap_append, hliterals, List.flatMap_assoc, refill]
  simp [hliterals]

theorem PairSearch.text_eq (h : PairSearch cs finds rest) : cs = refill Segment.written finds rest := by
  rw [← h.flatMap_segments fun _ => rfl, written_segments]

/-- A search finds all pairs. -/
theorem PairSearch.bracePair_iff (h : PairSearch cs finds rest) : BracePair cs before inner after ↔
    ∃ earlier gap later, finds = earlier ++ (gap, inner) :: later ∧
      before = refill Segment.written earlier gap ∧ after = refill Segment.written later rest := by
  induction h generalizing before with
  | nothing h => simp [h]
  | @next cs first content behind rest finds h hfirst hrest ih =>
    constructor
    · intro h'
      rcases h.eq_or_behind h' (hfirst _ _ _ h') with ⟨rfl, rfl, rfl⟩ | ⟨between, rfl, h''⟩
      · exact ⟨[], before, finds, rfl, rfl, hrest.text_eq⟩
      · obtain ⟨earlier, gap, later, rfl, rfl, rfl⟩ := ih.1 h''
        exact ⟨(first, content) :: earlier, gap, later, rfl, by simp [refill_cons, Segment.written], rfl⟩
    · rintro ⟨earlier, gap, later, hfinds, rfl, rfl⟩
      cases earlier with
      | nil =>
        cases hfinds
        rw [← hrest.text_eq]
        simpa [refill] using h
      | cons f earlier =>
        obtain ⟨rfl, rfl⟩ := List.cons.inj hfinds
        obtain ⟨heq, hne, hbraces⟩ := ih.2 ⟨earlier, gap, later, rfl, rfl, rfl⟩
        refine ⟨?_, hne, hbraces⟩
        rw [h.text_eq, heq, refill_cons]
        simp [Segment.written]

/-! ## The ids that a text cites -/

/-- Without its repetitions a list has its members in the order in which they come first. -/
theorem pairwise_eraseDups {α : Type} [BEq α] [LawfulBEq α] (xs : List α) :
    xs.eraseDups.Pairwise fun a b => ∃ earlier later, xs = earlier ++ a :: later ∧ b ∉ earlier ∧ b ≠ a := by
  induction hn : xs.length using Nat.strongRecOn generalizing xs with
  | _ n ih =>
    subst hn
    cases xs with
    | nil => simp
    | cons x xs =>
      rw [List.eraseDups_cons, List.pairwise_cons]
      have hne {b : α} (hb : b ∈ (xs.filter fun y => !y == x).eraseDups) : b ≠ x := by
        simpa using (List.mem_filter.1 (List.mem_eraseDups.1 hb)).2
      refine ⟨fun b hb => ⟨[], xs, rfl, List.not_mem_nil, hne hb⟩, ?_⟩
      have htail := ih _ (Nat.lt_succ_of_le (List.length_filter_le _ _)) (xs.filter fun y => !y == x) rfl
      refine htail.imp_of_mem fun {a b} _ hb h => ?_
      obtain ⟨earlier, later, hfilter, hnot, hba⟩ := h
      obtain ⟨before, behind, rfl, rfl, hbehind⟩ := List.filter_eq_append_iff.1 hfilter
      obtain ⟨skipped, later', rfl, hskipped, -, -⟩ := List.filter_eq_cons_iff.1 hbehind
      refine ⟨x :: (before ++ skipped), later', by simp, ?_, hba⟩
      have hbx := hne hb
      simp only [List.mem_cons, List.mem_append, not_or]
      refine ⟨hbx, fun hmem => hnot (List.mem_filter.2 ⟨hmem, by simpa using hbx⟩), fun hmem => ?_⟩
      exact hskipped b hmem (by simpa using hbx)

/-- A pair of braces that opens at the `n`-th character of the text cites the id. -/
def CitedAt (s id : String) (n : Nat) : Prop :=
  ∃ before inner after, BracePair s.toList before inner after ∧ before.length = n ∧ Segment.idOf inner = id

theorem mem_placeholderIds_iff_citedAt {id : String} : id ∈ placeholderIds s ↔ ∃ n, CitedAt s id n := by
  rw [mem_placeholderIds]
  constructor
  · rintro ⟨inner, hinner, rfl⟩
    obtain ⟨earlier, later, hsplit⟩ := List.append_of_mem hinner
    exact ⟨_, _, inner, _, bracePair_of_segments_eq hsplit, rfl, rfl⟩
  · rintro ⟨n, before, inner, after, h, -, rfl⟩
    exact ⟨inner, by simp [h.segments_eq], rfl⟩

theorem PairSearch.placeholderIds_eq (h : PairSearch s.toList finds rest) :
    placeholderIds s = (finds.map fun f => Segment.idOf f.2).eraseDups := by
  have hliterals (cs : List Char) : (literals cs).filterMap Segment.id? = [] := by
    simp [literals, Segment.id?]
  rw [placeholderIds, h.segments_eq, List.filterMap_append, hliterals, List.append_nil]
  congr 1
  clear h
  induction finds with
  | nil => rfl
  | cons f finds ih => simp [hliterals, Segment.id?, ih]

/-- The ids stand in the order of the pairs that cite them first. -/
theorem pairwise_placeholderIds (s : String) :
    (placeholderIds s).Pairwise fun a b => ∃ n, CitedAt s a n ∧ ∀ m, CitedAt s b m → n < m := by
  obtain ⟨finds, rest, h⟩ := exists_pairSearch s.toList
  rw [h.placeholderIds_eq]
  refine (pairwise_eraseDups _).imp fun {a b} hab => ?_
  obtain ⟨before, behind, hids, hb, hba⟩ := hab
  obtain ⟨earlier, found, rfl, rfl, hfound⟩ := List.map_eq_append_iff.1 hids
  obtain ⟨⟨gap, inner⟩, later, rfl, rfl, -⟩ := List.map_eq_cons_iff.1 hfound
  refine ⟨_, ⟨_, inner, _, h.bracePair_iff.2 ⟨earlier, gap, later, rfl, rfl, rfl⟩, rfl, rfl⟩, ?_⟩
  rintro m ⟨_, inner', _, h', rfl, rfl⟩
  obtain ⟨earlier', gap', later', hfinds, rfl, -⟩ := h.bracePair_iff.1 h'
  rcases List.append_eq_append_iff.1 hfinds with ⟨more, rfl, hmore⟩ | ⟨more, rfl, hmore⟩
  · cases more with
    | nil =>
      cases hmore
      exact absurd rfl hba
    | cons f more =>
      obtain ⟨rfl, -⟩ := List.cons.inj hmore
      simp [refill, Segment.written]
  · cases more with
    | nil =>
      cases hmore
      exact absurd rfl hba
    | cons f more =>
      obtain ⟨rfl, -⟩ := List.cons.inj hmore
      simp at hb

/-! ## What stands in the place of a pair -/

theorem citesOnly_iff {id : String} :
    CitesOnly s id ↔ ∃ inner, BracePair s.toList [] inner [] ∧ Segment.idOf inner = id := by
  constructor
  · rintro ⟨inner, heq, hne, hbraces, hid⟩
    exact ⟨inner, ⟨heq, hne, hbraces⟩, hid⟩
  · rintro ⟨inner, ⟨heq, hne, hbraces⟩, hid⟩
    exact ⟨inner, heq, hne, hbraces, hid⟩

theorem citesOnly_of_segments_eq (h : segments s.toList = [.placeholder inner]) :
    CitesOnly s (Segment.idOf inner) := by
  have hsplit : segments s.toList = [] ++ .placeholder inner :: [] := h
  exact citesOnly_iff.2 ⟨inner, bracePair_of_segments_eq hsplit, rfl⟩

theorem asText_substituteText (lookup : String → Option TokenValue) (s : String) :
    (substituteText lookup s).asText = expandAll lookup (segments s.toList) := by
  unfold substituteText
  split
  · rename_i inner hs
    rw [hs, expandAll, List.flatMap_singleton, Segment.expand]
    cases lookup (Segment.idOf inner) with
    | none =>
      have hwritten := written_segments s.toList
      rw [hs, List.flatMap_singleton] at hwritten
      simp [TokenValue.asText, hwritten]
    | some v => simp
  · rfl

theorem substituteText_eq_text (h : ∀ id, CitesOnly s id → lookup id = none) :
    substituteText lookup s = .text (expandAll lookup (segments s.toList)) := by
  rw [← asText_substituteText]
  unfold substituteText
  split
  · rename_i inner hs
    rw [h _ (citesOnly_of_segments_eq hs)]
    rfl
  · rfl

/-- A pair is replaced on its own, whatever stands around it. -/
theorem BracePair.asText_substituteText (h : BracePair s.toList before inner after)
    (lookup : String → Option TokenValue) : (substituteText lookup s).asText =
      (substituteText lookup (String.ofList before)).asText ++
        String.ofList (Segment.expand lookup (.placeholder inner)) ++
          (substituteText lookup (String.ofList after)).asText := by
  simp only [DesignTokens.asText_substituteText, expandAll, String.toList_ofList, h.segments_eq,
    List.flatMap_append, List.flatMap_cons, String.ofList_append, String.append_assoc]

/-- A search finds the placeholders of a text: they are the pairs of braces in it. The ids are what stands
between these without the blanks around it, and each pair that cites an id with a value is replaced by the
text of that value; all other characters stay. -/
theorem placeholders_found (s : String) :
    (∃ finds rest, PairSearch s.toList finds rest) ∧ ∀ finds rest, PairSearch s.toList finds rest →
      (segments s.toList = finds.flatMap (fun f => literals f.1 ++ [.placeholder f.2]) ++ literals rest ∧
        s.toList = refill Segment.written finds rest) ∧
      (∀ before inner after, BracePair s.toList before inner after ↔ ∃ earlier gap later,
        finds = earlier ++ (gap, inner) :: later ∧ before = refill Segment.written earlier gap ∧
          after = refill Segment.written later rest) ∧
      ((∀ id, id ∈ placeholderIds s ↔ ∃ n, CitedAt s id n) ∧ (placeholderIds s).Nodup ∧
        (placeholderIds s).Pairwise fun a b => ∃ n, CitedAt s a n ∧ ∀ m, CitedAt s b m → n < m) ∧
      ∀ lookup, composite? s = none → (∀ id, CitesOnly s id → lookup id = none) →
        substitute lookup (.text s) = .text (String.ofList (refill (Segment.expand lookup) finds rest)) := by
  have hfirst := pairwise_placeholderIds s
  have hnodup : (placeholderIds s).Nodup := by
    refine hfirst.imp ?_
    rintro a _ ⟨n, hn, hlt⟩ rfl
    exact absurd (hlt n hn) (Nat.lt_irrefl n)
  refine ⟨exists_pairSearch s.toList, fun finds rest h => ⟨⟨h.segments_eq, h.text_eq⟩,
    fun _ _ _ => h.bracePair_iff, ⟨fun _ => mem_placeholderIds_iff_citedAt, hnodup, hfirst⟩,
    fun lookup hplain honly => ?_⟩⟩
  rw [substitute, hplain]
  show substituteText lookup s = _
  rw [substituteText_eq_text honly, expandAll, h.flatMap_segments fun _ => rfl]

/-- Braces that open twice, have nothing between them, or are not closed. -/
def looseText : String := "x\x7b{a} \x7b\x7d{ b }{a}\x7bc"

/-- Only the first of two ids has a value. -/
def onlyA (id : String) : Option TokenValue := if id = "a" then some (.number 4) else none

theorem placeholders_found_looseText : ∃ finds rest, PairSearch looseText.toList finds rest ∧
    placeholderIds looseText = ["a", "b"] ∧ composite? looseText = none ∧
    (∀ id, CitesOnly looseText id → onlyA id = none) ∧
    substitute onlyA (.text looseText) = .text (String.ofList (refill (Segment.expand onlyA) finds rest)) ∧
    substitute onlyA (.text looseText) = .text "x\x7b4 \x7b\x7d{ b }4\x7bc" := by
  obtain ⟨⟨finds, rest, h⟩, hall⟩ := placeholders_found looseText
  obtain ⟨-, -, -, hfilled⟩ := hall finds rest h
  have hplain : composite? looseText = none := by
    rw [← Option.isNone_iff_eq_none]
    decide +kernel
  have honly : ∀ id, CitesOnly looseText id → onlyA id = none := by
    rintro id ⟨inner, heq, -⟩
    have hhead : looseText.toList.head? = some '{' := by rw [heq]; rfl
    exact absurd hhead (by decide +kernel)
  exact ⟨finds, rest, h, by decide +kernel, hplain, honly, hfilled onlyA hplain honly, by decide +kernel⟩

/-- Substitution reads the cited ids and no others. In a text that is not that of an array or object it
reads each of them: the value is used at every pair of braces that cites the id. -/
theorem substitute_reads_refs (raw : TokenValue) :
    (∀ f g : String → Option TokenValue, (∀ id ∈ raw.refs, f id = g id) →
      substitute f raw = substitute g raw) ∧
    ∀ s, raw = .text s → composite? s = none →
      (∀ lookup : String → Option TokenValue, (∀ id ∈ raw.refs, lookup id = none) →
        substitute lookup raw = raw) ∧
      ∀ id ∈ raw.refs, (∃ n, CitedAt s id n) ∧
        ∀ (lookup : String → Option TokenValue) v, lookup id = some v →
          ∀ before inner after, BracePair s.toList before inner after → Segment.idOf inner = id →
            substitute lookup raw = if before = [] ∧ after = [] then v else
              .text ((substituteText lookup (String.ofList before)).asText ++ v.asText ++
                (substituteText lookup (String.ofList after)).asText) := by
  refine ⟨fun f g => substitute_congr, ?_⟩
  rintro s rfl hplain
  have hrefs : (TokenValue.text s).refs = placeholderIds s := by rw [TokenValue.refs, hplain]
  refine ⟨fun lookup hnone => ?_, fun id hid => ⟨?_, ?_⟩⟩
  · rw [substitute_congr hnone, substitute_none]
    exact TokenValue.printed_of_document?_eq_none hplain
  · exact mem_placeholderIds_iff_citedAt.1 (hrefs ▸ hid)
  · rintro lookup v hv before inner after h rfl
    split
    · rename_i hwhole
      obtain ⟨rfl, rfl⟩ := hwhole
      exact substitute_placeholder (citesOnly_iff.2 ⟨inner, h, rfl⟩) hplain hv
    · rename_i hpart
      have honly : ∀ id, ¬ CitesOnly s id := by
        intro id honly
        obtain ⟨inner', h', -⟩ := citesOnly_iff.1 honly
        rcases h'.eq_or_behind h (Nat.zero_le _) with ⟨rfl, -, rfl⟩ | ⟨between, -, hbehind⟩
        · exact hpart ⟨rfl, rfl⟩
        · simpa using hbehind.text_eq
      have hvalue : String.ofList (Segment.expand lookup (.placeholder inner)) = v.asText := by
        rw [Segment.expand, hv]
        exact String.ofList_toList
      rw [substitute, hplain]
      show substituteText lookup s = _
      rw [substituteText_eq_text fun id hid => absurd hid (honly id), ← asText_substituteText,
        h.asText_substituteText, hvalue]

/-- An id that the text does not cite has a value. -/
def onlyC (id : String) : Option TokenValue := if id = "c" then some (.text "4px") else none

theorem substitute_reads_refs_looseText :
    (TokenValue.text looseText).refs = ["a", "b"] ∧ composite? looseText = none ∧
    substitute (fun id => (onlyA id).or (onlyC id)) (.text looseText) = substitute onlyA (.text looseText) ∧
    substitute onlyC (.text looseText) = .text looseText ∧
    BracePair looseText.toList "x\x7b".toList ['a'] " \x7b\x7d{ b }{a}\x7bc".toList ∧
    substitute onlyA (.text looseText) = .text ((substituteText onlyA "x\x7b").asText ++ "4" ++
      (substituteText onlyA " \x7b\x7d{ b }{a}\x7bc").asText) := by
  have hrefs : (TokenValue.text looseText).refs = ["a", "b"] := by decide +kernel
  have hplain : composite? looseText = none := by
    rw [← Option.isNone_iff_eq_none]
    decide +kernel
  have hpair : BracePair looseText.toList "x\x7b".toList ['a'] " \x7b\x7d{ b }{a}\x7bc".toList :=
    ⟨by decide +kernel, by simp, by simp⟩
  obtain ⟨hagree, hall⟩ := substitute_reads_refs (.text looseText)
  obtain ⟨hnone, hread⟩ := hall looseText rfl hplain
  obtain ⟨-, hpairs⟩ := hread "a" (by simp [hrefs])
  have hfilled := hpairs onlyA (.number 4) (by decide) _ _ _ hpair (by decide +kernel)
  rw [if_neg (by decide +kernel), String.ofList_toList, String.ofList_toList] at hfilled
  have hfour : (TokenValue.number 4).asText = "4" := by decide +kernel
  rw [hfour] at hfilled
  refine ⟨hrefs, hplain, hagree _ _ ?_, hnone onlyC ?_, hpair, hfilled⟩
  all_goals
    rw [hrefs]
    decide

end DesignTokens
