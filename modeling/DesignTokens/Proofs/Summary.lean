import DesignTokens.Proofs.Report
import Mathlib.Algebra.BigOperators.Group.List.Lemmas
import Mathlib.Algebra.GroupWithZero.Nat

/-!
# What a summary says

* `i.Under tag` : an issue is counted under its tag, or under `*` if it has none;
* `tally issues tag` : the numbers of errors and warnings among the issues under a tag;
* `summarize_concat` : one issue more changes the numbers of its tag only. So a summary holds the tally of each
  tag under which there is some issue (`get?_summarize`), and from that: the order of the issues does not
  matter (`summarize_perm`), the numbers of two lists are added (`get?_summarize_append`), and they sum up to the
  number of issues (`sum_total_summarize`);
* `validate_summary` : the verdict, the issues and the summary of a report agree.
-/

namespace DesignTokens

variable {issues : List Issue} {i : Issue} {tag : String}

/-! ## Numbers of issues -/

namespace LevelCounts

def add (c d : LevelCounts) : LevelCounts := ⟨c.errors + d.errors, c.warnings + d.warnings⟩

theorem zero_add (c : LevelCounts) : add .zero c = c := by
  simp [add, zero]

def total (c : LevelCounts) : Nat := c.errors + c.warnings

end LevelCounts

/-- The issue has the tag, or it has none and the tag is `*`. -/
def Issue.Under (tag : String) (i : Issue) : Prop := i.tag = some tag ∨ i.tag = none ∧ tag = "*"

instance (tag : String) (i : Issue) : Decidable (i.Under tag) :=
  inferInstanceAs (Decidable (_ ∨ _))

theorem exists_under_append {xs ys : List Issue} : (∃ i ∈ xs ++ ys, i.Under tag) ↔
    (∃ i ∈ xs, i.Under tag) ∨ ∃ i ∈ ys, i.Under tag := by
  simp only [List.mem_append, or_and_right, exists_or]

theorem Issue.summaryTag_eq_iff : i.summaryTag = tag ↔ i.Under tag := by
  unfold summaryTag Under
  cases i.tag <;> simp [eq_comm]

/-- The numbers of errors and warnings under a tag. -/
def tally (issues : List Issue) (tag : String) : LevelCounts :=
  ⟨issues.countP fun i => i.level = .error ∧ i.Under tag, issues.countP fun i => i.level = .warn ∧ i.Under tag⟩

theorem tally_append (xs ys : List Issue) (tag : String) :
    tally (xs ++ ys) tag = (tally xs tag).add (tally ys tag) := by
  unfold tally LevelCounts.add
  rw [List.countP_append, List.countP_append]

theorem tally_concat (issues : List Issue) (i : Issue) (tag : String) : tally (issues ++ [i]) tag =
    if i.Under tag then (tally issues tag).count i.level else tally issues tag := by
  rw [tally_append]
  unfold tally LevelCounts.add LevelCounts.count
  by_cases h : i.Under tag
  · cases hl : i.level <;> simp [h, hl]
  · simp [h]

theorem tally_eq_zero (h : ¬ ∃ i ∈ issues, i.Under tag) : tally issues tag = .zero := by
  have hcount (p : Issue → Prop) [DecidablePred p] : (issues.countP fun i => p i ∧ i.Under tag) = 0 :=
    List.countP_eq_zero.2 fun i hi hp => h ⟨i, hi, (of_decide_eq_true hp).2⟩
  unfold tally
  rw [hcount, hcount]
  rfl

theorem tally_perm {xs ys : List Issue} (h : xs.Perm ys) (tag : String) : tally xs tag = tally ys tag := by
  unfold tally
  rw [h.countP_eq, h.countP_eq]

theorem total_tally (issues : List Issue) (tag : String) :
    (tally issues tag).total = (issues.map Issue.summaryTag).count tag := by
  induction issues using List.reverseRecOn with
  | nil => rfl
  | append_singleton issues i ih =>
    rw [tally_concat, List.map_append, List.count_append, ← ih, List.map_singleton, List.count_singleton]
    by_cases h : i.Under tag
    · unfold LevelCounts.total LevelCounts.count
      cases hl : i.level <;> simp [h, Issue.summaryTag_eq_iff] <;> omega
    · simp [h, Issue.summaryTag_eq_iff]

/-! ## Summaries -/

theorem summarize_concat (issues : List Issue) (i : Issue) :
    summarize (issues ++ [i]) = (summarize issues).adjust i.summaryTag .zero (LevelCounts.count · i.level) :=
  List.foldl_concat ..

theorem mem_keys_summarize : tag ∈ (summarize issues).keys ↔ ∃ i ∈ issues, i.Under tag := by
  induction issues using List.reverseRecOn with
  | nil =>
    show tag ∈ (∅ : SortedMap String LevelCounts).keys ↔ _
    simp [SortedMap.mem_keys]
  | append_singleton issues i ih =>
    rw [summarize_concat, SortedMap.adjust, SortedMap.mem_keys_insert, ih, eq_comm, Issue.summaryTag_eq_iff,
      exists_under_append, or_comm]
    simp only [List.mem_singleton, exists_eq_left]

theorem getD_summarize (issues : List Issue) (tag : String) :
    ((summarize issues).get? tag).getD .zero = tally issues tag := by
  induction issues using List.reverseRecOn with
  | nil => rfl
  | append_singleton issues i ih =>
    rw [summarize_concat, tally_concat, SortedMap.get?_adjust]
    by_cases h : i.summaryTag = tag
    · subst h
      simp [Issue.summaryTag_eq_iff.1 rfl, ih]
    · simp [mt Issue.summaryTag_eq_iff.2 h, Ne.symm h, ih]

/-- A summary has the tags of the issues, each with its numbers. -/
theorem get?_summarize (issues : List Issue) (tag : String) : (summarize issues).get? tag =
    if ∃ i ∈ issues, i.Under tag then some (tally issues tag) else none := by
  split_ifs with h
  · obtain ⟨c, hc⟩ := Option.isSome_iff_exists.1 ((summarize issues).mem_keys.1 (mem_keys_summarize.2 h))
    rw [← getD_summarize, hc]
    rfl
  · exact (summarize issues).get?_eq_none.2 (mt mem_keys_summarize.1 h)

theorem summarize_perm {xs ys : List Issue} (h : xs.Perm ys) : summarize xs = summarize ys :=
  SortedMap.ext_get? fun tag => by
    simp only [get?_summarize, tally_perm h tag, h.mem_iff]

theorem get?_summarize_append (xs ys : List Issue) (tag : String) : (summarize (xs ++ ys)).get? tag =
    Option.merge .add ((summarize xs).get? tag) ((summarize ys).get? tag) := by
  -- a list without issues under the tag has no entry, which the zero of its tally makes up for
  simp only [get?_summarize, tally_append, exists_under_append]
  by_cases hx : ∃ i ∈ xs, i.Under tag
  · by_cases hy : ∃ i ∈ ys, i.Under tag
    · rw [if_pos (.inl hx), if_pos hx, if_pos hy]
      rfl
    · rw [if_pos (.inl hx), if_pos hx, if_neg hy, tally_eq_zero hy]
      rfl
  · by_cases hy : ∃ i ∈ ys, i.Under tag
    · rw [if_pos (.inr hy), if_neg hx, if_pos hy, tally_eq_zero hx, LevelCounts.zero_add]
      rfl
    · rw [if_neg (not_or.2 ⟨hx, hy⟩), if_neg hx, if_neg hy]
      rfl

/-! ## The numbers of all tags -/

theorem values_summarize (issues : List Issue) :
    (summarize issues).values = (summarize issues).keys.map (tally issues) := by
  unfold SortedMap.values SortedMap.keys
  rw [List.map_map]
  refine List.map_congr_left fun e he => ?_
  show e.2 = tally issues e.1
  rw [← getD_summarize, (summarize issues).get?_eq_some.2 he]
  rfl

theorem sum_total_summarize (issues : List Issue) :
    ((summarize issues).values.map LevelCounts.total).sum = issues.length := by
  let tags := issues.map Issue.summaryTag
  have hkeys : (summarize issues).keys.Perm tags.dedup := by
    refine (List.perm_ext_iff_of_nodup (summarize issues).nodup_keys tags.nodup_dedup).2 fun tag => ?_
    rw [mem_keys_summarize, List.mem_dedup, List.mem_map]
    simp only [Issue.summaryTag_eq_iff]
  calc ((summarize issues).values.map LevelCounts.total).sum
      = ((summarize issues).keys.map (tags.count ·)).sum := by
        rw [values_summarize, List.map_map]
        exact congrArg List.sum (List.map_congr_left fun tag _ => total_tally issues tag)
    _ = (tags.dedup.map (tags.count ·)).sum := (hkeys.map _).sum_nat
    _ = tags.length := List.sum_map_count_dedup_eq_length tags
    _ = issues.length := List.length_map _

theorem errors_summarize_eq_zero :
    (∀ counts ∈ (summarize issues).values, counts.errors = 0) ↔ ∀ i ∈ issues, i.level ≠ .error := by
  rw [values_summarize, List.forall_mem_map]
  simp only [tally, List.countP_eq_zero, decide_eq_true_eq, not_and]
  constructor
  · intro h i hi hlevel
    have hunder : i.Under i.summaryTag := Issue.summaryTag_eq_iff.1 rfl
    exact h i.summaryTag (mem_keys_summarize.2 ⟨i, hi, hunder⟩) i hi hlevel hunder
  · intro h tag _ i hi hlevel
    exact absurd hlevel (h i hi)

/-! ## Reports -/

/-- A report has the issues of all rules. Its summary tells the numbers of issues under each tag, and it is
valid if no tag has errors. -/
theorem validate_summary (rs : RuleSet) {tree : Json} {r : Resolution} (h : resolve tree = .ok r) :
    (∃ report, validate rs tree = .ok report ∧
      report.issues = ((Engine.ofResolution r).register rs.checkers).evaluateAll ∧
      (∀ tag, (report.summary.get? tag).getD .zero =
        ⟨report.issues.countP fun i => i.level = .error ∧ i.Under tag,
          report.issues.countP fun i => i.level = .warn ∧ i.Under tag⟩) ∧
      (∀ tag, tag ∈ report.summary.keys ↔ ∃ i ∈ report.issues, i.Under tag) ∧
      (report.summary.values.map LevelCounts.total).sum = report.issues.length ∧
      (report.valid = true ↔ ∀ counts ∈ report.summary.values, counts.errors = 0)) ∧
    (∀ xs ys : List Issue, xs.Perm ys → summarize xs = summarize ys) ∧
    ∀ (xs ys : List Issue) (tag : String), (summarize (xs ++ ys)).get? tag =
      Option.merge .add ((summarize xs).get? tag) ((summarize ys).get? tag) := by
  refine ⟨⟨_, validate_eq_ok (buildEngine_eq_ok.2 ⟨r, h, rfl⟩), rfl, getD_summarize _,
    fun _ => mem_keys_summarize, sum_total_summarize _, ?_⟩, fun _ _ => summarize_perm, get?_summarize_append⟩
  rw [errors_summarize_eq_zero]
  simp [Issue.isError]

/-- Rules of which two fail, one without a tag, and one cannot be checked. -/
def taggedRules : RuleSet :=
  { RuleSet.empty with thresholds :=
      [⟨"a", .atLeast, some 24, none, some "*"⟩, ⟨"b", .atLeast, some 24, none, none⟩,
        ⟨"c", .atLeast, none, none, some "md"⟩] }

/-- The issue without a tag is counted with the one whose tag is `*`. -/
theorem validate_summary_taggedRules : (∃ r, resolve aliasChain = .ok r) ∧
    ∃ report, validate taggedRules aliasChain = .ok report ∧ report.valid = false ∧
      (report.summary.get? "*").getD .zero = ⟨2, 0⟩ ∧ (report.summary.get? "md").getD .zero = ⟨0, 1⟩ ∧
      (report.summary.values.map LevelCounts.total).sum = 3 := by
  obtain ⟨r, h, hall, hmedium, hlength⟩ : ∃ r, resolve aliasChain = .ok r ∧
      tally ((Engine.ofResolution r).register taggedRules.checkers).evaluateAll "*" = ⟨2, 0⟩ ∧
      tally ((Engine.ofResolution r).register taggedRules.checkers).evaluateAll "md" = ⟨0, 1⟩ ∧
      ((Engine.ofResolution r).register taggedRules.checkers).evaluateAll.length = 3 :=
    exists_eq_ok_and (by decide +kernel)
  obtain ⟨⟨report, hreport, hissues, hcounts, -, htotal, hvalid⟩, -⟩ := validate_summary taggedRules h
  rw [← hissues] at hall hmedium hlength
  have hget : (report.summary.get? "*").getD .zero = ⟨2, 0⟩ := (hcounts "*").trans hall
  refine ⟨⟨r, h⟩, report, hreport, ?_, hget, (hcounts "md").trans hmedium, htotal.trans hlength⟩
  rw [Bool.eq_false_iff, ne_eq, hvalid]
  intro hnone
  cases hstar : report.summary.get? "*" with
  | none => simp [hstar, LevelCounts.zero] at hget
  | some counts =>
    have hmem : ("*", counts) ∈ report.summary.entries := report.summary.get?_eq_some.1 hstar
    have hzero : counts.errors = 0 := hnone counts (List.mem_map_of_mem hmem)
    obtain rfl : counts = ⟨2, 0⟩ := by simpa [hstar] using hget
    exact absurd hzero (by decide)

end DesignTokens
