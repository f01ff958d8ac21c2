import DesignTokens.Proofs.Rule.Participants

/-!
# What a check of some candidates examines

* `c.raised view candidates` : the issues of a checker, each with the rule that raises it;
* `Checker.raised_of_subset` : with fewer candidates the same rules raise the same issues, those left
  out that have no participant among the candidates;
* `Checker.evaluate_of_subset` : so the issues are part of those with more candidates, and they depend
  only on the values of the participants of the rules that are examined.
-/

namespace DesignTokens

namespace Checker

variable {c : Checker} {view f g : View} {few many candidates : List String} {r : Rule} {i : Issue}

/-- The issues of the rules of which some participant is a candidate, each with its rule. -/
def raised (view : View) (candidates : List String) (c : Checker) : List (Rule × Issue) :=
  (c.rules.filter fun r => touches candidates r.participants).filterMap fun r =>
    (r.check view).map fun i => (r, i)

theorem map_snd_raised (view : View) (candidates : List String) (c : Checker) :
    (c.raised view candidates).map Prod.snd = c.evaluate view candidates := by
  have hcheck : (fun r : Rule => ((r.check view).map fun i => (r, i)).map Prod.snd) = Rule.check view := by
    funext r
    rw [Option.map_map]
    exact Option.map_id'
  unfold raised evaluate
  rw [List.map_filterMap, hcheck]

theorem mem_raised : (r, i) ∈ c.raised view candidates ↔
    r ∈ c.rules ∧ (∃ x ∈ r.participants, x ∈ candidates) ∧ r.check view = some i := by
  unfold raised
  rw [List.mem_filterMap]
  constructor
  · rintro ⟨r', hr', hi⟩
    obtain ⟨hrule, htouches⟩ := List.mem_filter.1 hr'
    obtain ⟨i', hcheck, heq⟩ := Option.map_eq_some_iff.1 hi
    cases heq
    exact ⟨hrule, touches_iff.1 htouches, hcheck⟩
  · rintro ⟨hrule, hmeets, hcheck⟩
    exact ⟨r, List.mem_filter.2 ⟨hrule, touches_iff.2 hmeets⟩, by rw [hcheck]; rfl⟩

theorem touches_mono {participants : List String} (h : few ⊆ many)
    (hfew : touches few participants = true) : touches many participants = true := by
  obtain ⟨x, hx, hmem⟩ := touches_iff.1 hfew
  exact touches_iff.2 ⟨x, hx, h hmem⟩

theorem raised_of_subset (h : few ⊆ many) (view : View) (c : Checker) :
    c.raised view few = (c.raised view many).filter fun p => touches few p.1.participants := by
  unfold raised
  rw [List.filter_filterMap, List.filterMap_filter, List.filterMap_filter]
  refine List.filterMap_congr fun r _ => ?_
  cases hfew : touches few r.participants with
  | true =>
    rw [touches_mono h hfew]
    cases r.check view with
    | none => rfl
    | some i => simp [Option.filter, hfew]
  | false =>
    cases r.check view with
    | none => simp
    | some i => simp [Option.filter, hfew]

/-- The rules that are examined read nothing but the values of their participants. -/
theorem evaluate_congr
    (h : ∀ r ∈ c.rules, (∃ x ∈ r.participants, x ∈ candidates) → ∀ x ∈ r.participants, f x = g x) :
    c.evaluate f candidates = c.evaluate g candidates := by
  unfold evaluate
  refine List.filterMap_congr fun r hr => ?_
  obtain ⟨hrule, htouches⟩ := List.mem_filter.1 hr
  exact Rule.check_congr (h r hrule (touches_iff.1 htouches))

theorem evaluate_eq_nil (h : ∀ r ∈ c.rules, ∀ x ∈ r.participants, x ∉ candidates) :
    c.evaluate view candidates = [] := by
  rw [← map_snd_raised, List.map_eq_nil_iff, List.eq_nil_iff_forall_not_mem]
  rintro ⟨r, i⟩ hmem
  obtain ⟨hrule, ⟨x, hx, hcandidate⟩, -⟩ := mem_raised.1 hmem
  exact h r hrule x hx hcandidate

theorem evaluate_of_subset (c : Checker) (h : few ⊆ many) :
    (∀ view, (c.raised view many).map Prod.snd = c.evaluate view many ∧
      c.evaluate view few =
        ((c.raised view many).filter fun p => ∃ x ∈ p.1.participants, x ∈ few).map Prod.snd ∧
      (c.evaluate view few).Sublist (c.evaluate view many) ∧
      ((∀ r ∈ c.rules, ∀ x ∈ r.participants, x ∉ few) → c.evaluate view few = []) ∧
      ∀ r i, (r, i) ∈ c.raised view many ↔
        r ∈ c.rules ∧ (∃ x ∈ r.participants, x ∈ many) ∧ r.check view = some i) ∧
    ∀ f g : View,
      (∀ r ∈ c.rules, (∀ x ∈ r.participants, f x = g x) → r.check f = r.check g) ∧
      ((∀ r ∈ c.rules, (∃ x ∈ r.participants, x ∈ few) → ∀ x ∈ r.participants, f x = g x) →
        c.evaluate f few = c.evaluate g few) := by
  refine ⟨fun view => ⟨map_snd_raised view many c, ?_, ?_, evaluate_eq_nil, fun r i => mem_raised⟩,
    fun f g => ⟨fun r _ => Rule.check_congr, evaluate_congr⟩⟩
  · have hmeets : (fun p : Rule × Issue => touches few p.1.participants) =
        fun p => decide (∃ x ∈ p.1.participants, x ∈ few) := by
      funext p
      rw [Bool.eq_iff_iff, touches_iff, decide_eq_true_iff]
    rw [← map_snd_raised view few, raised_of_subset h, hmeets]
  · rw [← map_snd_raised view few, ← map_snd_raised view many, raised_of_subset h]
    exact List.filter_sublist.map Prod.snd

def iconChecker : Checker :=
  .threshold Limits.default [.fixed "icon" .atLeast 24.0, .computed "icon" .atMost (.ref "base")]

/-- Two sizes, of which the first one is too small for the rules. -/
def iconView : View := (SortedMap.ofList [("base", .text "8px"), ("icon", .text "1rem")]).get?

/-- The first rule does not depend on the base, so a check of the base leaves it out. -/
theorem evaluate_of_subset_icon : ["base"] ⊆ ["base", "icon"] ∧
    (iconChecker.evaluate iconView ["base", "icon"]).length = 2 ∧
    (iconChecker.evaluate iconView ["base"]).Sublist (iconChecker.evaluate iconView ["base", "icon"]) ∧
    (iconChecker.evaluate iconView ["base"]).map Issue.id = ["icon|base"] := by
  have h : ["base"] ⊆ ["base", "icon"] := by decide
  obtain ⟨-, -, hsublist, -⟩ := (evaluate_of_subset iconChecker h).1 iconView
  exact ⟨h, by decide +kernel, hsublist, by decide +kernel⟩

end Checker

end DesignTokens
