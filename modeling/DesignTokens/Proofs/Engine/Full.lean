import DesignTokens.Proofs.Engine.Incremental
import DesignTokens.Proofs.Rule.Holds

/-!
# What a full check reports

* `rs.configured` : the rules of a rule set, one kind after the other (`rules_eq_configured`);
* `rule.Meets ids` : the rule depends on one of the ids;
* `evaluateAll_eq_filterMap_check` : a full check gives the issue of each rule that depends on some
  token of the tree and does not hold. It gives the issue of every rule that does not hold if and only
  if the rules that depend on no token of the tree hold;
* `exists_evaluateAll_ne_filterMap_check` : a rule on an id that is no token is passed over.
-/

namespace DesignTokens

variable {α β : Type}

theorem filterMap_filter_eq_filterMap_iff {l : List α} {p : α → Bool} {f : α → Option β} :
    (l.filter p).filterMap f = l.filterMap f ↔ ∀ a ∈ l, p a = false → f a = none := by
  induction l with
  | nil => simp
  | cons a l ih =>
    rw [List.forall_mem_cons, ← ih]
    cases hp : p a with
    | true =>
      rw [List.filter_cons_of_pos hp]
      cases hf : f a <;> simp [hf]
    | false =>
      rw [List.filter_cons_of_neg (by simp [hp])]
      cases hf : f a with
      | none => simp [hf]
      | some b =>
        -- a list has no room for the issue of an element that is left out
        have hle : ((l.filter p).filterMap f).length ≤ (l.filterMap f).length :=
          (List.filter_sublist.filterMap f).length_le
        have hne : (l.filter p).filterMap f ≠ b :: l.filterMap f := by
          intro h
          rw [h, List.length_cons] at hle
          omega
        simp [hf, hne]

/-! ## The rules of a rule set -/

theorem OrderEntry.rules_checker (entry : OrderEntry) : entry.checker.rules = entry.rules.map .order := by
  simp [checker, Checker.rules, rules]

namespace RuleSet

/-- The rules, one kind after the other. -/
def configured (rs : RuleSet) : List Rule :=
  rs.contrast.map .contrast ++ rs.thresholds.map (.threshold rs.limits) ++
    rs.orders.flatMap (fun entry => entry.rules.map .order) ++ rs.crossAxis.map .crossAxis

/-- A kind without rules has no checker. -/
theorem flatMap_rules_of_isEmpty {l : List α} {c : Checker} {f : α → Rule} (h : c.rules = l.map f) :
    (if l.isEmpty then [] else [c]).flatMap Checker.rules = l.map f := by
  cases l with
  | nil => rfl
  | cons a l => simp [h]

theorem rules_eq_configured (rs : RuleSet) : rs.rules = rs.configured := by
  have horders : (rs.orders.map OrderEntry.checker).flatMap Checker.rules =
      rs.orders.flatMap fun entry => entry.rules.map .order := by
    simp [List.flatMap_map, OrderEntry.rules_checker]
  rw [rules, checkers, List.flatMap_append, List.flatMap_append, List.flatMap_append, horders,
    flatMap_rules_of_isEmpty rfl, flatMap_rules_of_isEmpty rfl, flatMap_rules_of_isEmpty rfl,
    configured]

end RuleSet

namespace Rule

variable {ids : List String} {r : Rule}

def Meets (ids : List String) (r : Rule) : Prop := ∃ x ∈ r.participants, x ∈ ids

instance : Decidable (r.Meets ids) := inferInstanceAs (Decidable (∃ x ∈ r.participants, x ∈ ids))

theorem touches_eq_decide_meets : touches ids r.participants = decide (r.Meets ids) := by
  rw [Bool.eq_iff_iff, touches_iff, decide_eq_true_iff, Meets]

end Rule

/-- A triple that does not hold has two values. -/
theorem OrderRule.meets_of_not_holds {values : Values} {r : OrderRule} (h : ¬ r.Holds values.get?) :
    (Rule.order r).Meets values.keys := by
  refine ⟨r.triple.left, List.mem_cons_self, values.mem_keys.2 ?_⟩
  cases hleft : values.get? r.triple.left with
  | some v => rfl
  | none =>
    refine absurd (fun x y hx => ?_) h
    rw [hleft] at hx
    cases hx

/-! ## A full check -/

namespace Engine

variable {rs : RuleSet} {tree : Json} {e : Engine} {r : Resolution}

theorem validate_issues (h : buildEngine rs tree = .ok e) :
    ∃ report, validate rs tree = .ok report ∧ report.issues = e.evaluateAll :=
  ⟨_, validate_eq_ok h, rfl⟩

theorem evaluate_eq_filterMap_check (candidates : List String) : e.evaluate candidates =
    ((e.checkers.flatMap Checker.rules).filter fun rule => rule.Meets candidates).filterMap
      (Rule.check e.view) := by
  have htouches : (fun rule : Rule => touches candidates rule.participants) =
      fun rule => decide (rule.Meets candidates) := funext fun _ => Rule.touches_eq_decide_meets
  rw [evaluate, ← htouches, List.filter_flatMap, List.filterMap_flatMap]
  rfl

theorem evaluateAll_eq_filterMap_check (rs : RuleSet) (h : resolve tree = .ok r) :
    ∃ e report, buildEngine rs tree = .ok e ∧ e.values = r.values ∧
      validate rs tree = .ok report ∧ report.issues = e.evaluateAll ∧
      e.evaluateAll =
        (rs.configured.filter fun rule => rule.Meets r.values.keys).filterMap (Rule.check e.view) ∧
      (∀ rule ∈ rs.configured, ¬ rule.Holds e.view →
        ((∃ rule', rule = .order rule') ∨ rule.Meets r.values.keys) →
          ∃ i ∈ report.issues, rule.check e.view = some i) ∧
      (e.evaluateAll = rs.configured.filterMap (Rule.check e.view) ↔
        ∀ rule ∈ rs.configured, ¬ rule.Meets r.values.keys → rule.Holds e.view) := by
  have hbuild : buildEngine rs tree = .ok ((ofResolution r).register rs.checkers) :=
    buildEngine_eq_ok.2 ⟨r, h, rfl⟩
  obtain ⟨report, hvalidate, hissues⟩ := validate_issues hbuild
  have hall : ((ofResolution r).register rs.checkers).evaluateAll =
      (rs.configured.filter fun rule => rule.Meets r.values.keys).filterMap (Rule.check r.values.get?) := by
    rw [← RuleSet.rules_eq_configured]
    exact evaluate_eq_filterMap_check r.values.keys
  refine ⟨_, report, hbuild, rfl, hvalidate, hissues, hall, ?_, ?_⟩
  · intro rule hrule hfails hmeets
    obtain ⟨i, hi⟩ := Rule.exists_check_of_not_holds hfails
    have hmeets' : rule.Meets r.values.keys := by
      rcases hmeets with ⟨rule', rfl⟩ | hmeets
      · exact OrderRule.meets_of_not_holds hfails
      · exact hmeets
    refine ⟨i, ?_, hi⟩
    rw [hissues, hall, List.mem_filterMap]
    exact ⟨rule, List.mem_filter.2 ⟨hrule, decide_eq_true hmeets'⟩, hi⟩
  · rw [hall]
    refine filterMap_filter_eq_filterMap_iff.trans ?_
    simp only [decide_eq_false_iff_not, Rule.check_eq_none]
    rfl

theorem evaluateAll_eq_filterMap_check_aliasChain : ∃ r e report, resolve aliasChain = .ok r ∧
    buildEngine leastSizes aliasChain = .ok e ∧ validate leastSizes aliasChain = .ok report ∧
      report.issues = (leastSizes.configured.filter fun rule => rule.Meets r.values.keys).filterMap
        (Rule.check e.view) ∧ report.issues.map Issue.id = ["a", "b"] := by
  obtain ⟨r, h, hids⟩ : ∃ r, resolve aliasChain = .ok r ∧
      ((leastSizes.configured.filter fun rule => rule.Meets r.values.keys).filterMap
        (Rule.check r.values.get?)).map Issue.id = ["a", "b"] := exists_eq_ok_and (by decide +kernel)
  obtain ⟨e, report, hbuild, hvalues, hvalidate, hissues, hall, -⟩ :=
    evaluateAll_eq_filterMap_check leastSizes h
  have hview : e.view = r.values.get? := congrArg SortedMap.get? hvalues
  refine ⟨r, e, report, h, hbuild, hvalidate, hissues.trans hall, ?_⟩
  rw [hissues, hall, hview, hids]

/-- The least size of a token that the tree lacks. -/
def strayRules : RuleSet :=
  { RuleSet.empty with thresholds := [.fixed "size.icn" .atLeast 24.0] }

theorem exists_evaluateAll_ne_filterMap_check : ∃ e, buildEngine strayRules aliasChain = .ok e ∧
    e.evaluateAll = [] ∧ strayRules.configured.filterMap (Rule.check e.view) =
      [⟨"size.icn", "threshold", .warn, "unknown token 'size.icn'", none⟩] :=
  exists_eq_ok_and (by decide +kernel)

end Engine

end DesignTokens
