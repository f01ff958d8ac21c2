import DesignTokens.Proofs.Report
import DesignTokens.Proofs.Rule.Participants

/-!
# Incremental checking finds what full checking finds

* `e.changed id` : the token of a commit and those that depend on it;
* `e.Grounded` : the nodes of the graph have values, and the same ids have values and declared values.
  Every commit of an existing id preserves it, and all ids that have values;
* `evaluateAll_commit` : after a commit the issues of all rules are those before it, with the issues
  of each rule that has a changed participant replaced by those that the commit gives for it.
-/

namespace DesignTokens

/-- The rules in the order in which they are checked. -/
def RuleSet.rules (rs : RuleSet) : List Rule := rs.checkers.flatMap Checker.rules

namespace Engine

open Resolution

variable {rs : RuleSet} {tree : Json} {e start : Engine} {id x : String} {v : TokenValue}
  {commits : List (String × TokenValue)}

def changed (e : Engine) (id : String) : List String := id :: e.affected id

def Knows (e : Engine) (id : String) (_ : TokenValue) : Prop := id ∈ e.values.keys

/-- Both directions of the graph agree, its nodes have values, and so have just the ids that have
declared values. -/
structure Grounded (e : Engine) : Prop where
  wellFormed : e.graph.WellFormed
  keys : e.values.keys = e.raw.keys
  nodes : e.graph.nodes ⊆ e.values.keys

theorem Grounded.commit_keys (h : e.Grounded) (hid : id ∈ e.values.keys) (v : TokenValue) :
    (e.commit id v).2.values.keys = e.values.keys := by
  rw [commit_snd, declare_keys h.keys, SortedMap.keys_insert_of_mem (h.keys ▸ hid), h.keys]

theorem Grounded.commit (h : e.Grounded) (hid : id ∈ e.values.keys) (v : TokenValue) :
    (e.commit id v).2.Grounded where
  wellFormed := h.wellFormed
  keys := declare_keys h.keys id v
  nodes := by
    rw [h.commit_keys hid v]
    exact h.nodes

theorem Grounded.changed_subset (h : e.Grounded) (hid : id ∈ e.values.keys) :
    e.changed id ⊆ e.values.keys := by
  intro x hx
  rcases List.mem_cons.1 hx with rfl | hx
  · exact hid
  · exact h.nodes (DependencyGraph.mem_nodes_of_mem_affected hx)

theorem buildEngine_grounded (h : buildEngine rs tree = .ok e) :
    e.Grounded ∧ e.checkers = rs.checkers := by
  obtain ⟨r, hr, rfl⟩ := buildEngine_eq_ok.1 h
  have hkeys : r.values.keys = r.raw.keys := (resolve_solves hr).keys
  refine ⟨⟨DependencyGraph.build_wellFormed _ _, hkeys, ?_⟩, rfl⟩
  intro x hx
  have hnode : x ∈ (citationGraph (declarationMap tree)).nodes := ofResolution_graph hr ▸ hx
  have hmem := mem_keys_of_mem_nodes_citationGraph (declarationMap_keyed tree) (resolve_eq_ok.1 hr).1 hnode
  rw [← raws_keys, ← resolve_raw hr, ← hkeys] at hmem
  exact hmem

theorem Run.grounded (hrun : Run Knows start commits e) (hstart : start.Grounded) :
    e.Grounded ∧ e.checkers = start.checkers :=
  hrun.invariant (P := fun e => e.Grounded ∧ e.checkers = start.checkers) ⟨hstart, rfl⟩
    fun _ _ v h hid => ⟨h.1.commit hid v, h.2⟩

/-! ## The issues before and after a commit -/

variable {r : Rule}

theorem Grounded.commit_view (h : e.Grounded) (hx : x ∉ e.changed id) (v : TokenValue) :
    (e.commit id v).2.values.get? x = e.values.get? x := by
  have hne : x ≠ id ∧ x ∉ e.affected id := not_or.1 (mt List.mem_cons.2 hx)
  exact declare_get?_of_not_mem h.wellFormed hne.1 hne.2

theorem Grounded.commit_view_self (h : e.Grounded) (hrefs : v.refs = []) (hprinted : v.Printed) :
    (e.commit id v).2.view id = some v := by
  rw [view, commit_snd, declare_get?_self h.wellFormed, substitute_of_refs_eq_nil hrefs hprinted]

/-- A rule without a changed participant reads the values that it read before. -/
theorem Grounded.check_commit (h : e.Grounded) (hr : touches (e.changed id) r.participants = false)
    (v : TokenValue) : r.check (e.commit id v).2.view = r.check e.view := by
  refine Rule.check_congr fun x hx => h.commit_view (fun hmem => ?_) v
  rw [touches_iff.2 ⟨x, hx, hmem⟩] at hr
  cases hr

theorem Grounded.issues_commit (h : e.Grounded) (hid : id ∈ e.values.keys) (v : TokenValue) (r : Rule) :
    r.issues (e.commit id v).2.view e.values.keys =
      if touches (e.changed id) r.participants then r.issues (e.commit id v).2.view (e.changed id)
      else r.issues e.view e.values.keys := by
  cases hr : touches (e.changed id) r.participants with
  | true =>
    obtain ⟨x, hx, hmem⟩ := touches_iff.1 hr
    have hall : touches e.values.keys r.participants = true :=
      touches_iff.2 ⟨x, hx, h.changed_subset hid hmem⟩
    rw [if_pos rfl, Rule.issues, Rule.issues, hr, hall]
  | false =>
    rw [if_neg (by simp), Rule.issues, Rule.issues, h.check_commit hr v]

theorem evaluateAll_commit {before : Engine} (hbuild : buildEngine rs tree = .ok before)
    (hrun : Run Knows before commits e) (hid : id ∈ e.values.keys) :
    (∀ x, x ∉ e.changed id → (e.commit id v).2.values.get? x = e.values.get? x) ∧
      e.evaluateAll = rs.rules.flatMap (Rule.issues e.view e.values.keys) ∧
      (e.commit id v).1.issues =
        rs.rules.flatMap (Rule.issues (e.commit id v).2.view (e.changed id)) ∧
      ((e.commit id v).2.evaluateAll = rs.rules.flatMap fun r =>
        if touches (e.changed id) r.participants then
          r.issues (e.commit id v).2.view (e.changed id)
        else r.issues e.view e.values.keys) ∧
      ∀ r ∈ rs.rules, r.check (e.commit id v).2.view ≠ r.check e.view →
        touches (e.changed id) r.participants = true := by
  obtain ⟨hbefore, hcheckers⟩ := buildEngine_grounded hbuild
  obtain ⟨h, hsame⟩ := hrun.grounded hbefore
  have hrules : e.checkers.flatMap Checker.rules = rs.rules := by rw [hsame, hcheckers, RuleSet.rules]
  have hafter : (e.commit id v).2.checkers.flatMap Checker.rules = rs.rules := hrules
  refine ⟨fun x hx => h.commit_view hx v, ?_, ?_, ?_, fun r _ hne => ?_⟩
  · rw [evaluateAll, evaluate_eq_flatMap, hrules]
  · show (e.commit id v).2.evaluate (e.changed id) = _
    rw [evaluate_eq_flatMap, hafter]
  · rw [evaluateAll, evaluate_eq_flatMap, hafter, h.commit_keys hid v]
    exact congrArg (rs.rules.flatMap ·) (funext (h.issues_commit hid v))
  · cases hr : touches (e.changed id) r.participants with
    | true => rfl
    | false => exact absurd (h.check_commit hr v) hne

/-- A least size. -/
def leastSize (id : String) : ThresholdRule := .fixed id .atLeast 24.0

/-- The first two tokens of the chain are smaller. -/
def leastSizes : RuleSet := { RuleSet.empty with thresholds := [leastSize "a", leastSize "b"] }

theorem rules_leastSizes : leastSizes.rules =
    [.threshold .default (leastSize "a"), .threshold .default (leastSize "b")] := rfl

theorem touches_leastSize (candidates : List String) (id : String) :
    touches candidates (Rule.threshold .default (leastSize id)).participants = decide (id ∈ candidates) := by
  have hparticipants : (Rule.threshold .default (leastSize id)).participants = [id] := rfl
  rw [hparticipants, Bool.eq_iff_iff, touches_iff, decide_eq_true_iff]
  simp

theorem issues_leastSize {view : View} {w : TokenValue} (hview : view id = some w) (candidates : List String) :
    Rule.issues view candidates (.threshold .default (leastSize id)) =
      if id ∈ candidates then ((leastSize id).check .default fun _ => some w).toList else [] := by
  have hcheck : (leastSize id).check .default view = (leastSize id).check .default fun _ => some w := by
    refine ThresholdRule.check_congr .default fun x hx => ?_
    obtain rfl : x = id := List.mem_singleton.1 hx
    exact hview
  rw [Rule.issues, touches_leastSize, Rule.check, hcheck]
  simp only [decide_eq_true_eq]

/-- The first token gets a value, and then the second one, on which the last depends. The commit tells what
is wrong with the second one only. -/
theorem evaluateAll_commit_aliasChain : ∃ before e : Engine,
    buildEngine leastSizes aliasChain = .ok before ∧ Run Knows before [("a", .text "5px")] e ∧
      "b" ∈ e.values.keys ∧
      ((e.commit "b" (.text "6px")).2.evaluateAll = leastSizes.rules.flatMap fun r =>
        if touches (e.changed "b") r.participants then
          r.issues (e.commit "b" (.text "6px")).2.view (e.changed "b")
        else r.issues e.view e.values.keys) ∧
      (e.commit "b" (.text "6px")).1.issues.map Issue.id = ["b"] ∧
      (e.commit "b" (.text "6px")).2.evaluateAll.map Issue.id = ["a", "b"] := by
  obtain ⟨before, hbuild, hkeys, hcites⟩ : ∃ before, buildEngine leastSizes aliasChain = .ok before ∧
      before.values.keys = ["a", "b", "c"] ∧ before.graph.references "a" = [] :=
    exists_eq_ok_and (by decide +kernel)
  have hbefore : before.Grounded := (buildEngine_grounded hbuild).1
  have hfirst : before.Knows "a" (.text "5px") := by simp [Knows, hkeys]
  have hrun := Run.nil.snoc hfirst
  generalize he : (before.commit "a" (.text "5px")).2 = e at hrun
  have hgrounded : e.Grounded := (hrun.grounded hbefore).1
  have heKeys : e.values.keys = ["a", "b", "c"] := by rw [← he, hbefore.commit_keys hfirst, hkeys]
  have hid : "b" ∈ e.values.keys := by simp [heKeys]
  have hcites' : e.graph.references "a" = [] := he ▸ hcites
  have hout : "a" ∉ e.changed "b" := by
    rw [changed, List.mem_cons, affected]
    exact not_or.2 ⟨by decide,
      DependencyGraph.not_mem_affected_of_references_eq_nil hgrounded.wellFormed hcites'⟩
  have hin : "b" ∈ e.changed "b" := List.mem_cons_self
  have ha : e.view "a" = some (.text "5px") := he ▸ hbefore.commit_view_self (by decide +kernel)
    (TokenValue.printed_of_document?_eq_none (by decide +kernel))
  have hb : (e.commit "b" (.text "6px")).2.view "b" = some (.text "6px") :=
    hgrounded.commit_view_self (by decide +kernel)
      (TokenValue.printed_of_document?_eq_none (by decide +kernel))
  obtain ⟨hframe, -, hissues, hall, -⟩ := evaluateAll_commit (v := .text "6px") hbuild hrun hid
  have ha' : (e.commit "b" (.text "6px")).2.view "a" = some (.text "5px") := (hframe "a" hout).trans ha
  refine ⟨before, e, hbuild, hrun, hid, hall, ?_, ?_⟩
  · rw [hissues, rules_leastSizes, List.flatMap_cons, List.flatMap_singleton, issues_leastSize ha',
      issues_leastSize hb, if_neg hout, if_pos hin]
    decide +kernel
  · rw [hall, rules_leastSizes, List.flatMap_cons, List.flatMap_singleton, touches_leastSize, touches_leastSize,
      issues_leastSize ha, issues_leastSize hb, heKeys]
    simp only [hout, hin, decide_false, decide_true, Bool.false_eq_true, if_false, if_true]
    decide +kernel

end Engine

end DesignTokens
