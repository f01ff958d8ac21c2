import DesignTokens.Proofs.Engine.Full
import DesignTokens.Proofs.Order.Closed

/-!
# The diagram of a declared order

* `order?_eq_some` : the first entry of an axis, and `exists_checkers_split` : where its checker stands;
* `map_fst_violatedRules`, `mem_map_fst_violatedEdges` : which triples and edges a diagram marks;
* `OrderEntry.evaluate_checker` : a full check reports the same triples, since one that is violated has
  two known ids and so is not passed over;
* `entry.drawn view` : the reduced graph with the violated edges put back;
* `hasse_between` : it has the nodes and ways of the declared order, and between the reduced and the
  declared edges just the violated ones more;
* `hasse_marks_reported` : the diagram marks the edges of the triples that the report names.
-/

namespace DesignTokens

open OrderGraph Relation

variable {rs : RuleSet} {tree : Json} {e : Engine} {r : Resolution} {axis : String} {entry : OrderEntry}
  {view : View} {rules : List OrderRule} {edge : String × String} {a b : String}

/-! ## The first entry of an axis -/

namespace RuleSet

theorem order?_eq_some : rs.order? axis = some entry ↔ entry.axis = axis ∧
    ∃ before after, rs.orders = before ++ entry :: after ∧ ∀ other ∈ before, other.axis ≠ axis := by
  rw [order?, List.find?_eq_some_iff_append]
  simp

theorem exists_order? (h : axis ∈ rs.orders.map OrderEntry.axis) :
    ∃ entry, rs.order? axis = some entry := by
  obtain ⟨entry, hentry, rfl⟩ := List.mem_map.1 h
  exact Option.isSome_iff_exists.1 (List.find?_isSome.2 ⟨entry, hentry, beq_self_eq_true _⟩)

end RuleSet

/-- The checker is one of an order of the axis. -/
def Checker.Orders (axis : String) (c : Checker) : Prop :=
  ∃ measure tag triples, c = .monotonic axis measure tag triples

theorem RuleSet.exists_checkers_split (h : rs.order? axis = some entry) :
    ∃ before after, rs.checkers = before ++ entry.checker :: after ∧
      ∀ c ∈ before, ¬ c.Orders axis := by
  obtain ⟨-, before, after, horders, hnew⟩ := order?_eq_some.1 h
  refine ⟨(if rs.contrast.isEmpty then [] else [.contrast rs.contrast]) ++
    (if rs.thresholds.isEmpty then [] else [.threshold rs.limits rs.thresholds]) ++
    before.map OrderEntry.checker, after.map OrderEntry.checker ++
    (if rs.crossAxis.isEmpty then [] else [.crossAxis rs.crossAxis]), ?_, ?_⟩
  · rw [checkers, horders]
    simp only [List.map_append, List.map_cons, List.append_assoc, List.cons_append]
  · rintro c hc ⟨measure, tag, triples, rfl⟩
    rcases List.mem_append.1 hc with hc | hc
    · rcases List.mem_append.1 hc with hc | hc
      · split at hc <;> simp at hc
      · split at hc <;> simp at hc
    · obtain ⟨other, hother, hchecker⟩ := List.mem_map.1 hc
      obtain ⟨haxis, -⟩ := Checker.monotonic.inj hchecker
      exact hnew other hother haxis

/-! ## The violated triples -/

theorem map_fst_violatedRules (view : View) (rules : List OrderRule) :
    (violatedRules view rules).map Prod.fst = rules.filter fun rule => ¬ rule.Holds view := by
  unfold violatedRules
  induction rules with
  | nil => rfl
  | cons rule rules ih =>
    rw [List.filterMap_cons, List.filter_cons]
    simp only [← OrderRule.violation?_eq_none] at ih ⊢
    cases rule.violation? view with
    | none => simpa using ih
    | some v => simpa using ih

theorem exists_violation_of_mem_violatedRules {rv : OrderRule × String}
    (h : rv ∈ violatedRules view rules) :
    ∃ v, rv.1.violation? view = some v ∧ rv.2 = rv.1.describe v := by
  obtain ⟨rule, -, hrule⟩ := List.mem_filterMap.1 h
  obtain ⟨v, hv, rfl⟩ := Option.map_eq_some_iff.1 hrule
  exact ⟨v, hv, rfl⟩

theorem map_edge_violatedRules (view : View) (rules : List OrderRule) :
    (violatedRules view rules).map (fun rv => rv.1.triple.edge) =
      (rules.filter fun rule => ¬ rule.Holds view).map fun rule => rule.triple.edge := by
  rw [← map_fst_violatedRules, List.map_map]
  rfl

theorem mem_map_fst_violatedEdges {violated : List (OrderRule × String)} :
    edge ∈ (violatedEdges violated).map Prod.fst ↔
      edge ∈ violated.map fun rv => rv.1.triple.edge := by
  have hedges : edge ∈ (ofTriples (violated.map fun rv => rv.1.triple)).edges ↔
      edge ∈ violated.map fun rv => rv.1.triple.edge := by
    rw [← Prod.eta edge, mem_edges, edge_ofTriples, List.map_map]
    rfl
  rw [← hedges, violatedEdges, List.mem_map]
  constructor
  · rintro ⟨v, hv, rfl⟩
    obtain ⟨edge, hedge, hsaid⟩ := List.mem_filterMap.1 hv
    obtain ⟨text, -, rfl⟩ := Option.map_eq_some_iff.1 hsaid
    exact hedge
  · intro hedge
    obtain ⟨rv, hrv, rfl⟩ := List.mem_map.1 (hedges.1 hedge)
    have hsome : ((violated.map fun rv => (rv.1.triple.edge, rv.2)).reverse.lookup
        rv.1.triple.edge).isSome := by
      rw [List.lookup_isSome_iff]
      exact ⟨_, List.mem_reverse.2 (List.mem_map_of_mem hrv), beq_self_eq_true _⟩
    obtain ⟨text, htext⟩ := Option.isSome_iff_exists.1 hsome
    refine ⟨(_, text), List.mem_filterMap.2 ⟨_, hedge, ?_⟩, rfl⟩
    exact Option.map_eq_some_iff.2 ⟨text, htext, rfl⟩

/-! ## What a full check says of an order -/

/-- The issue that names a triple with what is said of it. -/
def OrderRule.issue (rule : OrderRule) (text : String) : Issue :=
  ⟨pairId rule.triple.left rule.triple.right, rule.measure.ruleName, .error, text, rule.tag⟩

namespace OrderEntry

/-- No violated triple is passed over: its ids are known. -/
theorem evaluate_checker (entry : OrderEntry) (values : Values) :
    entry.checker.evaluate values.get? values.keys =
      (violatedRules values.get? entry.rules).map fun rv => rv.1.issue rv.2 := by
  have hgate : (entry.checker.rules.filter fun rule => touches values.keys rule.participants).filterMap
      (Rule.check values.get?) = entry.checker.rules.filterMap (Rule.check values.get?) := by
    refine filterMap_filter_eq_filterMap_iff.2 fun rule hrule hskip => ?_
    rw [rules_checker] at hrule
    obtain ⟨rule, -, rfl⟩ := List.mem_map.1 hrule
    rw [Rule.touches_eq_decide_meets, decide_eq_false_iff_not] at hskip
    rw [Rule.check_eq_none]
    by_contra hfails
    exact hskip (OrderRule.meets_of_not_holds hfails)
  rw [Checker.evaluate, hgate, rules_checker, List.filterMap_map, violatedRules, List.map_filterMap]
  refine congrArg (entry.rules.filterMap ·) (funext fun rule => ?_)
  rw [Option.map_map]
  rfl

/-! ## The graph of a diagram -/

/-- The violated edges of an order with what is said of them. -/
def marked (entry : OrderEntry) (view : View) : List ((String × String) × String) :=
  violatedEdges (violatedRules view entry.rules)

/-- The reduced graph of an order with the violated edges put back. -/
def drawn (entry : OrderEntry) (view : View) : OrderGraph :=
  (entry.marked view).foldl (fun g v => g.addEdge v.1.1 v.1.2) (ofTriples entry.triples).reduction

theorem mem_map_fst_marked : edge ∈ (entry.marked view).map Prod.fst ↔
    ∃ rule ∈ entry.rules, ¬ rule.Holds view ∧ rule.triple.edge = edge := by
  rw [marked, mem_map_fst_violatedEdges, map_edge_violatedRules]
  simp [and_assoc]

theorem edge_drawn : (entry.drawn view).Edge a b ↔ (ofTriples entry.triples).reduction.Edge a b ∨
    ∃ rule ∈ entry.rules, ¬ rule.Holds view ∧ rule.triple.edge = (a, b) := by
  rw [drawn, edge_foldl_addEdge Prod.fst, mem_map_fst_marked, or_comm]

theorem edge_of_mem_marked {v : (String × String) × String} (h : v ∈ entry.marked view) :
    (ofTriples entry.triples).Edge v.1.1 v.1.2 := by
  obtain ⟨rule, hrule, -, hedge⟩ := mem_map_fst_marked.1 (List.mem_map_of_mem h)
  obtain ⟨t, ht, rfl⟩ := List.mem_map.1 hrule
  exact edge_ofTriples.2 (List.mem_map.2 ⟨t, ht, hedge⟩)

theorem drawn_thins (entry : OrderEntry) (view : View) :
    (entry.drawn view).Thins (ofTriples entry.triples) :=
  (reduction_thins _).foldl_addEdge (closed_ofTriples entry.triples) fun _ hv => edge_of_mem_marked hv

end OrderEntry

theorem hasse_eq_ok (hentry : rs.order? axis = some entry) (hbuild : buildEngine rs tree = .ok e) :
    hasse rs tree axis = .ok ⟨axis, entry.drawn e.view, (ofTriples entry.triples).cycles,
      entry.marked e.view⟩ := by
  unfold hasse
  rw [hentry, hbuild]
  rfl

/-! ## Diagrams against orders and reports -/

theorem hasse_between (haxis : axis ∈ rs.orders.map OrderEntry.axis) (h : resolve tree = .ok r) :
    ∃ entry diagram, rs.order? axis = some entry ∧ hasse rs tree axis = .ok diagram ∧
      diagram.graph.nodes = (ofTriples entry.triples).nodes ∧
      (∀ a b, diagram.graph.Edge a b ↔ (ofTriples entry.triples).reduction.Edge a b ∨
        ∃ rule ∈ entry.rules, ¬ rule.Holds r.values.get? ∧ rule.triple.edge = (a, b)) ∧
      (∀ a b, diagram.graph.Edge a b → ∃ t ∈ entry.triples, t.edge = (a, b)) ∧
      (∀ a b, TransGen diagram.graph.Edge a b ↔ TransGen (ofTriples entry.triples).Edge a b) ∧
      ∀ v ∈ diagram.violations, diagram.graph.Edge v.1.1 v.1.2 := by
  obtain ⟨entry, hentry⟩ := RuleSet.exists_order? haxis
  have hthins := entry.drawn_thins r.values.get?
  refine ⟨entry, _, hentry, hasse_eq_ok hentry (buildEngine_eq_ok.2 ⟨r, h, rfl⟩), hthins.nodes,
    fun a b => OrderEntry.edge_drawn, fun a b hedge => ?_, fun a b => hthins.way_iff, fun v hv => ?_⟩
  · exact List.mem_map.1 (edge_ofTriples.1 (hthins.edge hedge))
  · exact OrderEntry.edge_drawn.2 (.inr (OrderEntry.mem_map_fst_marked.1 (List.mem_map_of_mem hv)))

/-- The order of the chain as an order of sizes. -/
def sizeEntry : OrderEntry := .inPlace "size" .size chainAndMore

def sizeRules : RuleSet := { RuleSet.empty with orders := [sizeEntry] }

/-- Sizes of which the greatest should be the least. -/
def sizes : Json :=
  .obj [("a", .obj [("$value", .str "1rem")]), ("b", .obj [("$value", .str "24px")]),
    ("c", .obj [("$value", .str "{b}")])]

theorem order?_sizeRules : sizeRules.order? "size" = some sizeEntry :=
  RuleSet.order?_eq_some.2 ⟨rfl, [], [], rfl, by simp⟩

/-- Both tokens that should be at most the first one are greater. -/
theorem exists_buildEngine_sizes : ∃ e, buildEngine sizeRules sizes = .ok e ∧
    sizeEntry.rules.filter (fun rule => ¬ rule.Holds e.view) =
      [⟨⟨"c", .atMost, "a"⟩, .size, none⟩, ⟨⟨"b", .atMost, "a"⟩, .size, none⟩] :=
  exists_eq_ok_and (by decide +kernel)

theorem not_edge_reduction_sizes : ¬ (ofTriples chainAndMore).reduction.Edge "a" "c" := by
  rw [edge_reduction_iff acyclic_chainAndMore]
  have hab : (ofTriples chainAndMore).Edge "a" "b" :=
    edge_chainAndMore.2 (.inl (edge_chain.2 (.inl ⟨rfl, rfl⟩)))
  have hbc : (ofTriples chainAndMore).Edge "b" "c" :=
    edge_chainAndMore.2 (.inl (edge_chain.2 (.inr ⟨rfl, rfl⟩)))
  exact fun hnext => hnext.2 ⟨"b", by decide, by decide, .single hab, .single hbc⟩

theorem hasse_between_sizes : "size" ∈ sizeRules.orders.map OrderEntry.axis ∧
    (∃ r, resolve sizes = .ok r) ∧ ∃ diagram, hasse sizeRules sizes "size" = .ok diagram ∧
      diagram.graph.nodes = (ofTriples chainAndMore).nodes ∧
      ¬ (ofTriples chainAndMore).reduction.Edge "a" "c" ∧ diagram.graph.Edge "a" "c" ∧
      ∀ a b, TransGen diagram.graph.Edge a b ↔ TransGen (ofTriples chainAndMore).Edge a b := by
  have haxis : "size" ∈ sizeRules.orders.map OrderEntry.axis := by decide
  obtain ⟨e, hbuild, hfailing⟩ := exists_buildEngine_sizes
  obtain ⟨r, h, rfl⟩ := buildEngine_eq_ok.1 hbuild
  have hrule : ⟨⟨"c", .atMost, "a"⟩, .size, none⟩ ∈
      sizeEntry.rules.filter fun rule => ¬ rule.Holds r.values.get? := hfailing ▸ List.mem_cons_self
  obtain ⟨hmem, hfails⟩ := List.mem_filter.1 hrule
  obtain ⟨entry, diagram, hentry, hdiagram, hnodes, hedge, -, hway, -⟩ := hasse_between haxis h
  rw [order?_sizeRules, Option.some.injEq] at hentry
  subst hentry
  exact ⟨haxis, ⟨r, h⟩, diagram, hdiagram, hnodes, not_edge_reduction_sizes,
    (hedge "a" "c").2 (.inr ⟨_, hmem, of_decide_eq_true hfails, rfl⟩), hway⟩

theorem hasse_marks_reported (haxis : axis ∈ rs.orders.map OrderEntry.axis) (h : resolve tree = .ok r) :
    ∃ entry e report diagram, rs.order? axis = some entry ∧ buildEngine rs tree = .ok e ∧
      validate rs tree = .ok report ∧ hasse rs tree axis = .ok diagram ∧
      (∃ before after, e.checkers = before ++ entry.checker :: after ∧ (∀ c ∈ before, ¬ c.Orders axis) ∧
        report.issues = before.flatMap (Checker.evaluate e.view e.values.keys) ++
          entry.checker.evaluate e.view e.values.keys ++
          after.flatMap (Checker.evaluate e.view e.values.keys)) ∧
      (entry.checker.evaluate e.view e.values.keys =
        (violatedRules e.view entry.rules).map fun rv => rv.1.issue rv.2) ∧
      (violatedRules e.view entry.rules).map Prod.fst =
        entry.rules.filter (fun rule => ¬ rule.Holds e.view) ∧
      (∀ rv ∈ violatedRules e.view entry.rules,
        ∃ v, rv.1.violation? e.view = some v ∧ rv.2 = rv.1.describe v) ∧
      ∀ edge, edge ∈ diagram.violations.map Prod.fst ↔
        edge ∈ (violatedRules e.view entry.rules).map fun rv => rv.1.triple.edge := by
  obtain ⟨entry, hentry⟩ := RuleSet.exists_order? haxis
  have hbuild : buildEngine rs tree = .ok ((Engine.ofResolution r).register rs.checkers) :=
    buildEngine_eq_ok.2 ⟨r, h, rfl⟩
  obtain ⟨report, hvalidate, hissues⟩ := Engine.validate_issues hbuild
  obtain ⟨before, after, hcheckers, hbefore⟩ := RuleSet.exists_checkers_split hentry
  refine ⟨entry, _, report, _, hentry, hbuild, hvalidate, hasse_eq_ok hentry hbuild,
    ⟨before, after, hcheckers, hbefore, ?_⟩, entry.evaluate_checker r.values,
    map_fst_violatedRules _ _, fun rv hrv => exists_violation_of_mem_violatedRules hrv,
    fun edge => mem_map_fst_violatedEdges⟩
  rw [hissues, Engine.evaluateAll, Engine.evaluate]
  show rs.checkers.flatMap _ = _
  rw [hcheckers, List.flatMap_append, List.flatMap_cons, List.append_assoc]

theorem hasse_marks_reported_sizes : "size" ∈ sizeRules.orders.map OrderEntry.axis ∧
    (∃ r, resolve sizes = .ok r) ∧ ∃ e diagram, buildEngine sizeRules sizes = .ok e ∧
      hasse sizeRules sizes "size" = .ok diagram ∧
      (sizeEntry.checker.evaluate e.view e.values.keys).map Issue.id = ["c|a", "b|a"] ∧
      ("a", "c") ∈ diagram.violations.map Prod.fst ∧
      ("b", "c") ∉ diagram.violations.map Prod.fst := by
  have haxis : "size" ∈ sizeRules.orders.map OrderEntry.axis := by decide
  obtain ⟨e, hbuild, hfailing⟩ := exists_buildEngine_sizes
  obtain ⟨r, h, -⟩ := buildEngine_eq_ok.1 hbuild
  obtain ⟨entry, e', -, diagram, hentry, hbuild', -, hdiagram, -, hissues, hviolated, -, hedges⟩ :=
    hasse_marks_reported haxis h
  rw [order?_sizeRules, Option.some.injEq] at hentry
  rw [hbuild, Except.ok.injEq] at hbuild'
  subst hentry hbuild'
  have hids : (sizeEntry.checker.evaluate e.view e.values.keys).map Issue.id =
      ((violatedRules e.view sizeEntry.rules).map Prod.fst).map
        fun rule => pairId rule.triple.left rule.triple.right := by
    rw [hissues, List.map_map, List.map_map]
    rfl
  rw [hviolated, hfailing] at hids
  refine ⟨haxis, ⟨r, h⟩, e, diagram, hbuild, hdiagram, hids, ?_, ?_⟩
  · rw [hedges, map_edge_violatedRules, hfailing]
    decide
  · rw [hedges, map_edge_violatedRules, hfailing]
    decide

end DesignTokens
