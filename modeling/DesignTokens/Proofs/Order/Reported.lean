import DesignTokens.Proofs.Engine.Full

/-!
# Which cycles are reported

* `entry.cycles` : the cycles that the walk closes in the order of an entry;
* `rs.lastCyclic? axis` : the last entry of an axis whose order has cycles;
* `get?_orderCycles` : under an axis a report has the cycles of that entry and no others, since each
  entry with cycles takes the place of those before it;
* `last_cycles_reported` : so the cycles of an entry are all reported if no later entry of the axis has
  any, and no axis with cycles goes without;
* `exists_cycle_unreported` : with two cyclic orders of one axis those of the first one are lost.
-/

namespace DesignTokens

variable {rs : RuleSet} {tree : Json} {r : Resolution} {axis : String} {entry : OrderEntry}
  {before after : List OrderEntry}

namespace OrderEntry

def cycles (entry : OrderEntry) : List (List String) := (OrderGraph.ofTriples entry.triples).cycles

/-- The entry is one of the axis and its order has cycles. -/
def cyclicOn (axis : String) (entry : OrderEntry) : Bool :=
  axis == entry.axis && !entry.cycles.isEmpty

theorem cyclicOn_iff : entry.cyclicOn axis = true ↔ axis = entry.axis ∧ entry.cycles ≠ [] := by
  simp [cyclicOn]

/-- The reported cycles with those of one entry more. -/
def addCycles (m : SortedMap String (List (List String))) (entry : OrderEntry) :
    SortedMap String (List (List String)) :=
  if entry.cycles.isEmpty then m else m.insert entry.axis entry.cycles

theorem get?_addCycles (m : SortedMap String (List (List String))) (entry : OrderEntry) (axis : String) :
    (addCycles m entry).get? axis = if entry.cyclicOn axis then some entry.cycles else m.get? axis := by
  unfold addCycles cyclicOn
  cases entry.cycles.isEmpty with
  | true => simp
  | false => simp [SortedMap.get?_insert]

/-- By induction on the entries: the last one that is cyclic on the axis counts. -/
theorem get?_foldl_addCycles (entries : List OrderEntry) (m : SortedMap String (List (List String)))
    (axis : String) : (entries.foldl addCycles m).get? axis =
      ((entries.reverse.find? (cyclicOn axis)).map cycles).or (m.get? axis) := by
  induction entries generalizing m with
  | nil => rfl
  | cons entry entries ih =>
    rw [List.foldl_cons, ih, get?_addCycles, List.reverse_cons, List.find?_append, List.find?_singleton]
    cases entries.reverse.find? (cyclicOn axis) with
    | some later => rfl
    | none =>
      cases entry.cyclicOn axis with
      | true => rfl
      | false => rfl

end OrderEntry

namespace RuleSet

/-- The last entry of an axis whose order has cycles. -/
def lastCyclic? (rs : RuleSet) (axis : String) : Option OrderEntry :=
  rs.orders.reverse.find? (OrderEntry.cyclicOn axis)

theorem lastCyclic?_eq_some (horders : rs.orders = before ++ entry :: after) (hcycles : entry.cycles ≠ [])
    (hlast : ∀ later ∈ after, later.axis = entry.axis → later.cycles = []) :
    rs.lastCyclic? entry.axis = some entry := by
  rw [lastCyclic?, List.find?_eq_some_iff_append]
  refine ⟨OrderEntry.cyclicOn_iff.2 ⟨rfl, hcycles⟩, after.reverse, before.reverse, ?_, ?_⟩
  · rw [horders, List.reverse_append, List.reverse_cons, List.append_assoc, List.singleton_append]
  · intro later hlater
    rw [Bool.not_eq_true', Bool.eq_false_iff, ne_eq, OrderEntry.cyclicOn_iff]
    rintro ⟨haxis, hne⟩
    exact hne (hlast later (List.mem_reverse.1 hlater) haxis.symm)

theorem exists_lastCyclic? (hentry : entry ∈ rs.orders) (hcycles : entry.cycles ≠ []) :
    ∃ last, rs.lastCyclic? entry.axis = some last := by
  refine Option.isSome_iff_exists.1 (List.find?_isSome.2 ⟨entry, List.mem_reverse.2 hentry, ?_⟩)
  exact OrderEntry.cyclicOn_iff.2 ⟨rfl, hcycles⟩

end RuleSet

/-! ## The cycles in a report -/

theorem get?_orderCycles (rs : RuleSet) (axis : String) :
    (orderCycles rs).get? axis = (rs.lastCyclic? axis).map OrderEntry.cycles := by
  have hfold := OrderEntry.get?_foldl_addCycles rs.orders ∅ axis
  rw [SortedMap.get?_empty, Option.or_none] at hfold
  exact hfold

theorem mem_keys_orderCycles (hentry : entry ∈ rs.orders) (hcycles : entry.cycles ≠ []) :
    entry.axis ∈ (orderCycles rs).keys := by
  obtain ⟨last, hlast⟩ := RuleSet.exists_lastCyclic? hentry hcycles
  rw [SortedMap.mem_keys, get?_orderCycles, hlast]
  rfl

theorem get?_orderCycles_of_last (horders : rs.orders = before ++ entry :: after)
    (hcycles : entry.cycles ≠ []) (hlast : ∀ later ∈ after, later.axis = entry.axis → later.cycles = []) :
    (orderCycles rs).get? entry.axis = some entry.cycles := by
  rw [get?_orderCycles, RuleSet.lastCyclic?_eq_some horders hcycles hlast, Option.map_some]

theorem last_cycles_reported (rs : RuleSet) (h : resolve tree = .ok r) :
    ∃ report, validate rs tree = .ok report ∧
      (∀ axis, report.cycles.get? axis = (rs.lastCyclic? axis).map OrderEntry.cycles) ∧
      (∀ entry ∈ rs.orders, entry.cycles ≠ [] → entry.axis ∈ report.cycles.keys) ∧
      ∀ before entry after, rs.orders = before ++ entry :: after →
        (∀ later ∈ after, later.axis = entry.axis → later.cycles = []) →
          ∀ c ∈ entry.cycles, ∃ cs, report.cycles.get? entry.axis = some cs ∧ c ∈ cs := by
  refine ⟨_, validate_eq_ok (buildEngine_eq_ok.2 ⟨r, h, rfl⟩), get?_orderCycles rs,
    fun entry => mem_keys_orderCycles, fun before entry after horders hlast c hc => ?_⟩
  exact ⟨entry.cycles, get?_orderCycles_of_last horders (List.ne_nil_of_mem hc) hlast, hc⟩

/-- Two ids of which each is below the other. -/
theorem OrderGraph.cycles_of_pair {g : OrderGraph} {a b : String} (hnodes : g.nodes = [a, b])
    (ha : g.successors a = [b]) (hb : g.successors b = [a]) : g.cycles = [[a, b, a]] := by
  have hne : a ≠ b := List.pairwise_pair.1 (hnodes ▸ g.below.nodup_keys)
  -- the walk goes from `a` down to `b`, and the way back closes the cycle
  simp [cycles, walk, way, closed, hnodes, ha, hb, hne]

/-- A cyclic order of sizes on small screens. -/
def smallEntry : OrderEntry :=
  ⟨"size", .size, some "sm", some [⟨"a", .atLeast, "b"⟩, ⟨"b", .atLeast, "a"⟩], none⟩

/-- A cyclic order of sizes on larger screens. -/
def mediumEntry : OrderEntry :=
  ⟨"size", .size, some "md", some [⟨"b", .atLeast, "c"⟩, ⟨"c", .atLeast, "b"⟩], none⟩

/-- Both orders, which have an axis in common. -/
def screenRules : RuleSet := { RuleSet.empty with orders := [smallEntry, mediumEntry] }

theorem cycles_smallEntry : smallEntry.cycles = [["a", "b", "a"]] :=
  OrderGraph.cycles_of_pair (by decide) (by decide) (by decide)

theorem cycles_mediumEntry : mediumEntry.cycles = [["b", "c", "b"]] :=
  OrderGraph.cycles_of_pair (by decide) (by decide) (by decide)

theorem last_cycles_reported_screenRules : (∃ r, resolve aliasChain = .ok r) ∧
    screenRules.orders = [smallEntry] ++ mediumEntry :: [] ∧ ["b", "c", "b"] ∈ mediumEntry.cycles ∧
      ∃ report cs, validate screenRules aliasChain = .ok report ∧
        report.cycles.get? "size" = some cs ∧ ["b", "c", "b"] ∈ cs := by
  obtain ⟨r, h⟩ := exists_resolve_aliasChain
  have hmem : ["b", "c", "b"] ∈ mediumEntry.cycles := by simp [cycles_mediumEntry]
  obtain ⟨report, hvalidate, -, -, hreported⟩ := last_cycles_reported screenRules h
  obtain ⟨cs, hcs, hc⟩ := hreported [smallEntry] mediumEntry [] rfl (by simp) ["b", "c", "b"] hmem
  exact ⟨⟨r, h⟩, rfl, hmem, report, cs, hvalidate, hcs, hc⟩

theorem exists_cycle_unreported : ∃ report, validate screenRules aliasChain = .ok report ∧
    ∃ entry ∈ screenRules.orders, ∃ c ∈ entry.cycles,
      ∀ cs, report.cycles.get? entry.axis = some cs → c ∉ cs := by
  obtain ⟨r, h⟩ := exists_resolve_aliasChain
  have hcycle : ["a", "b", "a"] ∈ smallEntry.cycles := by simp [cycles_smallEntry]
  have horders : screenRules.orders = [smallEntry] ++ mediumEntry :: [] := rfl
  have hget : (orderCycles screenRules).get? "size" = some mediumEntry.cycles :=
    get?_orderCycles_of_last horders (by simp [cycles_mediumEntry]) (by simp)
  refine ⟨_, validate_eq_ok (buildEngine_eq_ok.2 ⟨r, h, rfl⟩), smallEntry, List.mem_cons_self,
    ["a", "b", "a"], hcycle, fun cs hcs => ?_⟩
  rw [Option.some.inj (hcs.symm.trans hget), cycles_mediumEntry]
  decide

end DesignTokens
