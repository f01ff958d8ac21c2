import DesignTokens.Proofs.Dependency.Cycle

/-!
# How long the search for a cycle goes on

* `turn g stuck way` : one turn of the search, which looks at nothing but the way so far: it ends, or
  the way gets longer by an id of the list that its last id cites;
* `walkWithin g stuck turns way` : what the search comes to if it ends within so many turns;
* `walkWithin_eq_cycleIn?` : from the first id of a list it ends, since each turn but the last one
  takes another id of the list, and it comes to what `cycleIn?` finds;
* `cycleIn?_build` : this together with what is found, for the graph of a list of pairs.
-/

namespace DesignTokens.DependencyGraph

variable {g : DependencyGraph} {stuck path fresh way : List String} {current next : String}

/-- What one turn of the search comes to: an end, or a longer way. -/
inductive Turn where
  | ended (result : Option (List String))
  | longer (way : List String)

/-- One turn of the search: the first id of the list that the last one of the way cites. If it is on
the way then the part of the way from it on is a cycle. -/
def turn (g : DependencyGraph) (stuck way : List String) : Turn :=
  match way.getLast?.bind fun current => (g.references current).find? (stuck.contains ·) with
  | none => .ended none
  | some next =>
    if next ∈ way then .ended (some (way.dropWhile (· ≠ next) ++ [next]))
    else .longer (way ++ [next])

/-- What the search comes to, if it ends within so many turns. -/
def walkWithin (g : DependencyGraph) (stuck : List String) :
    Nat → List String → Option (Option (List String))
  | 0, _ => none
  | turns + 1, way =>
    match g.turn stuck way with
    | .ended result => some result
    | .longer way => walkWithin g stuck turns way

theorem turn_of_last (hlast : way.getLast? = some current) :
    g.turn stuck way = match (g.references current).find? (stuck.contains ·) with
      | none => .ended none
      | some next =>
        if next ∈ way then .ended (some (way.dropWhile (· ≠ next) ++ [next]))
        else .longer (way ++ [next]) := by
  rw [turn, hlast, Option.bind_some]

/-- The ids of the list that are not on the way become fewer with every turn but the last one. -/
theorem walkWithin_eq_walkCycle (h : g.OnWay stuck path fresh current) {turns : Nat}
    (hturns : fresh.length < turns) :
    g.walkWithin stuck turns path = some (g.walkCycle stuck path fresh current) := by
  induction path, fresh, current using walkCycle.induct g stuck generalizing turns with
  | case1 path fresh current hnone =>
    obtain ⟨turns, rfl⟩ := Nat.exists_eq_add_of_lt hturns
    rw [walkWithin, turn_of_last h.last, walkCycle, hnone]
  | case2 path fresh current next hsome hfresh ih =>
    obtain ⟨turns, rfl⟩ := Nat.exists_eq_add_of_lt hturns
    have hnew : next ∉ path := ((h.fresh next).1 hfresh).2
    have hless := length_without_lt hfresh
    rw [walkWithin, turn_of_last h.last, walkCycle, hsome]
    simp only [if_neg hnew, if_pos hfresh]
    exact ih (h.step (List.mem_of_find?_eq_some hsome) hfresh) (by omega)
  | case3 path fresh current next hsome hfresh =>
    obtain ⟨turns, rfl⟩ := Nat.exists_eq_add_of_lt hturns
    have hstuck : next ∈ stuck := List.contains_iff_mem.1 (List.find?_some hsome)
    have hpath : next ∈ path := h.mem_path hstuck hfresh
    rw [walkWithin, turn_of_last h.last, walkCycle, hsome]
    simp only [if_pos hpath, if_neg hfresh]

theorem walkWithin_eq_cycleIn? (g : DependencyGraph) (ids : List String) :
    g.walkWithin ids (ids.length + 1) (ids.take 1) = some (g.cycleIn? ids) := by
  cases ids with
  | nil => rfl
  | cons first rest =>
    have hfresh := length_without_lt (List.mem_cons_self (a := first) (l := rest))
    exact walkWithin_eq_walkCycle (onWay_start List.mem_cons_self) (by omega)

/-- For any list of ids. In what an order of a scope leaves over, unless it is empty, a cycle is
found. -/
theorem cycleIn?_build (nodes : List String) (edges : List (String × String)) (ids : List String) :
    let g := build nodes edges
    g.walkWithin ids (ids.length + 1) (ids.take 1) = some (g.cycleIn? ids) ∧
      (∀ cycle, g.cycleIn? ids = some cycle →
        IsCycle (fun a b => (b, a) ∈ edges) cycle ∧ cycle ⊆ ids) ∧
      ∀ scope, ids = (g.orderWithin scope).2 → ids ≠ [] → ∃ cycle, g.cycleIn? ids = some cycle := by
  intro g
  have hcites : g.Cites = fun a b => (b, a) ∈ edges := by
    funext a b
    exact propext mem_references_build
  refine ⟨walkWithin_eq_cycleIn? g ids, fun cycle hcycle => hcites ▸ cycleIn?_sound hcycle, ?_⟩
  rintro scope rfl hne
  obtain ⟨cycle, hcycle, -⟩ := (orderWithin_split (build_wellFormed nodes edges) scope).exists_cycleIn? hne
  exact ⟨cycle, hcycle⟩

/-- Two ids that cite each other, and one that cites one of them. -/
def tailed : List (String × String) := [("b", "c"), ("c", "b"), ("b", "a")]

/-- The search starts outside of the cycle. -/
theorem cycleIn?_build_tailed :
    ["a", "b", "c"] = ((build [] tailed).orderWithin fun _ => true).2 ∧ ["a", "b", "c"] ≠ [] ∧
      ∃ cycle, (build [] tailed).cycleIn? ["a", "b", "c"] = some cycle ∧
        IsCycle (fun a b => (b, a) ∈ tailed) cycle ∧ cycle ⊆ ["a", "b", "c"] := by
  have hleft : ["a", "b", "c"] = ((build [] tailed).orderWithin fun _ => true).2 := by decide +kernel
  obtain ⟨-, hsound, hfound⟩ := cycleIn?_build [] tailed ["a", "b", "c"]
  obtain ⟨cycle, hcycle⟩ := hfound (fun _ => true) hleft (by decide)
  exact ⟨hleft, by decide, cycle, hcycle, hsound cycle hcycle⟩

end DesignTokens.DependencyGraph
