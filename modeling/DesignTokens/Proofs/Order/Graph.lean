import DesignTokens.Order.Graph
import DesignTokens.Proofs.Cycle
import DesignTokens.Proofs.SortedMap
import Mathlib.Tactic.Tauto

/-!
# Edges and ways of an order graph

* `g.Edge a b` : there is an edge from `a` to `b`; `mem_edges`, `hasEdge_iff` say which edges are
  listed and found, `edge_addEdge`, `edge_ofTriples`, `edge_removeEdge` and `edge_induced` which a changed
  graph has, and `mem_nodes_addEdge`, `nodes_removeEdge`, `mem_nodes_induced` which nodes;
* `ext_edge` : graphs with the same nodes and edges are equal;
* `removeEdges es` : the graph without the edges of a list.
-/

namespace DesignTokens.OrderGraph

open Relation

variable {g h : OrderGraph} {a b x y : String}

/-- There is an edge from `a` to `b`. -/
def Edge (g : OrderGraph) (a b : String) : Prop := b ∈ g.successors a

theorem hasEdge_iff : g.hasEdge a b = true ↔ g.Edge a b := List.contains_iff_mem

theorem edge_iff_get? : g.Edge a b ↔ ∃ bs, g.below.get? a = some bs ∧ b ∈ SortedSet.toList bs := by
  unfold Edge successors
  cases g.below.get? a with
  | none =>
    simp only [Option.getD_none, reduceCtorEq, false_and, exists_false, iff_false]
    exact List.not_mem_nil
  | some bs => simp

theorem Edge.mem_nodes (h : g.Edge a b) : a ∈ g.nodes := by
  obtain ⟨bs, hbs, -⟩ := edge_iff_get?.1 h
  exact g.below.mem_keys.2 (hbs ▸ rfl)

theorem mem_edges : (a, b) ∈ g.edges ↔ g.Edge a b := by
  unfold edges
  rw [edge_iff_get?, List.mem_flatMap]
  constructor
  · rintro ⟨⟨a', bs⟩, hentry, hmem⟩
    obtain ⟨b', hb, heq⟩ := List.mem_map.1 hmem
    obtain ⟨rfl, rfl⟩ := Prod.mk.inj heq
    exact ⟨bs, g.below.get?_eq_some.2 hentry, hb⟩
  · rintro ⟨bs, hget, hb⟩
    exact ⟨(a, bs), g.below.get?_eq_some.1 hget, List.mem_map_of_mem hb⟩

/-- A graph is known from its nodes and its edges. -/
theorem ext_edge (hnodes : g.nodes = h.nodes) (hedge : ∀ a b, g.Edge a b ↔ h.Edge a b) : g = h := by
  refine OrderGraph.ext (SortedMap.ext_get? fun a => ?_)
  have hsome : (g.below.get? a).isSome = (h.below.get? a).isSome := by
    rw [Bool.eq_iff_iff, ← SortedMap.mem_keys, ← SortedMap.mem_keys]
    show a ∈ g.nodes ↔ a ∈ h.nodes
    rw [hnodes]
  have hiff (b : String) := hedge a b
  simp only [edge_iff_get?] at hiff
  cases hg : g.below.get? a <;> cases hh : h.below.get? a <;> simp only [hg, hh] at hsome hiff
  case none.none => rfl
  case none.some => cases hsome
  case some.none => cases hsome
  case some.some bs cs =>
    rw [Option.some.injEq]
    refine SortedSet.ext_mem fun b => ?_
    simpa using hiff b

/-! ## Adding edges -/

theorem edge_addNode (g : OrderGraph) (id : String) : (g.addNode id).Edge a b ↔ g.Edge a b := by
  unfold Edge successors addNode
  rw [getD_adjust_id]

theorem edge_addEdge : (g.addEdge a b).Edge x y ↔ (x = a ∧ y = b) ∨ g.Edge x y := by
  rw [← edge_addNode g b]
  exact mem_getD_adjust_add (g.addNode b).below a b x y

/-- The edges that the members of a list stand for, added in turn. -/
theorem edge_foldl_addEdge {ι : Type} (f : ι → String × String) (l : List ι) (g : OrderGraph) :
    (l.foldl (fun g i => g.addEdge (f i).1 (f i).2) g).Edge a b ↔ (a, b) ∈ l.map f ∨ g.Edge a b := by
  induction l generalizing g with
  | nil => simp
  | cons i l ih =>
    rw [List.foldl_cons, ih, edge_addEdge, List.map_cons, List.mem_cons, Prod.ext_iff]
    tauto

theorem edge_ofTriples {ts : List OrderTriple} :
    (ofTriples ts).Edge a b ↔ (a, b) ∈ ts.map OrderTriple.edge := by
  rw [ofTriples, edge_foldl_addEdge OrderTriple.edge]
  exact or_iff_left List.not_mem_nil

theorem mem_nodes_addNode (g : OrderGraph) {id : String} :
    x ∈ (g.addNode id).nodes ↔ x = id ∨ x ∈ g.nodes :=
  g.below.mem_keys_insert

theorem mem_nodes_addEdge : x ∈ (g.addEdge a b).nodes ↔ x = a ∨ x = b ∨ x ∈ g.nodes := by
  rw [← mem_nodes_addNode]
  exact (g.addNode b).below.mem_keys_insert

/-! ## Removing edges -/

theorem nodes_removeEdge (g : OrderGraph) (a b : String) : (g.removeEdge a b).nodes = g.nodes := by
  unfold removeEdge
  cases hget : g.below.get? a with
  | none => rfl
  | some bs => exact SortedMap.keys_insert_of_mem (g.below.mem_keys.2 (hget ▸ rfl)) _

theorem edge_removeEdge : (g.removeEdge a b).Edge x y ↔ g.Edge x y ∧ (x, y) ≠ (a, b) := by
  rw [edge_iff_get?, edge_iff_get?]
  unfold removeEdge
  cases hget : g.below.get? a with
  | none =>
    refine ⟨fun h => ⟨h, ?_⟩, And.left⟩
    rintro heq
    obtain ⟨rfl, rfl⟩ := Prod.mk.inj heq
    obtain ⟨bs, hbs, -⟩ := h
    rw [hget] at hbs
    cases hbs
  | some bs =>
    by_cases hx : x = a
    · subst hx
      simp [hget, SortedSet.mem_erase]
    · simp [SortedMap.get?_insert_of_ne _ _ hx, hx]

def removeEdges (g : OrderGraph) (es : List (String × String)) : OrderGraph :=
  es.foldl (fun g e => g.removeEdge e.1 e.2) g

theorem edge_removeEdges {es : List (String × String)} :
    (g.removeEdges es).Edge x y ↔ g.Edge x y ∧ (x, y) ∉ es := by
  induction es generalizing g with
  | nil => simp [removeEdges]
  | cons e es ih =>
    unfold removeEdges at ih ⊢
    rw [List.foldl_cons, ih, edge_removeEdge, List.mem_cons, not_or, and_assoc]

/-! ## Keeping some of the nodes -/

theorem mem_nodes_induced {keep : String → Bool} :
    x ∈ (g.induced keep).nodes ↔ x ∈ g.nodes ∧ keep x = true := by
  unfold induced nodes
  rw [SortedMap.keys_mapValues]
  exact g.below.mem_keys_filter

theorem edge_induced {keep : String → Bool} :
    (g.induced keep).Edge a b ↔ g.Edge a b ∧ keep a = true ∧ keep b = true := by
  rw [edge_iff_get?, edge_iff_get?, induced, SortedMap.get?_mapValues]
  constructor
  · rintro ⟨cs, hcs, hb⟩
    obtain ⟨bs, hbs, rfl⟩ := Option.map_eq_some_iff.1 hcs
    obtain ⟨hget, ha⟩ := g.below.get?_filter_eq_some.1 hbs
    obtain ⟨hmem, hb⟩ := (SortedSet.mem_filter bs).1 hb
    exact ⟨⟨bs, hget, hmem⟩, ha, hb⟩
  · rintro ⟨⟨bs, hget, hmem⟩, ha, hb⟩
    refine ⟨_, Option.map_eq_some_iff.2 ⟨bs, ?_, rfl⟩, (SortedSet.mem_filter bs).2 ⟨hmem, hb⟩⟩
    exact g.below.get?_filter_eq_some.2 ⟨hget, ha⟩

end DesignTokens.OrderGraph
