import DesignTokens.Order.Diagram
import DesignTokens.Order.View
import DesignTokens.Proofs.Order.Reduction

/-!
# Edges lead to nodes

* `g.Closed` : every edge leads to a node. Every change of a graph keeps this: with an edge its end
  comes as a node, edges go before nodes do, and a part of a graph has only edges between nodes that
  it keeps;
* `Thins.addEdge` : an edge of a closed graph can be put back into a thinner one;
* `Built g` : the graph comes from no nodes or from triples by any changes;
* `Built.ends_identified` : so a flowchart has an identifier for each end of each edge.
-/

namespace DesignTokens.OrderGraph

open Relation

variable {g r : OrderGraph} {a b x y : String}

/-- Every edge leads to a node. -/
def Closed (g : OrderGraph) : Prop := ∀ ⦃a b⦄, g.Edge a b → b ∈ g.nodes

theorem closed_empty : empty.Closed := by
  intro a b hedge
  cases hedge

/-! ## What keeps a graph closed -/

theorem Closed.addNode (h : g.Closed) (id : String) : (g.addNode id).Closed := by
  intro x y hedge
  rw [edge_addNode] at hedge
  exact (mem_nodes_addNode g).2 (.inr (h hedge))

theorem Closed.addEdge (h : g.Closed) (a b : String) : (g.addEdge a b).Closed := by
  intro x y hedge
  rw [mem_nodes_addEdge]
  rcases edge_addEdge.1 hedge with ⟨-, rfl⟩ | hedge
  · exact .inr (.inl rfl)
  · exact .inr (.inr (h hedge))

theorem closed_ofTriples (ts : List OrderTriple) : (ofTriples ts).Closed := by
  suffices h : ∀ g : OrderGraph, g.Closed →
      (ts.foldl (fun g t => g.addEdge t.edge.1 t.edge.2) g).Closed from h empty closed_empty
  induction ts with
  | nil => exact fun g hg => hg
  | cons t ts ih => exact fun g hg => ih _ (hg.addEdge t.edge.1 t.edge.2)

theorem Closed.of_thins (h : g.Closed) (hr : r.Thins g) : r.Closed := by
  intro x y hedge
  rw [hr.nodes]
  exact h (hr.edge hedge)

theorem Closed.removeEdge (h : g.Closed) (a b : String) : (g.removeEdge a b).Closed := by
  intro x y hedge
  rw [nodes_removeEdge]
  exact h (edge_removeEdge.1 hedge).1

theorem Closed.reduction (h : g.Closed) : g.reduction.Closed := h.of_thins (reduction_thins g)

theorem Closed.induced (h : g.Closed) (keep : String → Bool) : (g.induced keep).Closed := by
  intro x y hedge
  obtain ⟨hedge, -, hy⟩ := edge_induced.1 hedge
  exact mem_nodes_induced.2 ⟨h hedge, hy⟩

/-- In a part of a closed graph are just the edges between the nodes that are kept. -/
theorem Closed.edge_induced (h : g.Closed) {keep : String → Bool} : (g.induced keep).Edge a b ↔
    g.Edge a b ∧ a ∈ (g.induced keep).nodes ∧ b ∈ (g.induced keep).nodes := by
  rw [OrderGraph.edge_induced, mem_nodes_induced, mem_nodes_induced]
  constructor
  · rintro ⟨hedge, ha, hb⟩
    exact ⟨hedge, ⟨hedge.mem_nodes, ha⟩, h hedge, hb⟩
  · rintro ⟨hedge, ⟨-, ha⟩, -, hb⟩
    exact ⟨hedge, ha, hb⟩

/-! ## Putting edges back -/

theorem Thins.addEdge (hr : r.Thins g) (hg : g.Closed) (hab : g.Edge a b) :
    (r.addEdge a b).Thins g := by
  refine ⟨SortedMap.keys_eq_of_mem fun x => ?_, fun hxy => ?_, fun hway => ?_⟩
  · show x ∈ (r.addEdge a b).nodes ↔ x ∈ g.nodes
    rw [mem_nodes_addEdge, hr.nodes]
    constructor
    · rintro (rfl | rfl | hx)
      · exact hab.mem_nodes
      · exact hg hab
      · exact hx
    · exact fun hx => .inr (.inr hx)
  · rcases edge_addEdge.1 hxy with ⟨rfl, rfl⟩ | hxy
    · exact hab
    · exact hr.edge hxy
  · exact TransGen.mono (fun _ _ hxy => edge_addEdge.2 (.inr hxy)) _ _ (hr.way hway)

/-- By induction on the edges that are put back. -/
theorem Thins.foldl_addEdge {ι : Type} {f : ι → String × String} {l : List ι} (hr : r.Thins g)
    (hg : g.Closed) (hl : ∀ i ∈ l, g.Edge (f i).1 (f i).2) :
    (l.foldl (fun r i => r.addEdge (f i).1 (f i).2) r).Thins g := by
  induction l generalizing r with
  | nil => exact hr
  | cons i l ih =>
    obtain ⟨hi, hl⟩ := List.forall_mem_cons.1 hl
    exact ih (hr.addEdge hg hi) hl

/-! ## Graphs that are built by changes -/

/-- The graph comes from no nodes or from triples by any changes. -/
inductive Built : OrderGraph → Prop
  | empty : Built empty
  | ofTriples (ts : List OrderTriple) : Built (ofTriples ts)
  | addNode {g : OrderGraph} (id : String) : Built g → Built (g.addNode id)
  | addEdge {g : OrderGraph} (a b : String) : Built g → Built (g.addEdge a b)
  | removeEdge {g : OrderGraph} (a b : String) : Built g → Built (g.removeEdge a b)
  | reduction {g : OrderGraph} : Built g → Built g.reduction
  | induced {g : OrderGraph} (keep : String → Bool) : Built g → Built (g.induced keep)
  | under {g : OrderGraph} (starts : List String) : Built g → Built (g.under starts)
  | outside {g : OrderGraph} (starts : List String) : Built g → Built (g.outside starts)
  | around {g : OrderGraph} (ids : List String) (k : Nat) : Built g → Built (g.around ids k)

theorem Built.closed (h : Built g) : g.Closed := by
  induction h with
  | empty => exact closed_empty
  | ofTriples ts => exact closed_ofTriples ts
  | addNode id _ ih => exact ih.addNode id
  | addEdge a b _ ih => exact ih.addEdge a b
  | removeEdge a b _ ih => exact ih.removeEdge a b
  | reduction _ ih => exact ih.reduction
  | induced keep _ ih => exact ih.induced keep
  | under starts _ ih => exact ih.induced _
  | outside starts _ ih => exact ih.induced _
  | around ids k _ ih => exact ih.induced _

/-! ## The identifiers of a flowchart -/

theorem map_fst_nameAll (taken ids : List String) : (nameAll taken ids).map Prod.fst = ids := by
  induction ids generalizing taken with
  | nil => rfl
  | cons id ids ih => rw [nameAll, List.map_cons, ih]

theorem map_fst_identifiers (g : OrderGraph) : g.identifiers.map Prod.fst = g.nodes :=
  map_fst_nameAll [] g.nodes

/-- A node has an identifier, so none is made up for it. -/
theorem lookup_identifiers (h : x ∈ g.nodes) :
    g.identifiers.lookup x = some (identifierIn g.identifiers x) := by
  rw [← map_fst_identifiers] at h
  obtain ⟨n, hn, rfl⟩ := List.mem_map.1 h
  have hsome : (g.identifiers.lookup n.1).isSome := List.lookup_isSome_iff.2 ⟨n, hn, beq_self_eq_true _⟩
  obtain ⟨name, hname⟩ := Option.isSome_iff_exists.1 hsome
  rw [identifierIn, hname, Option.getD_some]

theorem Built.ends_identified (h : Built g) :
    (∀ a ∈ g.nodes, ∀ b ∈ g.successors a, b ∈ g.nodes) ∧ g.identifiers.map Prod.fst = g.nodes ∧
      ∀ a b, (a, b) ∈ g.edges →
        g.identifiers.lookup a = some (identifierIn g.identifiers a) ∧
          g.identifiers.lookup b = some (identifierIn g.identifiers b) := by
  refine ⟨fun a _ b hb => h.closed hb, map_fst_identifiers g, fun a b hab => ?_⟩
  have hedge : g.Edge a b := mem_edges.1 hab
  exact ⟨lookup_identifiers hedge.mem_nodes, lookup_identifiers (h.closed hedge)⟩

/-- What is left around an id of an order after some changes; one of the ids is no node. -/
def reworkedChain : OrderGraph :=
  (((ofTriples chainAndMore).removeEdge "a" "c").addNode "d").around ["b", "e"] 1

theorem Built.ends_identified_reworkedChain :
    Built reworkedChain ∧ ("b", "c") ∈ reworkedChain.edges ∧
      reworkedChain.identifiers.lookup "c" = some (identifierIn reworkedChain.identifiers "c") := by
  have hbuilt : Built reworkedChain :=
    (((Built.ofTriples chainAndMore).removeEdge "a" "c").addNode "d").around ["b", "e"] 1
  have hmem : ("b", "c") ∈ reworkedChain.edges := by decide +kernel
  exact ⟨hbuilt, hmem, (hbuilt.ends_identified.2.2 "b" "c" hmem).2⟩

end DesignTokens.OrderGraph
