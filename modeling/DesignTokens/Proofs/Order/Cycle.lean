import DesignTokens.Order.Cycle
import DesignTokens.Proofs.Order.Graph
import Mathlib.Data.List.Nodup

/-!
# What the depth-first walk finds

* `OnWalk g fresh stops` : the stops stand on a way, and no id is met twice. Every step of the walk
  keeps this, so what it closes is a cycle (`isCycle_of_mem_walk`);
* `g.Settled cut a` : without the edges in `cut` every way from `a` comes to an end;
* `Handled` : an edge of a stop is still ahead, or it is in `cut`, or it leads to a settled id or to the
  stop above;
* `Covered g cut fresh stops` : a node is fresh, on the way or settled. Every step of the walk keeps
  this if `cut` has the edges with which it closes cycles, so in the end all nodes are settled
  (`settled_of_walk`);
* `cycles_complete` : each cycle that is found is one, and without the edges that close them there is
  none.
-/

namespace DesignTokens.OrderGraph

open Relation

variable {g : OrderGraph} {fresh ahead : List String} {stops : List Stop} {stop : Stop}
  {cut : List (String × String)} {id next a b : String}

/-! ## The way of the walk -/

theorem way_cons (stop : Stop) (stops : List Stop) : way (stop :: stops) = way stops ++ [stop.id] := by
  unfold way
  rw [List.reverse_cons, List.map_append]
  rfl

/-- The way does not depend on what is ahead. -/
theorem way_ahead (id : String) (ahead ahead' : List String) (stops : List Stop) :
    way (⟨id, ahead⟩ :: stops) = way (⟨id, ahead'⟩ :: stops) := by
  rw [way_cons, way_cons]

theorem getLast?_way_cons (stop : Stop) (stops : List Stop) :
    (way (stop :: stops)).getLast? = some stop.id := by
  rw [way_cons, List.getLast?_concat]

/-- The stops stand on a way, every id is met once, and what is ahead of a stop is below it. -/
structure OnWalk (g : OrderGraph) (fresh : List String) (stops : List Stop) : Prop where
  chain : (way stops).IsChain g.Edge
  nodup : (way stops ++ fresh).Nodup
  ahead : ∀ stop ∈ stops, ∀ b ∈ stop.ahead, g.Edge stop.id b

theorem onWalk_start (g : OrderGraph) : g.OnWalk g.nodes [] where
  chain := .nil
  nodup := g.below.nodup_keys
  ahead _ hstop := absurd hstop List.not_mem_nil

theorem OnWalk.restart (h : g.OnWalk (id :: fresh) []) : g.OnWalk fresh [⟨id, g.successors id⟩] where
  chain := .singleton id
  nodup := h.nodup
  ahead stop hstop b hb := by
    obtain rfl := List.mem_singleton.1 hstop
    exact hb

theorem OnWalk.pop (h : g.OnWalk fresh (stop :: stops)) : g.OnWalk fresh stops := by
  obtain ⟨hchain, hnodup, hahead⟩ := h
  rw [way_cons] at hchain hnodup
  refine ⟨hchain.left_of_append, hnodup.sublist ?_, fun s hs => hahead s (List.mem_cons_of_mem stop hs)⟩
  exact (List.sublist_append_left _ _).append_right fresh

theorem OnWalk.advance (h : g.OnWalk fresh (⟨id, next :: ahead⟩ :: stops)) :
    g.OnWalk fresh (⟨id, ahead⟩ :: stops) := by
  refine ⟨?_, ?_, fun s hs b hb => ?_⟩
  · rw [way_ahead id ahead (next :: ahead)]
    exact h.chain
  · rw [way_ahead id ahead (next :: ahead)]
    exact h.nodup
  · rcases List.mem_cons.1 hs with rfl | hs
    · exact h.ahead _ List.mem_cons_self b (List.mem_cons_of_mem next hb)
    · exact h.ahead s (List.mem_cons_of_mem _ hs) b hb

theorem OnWalk.edge (h : g.OnWalk fresh (⟨id, next :: ahead⟩ :: stops)) : g.Edge id next :=
  h.ahead _ List.mem_cons_self next List.mem_cons_self

theorem OnWalk.enter (h : g.OnWalk fresh (⟨id, next :: ahead⟩ :: stops)) (hnext : next ∈ fresh) :
    g.OnWalk (fresh.erase next) (⟨next, g.successors next⟩ :: ⟨id, ahead⟩ :: stops) := by
  have hadvance := h.advance
  refine ⟨?_, ?_, fun s hs b hb => ?_⟩
  · rw [way_cons]
    exact isChain_append_singleton hadvance.chain (getLast?_way_cons _ _) h.edge
  · rw [way_cons, List.append_assoc, List.singleton_append]
    exact ((List.perm_cons_erase hnext).append_left _).nodup_iff.1 hadvance.nodup
  · rcases List.mem_cons.1 hs with rfl | hs
    · exact hb
    · exact hadvance.ahead s hs b hb

theorem isCycle_of_mem_walk (h : g.OnWalk fresh stops) {c : List String} (hc : c ∈ walk g fresh stops) :
    IsCycle g.Edge c := by
  induction fresh, stops using walk.induct g with
  | case1 =>
    rw [walk] at hc
    cases hc
  | case2 id fresh ih =>
    rw [walk] at hc
    exact ih h.restart hc
  | case3 fresh id stops ih =>
    rw [walk] at hc
    exact ih h.pop hc
  | case4 fresh id next ahead stops hfresh ih =>
    rw [walk, if_pos hfresh] at hc
    exact ih (h.enter hfresh) hc
  | case5 fresh id next ahead stops hfresh hway ih =>
    rw [walk, if_neg hfresh, if_pos hway] at hc
    rcases List.mem_cons.1 hc with rfl | hc
    · exact isCycle_of_step_back h.advance.chain (List.nodup_append.1 h.advance.nodup).1
        (getLast?_way_cons _ _) h.edge hway
    · exact ih h.advance hc
  | case6 fresh id next ahead stops hfresh hway ih =>
    rw [walk, if_neg hfresh, if_neg hway] at hc
    exact ih h.advance hc

/-! ## The ids that the walk has left -/

/-- Without the edges in `cut` every way from the id comes to an end. -/
def Settled (g : OrderGraph) (cut : List (String × String)) (a : String) : Prop :=
  Acc (fun b a => (g.removeEdges cut).Edge a b) a

theorem settled_of_edges (h : ∀ b, g.Edge a b → (a, b) ∈ cut ∨ g.Settled cut b) : g.Settled cut a := by
  refine Acc.intro a fun b hb => ?_
  obtain ⟨hedge, hcut⟩ := edge_removeEdges.1 hb
  exact (h b hedge).resolve_left hcut

theorem settled_of_not_mem_nodes (h : a ∉ g.nodes) : g.Settled cut a :=
  settled_of_edges fun _ hedge => absurd hedge.mem_nodes h

/-- Each edge of a stop is ahead of it or in `cut`, or it leads to a settled id or to the stop above,
from which the walk has not yet come back. -/
def Handled (g : OrderGraph) (cut : List (String × String)) : Option String → List Stop → Prop
  | _, [] => True
  | above, stop :: stops =>
    (∀ b, g.Edge stop.id b →
      b ∈ stop.ahead ∨ (stop.id, b) ∈ cut ∨ g.Settled cut b ∨ above = some b) ∧
    g.Handled cut (some stop.id) stops

theorem Handled.settled (h : g.Handled cut none (⟨id, []⟩ :: stops)) : g.Settled cut id := by
  refine settled_of_edges fun b hedge => ?_
  rcases h.1 b hedge with hb | hb | hb | hb
  · cases hb
  · exact .inl hb
  · exact .inr hb
  · cases hb

theorem Handled.pop (h : g.Handled cut (some id) stops) (hid : g.Settled cut id) :
    g.Handled cut none stops := by
  cases stops with
  | nil => trivial
  | cons stop stops =>
    refine ⟨fun b hedge => ?_, h.2⟩
    rcases h.1 b hedge with hb | hb | hb | hb
    · exact .inl hb
    · exact .inr (.inl hb)
    · exact .inr (.inr (.inl hb))
    · exact .inr (.inr (.inl (Option.some.inj hb ▸ hid)))

theorem Handled.advance {above : Option String} (h : g.Handled cut none (⟨id, next :: ahead⟩ :: stops))
    (hnext : (id, next) ∈ cut ∨ g.Settled cut next ∨ above = some next) :
    g.Handled cut above (⟨id, ahead⟩ :: stops) := by
  refine ⟨fun b hedge => ?_, h.2⟩
  rcases h.1 b hedge with hb | hb | hb | hb
  · rcases List.mem_cons.1 hb with rfl | hb
    · exact .inr hnext
    · exact .inl hb
  · exact .inr (.inl hb)
  · exact .inr (.inr (.inl hb))
  · cases hb

/-- Every node is fresh, on the way or settled, and the edges of the stops are handled. -/
structure Covered (g : OrderGraph) (cut : List (String × String)) (fresh : List String)
    (stops : List Stop) : Prop where
  nodes : ∀ a ∈ g.nodes, a ∈ fresh ∨ a ∈ way stops ∨ g.Settled cut a
  handled : g.Handled cut none stops

theorem covered_start (g : OrderGraph) (cut : List (String × String)) : g.Covered cut g.nodes [] :=
  ⟨fun _ ha => .inl ha, trivial⟩

theorem Covered.restart (h : g.Covered cut (id :: fresh) []) :
    g.Covered cut fresh [⟨id, g.successors id⟩] := by
  refine ⟨fun a ha => ?_, fun b hedge => .inl hedge, trivial⟩
  rcases h.nodes a ha with ha | ha | ha
  · rcases List.mem_cons.1 ha with rfl | ha
    · exact .inr (.inl List.mem_cons_self)
    · exact .inl ha
  · cases ha
  · exact .inr (.inr ha)

theorem Covered.pop (h : g.Covered cut fresh (⟨id, []⟩ :: stops)) : g.Covered cut fresh stops := by
  have hid : g.Settled cut id := h.handled.settled
  refine ⟨fun a ha => ?_, h.handled.2.pop hid⟩
  rcases h.nodes a ha with ha | ha | ha
  · exact .inl ha
  · rw [way_cons, List.mem_append, List.mem_singleton] at ha
    rcases ha with ha | rfl
    · exact .inr (.inl ha)
    · exact .inr (.inr hid)
  · exact .inr (.inr ha)

theorem Covered.advance (h : g.Covered cut fresh (⟨id, next :: ahead⟩ :: stops))
    (hnext : (id, next) ∈ cut ∨ g.Settled cut next) : g.Covered cut fresh (⟨id, ahead⟩ :: stops) := by
  refine ⟨?_, h.handled.advance (hnext.imp_right .inl)⟩
  rw [way_ahead id ahead (next :: ahead)]
  exact h.nodes

theorem Covered.enter (h : g.Covered cut fresh (⟨id, next :: ahead⟩ :: stops)) :
    g.Covered cut (fresh.erase next) (⟨next, g.successors next⟩ :: ⟨id, ahead⟩ :: stops) := by
  refine ⟨fun a ha => ?_, fun b hedge => .inl hedge, h.handled.advance (.inr (.inr rfl))⟩
  rw [way_cons, way_ahead id ahead (next :: ahead), List.mem_append, List.mem_singleton]
  rcases h.nodes a ha with ha | ha | ha
  · by_cases hne : a = next
    · exact .inr (.inl (.inr hne))
    · exact .inl ((List.mem_erase_of_ne hne).2 ha)
  · exact .inr (.inl (.inl ha))
  · exact .inr (.inr ha)

theorem Covered.settled (h : g.Covered cut fresh stops) (hfresh : a ∉ fresh) (hway : a ∉ way stops) :
    g.Settled cut a := by
  by_cases hnode : a ∈ g.nodes
  · exact ((h.nodes a hnode).resolve_left hfresh).resolve_left hway
  · exact settled_of_not_mem_nodes hnode

theorem lastStep?_closed (hway : next ∈ way (⟨id, ahead⟩ :: stops)) :
    lastStep? (closed (⟨id, ahead⟩ :: stops) next) = some (id, next) := by
  unfold closed
  refine lastStep?_append_singleton ?_ next
  rw [getLast?_dropWhile_ne hway, getLast?_way_cons]

/-- When the walk ends nothing is fresh and nothing is on the way. -/
theorem settled_of_walk (h : g.Covered cut fresh stops)
    (hcut : (walk g fresh stops).filterMap lastStep? ⊆ cut) (a : String) : g.Settled cut a := by
  induction fresh, stops using walk.induct g with
  | case1 => exact h.settled List.not_mem_nil List.not_mem_nil
  | case2 id fresh ih =>
    rw [walk] at hcut
    exact ih h.restart hcut
  | case3 fresh id stops ih =>
    rw [walk] at hcut
    exact ih h.pop hcut
  | case4 fresh id next ahead stops hfresh ih =>
    rw [walk, if_pos hfresh] at hcut
    exact ih h.enter hcut
  | case5 fresh id next ahead stops hfresh hway ih =>
    -- the walk closes a cycle with this edge, so it is cut
    rw [walk, if_neg hfresh, if_pos hway, List.filterMap_cons, lastStep?_closed hway] at hcut
    obtain ⟨hedge, hrest⟩ := List.cons_subset.1 hcut
    exact ih (h.advance (.inl hedge)) hrest
  | case6 fresh id next ahead stops hfresh hway ih =>
    -- neither fresh nor on the way: the walk has left it before
    rw [walk, if_neg hfresh, if_neg hway] at hcut
    rw [way_ahead id ahead (next :: ahead)] at hway
    exact ih (h.advance (.inr (h.settled hfresh hway))) hcut

/-! ## The cycles that are found -/

theorem isCycle_of_mem_cycles {c : List String} (h : c ∈ g.cycles) : IsCycle g.Edge c :=
  isCycle_of_mem_walk (onWalk_start g) h

/-- The edges with which the cycles of the walk are closed. -/
def closingEdges (g : OrderGraph) : List (String × String) := g.cycles.filterMap lastStep?

theorem acyclic_removeEdges_closingEdges (g : OrderGraph) : Acyclic (g.removeEdges g.closingEdges).Edge :=
  acyclic_of_acc (settled_of_walk (covered_start g _) (List.Subset.refl _))

theorem cycles_complete (g : OrderGraph) :
    (∀ c ∈ g.cycles, IsCycle g.Edge c) ∧
      Acyclic (g.removeEdges (g.cycles.filterMap lastStep?)).Edge ∧
      (g.cycles = [] ↔ Acyclic g.Edge) := by
  refine ⟨fun c hc => isCycle_of_mem_cycles hc, acyclic_removeEdges_closingEdges g, ?_, ?_⟩
  · intro hnil
    have hacyclic := acyclic_removeEdges_closingEdges g
    rw [closingEdges, hnil] at hacyclic
    exact hacyclic
  · intro hacyclic
    rw [List.eq_nil_iff_forall_not_mem]
    intro c hc
    exact (isCycle_of_mem_cycles hc).not_acyclic hacyclic

example : (ofTriples [⟨"a", .atLeast, "b"⟩, ⟨"b", .atLeast, "c"⟩, ⟨"c", .atLeast, "b"⟩,
    ⟨"c", .atLeast, "c"⟩]).cycles = [["b", "c", "b"], ["c", "c"]] := by
  cbv

end DesignTokens.OrderGraph
