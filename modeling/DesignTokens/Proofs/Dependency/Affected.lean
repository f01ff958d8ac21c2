import DesignTokens.Proofs.Dependency.Graph
import DesignTokens.Proofs.Search

/-!
# What depends on a token

* `DependencyGraph.mem_affected` : the affected tokens are the other ones that are reached by one or
  more citations;
* `mem_affected_of_feeds` : what cites a token or an affected one is affected;
* `affected_build` : in the graph of a list of pairs they are, in strictly ascending order, the other
  ids to which the pairs lead.
-/

namespace DesignTokens

open Relation

namespace DependencyGraph

variable {g : DependencyGraph} {id x y : String}

theorem mem_affected_iff_mem_explore : x ∈ g.affected id ↔
    x ∈ explore g.dependents (g.nodes.filter (· ≠ id)) (g.dependents id) := by
  rw [affected, List.mem_filter, List.contains_iff_mem, and_iff_right_iff_imp]
  exact mem_pool_of_mem_explore

/-- The search has nowhere to start. -/
theorem affected_eq_nil (h : g.dependents id = []) : g.affected id = [] := by
  unfold affected
  simp [h, explore]

theorem mem_others : x ∈ g.nodes.filter (· ≠ id) ↔ x ∈ g.nodes ∧ x ≠ id := by simp

theorem mem_affected (hg : g.WellFormed) :
    x ∈ g.affected id ↔ x ≠ id ∧ TransGen g.Feeds id x := by
  rw [mem_affected_iff_mem_explore]
  constructor
  · intro h
    refine ⟨(mem_others.1 (mem_pool_of_mem_explore h)).2, ?_⟩
    obtain ⟨s, hs, hx⟩ := explore_sound h
    exact .head' hs hx
  · rintro ⟨hne, hx⟩
    obtain ⟨enter, go⟩ :=
      explore_closed g.dependents (g.nodes.filter (· ≠ id)) (g.dependents id)
    -- a path may come back to `id`, which the search never enters: from there it starts again
    have met : x = id ∨ x ∈ explore g.dependents (g.nodes.filter (· ≠ id)) (g.dependents id) := by
      induction hx with
      | @single b h =>
        rw [or_iff_not_imp_left]
        exact fun hb => enter b h (mem_others.2 ⟨hg.node_right h, hb⟩)
      | @tail b c _ h ih =>
        rw [or_iff_not_imp_left]
        intro hc
        have hpool := mem_others.2 ⟨hg.node_right h, hc⟩
        by_cases hb : b = id
        · exact enter c (hb ▸ h) hpool
        · exact go b ((ih hb).resolve_left hb) c h hpool
    exact met.resolve_left hne

/-- A token that cites nothing depends on nothing. -/
theorem not_mem_affected_of_references_eq_nil (hg : g.WellFormed) (h : g.references x = []) :
    x ∉ g.affected id := by
  intro hx
  obtain ⟨s, -, hfeeds⟩ := TransGen.tail'_iff.1 ((mem_affected hg).1 hx).2
  have hs : s ∈ g.references x := hg.converse.1 hfeeds
  rw [h] at hs
  cases hs

theorem not_mem_affected_self : id ∉ g.affected id := fun h =>
  (mem_others.1 (mem_pool_of_mem_explore (mem_affected_iff_mem_explore.1 h))).2 rfl

theorem mem_nodes_of_mem_affected (h : x ∈ g.affected id) : x ∈ g.nodes :=
  (mem_others.1 (mem_pool_of_mem_explore (mem_affected_iff_mem_explore.1 h))).1

theorem mem_affected_of_feeds (hg : g.WellFormed) (hx : x = id ∨ x ∈ g.affected id)
    (hy : g.Feeds x y) : y = id ∨ y ∈ g.affected id := by
  rw [or_iff_not_imp_left, mem_affected hg]
  refine fun hne => ⟨hne, ?_⟩
  rcases hx with rfl | hx
  · exact .single hy
  · exact ((mem_affected hg).1 hx).2.tail hy

theorem sorted_affected (g : DependencyGraph) (id : String) : (g.affected id).Pairwise (· < ·) :=
  (g.sorted_nodes.filter _).filter _

theorem affected_build (nodes : List String) (edges : List (String × String)) (id : String) :
    ((build nodes edges).affected id).Pairwise (· < ·) ∧
      ∀ x, x ∈ (build nodes edges).affected id ↔
        x ≠ id ∧ TransGen (fun a b => (a, b) ∈ edges) id x := by
  refine ⟨sorted_affected _ id, fun x => ?_⟩
  rw [mem_affected (build_wellFormed nodes edges), feeds_build]

end DependencyGraph

end DesignTokens
