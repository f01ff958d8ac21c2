import DesignTokens.Proofs.Cycle
import DesignTokens.Proofs.Dependency.Order
import Mathlib.Data.List.Nodup

/-!
# Cycles of citations

* `OnWay g stuck path fresh current` : what holds whenever the walk through the ids of a list goes on:
  each id of `path` cites the next one, the last one is `current`, and `fresh` is the rest of the list;
* `cycleIn?_sound` : what is found is a cycle in which each id cites the next one, and it stays in
  the list;
* `isSome_cycleIn?` : a cycle is found if each id of the list cites another one of it;
* `Split.exists_cycleIn?` : so there is one among the tokens that are left over.
-/

namespace DesignTokens.DependencyGraph

variable {g : DependencyGraph} {scope : String → Bool}
  {stuck path fresh order cycle : List String} {current next : String}

/-- The first id cites the second one. -/
def Cites (g : DependencyGraph) (a b : String) : Prop := b ∈ g.references a

/-- What holds whenever the walk goes on. -/
structure OnWay (g : DependencyGraph) (stuck path fresh : List String) (current : String) : Prop where
  chain : path.IsChain g.Cites
  nodup : path.Nodup
  last : path.getLast? = some current
  inside : path ⊆ stuck
  fresh : ∀ x, x ∈ fresh ↔ x ∈ stuck ∧ x ∉ path

theorem mem_without {id x : String} {ids : List String} : x ∈ without id ids ↔ x ∈ ids ∧ x ≠ id := by
  unfold without
  simp

theorem onWay_start (hcurrent : current ∈ stuck) :
    g.OnWay stuck [current] (without current stuck) current where
  chain := .singleton current
  nodup := List.nodup_singleton current
  last := rfl
  inside x hx := List.mem_singleton.1 hx ▸ hcurrent
  fresh x := by rw [mem_without, List.mem_singleton]

theorem OnWay.step (h : g.OnWay stuck path fresh current) (hcites : g.Cites current next)
    (hnext : next ∈ fresh) : g.OnWay stuck (path ++ [next]) (without next fresh) next := by
  obtain ⟨hstuck, hnew⟩ := (h.fresh next).1 hnext
  refine ⟨?_, ?_, List.getLast?_concat, ?_, ?_⟩
  · exact isChain_append_singleton h.chain h.last hcites
  · rw [List.nodup_append_comm, List.singleton_append, List.nodup_cons]
    exact ⟨hnew, h.nodup⟩
  · intro x hx
    rcases List.mem_append.1 hx with hx | hx
    · exact h.inside hx
    · exact List.mem_singleton.1 hx ▸ hstuck
  · intro x
    rw [mem_without, h.fresh, List.mem_append, List.mem_singleton]
    tauto

theorem OnWay.mem_path (h : g.OnWay stuck path fresh current) (hstuck : next ∈ stuck)
    (hnext : next ∉ fresh) : next ∈ path := by
  by_contra hnew
  exact hnext ((h.fresh next).2 ⟨hstuck, hnew⟩)

theorem walkCycle_sound (h : g.OnWay stuck path fresh current)
    (hcycle : g.walkCycle stuck path fresh current = some cycle) :
    IsCycle g.Cites cycle ∧ cycle ⊆ stuck := by
  induction path, fresh, current using walkCycle.induct g stuck with
  | case1 path fresh current hnone =>
    rw [walkCycle, hnone] at hcycle
    cases hcycle
  | case2 path fresh current next hsome hfresh ih =>
    rw [walkCycle, hsome] at hcycle
    simp only [if_pos hfresh] at hcycle
    exact ih (h.step (List.mem_of_find?_eq_some hsome) hfresh) hcycle
  | case3 path fresh current next hsome hfresh =>
    rw [walkCycle, hsome] at hcycle
    simp only [if_neg hfresh, Option.some.injEq] at hcycle
    subst hcycle
    have hcites : g.Cites current next := List.mem_of_find?_eq_some hsome
    have hstuck : next ∈ stuck := List.contains_iff_mem.1 (List.find?_some hsome)
    have hpath : next ∈ path := h.mem_path hstuck hfresh
    refine ⟨isCycle_of_step_back h.chain h.nodup h.last hcites hpath, ?_⟩
    intro x hx
    rcases List.mem_append.1 hx with hx | hx
    · exact h.inside ((List.dropWhile_suffix _).subset hx)
    · exact List.mem_singleton.1 hx ▸ hstuck

theorem isSome_walkCycle (hblocked : ∀ x ∈ stuck, ∃ r ∈ g.references x, r ∈ stuck)
    (h : g.OnWay stuck path fresh current) : (g.walkCycle stuck path fresh current).isSome := by
  induction path, fresh, current using walkCycle.induct g stuck with
  | case1 path fresh current hnone =>
    -- the walk is still inside the list, where every id cites another one of it
    have hcurrent : current ∈ stuck := h.inside (List.mem_of_getLast? h.last)
    obtain ⟨r, hr, hstuck⟩ := hblocked current hcurrent
    exact absurd (List.contains_iff_mem.2 hstuck) (List.find?_eq_none.1 hnone r hr)
  | case2 path fresh current next hsome hfresh ih =>
    rw [walkCycle, hsome]
    simp only [if_pos hfresh]
    exact ih (h.step (List.mem_of_find?_eq_some hsome) hfresh)
  | case3 path fresh current next hsome hfresh =>
    rw [walkCycle, hsome]
    simp only [if_neg hfresh, Option.isSome_some]

theorem cycleIn?_sound (h : g.cycleIn? stuck = some cycle) :
    IsCycle g.Cites cycle ∧ cycle ⊆ stuck := by
  cases stuck with
  | nil => cases h
  | cons first rest => exact walkCycle_sound (onWay_start List.mem_cons_self) h

theorem isSome_cycleIn? (hne : stuck ≠ [])
    (hblocked : ∀ x ∈ stuck, ∃ r ∈ g.references x, r ∈ stuck) : (g.cycleIn? stuck).isSome := by
  cases stuck with
  | nil => exact absurd rfl hne
  | cons first rest => exact isSome_walkCycle hblocked (onWay_start List.mem_cons_self)

theorem Split.exists_cycleIn? (h : g.Split scope order stuck) (hne : stuck ≠ []) :
    ∃ cycle, g.cycleIn? stuck = some cycle ∧ IsCycle g.Cites cycle ∧ cycle ⊆ stuck := by
  obtain ⟨cycle, hcycle⟩ := Option.isSome_iff_exists.1 (isSome_cycleIn? hne h.blocked)
  exact ⟨cycle, hcycle, cycleIn?_sound hcycle⟩

end DesignTokens.DependencyGraph
