import DesignTokens.Search
import Mathlib.Logic.Relation

/-!
# What a search meets

* `explore_sound` : a search meets only what can be reached from its stack;
* `explore_closed` : it enters its stack and goes on from everything that it meets, as far as these are
  in the pool.
-/

namespace DesignTokens

open Relation

variable {α : Type} [DecidableEq α] {next : α → List α} {pool stack : List α}

theorem mem_pool_of_mem_explore {x : α} (h : x ∈ explore next pool stack) : x ∈ pool := by
  induction pool, stack using explore.induct next with
  | case1 pool => simp [explore] at h
  | case2 pool s stack hs ih =>
    rw [explore, if_pos hs] at h
    rcases List.mem_cons.1 h with rfl | h
    · exact hs
    · exact List.mem_of_mem_erase (ih h)
  | case3 pool s stack hs ih =>
    rw [explore, if_neg hs] at h
    exact ih h

theorem explore_sound {x : α} (h : x ∈ explore next pool stack) :
    ∃ s ∈ stack, ReflTransGen (fun a b => b ∈ next a) s x := by
  induction pool, stack using explore.induct next with
  | case1 pool => simp [explore] at h
  | case2 pool s stack hs ih =>
    rw [explore, if_pos hs] at h
    rcases List.mem_cons.1 h with rfl | h
    · exact ⟨x, List.mem_cons_self, .refl⟩
    obtain ⟨t, ht, hx⟩ := ih h
    rcases List.mem_append.1 ht with ht | ht
    · exact ⟨s, List.mem_cons_self, hx.head ht⟩
    · exact ⟨t, List.mem_cons_of_mem s ht, hx⟩
  | case3 pool s stack hs ih =>
    rw [explore, if_neg hs] at h
    obtain ⟨t, ht, hx⟩ := ih h
    exact ⟨t, List.mem_cons_of_mem s ht, hx⟩

/-- The search enters its stack, and it goes on from everything that it meets. -/
theorem explore_closed (next : α → List α) (pool stack : List α) :
    (∀ x ∈ stack, x ∈ pool → x ∈ explore next pool stack) ∧
      ∀ x ∈ explore next pool stack, ∀ y ∈ next x, y ∈ pool → y ∈ explore next pool stack := by
  induction pool, stack using explore.induct next with
  | case1 pool => simp [explore]
  | case2 pool s stack hs ih =>
    obtain ⟨enter, go⟩ := ih
    rw [explore, if_pos hs]
    have rest (y : α) (hy : y ∈ pool) (h : y ≠ s → y ∈ pool.erase s →
        y ∈ explore next (pool.erase s) (next s ++ stack)) :
        y ∈ s :: explore next (pool.erase s) (next s ++ stack) := by
      by_cases hys : y = s
      · exact hys ▸ List.mem_cons_self
      · exact List.mem_cons_of_mem s (h hys ((List.mem_erase_of_ne hys).2 hy))
    refine ⟨fun x hx hp => rest x hp fun hne he => ?_, fun x hx y hy hp => rest y hp fun _ he => ?_⟩
    · exact enter x (List.mem_append_right _ ((List.mem_cons.1 hx).resolve_left hne)) he
    · rcases List.mem_cons.1 hx with rfl | hx
      · exact enter y (List.mem_append_left _ hy) he
      · exact go x hx y hy he
  | case3 pool s stack hs ih =>
    obtain ⟨enter, go⟩ := ih
    rw [explore, if_neg hs]
    refine ⟨fun x hx hp => ?_, go⟩
    rcases List.mem_cons.1 hx with rfl | hx
    · exact absurd hp hs
    · exact enter x hx hp

end DesignTokens
