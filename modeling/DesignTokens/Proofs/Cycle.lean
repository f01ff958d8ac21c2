import Mathlib.Data.List.Chain
import Mathlib.Logic.Relation
import Mathlib.Order.WellFounded

/-!
# Cycles of a relation

* `Acyclic r` : no way of one or more steps leads back to its start;
* `IsCycle r c` : the list `c` is such a way, written out, that meets nothing else twice
  (`IsCycle.exists_transGen`, `IsCycle.not_acyclic`);
* `acyclic_of_rank`, `acyclic_of_acc` : if steps go down, or if every way comes to an end, then there
  is no cycle;
* `lastStep? c` : the step with which a list ends;
* `isCycle_of_step_back` : a step back from the end of a way to a place on it closes a cycle, which is
  the part of the way from that place on.
-/

namespace DesignTokens

open Relation

variable {α : Type} {r s : α → α → Prop} {a b : α} {c way : List α}

/-- No way of one or more steps leads back to its start. -/
def Acyclic (r : α → α → Prop) : Prop := ∀ a, ¬ TransGen r a a

/-- A way of one or more steps that ends where it starts and meets nothing else twice. -/
structure IsCycle (r : α → α → Prop) (c : List α) : Prop where
  two_le : 2 ≤ c.length
  closed : c.head? = c.getLast?
  nodup : c.dropLast.Nodup
  chain : c.IsChain r

theorem Acyclic.of_imp (hs : Acyclic s) (h : ∀ a b, r a b → s a b) : Acyclic r := by
  intro a ha
  exact hs a (TransGen.mono h _ _ ha)

theorem acyclic_of_rank (rank : α → Nat) (h : ∀ a b, r a b → rank b < rank a) : Acyclic r := by
  intro a ha
  have hlt {b : α} (hab : TransGen r a b) : rank b < rank a := by
    induction hab with
    | single hstep => exact h _ _ hstep
    | tail _ hstep ih =>
      have := h _ _ hstep
      omega
  exact Nat.lt_irrefl _ (hlt ha)

theorem Acyclic.asymm (h : Acyclic r) (hab : TransGen r a b) : ¬ ReflTransGen r b a := by
  intro hba
  exact h a (hab.trans_left hba)

theorem IsCycle.exists_transGen (h : IsCycle r c) : ∃ a ∈ c, TransGen r a a := by
  obtain ⟨hlength, hclosed, -, hchain⟩ := h
  match c, hlength with
  | a :: b :: rest, _ =>
    have hstep : r a b := hchain.rel_head? rfl
    have hlast : (b :: rest).getLast (List.cons_ne_nil b rest) = a := by
      rw [List.head?_cons, List.getLast?_cons_cons, List.getLast?_eq_some_getLast] at hclosed
      exact (Option.some.inj hclosed).symm
    have hback : ReflTransGen r b a :=
      List.relationReflTransGen_of_exists_isChain_cons rest hchain.tail hlast
    exact ⟨a, List.mem_cons_self, .head' hstep hback⟩

theorem IsCycle.not_acyclic (h : IsCycle r c) : ¬ Acyclic r := by
  obtain ⟨a, -, ha⟩ := h.exists_transGen
  exact fun hacyclic => hacyclic a ha

theorem IsCycle.imp_of_mem (h : IsCycle r c) (hs : ∀ a ∈ c, ∀ b ∈ c, r a b → s a b) : IsCycle s c :=
  ⟨h.two_le, h.closed, h.nodup, h.chain.imp_of_mem_imp fun a b ha hb => hs a ha b hb⟩

theorem acyclic_of_acc (h : ∀ a, Acc (fun b a => r a b) a) : Acyclic r := by
  intro a ha
  have hwf : WellFounded (TransGen fun b a => r a b) := (WellFounded.intro h).transGen
  exact hwf.irrefl.irrefl a (transGen_swap.2 ha)

/-! ## Closing a cycle -/

theorem isChain_append_singleton (hchain : way.IsChain r) (hlast : way.getLast? = some a)
    (hstep : r a b) : (way ++ [b]).IsChain r := by
  refine hchain.append (.singleton b) ?_
  intro x hx y hy
  rw [hlast, Option.mem_some_iff] at hx
  rw [List.head?_cons, Option.mem_some_iff] at hy
  exact hx ▸ hy ▸ hstep

/-- The step with which a list ends. -/
def lastStep? (c : List α) : Option (α × α) := do some (← c.dropLast.getLast?, ← c.getLast?)

theorem lastStep?_append_singleton (h : way.getLast? = some a) (b : α) :
    lastStep? (way ++ [b]) = some (a, b) := by
  unfold lastStep?
  rw [List.dropLast_concat, List.getLast?_concat, h]
  rfl

variable [DecidableEq α]

theorem dropWhile_ne_eq_cons (hb : b ∈ way) :
    ∃ before after, way = before ++ b :: after ∧ way.dropWhile (· ≠ b) = b :: after := by
  obtain ⟨before, after, rfl, hnew⟩ := List.eq_append_cons_of_mem hb
  refine ⟨before, after, rfl, ?_⟩
  have hskip : ∀ x ∈ before, (decide (x ≠ b)) = true := by
    intro x hx
    rw [decide_eq_true_eq]
    rintro rfl
    exact hnew hx
  rw [List.dropWhile_append_of_pos hskip, List.dropWhile_cons_of_neg (by simp)]

theorem getLast?_dropWhile_ne (hb : b ∈ way) :
    (way.dropWhile (· ≠ b)).getLast? = way.getLast? := by
  obtain ⟨before, after, rfl, hdrop⟩ := dropWhile_ne_eq_cons hb
  rw [hdrop, List.getLast?_append_cons]

theorem isCycle_of_step_back (hchain : way.IsChain r) (hnodup : way.Nodup)
    (hlast : way.getLast? = some a) (hstep : r a b) (hb : b ∈ way) :
    IsCycle r (way.dropWhile (· ≠ b) ++ [b]) := by
  have hend : (way.dropWhile (· ≠ b)).getLast? = some a := by rw [getLast?_dropWhile_ne hb, hlast]
  have hsuffix : way.dropWhile (· ≠ b) <:+ way := List.dropWhile_suffix _
  obtain ⟨before, after, -, hdrop⟩ := dropWhile_ne_eq_cons hb
  refine ⟨?_, ?_, ?_, ?_⟩
  · rw [hdrop, List.length_append, List.length_cons, List.length_singleton]
    omega
  · rw [hdrop, List.getLast?_concat]
    rfl
  · rw [List.dropLast_concat]
    exact hnodup.sublist hsuffix.sublist
  · exact isChain_append_singleton (hchain.suffix hsuffix) hend hstep

end DesignTokens
