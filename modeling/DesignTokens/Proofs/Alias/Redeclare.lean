import DesignTokens.Proofs.Alias.Equations
import DesignTokens.Proofs.Dependency.Affected
import Mathlib.Algebra.Order.BigOperators.Group.List
import Mathlib.Algebra.Order.Group.Nat

/-!
# Declaring a value anew

* `closed_insert` : when the declared values stay closed with another value of an id;
* `exists_layered_insert` : with another value of an id there are still ranks if and only if the value
  cites neither the id nor what depends on it. The ranks of these are raised above what it cites.
-/

namespace DesignTokens

open Relation

variable {g : DependencyGraph} {raws : Values} {rank rank' : String → Nat} {id c x : String}
  {v : TokenValue}

theorem closed_insert (hclosed : raws.Closed) (hid : id ∈ raws.keys) :
    Values.Closed (raws.insert id v) ↔ ∀ c ∈ v.refs, c ∈ raws.keys := by
  have hkeys : (raws.insert id v).keys = raws.keys := SortedMap.keys_insert_of_mem hid v
  unfold Values.Closed
  rw [hkeys]
  constructor
  · intro h c hc
    exact h (SortedMap.get?_insert_self raws id v) hc
  · intro h x d r hd hr
    by_cases hx : x = id
    · subst hx
      rw [SortedMap.get?_insert_self, Option.some.injEq] at hd
      exact h r (hd ▸ hr)
    · rw [SortedMap.get?_insert_of_ne _ _ hx] at hd
      exact hclosed hd hr

/-- A way from the id never comes back to it, so it goes through declared values that stay. -/
theorem Layered.lt_of_transGen (hg : g.Reflects raws) (hrank : Layered raws rank)
    (hrank' : Layered (raws.insert id v) rank') (h : TransGen g.Feeds id c) :
    rank id < rank c ∧ rank' id < rank' c := by
  have step {a b : String} (hab : g.Feeds a b) (ha : rank id ≤ rank a) :
      rank a < rank b ∧ rank' a < rank' b := by
    obtain ⟨d, hd, hmem⟩ := (hg a b).1 hab
    have hlt : rank a < rank b := hrank hd hmem
    have hne : b ≠ id := by
      rintro rfl
      omega
    have hd' : (raws.insert id v).get? b = some d := by rwa [SortedMap.get?_insert_of_ne _ _ hne]
    exact ⟨hlt, hrank' hd' hmem⟩
  induction h with
  | single hab => exact step hab (Nat.le_refl _)
  | tail _ hbc ih =>
    have hlt := step hbc (by omega)
    omega

/-- The ranks with those of an id and of what depends on it raised. -/
def raise (g : DependencyGraph) (rank : String → Nat) (id : String) (n : Nat) (x : String) : Nat :=
  if x = id ∨ x ∈ g.affected id then rank x + n else rank x

theorem le_raise (n : Nat) : rank x ≤ raise g rank id n x := by
  unfold raise
  split <;> omega

theorem raise_lt_raise (hg : g.WellFormed) (hlt : rank c < rank x) (hfeeds : g.Feeds c x) (n : Nat) :
    raise g rank id n c < raise g rank id n x := by
  by_cases hc : c = id ∨ c ∈ g.affected id
  · have hx : x = id ∨ x ∈ g.affected id := DependencyGraph.mem_affected_of_feeds hg hc hfeeds
    rw [raise, raise, if_pos hc, if_pos hx]
    omega
  · have hle : rank x ≤ raise g rank id n x := le_raise n
    rw [raise, if_neg hc]
    omega

theorem exists_layered_insert (hg : g.WellFormed) (hreflects : g.Reflects raws)
    (hrank : Layered raws rank) :
    (∃ rank', Layered (raws.insert id v) rank') ↔ ∀ c ∈ v.refs, c ≠ id ∧ c ∉ g.affected id := by
  constructor
  · rintro ⟨rank', hrank'⟩ c hc
    have hlt : rank' c < rank' id := hrank' (SortedMap.get?_insert_self raws id v) hc
    refine ⟨?_, fun haff => ?_⟩
    · rintro rfl
      omega
    · have hpath := ((DependencyGraph.mem_affected hg).1 haff).2
      have hgt := (hrank.lt_of_transGen hreflects hrank' hpath).2
      omega
  · intro hrefs
    let n := (v.refs.map rank).sum + 1
    refine ⟨raise g rank id n, fun x d r hd hr => ?_⟩
    by_cases hx : x = id
    · subst hx
      rw [SortedMap.get?_insert_self, Option.some.injEq] at hd
      subst hd
      have hle : rank r ≤ (v.refs.map rank).sum :=
        List.single_le_sum (fun _ _ => Nat.zero_le _) _ (List.mem_map_of_mem hr)
      have hout : ¬ (r = x ∨ r ∈ g.affected x) := fun h => h.elim (hrefs r hr).1 (hrefs r hr).2
      rw [raise, raise, if_neg hout, if_pos (.inl rfl)]
      omega
    · rw [SortedMap.get?_insert_of_ne _ _ hx] at hd
      exact raise_lt_raise hg (hrank hd hr) (hreflects.covers hd hr) n

end DesignTokens
