import DesignTokens.Proofs.Dependency.Order
import Mathlib.Data.List.Sort

/-!
# Counters that are never lowered below zero

The order can be made with one counter for each token of the scope, which stays when the token has
joined the queue or is in the order.

* `lowerEach? counters queue ids` : lowers the counters of some ids in turn, where zero cannot be
  lowered;
* `orderCounted? g scope` : the order that is made with them, and the tokens left;
* `Counts g scope done counters` : what holds of the counters when the tokens `done` have been taken
  (`Counts.lower`);
* `orderCounted?_eq_orderWithin` : no counter is lowered below zero, and the order and the tokens left
  are those of `orderWithin`.
-/

namespace DesignTokens.DependencyGraph

variable {g : DependencyGraph} {scope : String → Bool} {done queue ids : List String}
  {waiting : Waiting} {id x : String}

/-! ## The order with counters -/

abbrev Counters := SortedMap String Nat

/-- Lowers the counters of the ids in turn, as far as they have one. An id whose counter falls to zero
joins the queue, and there is no result if a counter is zero already. -/
def lowerEach? (counters : Counters) (queue : List String) :
    List String → Option (Counters × List String)
  | [] => some (counters, queue)
  | id :: ids =>
    match counters.get? id with
    | none => lowerEach? counters queue ids
    | some 0 => none
    | some (n + 1) =>
      lowerEach? (counters.insert id n) (if n = 0 then queue ++ [id] else queue) ids

/-- Takes tokens from the queue until it is empty, if that comes about within so many turns: the
tokens taken, and the counters. -/
def drainCounted? (g : DependencyGraph) :
    Nat → Counters → List String → Option (List String × Counters)
  | _, counters, [] => some ([], counters)
  | 0, _, _ :: _ => none
  | turns + 1, counters, id :: queue => do
    let (counters, queue) ← lowerEach? counters queue (g.dependents id)
    let (order, counters) ← drainCounted? g turns counters queue
    some (id :: order, counters)

theorem ascending_waitingWithin (g : DependencyGraph) (scope : String → Bool) :
    Ascending (g.waitingWithin scope) := by
  have hsorted : ((g.waitingWithin scope).map (·.1)).Pairwise (· < ·) := by
    rw [map_fst_waitingWithin]
    exact g.sorted_nodes.filter scope
  exact (List.pairwise_map.1 hsorted).imp compare_lt_iff_lt.2

/-- The counters before any token is taken. -/
def countersWithin (g : DependencyGraph) (scope : String → Bool) : Counters :=
  ⟨g.waitingWithin scope, g.ascending_waitingWithin scope⟩

/-- The order that is made with counters, and the tokens left. A turn for each token is enough. -/
def orderCounted? (g : DependencyGraph) (scope : String → Bool) :
    Option (List String × List String) := do
  let start := g.countersWithin scope
  let (order, counters) ← g.drainCounted? start.size start (Waiting.ready start.entries)
  some (order, counters.keys.filter fun id => !order.contains id)

/-! ## One turn -/

theorem lowerEach?_spec (counters : Counters) (queue : List String) (hnodup : ids.Nodup)
    (hpos : ∀ d ∈ ids, counters.get? d ≠ some 0) :
    ∃ after, lowerEach? counters queue ids =
        some (after, queue ++ ids.filter fun d => counters.get? d == some 1) ∧
      ∀ x, after.get? x = if x ∈ ids then (counters.get? x).map (· - 1) else counters.get? x := by
  induction ids generalizing counters queue with
  | nil => exact ⟨counters, by simp [lowerEach?], by simp⟩
  | cons d ids ih =>
    obtain ⟨hd, hnodup⟩ := List.nodup_cons.1 hnodup
    obtain ⟨hdpos, hpos⟩ := List.forall_mem_cons.1 hpos
    rw [lowerEach?]
    split
    · rename_i hnone
      obtain ⟨after, heq, hafter⟩ := ih counters queue hnodup hpos
      refine ⟨after, by simp [heq, hnone], fun x => ?_⟩
      by_cases hx : x = d
      · simp [hafter, hx, hd, hnone]
      · simp [hafter, hx]
    · rename_i hzero
      exact absurd hzero hdpos
    · rename_i n hsome
      have hsame (e : String) (he : e ∈ ids) : (counters.insert d n).get? e = counters.get? e :=
        counters.get?_insert_of_ne n fun h => hd (h ▸ he)
      obtain ⟨after, heq, hafter⟩ := ih (counters.insert d n)
        (if n = 0 then queue ++ [d] else queue) hnodup fun e he => hsame e he ▸ hpos e he
      have hfilter : (ids.filter fun e => (counters.insert d n).get? e == some 1) =
          ids.filter fun e => counters.get? e == some 1 :=
        List.filter_congr fun e he => by rw [hsame e he]
      refine ⟨after, ?_, fun x => ?_⟩
      · rw [heq, hfilter]
        by_cases hn : n = 0 <;> simp [hsome, hn]
      · by_cases hx : x = d
        · simp [hafter, hx, hd, hsome]
        · simp [hafter, hx, SortedMap.get?_insert_of_ne]

/-- Each token of the scope has the number of cited ones of the scope that are not done. -/
def Counts (g : DependencyGraph) (scope : String → Bool) (done : List String)
    (counters : Counters) : Prop :=
  ∀ x, counters.get? x =
    if x ∈ g.nodes ∧ scope x then some (g.pending scope done x).length else none

theorem countersWithin_counts (g : DependencyGraph) (scope : String → Bool) :
    g.Counts scope [] (g.countersWithin scope) := by
  intro x
  have hpending : g.pending scope [] x = (g.references x).filter scope := by simp [pending]
  split
  · rename_i hx
    refine (SortedMap.get?_eq_some _).2 (List.mem_map.2 ⟨x, List.mem_filter.2 hx, ?_⟩)
    rw [hpending]
  · rename_i hx
    rw [SortedMap.get?_eq_none]
    intro hmem
    have hmem : x ∈ (g.waitingWithin scope).map (·.1) := hmem
    rw [map_fst_waitingWithin] at hmem
    exact hx (List.mem_filter.1 hmem)

theorem mem_pending_of_dependents (hg : g.WellFormed) (hs : scope id) (hd : id ∉ done)
    (hx : x ∈ g.dependents id) : id ∈ g.pending scope done x :=
  mem_pending.2 ⟨hg.converse.1 hx, hs, hd⟩

/-- A token that has not been taken is still counted by the ones that cite it, so their counters can be
lowered. -/
theorem Counts.lower {counters : Counters} (hg : g.WellFormed) (h : g.Counts scope done counters)
    (hs : scope id) (hd : id ∉ done) (queue : List String) :
    ∃ after, lowerEach? counters queue (g.dependents id) =
        some (after, queue ++
          (g.dependents id).filter fun d => scope d && (g.pending scope (id :: done) d).isEmpty) ∧
      g.Counts scope (id :: done) after := by
  have hcount (d : String) (hmem : d ∈ g.dependents id) : counters.get? d =
      if scope d then some ((g.pending scope (id :: done) d).length + 1) else none := by
    have hpos := List.length_pos_of_mem (mem_pending_of_dependents hg hs hd hmem)
    have hless := length_pending_cons hg hs hd d
    rw [if_pos (List.contains_iff_mem.2 hmem)] at hless
    simp only [h d, hg.node_right hmem, true_and]
    congr 2
    omega
  obtain ⟨after, heq, hafter⟩ := lowerEach?_spec counters queue (g.nodup_dependents id)
    fun d hmem => by
      rw [hcount d hmem]
      split <;> simp
  refine ⟨after, ?_, fun x => ?_⟩
  · rw [heq]
    congr 3
    refine List.filter_congr fun d hmem => ?_
    rw [hcount d hmem]
    cases scope d
    · rfl
    · cases g.pending scope (id :: done) d <;> simp
  · rw [hafter]
    by_cases hmem : x ∈ g.dependents id
    · rw [if_pos hmem, hcount x hmem]
      have hnode := hg.node_right hmem
      cases hsx : scope x <;> simp [hnode]
    · have hless := length_pending_cons hg hs hd x
      rw [if_neg (mt List.contains_iff_mem.1 hmem)] at hless
      rw [if_neg hmem, h x, hless]

/-! ## The whole order -/

/-- The tokens that are ready next are the dependents of the one taken that wait for no other. -/
theorem Progress.ready_lower (hg : g.WellFormed) (h : g.Progress scope done waiting (id :: queue))
    (hdone : ∀ x ∈ done, g.pending scope done x = [])
    (hsorted : (waiting.map (·.1)).Pairwise (· < ·)) :
    (waiting.lower (g.dependents id)).ready =
      (g.dependents id).filter fun d => scope d && (g.pending scope (id :: done) d).isEmpty := by
  have htake := h.take hg
  have hsub : (waiting.lower (g.dependents id)).ready.Sublist (waiting.map (·.1)) := by
    rw [← Waiting.map_fst_lower (g.dependents id)]
    exact List.filter_sublist.map _
  refine (hsorted.sublist hsub).eq_of_mem_iff ((g.sorted_dependents id).filter _) fun x => ?_
  rw [List.mem_filter, Bool.and_eq_true, List.isEmpty_iff]
  constructor
  · intro hx
    have hzero := htake.ready x (List.mem_append_right _ hx)
    obtain ⟨-, hscope⟩ := (htake.covers x).1 (.inr (.inl (List.mem_append_right _ hx)))
    obtain ⟨w, hw, rfl⟩ := List.mem_map.1 (hsub.subset hx)
    obtain ⟨hcount, hne⟩ := h.count w hw
    -- the token waited for another one, which can only be the one that was taken
    obtain ⟨r, hr⟩ := List.exists_mem_of_length_pos (Nat.pos_of_ne_zero (hcount ▸ hne))
    obtain ⟨href, hsr, hrdone⟩ := mem_pending.1 hr
    have hrid : r = id := by
      by_contra hne
      have hmem : r ∈ g.pending scope (id :: done) w.1 :=
        mem_pending.2 ⟨href, hsr, by simp [hne, hrdone]⟩
      simp [hzero] at hmem
    exact ⟨hg.converse.2 (hrid ▸ href), hscope, hzero⟩
  · rintro ⟨hmem, hscope, hzero⟩
    have hpending := mem_pending_of_dependents hg h.head_scope h.head_not_mem_done hmem
    rcases (htake.covers x).2 ⟨hg.node_right hmem, hscope⟩ with hx | hx | hx
    · rcases List.mem_cons.1 hx with rfl | hx
      · simp [h.ready x List.mem_cons_self] at hpending
      · simp [hdone x hx] at hpending
    · rcases List.mem_append.1 hx with hx | hx
      · simp [h.ready x (List.mem_cons_of_mem id hx)] at hpending
      · exact hx
    · obtain ⟨w, hw, rfl⟩ := List.mem_map.1 hx
      obtain ⟨hcount, hne⟩ := htake.count w hw
      simp [hcount, hzero] at hne

theorem drainCounted?_spec {counters : Counters} (hg : g.WellFormed)
    (h : g.Progress scope done waiting queue) (hcounts : g.Counts scope done counters)
    (hdone : ∀ x ∈ done, g.pending scope done x = [])
    (hsorted : (waiting.map (·.1)).Pairwise (· < ·)) {turns : Nat}
    (hturns : waiting.length + queue.length ≤ turns) :
    ∃ after, g.drainCounted? turns counters queue = some ((g.drain waiting queue).1, after) ∧
      g.Counts scope ((g.drain waiting queue).1.reverse ++ done) after ∧
      ((g.drain waiting queue).2.map (·.1)).Pairwise (· < ·) := by
  induction waiting, queue using drain.induct g generalizing done counters turns with
  | case1 waiting =>
    rw [drain]
    exact ⟨counters, by cases turns <;> rfl, hcounts, hsorted⟩
  | case2 waiting id queue lowered order left _ =>
    rename_i ih
    obtain ⟨next, hlower, hnext⟩ := hcounts.lower hg h.head_scope h.head_not_mem_done queue
    have hready := h.ready_lower hg hdone hsorted
    have hlength : lowered.ready.length + lowered.blocked.length = waiting.length := by
      rw [Waiting.length_ready_blocked]
      exact List.length_map _
    obtain ⟨turns, rfl⟩ : ∃ rest, turns = rest + 1 := Nat.exists_eq_succ_of_ne_zero (by
      rw [List.length_cons] at hturns
      omega)
    have hdone' : ∀ x ∈ id :: done, g.pending scope (id :: done) x = [] := by
      intro x hx
      rcases List.mem_cons.1 hx with rfl | hx
      · exact pending_cons_eq_nil (h.ready x List.mem_cons_self) x
      · exact pending_cons_eq_nil (hdone x hx) id
    have hsorted' : (lowered.blocked.map (·.1)).Pairwise (· < ·) := by
      rw [← Waiting.map_fst_lower (g.dependents id)] at hsorted
      exact hsorted.sublist lowered.blocked_sublist
    have hless : lowered.blocked.length + (queue ++ lowered.ready).length ≤ turns := by
      rw [List.length_cons] at hturns
      rw [List.length_append]
      omega
    obtain ⟨after, hdrain, hafter, hleft⟩ := ih (h.take hg) hnext hdone' hsorted' hless
    rw [drain, drainCounted?, hlower, ← hready]
    refine ⟨after, ?_, by simpa [List.append_assoc] using hafter, hleft⟩
    simp only [Option.bind_eq_bind, Option.bind_some]
    rw [hdrain]
    rfl

theorem orderCounted?_eq_orderWithin (hg : g.WellFormed) (scope : String → Bool) :
    g.orderCounted? scope = some (g.orderWithin scope) := by
  have hsorted : ((g.waitingWithin scope).blocked.map (·.1)).Pairwise (· < ·) := by
    have hall := g.sorted_nodes.filter scope
    rw [← map_fst_waitingWithin] at hall
    exact hall.sublist (g.waitingWithin scope).blocked_sublist
  have hlength := Waiting.length_ready_blocked (g.waitingWithin scope)
  have hturns : (g.waitingWithin scope).blocked.length + (g.waitingWithin scope).ready.length ≤
      (g.countersWithin scope).size := by
    show _ ≤ (g.waitingWithin scope).length
    omega
  obtain ⟨after, hdrain, hafter, hleft⟩ := drainCounted?_spec hg (g.waitingWithin_progress scope)
    (g.countersWithin_counts scope) (by simp) hsorted hturns
  obtain ⟨hnodup, hcovers, -, -⟩ := orderWithin_split hg scope
  have hkeys (x : String) : x ∈ after.keys ↔ x ∈ g.nodes ∧ scope x := by
    rw [SortedMap.mem_keys, hafter]
    split <;> simp_all
  have hrest : (after.keys.filter fun id => !(g.orderWithin scope).1.contains id) =
      (g.orderWithin scope).2 := by
    have hafter : after.keys.Pairwise (· < ·) :=
      List.pairwise_map.2 (after.ascending.imp fun h => compare_lt_iff_lt.1 h)
    refine (hafter.filter _).eq_of_mem_iff hleft fun x => ?_
    have hdisjoint : x ∈ (g.orderWithin scope).1 → x ∉ (g.orderWithin scope).2 := fun h h' =>
      (List.nodup_append.1 hnodup).2.2 x h x h' rfl
    have hx := hcovers x
    show x ∈ List.filter _ _ ↔ x ∈ (g.orderWithin scope).2
    rw [List.mem_filter, hkeys, ← hx, Bool.not_eq_true', List.contains_eq_mem, decide_eq_false_iff_not]
    tauto
  unfold orderCounted?
  simp only [Option.bind_eq_bind]
  show (g.drainCounted? _ _ (g.waitingWithin scope).ready).bind _ = _
  rw [hdrain]
  exact congrArg some (Prod.ext rfl hrest)

end DesignTokens.DependencyGraph
