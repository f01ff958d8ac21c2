import DesignTokens.Dependency.Order
import DesignTokens.Proofs.Dependency.Graph
import Mathlib.Data.List.Basic

/-!
# The order of resolution

* `InOrder g scope done order` : each id of `order` comes after the ids of the scope that it cites,
  where those in `done` came before;
* `Progress g scope done waiting queue` : what holds whenever a token is taken from the queue: the
  tokens of the scope are done, queued or waiting, each once, the number of a waiting token counts
  the cited ones that are not done, and a queued token has none;
* `Split` : what holds of the order and the tokens left (`orderWithin_split`);
* `Ranks g rank` : citations go from lower to higher ranks. If there are ranks then no token is left
  (`Split.stuck_eq_nil`), and if none is left then the places in the order are ranks
  (`Split.ranks_idxOf`).
-/

namespace DesignTokens

theorem Waiting.map_fst_lower (dependents : List String) (w : Waiting) :
    (w.lower dependents).map (·.1) = w.map (·.1) := by
  rw [lower, List.map_map]
  rfl

theorem Waiting.ready_append_blocked (w : Waiting) :
    (w.ready ++ w.blocked.map (·.1)).Perm (w.map (·.1)) := by
  rw [ready, blocked, ← List.map_append]
  exact (List.filter_append_perm (fun e => e.2 == 0) w).map _

theorem Waiting.blocked_sublist (w : Waiting) : (w.blocked.map (·.1)).Sublist (w.map (·.1)) :=
  List.filter_sublist.map _

namespace DependencyGraph

variable {g : DependencyGraph} {scope : String → Bool} {done queue order stuck : List String}
  {waiting : Waiting} {id x r : String}

/-! ## Lists in the order of resolution -/

/-- Each id of the list is new, and the ids of the scope that it cites are done when its turn comes. -/
def InOrder (g : DependencyGraph) (scope : String → Bool) : List String → List String → Prop
  | _, [] => True
  | done, id :: ids =>
    id ∉ done ∧ (∀ r ∈ g.references id, scope r → r ∈ done) ∧ g.InOrder scope (id :: done) ids

theorem InOrder.not_mem_done (h : g.InOrder scope done order) (hx : x ∈ order) : x ∉ done := by
  induction order generalizing done with
  | nil => cases hx
  | cons id ids ih =>
    obtain ⟨hnew, -, hids⟩ := h
    rcases List.mem_cons.1 hx with rfl | hx
    · exact hnew
    · exact fun hd => ih hids hx (List.mem_cons_of_mem id hd)

theorem InOrder.nodup (h : g.InOrder scope done order) : order.Nodup := by
  induction order generalizing done with
  | nil => exact List.nodup_nil
  | cons id ids ih =>
    obtain ⟨-, -, hids⟩ := h
    exact List.nodup_cons.2 ⟨fun hid => hids.not_mem_done hid List.mem_cons_self, ih hids⟩

theorem InOrder.idxOf_lt (h : g.InOrder scope done order) (hx : x ∈ order) (hr : r ∈ g.references x)
    (hs : scope r) (hd : r ∉ done) : order.idxOf r < order.idxOf x := by
  induction order generalizing done with
  | nil => cases hx
  | cons id ids ih =>
    obtain ⟨-, hrefs, hids⟩ := h
    by_cases hxid : id = x
    · subst hxid
      exact absurd (hrefs r hr hs) hd
    rw [List.idxOf_cons_ne _ hxid]
    by_cases hrid : id = r
    · rw [hrid, List.idxOf_cons_self]
      omega
    · rw [List.idxOf_cons_ne _ hrid]
      have hmem : x ∈ ids := (List.mem_cons.1 hx).resolve_left (Ne.symm hxid)
      have hnew : r ∉ id :: done := by simp [Ne.symm hrid, hd]
      have hlt : ids.idxOf r < ids.idxOf x := ih hids hmem hnew
      omega

/-! ## Taking tokens from the queue -/

/-- The ids of the scope that a token cites and that are not done. -/
def pending (g : DependencyGraph) (scope : String → Bool) (done : List String) (id : String) :
    List String :=
  (g.references id).filter fun r => scope r && !done.contains r

theorem mem_pending : r ∈ g.pending scope done id ↔ r ∈ g.references id ∧ scope r ∧ r ∉ done := by
  simp [pending, List.mem_filter]

theorem pending_cons_eq_nil (h : g.pending scope done x = []) (id : String) :
    g.pending scope (id :: done) x = [] := by
  rw [List.eq_nil_iff_forall_not_mem] at h ⊢
  intro r hr
  obtain ⟨hr, hs, hd⟩ := mem_pending.1 hr
  exact h r (mem_pending.2 ⟨hr, hs, fun hd' => hd (List.mem_cons_of_mem id hd')⟩)

theorem length_pending_cons (hg : g.WellFormed) (hs : scope id) (hd : id ∉ done) (x : String) :
    (g.pending scope (id :: done) x).length =
      if (g.dependents id).contains x then (g.pending scope done x).length - 1
      else (g.pending scope done x).length := by
  have hnodup : (g.pending scope done x).Nodup := (g.nodup_references x).filter _
  have herase : g.pending scope (id :: done) x = (g.pending scope done x).erase id := by
    rw [hnodup.erase_eq_filter, pending, pending, List.filter_filter]
    congr 1
    funext r
    by_cases h : r = id <;> simp [h]
  rw [herase, List.length_erase]
  congr 1
  rw [List.contains_iff_mem, mem_pending, ← hg.converse]
  exact propext (and_iff_left ⟨hs, hd⟩)

/-- What holds whenever a token is taken from the queue. -/
structure Progress (g : DependencyGraph) (scope : String → Bool) (done : List String)
    (waiting : Waiting) (queue : List String) : Prop where
  nodup : (done ++ (queue ++ waiting.map (·.1))).Nodup
  covers : ∀ x, (x ∈ done ∨ x ∈ queue ∨ x ∈ waiting.map (·.1)) ↔ x ∈ g.nodes ∧ scope x
  count : ∀ w ∈ waiting, w.2 = (g.pending scope done w.1).length ∧ w.2 ≠ 0
  ready : ∀ x ∈ queue, g.pending scope done x = []

theorem Waiting.mem_ready_or_blocked (w : Waiting) :
    x ∈ w.ready ∨ x ∈ w.blocked.map (·.1) ↔ x ∈ w.map (·.1) := by
  rw [← List.mem_append]
  exact w.ready_append_blocked.mem_iff

/-- Waiting tokens with their right numbers go into the queue if their number is zero. -/
theorem Progress.of_counts {w : Waiting} (hnodup : (done ++ (queue ++ w.map (·.1))).Nodup)
    (hcovers : ∀ x, (x ∈ done ∨ x ∈ queue ∨ x ∈ w.map (·.1)) ↔ x ∈ g.nodes ∧ scope x)
    (hcount : ∀ e ∈ w, e.2 = (g.pending scope done e.1).length)
    (hready : ∀ x ∈ queue, g.pending scope done x = []) :
    g.Progress scope done w.blocked (queue ++ w.ready) where
  nodup := by
    rw [List.append_assoc]
    exact ((w.ready_append_blocked.append_left queue).append_left done).nodup_iff.2 hnodup
  covers x := by
    rw [← hcovers, List.mem_append, or_assoc, Waiting.mem_ready_or_blocked]
  count e he := by
    obtain ⟨he, hne⟩ := List.mem_filter.1 he
    exact ⟨hcount e he, by simpa using hne⟩
  ready x hx := by
    rcases List.mem_append.1 hx with hx | hx
    · exact hready x hx
    obtain ⟨e, he, rfl⟩ := List.mem_map.1 hx
    obtain ⟨he, hzero⟩ := List.mem_filter.1 he
    refine List.length_eq_zero_iff.1 ?_
    rw [← hcount e he]
    simpa using hzero

theorem map_fst_waitingWithin (g : DependencyGraph) (scope : String → Bool) :
    (g.waitingWithin scope).map (·.1) = g.nodes.filter scope := by
  rw [waitingWithin, List.map_map]
  exact List.map_id _

theorem waitingWithin_progress (g : DependencyGraph) (scope : String → Bool) :
    g.Progress scope [] (g.waitingWithin scope).blocked (g.waitingWithin scope).ready := by
  rw [← List.nil_append (g.waitingWithin scope).ready]
  apply Progress.of_counts
  · rw [map_fst_waitingWithin]
    exact g.nodup_nodes.filter _
  · intro x
    rw [map_fst_waitingWithin, List.mem_filter]
    simp
  · intro e he
    obtain ⟨x, -, rfl⟩ := List.mem_map.1 he
    simp [pending]
  · intro x hx
    cases hx

theorem Progress.head_scope (h : g.Progress scope done waiting (id :: queue)) : scope id :=
  ((h.covers id).1 (.inr (.inl List.mem_cons_self))).2

theorem Progress.head_not_mem_done (h : g.Progress scope done waiting (id :: queue)) : id ∉ done := by
  intro hd
  have hnodup := h.nodup
  rw [List.nodup_append] at hnodup
  exact hnodup.2.2 id hd id (List.mem_append_left _ List.mem_cons_self) rfl

/-- Taking one token keeps the counts right. -/
theorem Progress.take (hg : g.WellFormed) (h : g.Progress scope done waiting (id :: queue)) :
    g.Progress scope (id :: done) (waiting.lower (g.dependents id)).blocked
      (queue ++ (waiting.lower (g.dependents id)).ready) := by
  have hperm : (done ++ (id :: queue ++ waiting.map (·.1))).Perm
      (id :: done ++ (queue ++ waiting.map (·.1))) := List.perm_middle
  apply Progress.of_counts
  · rw [Waiting.map_fst_lower]
    exact hperm.nodup_iff.1 h.nodup
  · intro x
    rw [Waiting.map_fst_lower, ← h.covers, List.mem_cons, List.mem_cons]
    tauto
  · intro e he
    obtain ⟨w, hw, rfl⟩ := List.mem_map.1 he
    show (if _ then _ else _) = (g.pending scope (id :: done) w.1).length
    rw [length_pending_cons hg h.head_scope h.head_not_mem_done, ← (h.count w hw).1]
  · intro x hx
    exact pending_cons_eq_nil (h.ready x (List.mem_cons_of_mem id hx)) id

theorem drain_spec (hg : g.WellFormed) (h : g.Progress scope done waiting queue) :
    g.Progress scope ((g.drain waiting queue).1.reverse ++ done) (g.drain waiting queue).2 [] ∧
      g.InOrder scope done (g.drain waiting queue).1 := by
  induction waiting, queue using drain.induct g generalizing done with
  | case1 waiting =>
    rw [drain]
    exact ⟨h, trivial⟩
  | case2 waiting id queue lowered order left _ =>
    rename_i ih
    obtain ⟨hprogress, horder⟩ := ih (h.take hg)
    rw [drain]
    refine ⟨by simpa [List.append_assoc] using hprogress, h.head_not_mem_done, fun r hr hs => ?_, horder⟩
    by_contra hd
    have := h.ready id List.mem_cons_self
    rw [List.eq_nil_iff_forall_not_mem] at this
    exact this r (mem_pending.2 ⟨hr, hs, hd⟩)

/-! ## The order and the tokens left -/

/-- The tokens of the scope are split into an order and tokens that are left, each of which cites
another one of these. -/
structure Split (g : DependencyGraph) (scope : String → Bool) (order stuck : List String) : Prop where
  nodup : (order ++ stuck).Nodup
  covers : ∀ x, (x ∈ order ∨ x ∈ stuck) ↔ x ∈ g.nodes ∧ scope x
  inOrder : g.InOrder scope [] order
  blocked : ∀ x ∈ stuck, ∃ r ∈ g.references x, r ∈ stuck

theorem orderWithin_split (hg : g.WellFormed) (scope : String → Bool) :
    g.Split scope (g.orderWithin scope).1 (g.orderWithin scope).2 := by
  obtain ⟨h, horder⟩ := drain_spec hg (g.waitingWithin_progress scope)
  rw [List.append_nil] at h
  generalize hr : g.drain (g.waitingWithin scope).blocked (g.waitingWithin scope).ready = r at h horder
  obtain ⟨order, left⟩ := r
  have heq : g.orderWithin scope = (order, left.map (·.1)) := by
    rw [orderWithin]
    simp only [hr]
  rw [heq]
  have covers (x : String) : (x ∈ order ∨ x ∈ left.map (·.1)) ↔ x ∈ g.nodes ∧ scope x := by
    rw [← h.covers, List.mem_reverse]
    simp
  refine ⟨?_, covers, horder, fun x hx => ?_⟩
  · exact ((List.reverse_perm order).append_right _).nodup_iff.1 h.nodup
  · obtain ⟨w, hw, rfl⟩ := List.mem_map.1 hx
    obtain ⟨hcount, hne⟩ := h.count w hw
    obtain ⟨r, hr⟩ := List.exists_mem_of_length_pos (Nat.pos_of_ne_zero (hcount ▸ hne))
    obtain ⟨href, hs, hdone⟩ := mem_pending.1 hr
    refine ⟨r, href, ((covers r).2 ⟨hg.node_left (hg.converse.2 href), hs⟩).resolve_left ?_⟩
    exact fun ho => hdone (List.mem_reverse.2 ho)

/-! ## Ranks -/

/-- A citing token has a higher rank than the ones that it cites. -/
def Ranks (g : DependencyGraph) (rank : String → Nat) : Prop :=
  ∀ a b, g.Feeds a b → rank a < rank b

theorem Ranks.lt_of_transGen {rank : String → Nat} (hrank : g.Ranks rank) {a b : String}
    (h : Relation.TransGen g.Feeds a b) : rank a < rank b := by
  induction h with
  | single h => exact hrank _ _ h
  | tail _ h ih =>
    have hlt := hrank _ _ h
    omega

/-- A left token of least rank would cite a left one of lower rank. -/
theorem Split.stuck_eq_nil (h : g.Split scope order stuck) (hg : g.WellFormed) {rank : String → Nat}
    (hrank : g.Ranks rank) : stuck = [] := by
  have none_of_rank (n : Nat) : ∀ x ∈ stuck, rank x ≠ n := by
    induction n using Nat.strongRecOn with
    | _ n ih =>
      intro x hx hn
      obtain ⟨r, href, hr⟩ := h.blocked x hx
      exact ih (rank r) (hn ▸ hrank r x (hg.converse.2 href)) r hr rfl
  rw [List.eq_nil_iff_forall_not_mem]
  intro x hx
  exact none_of_rank (rank x) x hx rfl

theorem Split.ranks_idxOf (h : g.Split (fun _ => true) order []) (hg : g.WellFormed) :
    g.Ranks order.idxOf := by
  intro a b hab
  have hb : b ∈ order :=
    ((h.covers b).2 ⟨hg.node_right hab, rfl⟩).resolve_right List.not_mem_nil
  exact h.inOrder.idxOf_lt hb (hg.converse.1 hab) rfl List.not_mem_nil

end DependencyGraph

end DesignTokens
