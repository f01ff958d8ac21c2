import DesignTokens.Proofs.Order.Closed
import Mathlib.Combinatorics.SimpleGraph.Metric

/-!
# What lies around some ids

* `g.undirected` : the edges without their direction, so that `edist` is how far apart two ids are;
* `g.Near ids n x` : some of the ids is a node at most `n` edges away from `x`; `near_zero`, `near_succ` say
  which these are, one edge after the other;
* `g.Spreading ids k met pool queue` : the state of the search. The queue ascends, and nothing is more
  than one edge further than what still waits in it, so that what is met first is met nearest;
* `Spreading.skip`, `Spreading.enter`, `spreading_spread` : one turn of the search, and all of them;
* `around_iff_edist` : a graph around some ids has the nodes that are near enough and all edges between them.
-/

namespace DesignTokens.OrderGraph

variable {g : OrderGraph} {ids pool : List String} {met queue : List (String × ℕ)} {a b x y : String}
  {d k n : ℕ}

/-! ## Distances -/

/-- The edges without their direction. -/
def undirected (g : OrderGraph) : SimpleGraph String := SimpleGraph.fromRel g.Edge

theorem adjacent_iff : g.adjacent a b = true ↔ g.Edge a b ∨ g.Edge b a := by
  unfold adjacent
  rw [Bool.or_eq_true, hasEdge_iff, hasEdge_iff]

theorem Closed.mem_nodes_of_adjacent (hg : g.Closed) (h : g.adjacent a b = true) : b ∈ g.nodes := by
  rcases adjacent_iff.1 h with h | h
  · exact hg h
  · exact h.mem_nodes

theorem undirected_adj : g.undirected.Adj a b ↔ a ≠ b ∧ g.adjacent a b = true := by
  rw [adjacent_iff]
  exact SimpleGraph.fromRel_adj g.Edge a b

/-- Some of the ids is a node that is at most `n` edges away. -/
def Near (g : OrderGraph) (ids : List String) (n : ℕ) (x : String) : Prop :=
  ∃ s ∈ ids, s ∈ g.nodes ∧ g.undirected.edist s x ≤ n

theorem near_zero : g.Near ids 0 x ↔ x ∈ ids ∧ x ∈ g.nodes := by
  unfold Near
  simp only [Nat.cast_zero, nonpos_iff_eq_zero, SimpleGraph.edist_eq_zero_iff]
  constructor
  · rintro ⟨s, hs, hnode, rfl⟩
    exact ⟨hs, hnode⟩
  · intro h
    exact ⟨x, h.1, h.2, rfl⟩

theorem Near.mono (h : g.Near ids n x) (hle : n ≤ k) : g.Near ids k x := by
  obtain ⟨s, hs, hnode, hdist⟩ := h
  exact ⟨s, hs, hnode, hdist.trans (Nat.cast_le.2 hle)⟩

theorem Near.step (h : g.Near ids n x) (hxy : g.adjacent x y = true) : g.Near ids (n + 1) y := by
  obtain ⟨s, hs, hnode, hdist⟩ := h
  refine ⟨s, hs, hnode, ?_⟩
  have hone : g.undirected.edist x y ≤ 1 := by
    rw [SimpleGraph.edist_le_one_iff_adj_or_eq, undirected_adj]
    by_cases heq : x = y
    · exact .inr heq
    · exact .inl ⟨heq, hxy⟩
  calc g.undirected.edist s y
      ≤ g.undirected.edist s x + g.undirected.edist x y := SimpleGraph.edist_triangle
    _ ≤ n + 1 := add_le_add hdist hone
    _ = (n + 1 : ℕ) := (Nat.cast_succ n).symm

/-- A shortest walk ends with one edge from an id that is nearer. -/
theorem near_succ : g.Near ids (n + 1) x ↔
    g.Near ids n x ∨ ∃ y, g.Near ids n y ∧ g.adjacent y x = true := by
  constructor
  · rintro ⟨s, hs, hnode, hdist⟩
    rw [SimpleGraph.edist_comm] at hdist
    have htop : g.undirected.edist x s ≠ ⊤ := ne_top_of_le_ne_top (ENat.natCast_ne_top _) hdist
    obtain ⟨p, hp⟩ := SimpleGraph.exists_walk_of_edist_ne_top htop
    rw [← hp, Nat.cast_le] at hdist
    cases p with
    | nil => exact .inl (near_zero.2 ⟨hs, hnode⟩ |>.mono (Nat.zero_le n))
    | @cons _ y _ hadj p =>
      have hlength : p.length ≤ n := by
        rw [SimpleGraph.Walk.length_cons] at hdist
        omega
      have hy : g.undirected.edist s y ≤ n := by
        rw [SimpleGraph.edist_comm]
        exact (SimpleGraph.edist_le p).trans (Nat.cast_le.2 hlength)
      exact .inr ⟨y, ⟨s, hs, hnode, hy⟩, (undirected_adj.1 hadj.symm).2⟩
  · rintro (h | ⟨y, h, hyx⟩)
    · exact h.mono (Nat.le_succ n)
    · exact h.step hyx

theorem Near.mem_nodes (hg : g.Closed) (h : g.Near ids n x) : x ∈ g.nodes := by
  induction n with
  | zero => exact (near_zero.1 h).2
  | succ n ih =>
    rcases near_succ.1 h with h | ⟨y, -, hyx⟩
    · exact ih h
    · exact hg.mem_nodes_of_adjacent hyx

/-! ## The search -/

/-- The state of a search: what has left the queue, what it has not met yet, and what waits. -/
structure Spreading (g : OrderGraph) (ids : List String) (k : ℕ) (met : List (String × ℕ))
    (pool : List String) (queue : List (String × ℕ)) : Prop where
  start : ∀ x ∈ ids, x ∈ g.nodes → (x, 0) ∈ met ++ queue
  near : ∀ m ∈ met ++ queue, g.Near ids m.2 m.1 ∧ m.2 ≤ k
  known : ∀ x ∈ g.nodes, x ∈ pool ∨ ∃ d, (x, d) ∈ met ++ queue
  closed : ∀ m ∈ met, m.2 < k → ∀ x ∈ g.nodes, g.adjacent m.1 x = true →
    ∃ d ≤ m.2 + 1, (x, d) ∈ met ++ queue
  ordered : queue.Pairwise fun m m' => m.2 ≤ m'.2
  span : ∀ m ∈ met ++ queue, ∀ waiting ∈ queue, m.2 ≤ waiting.2 + 1

theorem mem_map_nextTo {m : String × ℕ} : m ∈ (g.nextTo a pool).map (fun id => (id, d + 1)) ↔
    (m.1 ∈ pool ∧ g.adjacent a m.1 = true) ∧ m.2 = d + 1 := by
  unfold nextTo
  rw [← List.mem_filter, List.mem_map]
  constructor
  · rintro ⟨x, hx, rfl⟩
    exact ⟨hx, rfl⟩
  · rintro ⟨hx, hde⟩
    exact ⟨m.1, hx, Prod.ext rfl hde.symm⟩

theorem mem_apartFrom : x ∈ g.apartFrom a pool ↔ x ∈ pool ∧ ¬ g.adjacent a x = true := by
  unfold apartFrom
  rw [List.mem_filter, Bool.not_eq_true', Bool.eq_false_iff]

theorem spreading_start (g : OrderGraph) (ids : List String) (k : ℕ) :
    g.Spreading ids k [] (g.nodes.filter fun id => !ids.contains id)
      ((g.nodes.filter (ids.contains ·)).map fun id => (id, 0)) := by
  have hmem (x : String) (d : ℕ) : (x, d) ∈ (g.nodes.filter (ids.contains ·)).map (fun id => (id, 0)) ↔
      (x ∈ ids ∧ x ∈ g.nodes) ∧ d = 0 := by
    simp [and_comm, eq_comm]
  refine ⟨?_, ?_, ?_, ?_, ?_, ?_⟩
  · intro x hx hnode
    exact (hmem x 0).2 ⟨⟨hx, hnode⟩, rfl⟩
  · rintro ⟨x, d⟩ h
    obtain ⟨hx, rfl⟩ := (hmem x d).1 h
    exact ⟨near_zero.2 hx, Nat.zero_le k⟩
  · intro x hnode
    by_cases hx : x ∈ ids
    · exact .inr ⟨0, (hmem x 0).2 ⟨⟨hx, hnode⟩, rfl⟩⟩
    · exact .inl (by simp [hnode, hx])
  · intro m hm
    cases hm
  · rw [List.pairwise_map]
    exact List.pairwise_of_forall fun _ _ => le_refl 0
  · rintro ⟨x, d⟩ h waiting -
    obtain ⟨-, rfl⟩ := (hmem x d).1 h
    exact Nat.zero_le _

/-- An id at the greatest distance leaves the queue and nothing is looked up. -/
theorem Spreading.skip (h : g.Spreading ids k met pool ((a, d) :: queue)) (hd : k ≤ d) :
    g.Spreading ids k (met ++ [(a, d)]) pool queue := by
  obtain ⟨start, near, known, closed, ordered, span⟩ := h
  have hassoc : met ++ [(a, d)] ++ queue = met ++ (a, d) :: queue := List.append_cons met (a, d) queue |>.symm
  refine ⟨?_, ?_, ?_, ?_, (List.pairwise_cons.1 ordered).2, ?_⟩ <;> rw [hassoc]
  · exact start
  · exact near
  · exact known
  · intro m hm hlt
    rcases List.mem_append.1 hm with hm | hm
    · exact closed m hm hlt
    · obtain rfl := List.mem_singleton.1 hm
      exact absurd hlt (Nat.not_lt.2 hd)
  · intro m hm waiting hwaiting
    exact span m hm waiting (List.mem_cons_of_mem _ hwaiting)

/-- An id leaves the queue, and those next to it that are still in the pool go to its end. -/
theorem Spreading.enter (h : g.Spreading ids k met pool ((a, d) :: queue)) (hd : d < k) :
    g.Spreading ids k (met ++ [(a, d)]) (g.apartFrom a pool)
      (queue ++ (g.nextTo a pool).map fun id => (id, d + 1)) := by
  obtain ⟨start, near, known, closed, ordered, span⟩ := h
  obtain ⟨hfront, ordered⟩ := List.pairwise_cons.1 ordered
  have hall (m : String × ℕ) :
      m ∈ met ++ [(a, d)] ++ (queue ++ (g.nextTo a pool).map fun id => (id, d + 1)) ↔
        m ∈ met ++ (a, d) :: queue ∨ (m.1 ∈ pool ∧ g.adjacent a m.1 = true) ∧ m.2 = d + 1 := by
    rw [← mem_map_nextTo, ← List.append_assoc, ← List.append_cons, List.mem_append]
  have hold {m : String × ℕ} (hm : m ∈ met ++ (a, d) :: queue) : m.2 ≤ d + 1 :=
    span m hm (a, d) List.mem_cons_self
  have ha : g.Near ids d a := (near (a, d) (by simp)).1
  refine ⟨?_, ?_, ?_, ?_, ?_, ?_⟩
  · intro x hx hnode
    exact (hall _).2 (.inl (start x hx hnode))
  · intro m hm
    rcases (hall m).1 hm with hm | ⟨⟨-, ham⟩, hde⟩
    · exact near m hm
    · rw [hde]
      exact ⟨ha.step ham, hd⟩
  · intro x hnode
    rcases known x hnode with hpool | ⟨e, he⟩
    · by_cases hax : g.adjacent a x = true
      · exact .inr ⟨d + 1, (hall _).2 (.inr ⟨⟨hpool, hax⟩, rfl⟩)⟩
      · exact .inl (mem_apartFrom.2 ⟨hpool, hax⟩)
    · exact .inr ⟨e, (hall _).2 (.inl he)⟩
  · intro m hm hlt x hnode hmx
    rcases List.mem_append.1 hm with hm | hm
    · obtain ⟨e, he, hx⟩ := closed m hm hlt x hnode hmx
      exact ⟨e, he, (hall _).2 (.inl hx)⟩
    · obtain rfl := List.mem_singleton.1 hm
      rcases known x hnode with hpool | ⟨e, he⟩
      · exact ⟨d + 1, le_refl _, (hall _).2 (.inr ⟨⟨hpool, hmx⟩, rfl⟩)⟩
      · -- what is known already is not further than this, since the front of the queue is nearest
        exact ⟨e, hold he, (hall _).2 (.inl he)⟩
  · refine List.pairwise_append.2 ⟨ordered, ?_, ?_⟩
    · rw [List.pairwise_map]
      exact List.pairwise_of_forall fun _ _ => le_refl (d + 1)
    · intro m hm m' hm'
      rw [(mem_map_nextTo.1 hm').2]
      exact hold (List.mem_append_right _ (List.mem_cons_of_mem _ hm))
  · intro m hm waiting hwaiting
    have hle : m.2 ≤ d + 1 := by
      rcases (hall m).1 hm with hm | ⟨-, hde⟩
      · exact hold hm
      · exact hde.le
    have hge : d ≤ waiting.2 := by
      rcases List.mem_append.1 hwaiting with hwaiting | hwaiting
      · exact hfront waiting hwaiting
      · have hde := (mem_map_nextTo.1 hwaiting).2
        omega
    omega

theorem spreading_spread (h : g.Spreading ids k met pool queue) :
    ∃ rest, g.Spreading ids k (met ++ g.spread k pool queue) rest [] := by
  induction pool, queue using spread.induct g k generalizing met with
  | case1 pool =>
    rw [spread, List.append_nil]
    exact ⟨pool, h⟩
  | case2 pool a d queue hd ih =>
    rw [spread, if_pos hd, List.append_cons]
    exact ih (h.skip hd)
  | case3 pool a d queue hd ih =>
    rw [spread, if_neg hd, List.append_cons]
    exact ih (h.enter (Nat.not_le.1 hd))

/-- When nothing waits any more, what is near enough has been met, and not from further away. -/
theorem Spreading.exists_mem (hg : g.Closed) (h : g.Spreading ids k met pool []) (hn : n ≤ k)
    (hx : g.Near ids n x) : ∃ d ≤ n, (x, d) ∈ met := by
  obtain ⟨start, -, -, closed, -, -⟩ := h
  rw [List.append_nil] at start closed
  induction n generalizing x with
  | zero =>
    obtain ⟨hid, hnode⟩ := near_zero.1 hx
    exact ⟨0, le_refl 0, start x hid hnode⟩
  | succ n ih =>
    rcases near_succ.1 hx with hx | ⟨y, hy, hyx⟩
    · obtain ⟨d, hd, hmem⟩ := ih (Nat.le_of_succ_le hn) hx
      exact ⟨d, Nat.le_succ_of_le hd, hmem⟩
    · obtain ⟨d, hd, hmem⟩ := ih (Nat.le_of_succ_le hn) hy
      obtain ⟨e, he, hmem⟩ := closed (y, d) hmem (by omega) x (hg.mem_nodes_of_adjacent hyx) hyx
      exact ⟨e, by omega, hmem⟩

/-! ## The graph around the ids -/

theorem mem_nodes_around (hg : g.Closed) : x ∈ (g.around ids k).nodes ↔ g.Near ids k x := by
  obtain ⟨rest, hdone⟩ := spreading_spread (g.spreading_start ids k)
  rw [List.nil_append] at hdone
  unfold around
  rw [mem_nodes_induced, List.contains_iff_mem, List.mem_map]
  constructor
  · rintro ⟨-, m, hm, rfl⟩
    obtain ⟨hnear, hle⟩ := hdone.near m (List.mem_append_left _ hm)
    exact hnear.mono hle
  · intro hx
    obtain ⟨d, -, hmem⟩ := hdone.exists_mem hg (le_refl k) hx
    exact ⟨hx.mem_nodes hg, (x, d), hmem, rfl⟩

theorem around_iff_edist (hg : g.Closed) (ids : List String) (k : ℕ) :
    (∀ x, x ∈ (g.around ids k).nodes ↔
      x ∈ g.nodes ∧ ∃ s ∈ ids, s ∈ g.nodes ∧ g.undirected.edist s x ≤ k) ∧
    ∀ a b, (a, b) ∈ (g.around ids k).edges ↔
      (a, b) ∈ g.edges ∧ a ∈ (g.around ids k).nodes ∧ b ∈ (g.around ids k).nodes := by
  refine ⟨fun x => ?_, fun a b => ?_⟩
  · rw [mem_nodes_around hg]
    exact ⟨fun hx => ⟨hx.mem_nodes hg, hx⟩, And.right⟩
  · rw [mem_edges, mem_edges]
    exact hg.edge_induced

/-- From the end of an order one edge leads to its middle, against the direction of the edge. -/
theorem around_iff_edist_chain : (ofTriples chain).Closed ∧
    "b" ∈ ((ofTriples chain).around ["c", "z"] 1).nodes ∧
    "a" ∉ ((ofTriples chain).around ["c", "z"] 1).nodes ∧
    ("b", "c") ∈ ((ofTriples chain).around ["c", "z"] 1).edges := by
  have hclosed := closed_ofTriples chain
  have hbc : (ofTriples chain).Edge "b" "c" := edge_chain.2 (.inr ⟨rfl, rfl⟩)
  obtain ⟨hnodes, hedges⟩ := around_iff_edist hclosed ["c", "z"] 1
  have hone {x : String} : (ofTriples chain).undirected.edist "c" x ≤ (1 : ℕ) ↔
      ("c" ≠ x ∧ (ofTriples chain).adjacent "c" x = true) ∨ "c" = x := by
    rw [Nat.cast_one, SimpleGraph.edist_le_one_iff_adj_or_eq, undirected_adj]
  have hc : "c" ∈ ((ofTriples chain).around ["c", "z"] 1).nodes :=
    (hnodes "c").2 ⟨hclosed hbc, "c", by decide, hclosed hbc, hone.2 (.inr rfl)⟩
  have hb : "b" ∈ ((ofTriples chain).around ["c", "z"] 1).nodes :=
    (hnodes "b").2 ⟨hbc.mem_nodes, "c", by decide, hclosed hbc,
      hone.2 (.inl ⟨by decide, adjacent_iff.2 (.inr hbc)⟩)⟩
  refine ⟨hclosed, hb, fun ha => ?_, (hedges "b" "c").2 ⟨mem_edges.2 hbc, hb, hc⟩⟩
  obtain ⟨-, s, hs, hnode, hdist⟩ := (hnodes "a").1 ha
  have hz : "z" ∉ (ofTriples chain).nodes := by decide
  obtain rfl : s = "c" := by
    simp only [List.mem_cons, List.not_mem_nil, or_false] at hs
    exact hs.resolve_right fun h => hz (h ▸ hnode)
  rcases hone.1 hdist with ⟨-, hca⟩ | heq
  · rcases adjacent_iff.1 hca with hedge | hedge
    · simp [edge_chain] at hedge
    · simp [edge_chain] at hedge
  · exact absurd heq (by decide)

end DesignTokens.OrderGraph
