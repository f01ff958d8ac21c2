import DesignTokens.Order.Reduction
import DesignTokens.Proofs.Order.Graph

/-!
# What the reduction keeps

* `r.Thins g` : `r` has the nodes of `g`, some of its edges, and a way wherever `g` has one;
* `g.Needed a b` : if there is an edge from `a` to `b` then no other way leads there; smaller graphs
  keep this (`Needed.of_thins`);
* `g.Around a b visited stack` : where the search for a way around an edge stands; each of its turns keeps
  this (`Around.skip`, `Around.enter`), so it comes to `b` just if such a way leads there
  (`reachesIndirectly_iff`);
* `dropNeedless_thins`, `needed_dropNeedless` : trying one edge gives a thinner graph, in which this
  edge is needed;
* `reduction_minimal` : the reduction keeps nodes and ways, and each edge that it keeps is needed;
* `reduction_eq_hasse` : if there is no cycle then the edges that are kept are those from an id to the
  next below it, so that the reduction is known from which ids are below which.
-/

namespace DesignTokens.OrderGraph

open Relation

variable {g r r' : OrderGraph} {a b x y id : String} {visited stack : List String}

/-- The first graph has the nodes of the second one, some of its edges and a way wherever that has
one. -/
structure Thins (r g : OrderGraph) : Prop where
  nodes : r.nodes = g.nodes
  edge : ∀ {a b}, r.Edge a b → g.Edge a b
  way : ∀ {a b}, TransGen g.Edge a b → TransGen r.Edge a b

theorem Thins.refl (g : OrderGraph) : g.Thins g := ⟨rfl, id, id⟩

theorem Thins.trans (h' : r'.Thins r) (h : r.Thins g) : r'.Thins g :=
  ⟨h'.nodes.trans h.nodes, fun hab => h.edge (h'.edge hab), fun hab => h'.way (h.way hab)⟩

theorem Thins.way_iff (h : r.Thins g) : TransGen r.Edge a b ↔ TransGen g.Edge a b :=
  ⟨TransGen.mono (fun _ _ => h.edge) _ _, h.way⟩

/-- An edge from `a` to `b`, if there is one, is the only way. -/
def Needed (g : OrderGraph) (a b : String) : Prop :=
  g.Edge a b → ¬ TransGen (g.removeEdge a b).Edge a b

theorem Needed.of_thins (hneeded : g.Needed a b) (h : r.Thins g) : r.Needed a b := by
  intro hedge hway
  refine hneeded (h.edge hedge) (TransGen.mono ?_ _ _ hway)
  intro x y hxy
  obtain ⟨hxy, hne⟩ := edge_removeEdge.1 hxy
  exact edge_removeEdge.2 ⟨h.edge hxy, hne⟩

/-! ## The search for a way around an edge -/

/-- What is on the stack can be reached without the edge from `a` to `b`. Whatever comes next after `a` or
after a visited id is on the stack, or it is `a` or visited itself, and it is not `b`. -/
structure Around (g : OrderGraph) (a b : String) (visited stack : List String) : Prop where
  reached : ∀ x ∈ stack, TransGen (g.removeEdge a b).Edge a x
  closed : ∀ {x y}, x = a ∨ x ∈ visited → (g.removeEdge a b).Edge x y →
    y ∈ stack ∨ (y = a ∨ y ∈ visited) ∧ y ≠ b

theorem around_start (g : OrderGraph) (a b : String) :
    g.Around a b [] ((g.successors a).filter (· ≠ b)).reverse := by
  have hmem {x : String} : x ∈ ((g.successors a).filter (· ≠ b)).reverse ↔ (g.removeEdge a b).Edge a x := by
    rw [List.mem_reverse, List.mem_filter, edge_removeEdge]
    simp [Edge]
  refine ⟨fun x hx => .single (hmem.1 hx), fun hx hxy => ?_⟩
  obtain rfl := hx.resolve_right List.not_mem_nil
  exact .inl (hmem.2 hxy)

theorem Around.skip (h : g.Around a b visited (id :: stack)) (hb : id ≠ b) (hid : id = a ∨ id ∈ visited) :
    g.Around a b visited stack := by
  refine ⟨fun x hx => h.reached x (List.mem_cons_of_mem id hx), fun hx hxy => ?_⟩
  rcases h.closed hx hxy with hy | hy
  · rcases List.mem_cons.1 hy with rfl | hy
    · exact .inr ⟨hid, hb⟩
    · exact .inl hy
  · exact .inr hy

/-- Away from `a` the removed edge is not missed. -/
theorem Around.enter (h : g.Around a b visited (id :: stack)) (hb : id ≠ b) (ha : id ≠ a) :
    g.Around a b (id :: visited) ((g.successors id).reverse ++ stack) := by
  have hedge {y : String} : y ∈ (g.successors id).reverse ↔ (g.removeEdge a b).Edge id y := by
    rw [List.mem_reverse, edge_removeEdge]
    exact (and_iff_left fun heq => ha (Prod.mk.inj heq).1).symm
  refine ⟨fun x hx => ?_, fun {x y} hx hxy => ?_⟩
  · rcases List.mem_append.1 hx with hx | hx
    · exact (h.reached id List.mem_cons_self).tail (hedge.1 hx)
    · exact h.reached x (List.mem_cons_of_mem id hx)
  · have hsplit : x = id ∨ x = a ∨ x ∈ visited := by
      rw [or_left_comm, ← List.mem_cons]
      exact hx
    rcases hsplit with rfl | hx
    · exact .inl (List.mem_append_left _ (hedge.2 hxy))
    rcases h.closed hx hxy with hy | ⟨hy, hne⟩
    · rcases List.mem_cons.1 hy with rfl | hy
      · exact .inr ⟨.inr List.mem_cons_self, hb⟩
      · exact .inl (List.mem_append_right _ hy)
    · exact .inr ⟨hy.imp_right (List.mem_cons_of_mem id), hne⟩

/-- With nothing on the stack, what is visited is all that can be reached. -/
theorem Around.not_way (h : g.Around a b visited []) : ¬ TransGen (g.removeEdge a b).Edge a b := by
  have hall (y : String) (hway : TransGen (g.removeEdge a b).Edge a y) : (y = a ∨ y ∈ visited) ∧ y ≠ b := by
    induction hway with
    | single hay => exact (h.closed (.inl rfl) hay).resolve_left List.not_mem_nil
    | tail _ hxy ih => exact (h.closed ih.1 hxy).resolve_left List.not_mem_nil
  exact fun hway => (hall b hway).2 rfl

theorem goesAround_iff (h : g.Around a b visited stack) :
    g.goesAround a b visited stack = true ↔ TransGen (g.removeEdge a b).Edge a b := by
  induction visited, stack using goesAround.induct g a b with
  | case1 visited =>
    rw [goesAround, iff_false_left Bool.false_ne_true]
    exact h.not_way
  | case2 visited stack =>
    rw [goesAround, if_pos rfl]
    exact iff_of_true rfl (h.reached b List.mem_cons_self)
  | case3 visited id stack hb hid ih =>
    rw [goesAround, if_neg hb, if_pos hid]
    exact ih (h.skip hb hid)
  | case4 visited id stack hb hid ih =>
    rw [goesAround, if_neg hb, if_neg hid]
    exact ih (h.enter hb fun ha => hid (.inl ha))

theorem reachesIndirectly_iff :
    g.reachesIndirectly a b = true ↔ TransGen (g.removeEdge a b).Edge a b :=
  goesAround_iff (around_start g a b)

/-! ## Trying one edge -/

/-- A way along a removed edge goes the other way instead. -/
theorem removeEdge_thins (h : TransGen (g.removeEdge a b).Edge a b) : (g.removeEdge a b).Thins g := by
  refine ⟨nodes_removeEdge g a b, fun hxy => (edge_removeEdge.1 hxy).1, fun hway => ?_⟩
  refine TransGen.closed ?_ _ _ hway
  intro x y hxy
  by_cases heq : (x, y) = (a, b)
  · obtain ⟨rfl, rfl⟩ := Prod.mk.inj heq
    exact h
  · exact .single (edge_removeEdge.2 ⟨hxy, heq⟩)

theorem dropNeedless_thins (g : OrderGraph) (e : String × String) : (g.dropNeedless e).Thins g := by
  unfold dropNeedless
  split
  · rename_i hreach
    exact removeEdge_thins (reachesIndirectly_iff.1 hreach)
  · exact Thins.refl g

theorem needed_dropNeedless (g : OrderGraph) (e : String × String) :
    (g.dropNeedless e).Needed e.1 e.2 := by
  unfold dropNeedless
  split
  · intro hedge
    exact absurd rfl (edge_removeEdge.1 hedge).2
  · rename_i hreach
    intro _ hway
    exact hreach (reachesIndirectly_iff.2 hway)

/-! ## Trying all edges -/

theorem foldl_dropNeedless_thins (es : List (String × String)) (g : OrderGraph) :
    (es.foldl dropNeedless g).Thins g := by
  induction es generalizing g with
  | nil => exact Thins.refl g
  | cons e es ih =>
    rw [List.foldl_cons]
    exact (ih (g.dropNeedless e)).trans (dropNeedless_thins g e)

/-- What is needed once stays needed while further edges go. -/
theorem needed_foldl_dropNeedless {es : List (String × String)} (h : (a, b) ∈ es) (g : OrderGraph) :
    (es.foldl dropNeedless g).Needed a b := by
  induction es generalizing g with
  | nil => cases h
  | cons e es ih =>
    rw [List.foldl_cons]
    rcases List.mem_cons.1 h with rfl | h
    · exact (needed_dropNeedless g (a, b)).of_thins (foldl_dropNeedless_thins es _)
    · exact ih h (g.dropNeedless e)

theorem reduction_thins (g : OrderGraph) : g.reduction.Thins g := foldl_dropNeedless_thins g.edges g

theorem needed_reduction (g : OrderGraph) (a b : String) : g.reduction.Needed a b := by
  intro hedge
  have hmem : (a, b) ∈ g.edges := mem_edges.2 ((reduction_thins g).edge hedge)
  exact needed_foldl_dropNeedless hmem g hedge

theorem reduction_minimal (g : OrderGraph) :
    g.reduction.nodes = g.nodes ∧
      (∀ a b, g.reduction.Edge a b → g.Edge a b) ∧
      (∀ a b, TransGen g.reduction.Edge a b ↔ TransGen g.Edge a b) ∧
      ∀ a b, g.reduction.Edge a b → ¬ TransGen (g.reduction.removeEdge a b).Edge a b := by
  have hthins := reduction_thins g
  exact ⟨hthins.nodes, fun _ _ => hthins.edge, fun _ _ => hthins.way_iff, needed_reduction g⟩

/-! ## The order of a graph without cycles -/

/-- A way goes around an edge, or it leads to its start and on from its end. -/
theorem way_around_or_along (a b : String) (h : TransGen g.Edge x y) :
    TransGen (g.removeEdge a b).Edge x y ∨ ReflTransGen g.Edge x a ∧ ReflTransGen g.Edge b y := by
  induction h with
  | @single y hxy =>
    by_cases heq : (x, y) = (a, b)
    · obtain ⟨rfl, rfl⟩ := Prod.mk.inj heq
      exact .inr ⟨.refl, .refl⟩
    · exact .inl (.single (edge_removeEdge.2 ⟨hxy, heq⟩))
  | @tail y z hxy hyz ih =>
    by_cases heq : (y, z) = (a, b)
    · obtain ⟨rfl, rfl⟩ := Prod.mk.inj heq
      exact .inr ⟨hxy.to_reflTransGen, .refl⟩
    · rcases ih with haround | ⟨hstart, hend⟩
      · exact .inl (haround.tail (edge_removeEdge.2 ⟨hyz, heq⟩))
      · exact .inr ⟨hstart, hend.tail hyz⟩

/-- There is a way from `a` to `b`, and no third id is on one. -/
def NextBelow (g : OrderGraph) (a b : String) : Prop :=
  TransGen g.Edge a b ∧
    ¬ ∃ w, w ≠ a ∧ w ≠ b ∧ TransGen g.Edge a w ∧ TransGen g.Edge w b

theorem Edge.nextBelow (hg : Acyclic g.Edge) (hneeded : g.Needed a b) (h : g.Edge a b) :
    g.NextBelow a b := by
  refine ⟨.single h, ?_⟩
  rintro ⟨w, -, -, haw, hwb⟩
  -- with both halves around the edge it would not be needed, and a half along it leads back
  rcases way_around_or_along a b haw with haround | ⟨-, hbw⟩
  · rcases way_around_or_along a b hwb with haround' | ⟨hwa, -⟩
    · exact hneeded h (haround.trans haround')
    · exact hg.asymm haw hwa
  · exact hg.asymm hwb hbw

theorem NextBelow.edge (hg : Acyclic g.Edge) (h : g.NextBelow a b) : g.Edge a b := by
  obtain ⟨hway, hnone⟩ := h
  obtain ⟨w, haw, hwb⟩ := TransGen.head'_iff.1 hway
  rcases reflTransGen_iff_eq_or_transGen.1 hwb with rfl | hwb
  · exact haw
  · refine absurd ⟨w, ?_, ?_, .single haw, hwb⟩ hnone
    · rintro rfl
      exact hg w (.single haw)
    · rintro rfl
      exact hg w hwb

theorem nextBelow_congr (h : ∀ a b, TransGen r.Edge a b ↔ TransGen g.Edge a b) :
    r.NextBelow a b ↔ g.NextBelow a b := by
  unfold NextBelow
  simp only [h]

theorem edge_reduction_iff (hg : Acyclic g.Edge) : g.reduction.Edge a b ↔ g.NextBelow a b := by
  have hthins := reduction_thins g
  have hreduction : Acyclic g.reduction.Edge := hg.of_imp fun _ _ => hthins.edge
  rw [← nextBelow_congr fun _ _ => hthins.way_iff]
  exact ⟨Edge.nextBelow hreduction (needed_reduction g a b), NextBelow.edge hreduction⟩

theorem reduction_eq_hasse (hg : Acyclic g.Edge) :
    (∀ a b, g.reduction.Edge a b ↔ TransGen g.Edge a b ∧
      ¬ ∃ w, w ≠ a ∧ w ≠ b ∧ TransGen g.Edge a w ∧ TransGen g.Edge w b) ∧
    ∀ h : OrderGraph, Acyclic h.Edge → h.nodes = g.nodes →
      (∀ a b, TransGen h.Edge a b ↔ TransGen g.Edge a b) → h.reduction = g.reduction := by
  refine ⟨fun a b => edge_reduction_iff hg, fun h hh hnodes hway => ext_edge ?_ fun a b => ?_⟩
  · rw [(reduction_thins h).nodes, (reduction_thins g).nodes, hnodes]
  · rw [edge_reduction_iff hh, edge_reduction_iff hg, nextBelow_congr hway]

/-- An order of three ids. -/
def chain : List OrderTriple := [⟨"a", .atLeast, "b"⟩, ⟨"b", .atLeast, "c"⟩]

/-- The same order, with a triple that follows from the others. -/
def chainAndMore : List OrderTriple :=
  [⟨"c", .atMost, "a"⟩, ⟨"c", .atMost, "b"⟩, ⟨"b", .atMost, "a"⟩]

theorem edge_chain : (ofTriples chain).Edge a b ↔ a = "a" ∧ b = "b" ∨ a = "b" ∧ b = "c" := by
  simp [edge_ofTriples, chain, OrderTriple.edge]

theorem edge_chainAndMore : (ofTriples chainAndMore).Edge a b ↔
    (ofTriples chain).Edge a b ∨ a = "a" ∧ b = "c" := by
  rw [edge_chain]
  simp [edge_ofTriples, chainAndMore, OrderTriple.edge]
  tauto

theorem acyclic_chainAndMore : Acyclic (ofTriples chainAndMore).Edge := by
  refine acyclic_of_rank ["c", "b", "a"].idxOf ?_
  intro x y hxy
  rw [edge_chainAndMore, edge_chain] at hxy
  rcases hxy with (⟨rfl, rfl⟩ | ⟨rfl, rfl⟩) | ⟨rfl, rfl⟩ <;> decide

theorem way_chain_iff (a b : String) :
    TransGen (ofTriples chain).Edge a b ↔ TransGen (ofTriples chainAndMore).Edge a b := by
  have hab : TransGen (ofTriples chain).Edge "a" "b" := .single (edge_chain.2 (.inl ⟨rfl, rfl⟩))
  have hbc : TransGen (ofTriples chain).Edge "b" "c" := .single (edge_chain.2 (.inr ⟨rfl, rfl⟩))
  refine ⟨TransGen.mono (fun x y hxy => edge_chainAndMore.2 (.inl hxy)) a b, TransGen.closed ?_ a b⟩
  intro x y hxy
  rcases edge_chainAndMore.1 hxy with hxy | ⟨rfl, rfl⟩
  · exact .single hxy
  · exact hab.trans hbc

theorem reduction_eq_hasse_chain :
    Acyclic (ofTriples chainAndMore).Edge ∧ Acyclic (ofTriples chain).Edge ∧
      (ofTriples chainAndMore).Edge "a" "c" ∧ ¬ (ofTriples chainAndMore).reduction.Edge "a" "c" ∧
      (ofTriples chain).reduction = (ofTriples chainAndMore).reduction := by
  have hchain : Acyclic (ofTriples chain).Edge :=
    acyclic_chainAndMore.of_imp fun _ _ hab => edge_chainAndMore.2 (.inl hab)
  obtain ⟨hedge, hcongr⟩ := reduction_eq_hasse acyclic_chainAndMore
  refine ⟨acyclic_chainAndMore, hchain, edge_chainAndMore.2 (.inr ⟨rfl, rfl⟩), fun hac => ?_,
    hcongr _ hchain (by decide +kernel) way_chain_iff⟩
  have hab : (ofTriples chainAndMore).Edge "a" "b" :=
    edge_chainAndMore.2 (.inl (edge_chain.2 (.inl ⟨rfl, rfl⟩)))
  have hbc : (ofTriples chainAndMore).Edge "b" "c" :=
    edge_chainAndMore.2 (.inl (edge_chain.2 (.inr ⟨rfl, rfl⟩)))
  exact ((hedge "a" "c").1 hac).2 ⟨"b", by decide, by decide, .single hab, .single hbc⟩

end DesignTokens.OrderGraph
