import DesignTokens.Dependency.Graph
import DesignTokens.Proofs.SortedMap
import Mathlib.Data.String.Basic
import Mathlib.Logic.Relation
import Mathlib.Tactic.Tauto

/-!
# The graph of a list of citations

* `mem_dependents_build`, `mem_references_build`, `mem_nodes_build` : the graph of some ids and pairs
  holds each pair in both directions and has the ids and the ends of the pairs as nodes;
* `sorted_nodes`, `sorted_dependents` : nodes and dependents stand in strictly ascending order;
* `DependencyGraph.Feeds g a b` : `b` cites `a`; in the graph of a list of pairs these are the pairs of
  the list (`feeds_build`);
* `DependencyGraph.WellFormed` : both directions tell the same, and between nodes only; `build` makes
  such graphs (`build_wellFormed`);
* `DependencyGraph.SameKeys` : both maps have the same keys, which a node or edge more keeps; so the maps of
  the graph of a list of pairs are the two directions of these pairs, on the listed ids and the ends of the
  pairs (`build_converse`).
-/

namespace DesignTokens

namespace DependencyGraph

/-! ## One node or edge more -/

theorem dependents_addNode (g : DependencyGraph) (id a : String) :
    (g.addNode id).dependents a = g.dependents a :=
  congrArg SortedSet.toList (getD_adjust_id g.citing id a)

theorem references_addNode (g : DependencyGraph) (id a : String) :
    (g.addNode id).references a = g.references a :=
  congrArg SortedSet.toList (getD_adjust_id g.cited id a)

theorem mem_nodes_addNode (g : DependencyGraph) {id x : String} :
    x ∈ (g.addNode id).nodes ↔ x = id ∨ x ∈ g.nodes :=
  SortedMap.mem_keys_insert g.citing

theorem mem_dependents_addEdge (g : DependencyGraph) {s c a b : String} :
    b ∈ (g.addEdge s c).dependents a ↔ (a = s ∧ b = c) ∨ b ∈ g.dependents a := by
  unfold dependents
  rw [← getD_adjust_id g.citing c a]
  exact mem_getD_adjust_add _ s c a b

theorem mem_references_addEdge (g : DependencyGraph) {s c a b : String} :
    a ∈ (g.addEdge s c).references b ↔ (a = s ∧ b = c) ∨ a ∈ g.references b := by
  unfold references
  rw [← getD_adjust_id g.cited s b, and_comm]
  exact mem_getD_adjust_add _ c s b a

/-- The source is a key by the citation that it gets, the citer by an entry of its own. -/
theorem mem_nodes_addEdge (g : DependencyGraph) {s c x : String} :
    x ∈ (g.addEdge s c).nodes ↔ x = s ∨ x = c ∨ x ∈ g.nodes := by
  show x ∈ ((g.citing.insert c _).insert s _).keys ↔ x = s ∨ x = c ∨ x ∈ g.citing.keys
  rw [SortedMap.mem_keys_insert, SortedMap.mem_keys_insert]

/-! ## The keys of both maps -/

/-- The map of each direction has an entry for the same ids. -/
def SameKeys (g : DependencyGraph) : Prop := g.citing.keys = g.cited.keys

theorem SameKeys.addNode {g : DependencyGraph} (h : g.SameKeys) (id : String) : (g.addNode id).SameKeys :=
  SortedMap.keys_eq_of_mem fun x => by
    show x ∈ (g.citing.insert id _).keys ↔ x ∈ (g.cited.insert id _).keys
    rw [SortedMap.mem_keys_insert, SortedMap.mem_keys_insert, h]

/-- Each end gets a member in one map and an entry of its own in the other one. -/
theorem SameKeys.addEdge {g : DependencyGraph} (h : g.SameKeys) (s c : String) : (g.addEdge s c).SameKeys :=
  SortedMap.keys_eq_of_mem fun x => by
    show x ∈ (g.addEdge s c).nodes ↔ x ∈ ((g.cited.insert s _).insert c _).keys
    rw [mem_nodes_addEdge, SortedMap.mem_keys_insert, SortedMap.mem_keys_insert, ← h]
    exact or_left_comm

/-! ## The whole graph -/

theorem foldl_addNode (nodes : List String) (g : DependencyGraph) :
    (∀ a, (nodes.foldl addNode g).dependents a = g.dependents a) ∧
      (∀ a, (nodes.foldl addNode g).references a = g.references a) ∧
      ∀ x, x ∈ (nodes.foldl addNode g).nodes ↔ x ∈ nodes ∨ x ∈ g.nodes := by
  induction nodes generalizing g with
  | nil => simp
  | cons n ns ih =>
    obtain ⟨hd, hr, hn⟩ := ih (g.addNode n)
    rw [List.foldl_cons]
    refine ⟨fun a => ?_, fun a => ?_, fun x => ?_⟩
    · rw [hd, dependents_addNode]
    · rw [hr, references_addNode]
    · rw [hn, mem_nodes_addNode, List.mem_cons]
      tauto

theorem foldl_addEdge (edges : List (String × String)) (g : DependencyGraph) :
    (∀ a b, b ∈ (edges.foldl (fun g e => g.addEdge e.1 e.2) g).dependents a ↔
        (a, b) ∈ edges ∨ b ∈ g.dependents a) ∧
      (∀ a b, a ∈ (edges.foldl (fun g e => g.addEdge e.1 e.2) g).references b ↔
        (a, b) ∈ edges ∨ a ∈ g.references b) ∧
      ∀ x, x ∈ (edges.foldl (fun g e => g.addEdge e.1 e.2) g).nodes ↔
        (∃ e ∈ edges, x = e.1 ∨ x = e.2) ∨ x ∈ g.nodes := by
  induction edges generalizing g with
  | nil => simp
  | cons e es ih =>
    obtain ⟨hd, hr, hn⟩ := ih (g.addEdge e.1 e.2)
    rw [List.foldl_cons]
    have head (a b : String) : (a, b) = e ↔ a = e.1 ∧ b = e.2 := Prod.ext_iff
    refine ⟨fun a b => ?_, fun a b => ?_, fun x => ?_⟩
    · rw [hd, mem_dependents_addEdge, List.mem_cons, head]
      tauto
    · rw [hr, mem_references_addEdge, List.mem_cons, head]
      tauto
    · rw [hn, mem_nodes_addEdge]
      simp only [List.mem_cons, exists_eq_or_imp]
      grind

theorem mem_dependents_build {nodes : List String} {edges : List (String × String)} {a b : String} :
    b ∈ (build nodes edges).dependents a ↔ (a, b) ∈ edges := by
  rw [build, (foldl_addEdge edges _).1, (foldl_addNode nodes _).1]
  exact or_iff_left List.not_mem_nil

theorem mem_references_build {nodes : List String} {edges : List (String × String)} {a b : String} :
    a ∈ (build nodes edges).references b ↔ (a, b) ∈ edges := by
  rw [build, (foldl_addEdge edges _).2.1, (foldl_addNode nodes _).2.1]
  exact or_iff_left List.not_mem_nil

theorem mem_nodes_build {nodes : List String} {edges : List (String × String)} {x : String} :
    x ∈ (build nodes edges).nodes ↔ (∃ e ∈ edges, x = e.1 ∨ x = e.2) ∨ x ∈ nodes := by
  rw [build, (foldl_addEdge edges _).2.2, (foldl_addNode nodes _).2.2]
  exact or_congr_right (or_iff_left List.not_mem_nil)

/-! ## Citations as a relation -/

/-- The second token cites the first one. -/
def Feeds (g : DependencyGraph) (a b : String) : Prop := b ∈ g.dependents a

/-- Both directions of the graph tell the same citations, and between nodes only. -/
structure WellFormed (g : DependencyGraph) : Prop where
  converse : ∀ {a b}, g.Feeds a b ↔ a ∈ g.references b
  node_left : ∀ {a b}, g.Feeds a b → a ∈ g.nodes
  node_right : ∀ {a b}, g.Feeds a b → b ∈ g.nodes

theorem build_wellFormed (nodes : List String) (edges : List (String × String)) :
    (build nodes edges).WellFormed where
  converse := mem_dependents_build.trans mem_references_build.symm
  node_left h := mem_nodes_build.2 (.inl ⟨_, mem_dependents_build.1 h, .inl rfl⟩)
  node_right h := mem_nodes_build.2 (.inl ⟨_, mem_dependents_build.1 h, .inr rfl⟩)

theorem feeds_build (nodes : List String) (edges : List (String × String)) :
    (build nodes edges).Feeds = fun a b => (a, b) ∈ edges := by
  funext a b
  exact propext mem_dependents_build

theorem build_sameKeys (nodes : List String) (edges : List (String × String)) :
    (build nodes edges).SameKeys := by
  have hnodes : (nodes.foldl addNode empty).SameKeys :=
    List.foldlRecOn (motive := SameKeys) nodes addNode rfl fun _ hg id _ => hg.addNode id
  exact List.foldlRecOn (motive := SameKeys) edges _ hnodes fun _ hg e _ => hg.addEdge e.1 e.2

/-- Both maps have the listed ids and the ends of the pairs as keys, and each pair stands in both. -/
theorem build_converse (nodes : List String) (edges : List (String × String)) :
    (build nodes edges).citing.keys = (build nodes edges).cited.keys ∧
    (∀ x, x ∈ (build nodes edges).citing.keys ↔ x ∈ nodes ∨ ∃ e ∈ edges, x = e.1 ∨ x = e.2) ∧
    ∀ x y, (y ∈ (build nodes edges).dependents x ↔ x ∈ (build nodes edges).references y) ∧
      (x ∈ (build nodes edges).references y ↔ (x, y) ∈ edges) :=
  ⟨build_sameKeys nodes edges, fun _ => mem_nodes_build.trans or_comm,
    fun _ _ => ⟨(build_wellFormed nodes edges).converse, mem_references_build⟩⟩

theorem nodup_nodes (g : DependencyGraph) : g.nodes.Nodup := g.citing.nodup_keys

theorem sorted_nodes (g : DependencyGraph) : g.nodes.Pairwise (· < ·) :=
  List.pairwise_map.2 (g.citing.ascending.imp fun h => compare_lt_iff_lt.1 h)

theorem sorted_dependents (g : DependencyGraph) (id : String) :
    (g.dependents id).Pairwise (· < ·) :=
  List.pairwise_map.2 ((SortedMap.ascending _).imp fun h => compare_lt_iff_lt.1 h)

theorem nodup_dependents (g : DependencyGraph) (id : String) : (g.dependents id).Nodup :=
  SortedSet.nodup_toList _

theorem nodup_references (g : DependencyGraph) (id : String) : (g.references id).Nodup :=
  SortedSet.nodup_toList _

end DependencyGraph

end DesignTokens
