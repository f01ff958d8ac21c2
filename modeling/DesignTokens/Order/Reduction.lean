import DesignTokens.Order.Graph

/-!
# The reduction of an order graph

* `goesAround g a b visited stack` : a search from the stack comes to `b` before it runs out, without
  going on from `a` or from what is visited;
* `reachesIndirectly a b` : such a search from the other successors of `a`, so that no way begins with
  the edge from `a` to `b` itself;
* `reduction` : the graph without the edges that a longer way makes needless. The edges are tried in
  ascending order, each against the edges that are left.
-/

namespace DesignTokens.OrderGraph

def unvisited (g : OrderGraph) (visited : List String) : List String :=
  g.nodes.filter (· ∉ visited)

theorem unvisited_cons (g : OrderGraph) (id : String) (visited : List String) :
    g.unvisited (id :: visited) = (g.unvisited visited).filter (· ≠ id) := by
  simp [unvisited, List.filter_filter]

theorem successors_eq_nil {g : OrderGraph} {id : String} (h : id ∉ g.nodes) : g.successors id = [] := by
  have hget : g.below.get? id = none := by
    refine List.lookup_eq_none_iff.2 fun e he => ?_
    have hne : id ≠ e.1 := fun heq => h (heq ▸ List.mem_map_of_mem he)
    exact bne_iff_ne.2 hne
  rw [successors, hget]
  rfl

/-- The search comes to `b`. What was pushed last stands first on the stack. -/
def goesAround (g : OrderGraph) (a b : String) (visited stack : List String) : Bool :=
  match stack with
  | [] => false
  | id :: stack =>
    if id = b then true
    else if id = a ∨ id ∈ visited then goesAround g a b visited stack
    else goesAround g a b (id :: visited) ((g.successors id).reverse ++ stack)
termination_by ((g.unvisited visited).length, stack.length)
decreasing_by
  · exact Prod.Lex.right _ (by simp)
  · rename_i _ h
    rw [unvisited_cons]
    by_cases hnode : id ∈ g.nodes
    · apply Prod.Lex.left
      refine List.length_filter_lt_length_iff_exists.2 ⟨id, ?_, by simp⟩
      simpa [unvisited, hnode] using fun hmem => h (.inr hmem)
    -- an id that is no node leads nowhere, so the stack gets shorter
    · apply Prod.Lex.right'
      · exact List.length_filter_le _ _
      · simp [successors_eq_nil hnode]

/-- Some way leads from `a` to `b` that does not begin with the edge between them. -/
def reachesIndirectly (g : OrderGraph) (a b : String) : Bool :=
  g.goesAround a b [] ((g.successors a).filter (· ≠ b)).reverse

/-- The graph without an edge if its ends are connected without it. -/
def dropNeedless (g : OrderGraph) (e : String × String) : OrderGraph :=
  if g.reachesIndirectly e.1 e.2 then g.removeEdge e.1 e.2 else g

/-- The graph without the edges that a longer way makes needless. -/
def reduction (g : OrderGraph) : OrderGraph := g.edges.foldl dropNeedless g

end DesignTokens.OrderGraph
