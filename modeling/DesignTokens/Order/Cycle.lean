import DesignTokens.Order.Graph

/-!
# Cycles of an order graph

`cycles g` : the cycles that a depth-first walk closes. The walk starts at each node not yet met, in
ascending order, and follows the successors in ascending order. When an edge leads back to an id on
the way, the part of the way from there on is a cycle; it ends with the id that it starts with.

Each id enters the walk once, when it leaves the list of fresh ids, and each edge is followed once.
-/

namespace DesignTokens.OrderGraph

/-- An id on the way and the successors that are still to be followed. -/
structure Stop where
  id : String
  ahead : List String
  deriving DecidableEq, Repr

/-- The ids on the way, from its start; the last stop stands first in the list of stops. -/
def way (stops : List Stop) : List String := stops.reverse.map Stop.id

/-- The cycle that an edge to an id on the way closes. -/
def closed (stops : List Stop) (id : String) : List String :=
  (way stops).dropWhile (· ≠ id) ++ [id]

def workLeft (stops : List Stop) : Nat := stops.length + (stops.flatMap Stop.ahead).length

/-- Goes on with the walk: the cycles that it closes from here on. -/
def walk (g : OrderGraph) (fresh : List String) (stops : List Stop) : List (List String) :=
  match stops with
  | [] =>
    match fresh with
    | [] => []
    | id :: fresh => walk g fresh [⟨id, g.successors id⟩]
  | ⟨_, []⟩ :: stops => walk g fresh stops
  | ⟨id, next :: ahead⟩ :: stops =>
    if next ∈ fresh then
      walk g (fresh.erase next) (⟨next, g.successors next⟩ :: ⟨id, ahead⟩ :: stops)
    else if next ∈ way (⟨id, ahead⟩ :: stops) then
      closed (⟨id, ahead⟩ :: stops) next :: walk g fresh (⟨id, ahead⟩ :: stops)
    else walk g fresh (⟨id, ahead⟩ :: stops)
termination_by (fresh.length, workLeft stops)
decreasing_by
  · exact Prod.Lex.left _ _ (by simp)
  · exact Prod.Lex.right _ (by simp [workLeft])
  · rename_i h
    have := List.length_pos_of_mem h
    exact Prod.Lex.left _ _ (by rw [List.length_erase_of_mem h]; omega)
  · exact Prod.Lex.right _ (by simp [workLeft])
  · exact Prod.Lex.right _ (by simp [workLeft])

/-- The cycles that a depth-first walk closes, each ending with the id that it starts with. -/
def cycles (g : OrderGraph) : List (List String) := walk g g.nodes []

end DesignTokens.OrderGraph
