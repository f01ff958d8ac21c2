/-!
# Searching a graph

* `explore next pool stack` : the members of `pool` that a search from `stack` meets, in the order
  in which it meets them. It goes on from a member to its neighbours `next`, and nothing outside the
  pool is entered.

A member leaves the pool when it is met, so the search ends.
-/

namespace DesignTokens

variable {α : Type} [DecidableEq α]

/-- The members of the pool that a search from the stack meets. -/
def explore (next : α → List α) (pool stack : List α) : List α :=
  match stack with
  | [] => []
  | x :: stack =>
    if x ∈ pool then x :: explore next (pool.erase x) (next x ++ stack)
    else explore next pool stack
termination_by (pool.length, stack.length)
decreasing_by
  · apply Prod.Lex.left
    rename_i h
    have := List.length_pos_of_mem h
    rw [List.length_erase_of_mem h]
    omega
  · apply Prod.Lex.right
    simp

end DesignTokens
