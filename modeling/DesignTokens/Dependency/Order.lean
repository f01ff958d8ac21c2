import DesignTokens.Dependency.Graph

/-!
# The order of resolution

* `DependencyGraph.orderWithin g scope` : the tokens of the scope, each after the ones it cites, and
  the tokens that are left because they are on a cycle or behind one;
* `DependencyGraph.cycleIn? g stuck` : a cycle through tokens of a list, found by going from the
  first one to a cited one of the list until one repeats.

Each waiting token has the number of cited tokens of the scope that are not yet in the order. When
it falls to zero the token joins the end of the queue.
-/

namespace DesignTokens

/-- Tokens that wait, each with the number of cited tokens it waits for. -/
abbrev Waiting := List (String × Nat)

/-- Lowers the number of each waiting token that is in the list. -/
def Waiting.lower (dependents : List String) (w : Waiting) : Waiting :=
  w.map fun (id, n) => (id, if dependents.contains id then n - 1 else n)

/-- The tokens that wait for none, ascending as they stand. -/
def Waiting.ready (w : Waiting) : List String := (w.filter (·.2 == 0)).map (·.1)

def Waiting.blocked (w : Waiting) : Waiting := w.filter (·.2 != 0)

theorem Waiting.length_ready_blocked (w : Waiting) :
    w.ready.length + w.blocked.length = w.length := by
  induction w with
  | nil => rfl
  | cons e w ih =>
    by_cases h : e.2 = 0 <;> simp [ready, blocked, h] at ih ⊢ <;> omega

namespace DependencyGraph

/-- Takes tokens from the queue until it is empty: the tokens taken and those that still wait. -/
def drain (g : DependencyGraph) (waiting : Waiting) (queue : List String) : List String × Waiting :=
  match queue with
  | [] => ([], waiting)
  | id :: queue =>
    let lowered := Waiting.lower (g.dependents id) waiting
    let (order, left) := drain g lowered.blocked (queue ++ lowered.ready)
    (id :: order, left)
termination_by waiting.length + queue.length
decreasing_by
  have := Waiting.length_ready_blocked (Waiting.lower (g.dependents id) waiting)
  simp only [Waiting.lower, List.length_map, List.length_append, List.length_cons] at this ⊢
  omega

/-- The nodes of the scope with the number of cited tokens of the scope. -/
def waitingWithin (g : DependencyGraph) (scope : String → Bool) : Waiting :=
  (g.nodes.filter scope).map fun id => (id, ((g.references id).filter scope).length)

/-- The tokens of the scope, each after the ones it cites, and the ones left. -/
def orderWithin (g : DependencyGraph) (scope : String → Bool) : List String × List String :=
  let start := g.waitingWithin scope
  let (order, left) := g.drain start.blocked start.ready
  (order, left.map (·.1))

def order (g : DependencyGraph) : List String × List String := g.orderWithin fun _ => true

def without (id : String) (ids : List String) : List String := ids.filter (· ≠ id)

theorem length_without_lt {id : String} {ids : List String} (h : id ∈ ids) :
    (without id ids).length < ids.length := by
  rw [without, List.length_filter_lt_length_iff_exists]
  exact ⟨id, h, by simp⟩

/-- Goes on from `current`, where `path` is the way up to it and `fresh` holds the ids of the list
that are not on it. -/
def walkCycle (g : DependencyGraph) (stuck path fresh : List String) (current : String) :
    Option (List String) :=
  match (g.references current).find? (stuck.contains ·) with
  | none => none
  | some next =>
    if next ∈ fresh then walkCycle g stuck (path ++ [next]) (without next fresh) next
    else some (path.dropWhile (· ≠ next) ++ [next])
termination_by fresh.length
decreasing_by
  rename_i h
  exact length_without_lt h

/-- A cycle through ids of the list; its first id is also its last. -/
def cycleIn? (g : DependencyGraph) (stuck : List String) : Option (List String) :=
  match stuck with
  | [] => none
  | first :: _ => walkCycle g stuck [first] (without first stuck) first

end DependencyGraph

end DesignTokens
