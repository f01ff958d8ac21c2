import DesignTokens.Order.Graph
import DesignTokens.Text.Pieces
import DesignTokens.Text.Blank

/-!
# Parts of an order graph

* `under g starts`, `outside g starts` : the nodes whose dotted id begins with one of the given
  starts, segment by segment, and the other nodes;
* `seeds g patterns` : the nodes that patterns name, an id or the start of one before a star;
* `spread g k pool queue` : a search that goes on from several ids at once and notes how far it is;
* `around g ids k` : the nodes at most `k` edges away from the ids, in either direction.
-/

namespace DesignTokens.OrderGraph

/-- The id is the start or goes on from it with a dot. Dots at the end of the start do not count,
and nothing stands under an empty start. -/
def isUnder (id start : String) : Bool :=
  match Text.dropEndWhile (· == '.') start.toList with
  | [] => false
  | cs =>
    match Text.stripStart? cs id.toList with
    | some rest => rest.isEmpty || rest.head? == some '.'
    | none => false

def under (g : OrderGraph) (starts : List String) : OrderGraph :=
  g.induced fun id => starts.any (isUnder id)

def outside (g : OrderGraph) (starts : List String) : OrderGraph :=
  g.induced fun id => !starts.any (isUnder id)

/-- The id is one that the pattern names. -/
def isNamed (pattern id : String) : Bool :=
  match Text.stripEnd? ['*'] pattern.toList with
  | some start => start.isPrefixOf id.toList
  | none => id == pattern

/-- The nodes that one of the patterns names, ascending. -/
def seeds (g : OrderGraph) (patterns : List String) : List String :=
  g.nodes.filter fun id => patterns.any fun p => isNamed p id

/-- There is an edge in one direction or the other. -/
def adjacent (g : OrderGraph) (a b : String) : Bool := g.hasEdge a b || g.hasEdge b a

def nextTo (g : OrderGraph) (a : String) (pool : List String) : List String :=
  pool.filter (g.adjacent a)

def apartFrom (g : OrderGraph) (a : String) (pool : List String) : List String :=
  pool.filter fun id => !g.adjacent a id

theorem length_nextTo_add (g : OrderGraph) (a : String) (pool : List String) :
    (g.nextTo a pool).length + (g.apartFrom a pool).length = pool.length := by
  unfold nextTo apartFrom
  rw [← List.countP_eq_length_filter, ← List.countP_eq_length_filter,
    List.length_eq_countP_add_countP (g.adjacent a)]
  simp

/-- What leaves the queue in turn, each id with how far it is. Unless that is `k` edges, those next to it that
are still in the pool go to the end of the queue, one edge further. -/
def spread (g : OrderGraph) (k : Nat) (pool : List String) (queue : List (String × Nat)) :
    List (String × Nat) :=
  match queue with
  | [] => []
  | (a, d) :: queue =>
    if k ≤ d then (a, d) :: spread g k pool queue
    else
      (a, d) :: spread g k (g.apartFrom a pool)
        (queue ++ (g.nextTo a pool).map fun id => (id, d + 1))
termination_by pool.length + queue.length
decreasing_by
  · simp
  · have hsplit := g.length_nextTo_add a pool
    simp only [List.length_append, List.length_map, List.length_cons]
    omega

/-- The nodes at most `k` edges away from the ids, in either direction. -/
def around (g : OrderGraph) (ids : List String) (k : Nat) : OrderGraph :=
  let start := g.nodes.filter (ids.contains ·)
  let rest := g.nodes.filter fun id => !ids.contains id
  let met := (g.spread k rest (start.map fun id => (id, 0))).map (·.1)
  g.induced (met.contains ·)

end DesignTokens.OrderGraph
