import DesignTokens.SortedMap
import DesignTokens.Search

/-!
# Dependencies

* `DependencyGraph` : which tokens cite a token and which it cites, kept in both directions;
* `build nodes edges` : the graph of some ids and of pairs of a cited token and one that cites it;
* `affected id` : the other tokens that cite a token, directly or through others.
-/

namespace DesignTokens

/-- Citations between tokens, by the cited and by the citing one. -/
structure DependencyGraph where
  citing : SortedMap String (SortedSet String)
  cited : SortedMap String (SortedSet String)

namespace DependencyGraph

def empty : DependencyGraph := ⟨∅, ∅⟩

instance : Inhabited DependencyGraph := ⟨empty⟩

def addNode (g : DependencyGraph) (id : String) : DependencyGraph :=
  ⟨g.citing.adjust id ∅ (fun s => s), g.cited.adjust id ∅ (fun s => s)⟩

/-- The graph in which `citer` cites `source`. -/
def addEdge (g : DependencyGraph) (source citer : String) : DependencyGraph :=
  let citing := g.citing.adjust citer ∅ (fun s => s)
  let cited := g.cited.adjust source ∅ (fun s => s)
  ⟨citing.adjust source ∅ (SortedSet.add · citer), cited.adjust citer ∅ (SortedSet.add · source)⟩

/-- The graph of ids and of pairs of a cited and a citing token; both of a pair are nodes. -/
def build (nodes : List String) (edges : List (String × String)) : DependencyGraph :=
  edges.foldl (fun g e => g.addEdge e.1 e.2) (nodes.foldl addNode empty)

def nodes (g : DependencyGraph) : List String := g.citing.keys

def contains (g : DependencyGraph) (id : String) : Bool := g.citing.contains id

def size (g : DependencyGraph) : Nat := g.citing.size

def isEmpty (g : DependencyGraph) : Bool := g.citing.isEmpty

/-- The tokens that cite a token directly, ascending. -/
def dependents (g : DependencyGraph) (id : String) : List String :=
  ((g.citing.get? id).getD ∅).toList

/-- The tokens that a token cites directly, ascending. -/
def references (g : DependencyGraph) (id : String) : List String :=
  ((g.cited.get? id).getD ∅).toList

def edgeCount (g : DependencyGraph) : Nat := (g.citing.values.flatMap SortedSet.toList).length

/-- The other tokens that cite a token, directly or through others, ascending. -/
def affected (g : DependencyGraph) (id : String) : List String :=
  let others := g.nodes.filter (· ≠ id)
  let met := explore g.dependents others (g.dependents id)
  others.filter (met.contains ·)

end DependencyGraph

end DesignTokens
