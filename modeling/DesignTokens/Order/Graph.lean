import DesignTokens.Order.Triple
import DesignTokens.SortedMap

/-!
# Order graphs

* `OrderGraph` : a directed graph whose edges go from the greater to the lesser id; each node has
  the set of its successors;
* `ofTriples ts` : the graph of the edges of triples;
* `addNode`, `addEdge`, `removeEdge`, `induced keep` : the changes; the last keeps the nodes that
  satisfy `keep` and the edges between them.
-/

namespace DesignTokens

/-- A directed graph from greater to lesser ids. -/
@[ext]
structure OrderGraph where
  below : SortedMap String (SortedSet String)

namespace OrderGraph

def empty : OrderGraph := ⟨∅⟩

instance : Inhabited OrderGraph := ⟨empty⟩

def nodes (g : OrderGraph) : List String := g.below.keys

def contains (g : OrderGraph) (id : String) : Bool := g.below.contains id

/-- The ids to which an edge goes, ascending. -/
def successors (g : OrderGraph) (id : String) : List String := ((g.below.get? id).getD ∅).toList

def hasEdge (g : OrderGraph) (a b : String) : Bool := (g.successors a).contains b

def edges (g : OrderGraph) : List (String × String) :=
  g.below.entries.flatMap fun (a, bs) => (SortedSet.toList bs).map fun b => (a, b)

def edgeCount (g : OrderGraph) : Nat := g.edges.length

/-! ## Changes -/

def addNode (g : OrderGraph) (id : String) : OrderGraph := ⟨g.below.adjust id ∅ fun s => s⟩

/-- The graph with an edge and its ends. -/
def addEdge (g : OrderGraph) (a b : String) : OrderGraph :=
  ⟨(g.addNode b).below.adjust a ∅ (SortedSet.add · b)⟩

/-- The graph without an edge; its ends stay. -/
def removeEdge (g : OrderGraph) (a b : String) : OrderGraph :=
  match g.below.get? a with
  | some bs => ⟨g.below.insert a (SortedMap.erase bs b)⟩
  | none => g

/-- The nodes that satisfy `keep` and the edges between them. -/
def induced (g : OrderGraph) (keep : String → Bool) : OrderGraph :=
  ⟨(g.below.filter fun a _ => keep a).mapValues fun bs => bs.filter fun b _ => keep b⟩

def ofTriples (ts : List OrderTriple) : OrderGraph :=
  ts.foldl (fun g t => g.addEdge t.edge.1 t.edge.2) empty

def toJson (g : OrderGraph) : Json :=
  .obj [("adj", .obj (g.below.mapValues fun s => Json.ofStrings (SortedSet.toList s)).entries)]

end OrderGraph

end DesignTokens
