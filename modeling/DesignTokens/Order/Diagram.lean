import DesignTokens.Order.Cycle
import DesignTokens.Text.Pieces

/-!
# Diagrams of an order graph

* `Marks` : what a diagram shows beside the graph: a title, marked nodes and edges, labels of edges;
* `mermaid marks g`, `dot marks g` : the diagram as a flowchart and as a graph description.

The lines of a diagram are a list, so that nothing in an id or label can make or break a line: line
ends in it are replaced before. A flowchart has an identifier for each node, `identifiers g`.
-/

namespace DesignTokens

/-- What a diagram shows beside the graph; of several labels of an edge the first counts. -/
structure Marks where
  title : Option String
  nodes : List String
  edges : List (String × String)
  labels : List ((String × String) × String)
  deriving DecidableEq, Repr

def Marks.none : Marks := ⟨Option.none, [], [], []⟩

namespace OrderGraph

def unlines (ls : List String) : String := String.join (ls.map (· ++ "\n"))

/-- The ids of a cycle with arrows between them. -/
def cycleText (cycle : List String) : String := String.intercalate " -> " cycle

/-! ## Flowcharts -/

/-- A text without quotes and line ends. -/
def mermaidText (s : String) : String :=
  Text.replaceChar '\n' " " (Text.replaceChar '"' "#quot;" s)

/-- The id with all but ASCII letters, digits and underscores replaced by underscores. -/
def plainId (id : String) : String :=
  "n_" ++ String.ofList (id.toList.map fun c => if c.isAlphanum || c == '_' then c else '_')

/-- The first of `base`, `base_2`, `base_3`, … that is not taken. One of the first as many and one
more is free. -/
def freeName (taken : List String) (base : String) : String :=
  let others := (List.range taken.length).map fun n => base ++ "_" ++ toString (n + 2)
  ((base :: others).find? fun name => !taken.contains name).getD base

/-- Gives each id a name that none before it has, where `taken` are the names given so far. -/
def nameAll (taken : List String) : List String → List (String × String)
  | [] => []
  | id :: ids =>
    let name := freeName taken (plainId id)
    (id, name) :: nameAll (name :: taken) ids

def identifiers (g : OrderGraph) : List (String × String) := nameAll [] g.nodes

/-- The identifier that a node has among some. -/
def identifierIn (names : List (String × String)) (id : String) : String :=
  (names.lookup id).getD ""

def markedStyle : String := "stroke:#d33,stroke-width:2px;"

def mermaidEdge (marks : Marks) (names : List (String × String)) (e : String × String) : String :=
  let arrow := match marks.labels.lookup e with
    | some label => " -->|\"" ++ mermaidText label ++ "\"| "
    | none => " --> "
  "  " ++ identifierIn names e.1 ++ arrow ++ identifierIn names e.2

/-- The identifiers of the marked nodes, ascending by node. -/
def markedIdentifiers (marks : Marks) (names : List (String × String)) : List String :=
  (names.filter fun n => marks.nodes.contains n.1).map (·.2)

/-- The positions of the marked edges. -/
def markedLinks (marks : Marks) (g : OrderGraph) : List Nat :=
  (g.edges.zipIdx.filter fun e => marks.edges.contains e.1).map (·.2)

def mermaidTitle (marks : Marks) : List String :=
  match marks.title with
  | some title => ["---", "title: " ++ mermaidText title, "---"]
  | none => []

def mermaidStyles (marks : Marks) (g : OrderGraph) : List String :=
  let ids := markedIdentifiers marks g.identifiers
  let links := markedLinks marks g
  (if ids.isEmpty && links.isEmpty then [] else ["  classDef violation " ++ markedStyle]) ++
  (if ids.isEmpty then [] else ["  class " ++ String.intercalate "," ids ++ " violation;"]) ++
  (if links.isEmpty then []
    else ["  linkStyle " ++ String.intercalate "," (links.map toString) ++ " " ++ markedStyle])

def mermaidNode (name : String × String) : String :=
  "  " ++ name.2 ++ "[\"" ++ mermaidText name.1 ++ "\"]"

def mermaidLines (marks : Marks) (g : OrderGraph) : List String :=
  let names := g.identifiers
  mermaidTitle marks ++ ["flowchart TD"] ++
  g.cycles.map (fun c => "  %% cycle: " ++ mermaidText (cycleText c)) ++
  names.map mermaidNode ++ g.edges.map (mermaidEdge marks names) ++
  mermaidStyles marks g

def mermaid (marks : Marks) (g : OrderGraph) : String := unlines (mermaidLines marks g)

/-! ## Graph descriptions -/

/-- A text in which backslashes, quotes and line ends are escaped. -/
def dotText (s : String) : String :=
  Text.replaceChar '\n' "\\n" (Text.replaceChar '"' "\\\"" (Text.replaceChar '\\' "\\\\" s))

def dotQuote (s : String) : String := "\"" ++ dotText s ++ "\""

def dotHead (marks : Marks) : List String :=
  match marks.title with
  | some title =>
    ["digraph " ++ dotQuote title ++ " \x7b", "  label=" ++ dotQuote title ++ ";", "  labelloc=t;"]
  | none => ["digraph hasse \x7b"]

def dotNode (marks : Marks) (id : String) : String :=
  "  " ++ dotQuote id ++
    if marks.nodes.contains id then " [color=\"#d33\", penwidth=2];" else ";"

def dotAttributes (marks : Marks) (e : String × String) : List String :=
  (match marks.labels.lookup e with
    | some label => ["label=" ++ dotQuote label]
    | none => []) ++
  if marks.edges.contains e then ["color=\"#d33\"", "penwidth=2"] else []

def dotEdge (marks : Marks) (e : String × String) : String :=
  let attributes := dotAttributes marks e
  "  " ++ dotQuote e.1 ++ " -> " ++ dotQuote e.2 ++
    (if attributes.isEmpty then "" else " [" ++ String.intercalate ", " attributes ++ "]") ++ ";"

def dotLines (marks : Marks) (g : OrderGraph) : List String :=
  dotHead marks ++ ["  rankdir=TB;", "  node [shape=box];"] ++
  g.cycles.map (fun c => "  // cycle: " ++ dotText (cycleText c)) ++
  g.nodes.map (dotNode marks) ++ g.edges.map (dotEdge marks) ++ ["\x7d"]

def dot (marks : Marks) (g : OrderGraph) : String := unlines (dotLines marks g)

end OrderGraph

end DesignTokens
