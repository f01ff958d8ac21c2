import DesignTokens.Engine
import DesignTokens.Order.Diagram
import DesignTokens.Order.Reduction
import DesignTokens.RuleSet
import DesignTokens.Snapshot

/-!
# Reports

Each command resolves a tree and checks it against rules.

* `validate` : all issues, the cycles of the declared orders, and a summary;
* `commitValue` : what declaring one value affects;
* `hasse` : the reduced order graph of an axis with what is violated in it;
* `evaluateIn` : the number that an expression comes to, with tokens for their sizes.
-/

namespace DesignTokens

inductive ReportError where
  | resolve (e : ResolveError)
  | eval (e : EvalError)
  | unknownToken (id : String)
  | unknownAxis (axis : String)
  deriving DecidableEq, Repr

def ReportError.message : ReportError → String
  | resolve e => e.message
  | eval e => e.message
  | unknownToken id => "Unknown token: " ++ id
  | unknownAxis axis => "No order declared for axis '" ++ axis ++ "'"

/-- The engine of a tree with the checkers of the rules. -/
def buildEngine (rs : RuleSet) (tree : Json) : Except ReportError Engine :=
  match resolve tree with
  | .ok r => .ok ((Engine.ofResolution r).register rs.checkers)
  | .error e => .error (.resolve e)

def issuesToJson (issues : List Issue) : Json := .arr (issues.map Issue.toJson)

/-! ## Validation -/

structure Validation where
  valid : Bool
  snapshotHash : String
  tokenCount : Nat
  issues : List Issue
  cycles : SortedMap String (List (List String))
  summary : SortedMap String LevelCounts

/-- The cycles of the declared orders by axis; of two entries of an axis that have some, the later
one counts. -/
def orderCycles (rs : RuleSet) : SortedMap String (List (List String)) :=
  rs.orders.foldl (fun m e =>
    let cycles := (OrderGraph.ofTriples e.triples).cycles
    if cycles.isEmpty then m else m.insert e.axis cycles) ∅

def validate (rs : RuleSet) (tree : Json) : Except ReportError Validation := do
  let e ← buildEngine rs tree
  let issues := e.evaluateAll
  pure ⟨!issues.any Issue.isError, snapshotHash e.values, e.values.size, issues, orderCycles rs,
    summarize issues⟩

namespace Validation

def cyclesToJson (cycles : SortedMap String (List (List String))) : Json :=
  .obj (cycles.mapValues fun cs => Json.arr (cs.map Json.ofStrings)).entries

/-- The members of the document before the time that it was made. -/
def headMembers (v : Validation) : List (String × Json) :=
  [("valid", .bool v.valid), ("engineVersion", .str engineVersion)]

/-- The members of the document after the time that it was made. -/
def tailMembers (v : Validation) : List (String × Json) :=
  [("snapshotHash", .str v.snapshotHash), ("tokenCount", .ofNat v.tokenCount),
   ("issues", issuesToJson v.issues), ("cycles", cyclesToJson v.cycles),
   ("summary", summaryToJson v.summary)]

def toJson (time : String) (v : Validation) : Json :=
  .obj (v.headMembers ++ [("generatedAt", .str time)] ++ v.tailMembers)

def issueLine (i : Issue) : String :=
  let tag := match i.tag with
    | some tag => "[" ++ tag ++ "] "
    | none => ""
  Text.padEnd 5 i.level.name ++ " " ++ Text.padEnd 12 i.rule ++ " " ++ tag ++ i.id ++ ": " ++
    i.message

def cycleLines (axis : String) (cycles : List (List String)) : List String :=
  cycles.map fun c => "cycle " ++ Text.padEnd 12 axis ++ " " ++ OrderGraph.cycleText c

def totalLine (v : Validation) : String :=
  let errors := (v.issues.filter Issue.isError).length
  (if v.valid then "valid" else "invalid") ++ ": " ++ toString v.tokenCount ++ " tokens, " ++
    toString errors ++ " errors, " ++ toString (v.issues.length - errors) ++ " warnings"

def lines (v : Validation) : List String :=
  v.issues.map issueLine ++ v.cycles.entries.flatMap (fun e => cycleLines e.1 e.2) ++ [v.totalLine]

end Validation

/-! ## Commits -/

/-- What declaring a value affects. -/
structure CommitReport where
  commit : Commit
  snapshotHash : String

/-- Declares a value of a token. -/
def commitValue (rs : RuleSet) (tree : Json) (id : String) (v : TokenValue) :
    Except ReportError CommitReport := do
  let e ← buildEngine rs tree
  if e.values.contains id then
    let (commit, after) := e.commit id v
    pure ⟨commit, DesignTokens.snapshotHash after.values⟩
  else throw (.unknownToken id)

def Commit.members (c : Commit) : List (String × Json) :=
  [("affected", .ofStrings c.affected), ("issues", issuesToJson c.issues),
   ("patch", c.patch.toJson)]

def CommitReport.toJson (r : CommitReport) : Json :=
  .obj (r.commit.members ++ [("snapshotHash", .str r.snapshotHash)])

/-! ## Order diagrams -/

/-- The reduced order graph of an axis with what is violated in it. A violation is an edge and what
is said of it. -/
structure HasseView where
  axis : String
  graph : OrderGraph
  cycles : List (List String)
  violations : List ((String × String) × String)

/-- The violated rules with what is said of them, in order. -/
def violatedRules (view : View) (rules : List OrderRule) : List (OrderRule × String) :=
  rules.filterMap fun r => (r.violation? view).map fun v => (r, r.describe v)

/-- The violated edges, ascending, each with what is said of the last rule that declares it. -/
def violatedEdges (violated : List (OrderRule × String)) : List ((String × String) × String) :=
  let graph := OrderGraph.ofTriples (violated.map fun rv => rv.1.triple)
  let said := (violated.map fun rv => (rv.1.triple.edge, rv.2)).reverse
  graph.edges.filterMap fun e => (said.lookup e).map fun text => (e, text)

/-- The reduced order graph of an axis. A violated edge stays even if it is needless. -/
def hasse (rs : RuleSet) (tree : Json) (axis : String) : Except ReportError HasseView := do
  match rs.order? axis with
  | none => throw (.unknownAxis axis)
  | some entry =>
    let e ← buildEngine rs tree
    let full := OrderGraph.ofTriples entry.triples
    let violations := violatedEdges (violatedRules e.view entry.rules)
    let graph := violations.foldl (fun g v => g.addEdge v.1.1 v.1.2) full.reduction
    pure ⟨axis, graph, full.cycles, violations⟩

/-- The marks of a diagram: the violated edges, their ends, and what is said of them. -/
def HasseView.marks (v : HasseView) (title : Option String) : Marks :=
  ⟨title, v.violations.flatMap fun e => [e.1.1, e.1.2], v.violations.map (·.1), v.violations⟩

/-! ## Expressions -/

/-- The number that an expression comes to, and the steps on the way. -/
structure Evaluation where
  value : Float
  trace : List TraceStep

/-- Evaluates an expression with tokens for their sizes. -/
def evaluateIn (rs : RuleSet) (tree : Json) (expr : Expr) (tracing : Bool) :
    Except ReportError Evaluation := do
  let e ← buildEngine rs tree
  let t := Evaluator.evaluate ⟨sizeIn? e.view, rs.limits, tracing⟩ expr
  match t.result with
  | .ok x => pure ⟨x, t.trace⟩
  | .error err => throw (.eval err)

def Scalar.toJson : Scalar → Json
  | number x => .ofFloat x
  | boolean b => .bool b

def TraceStep.toJson (s : TraceStep) : Json :=
  .obj [("op", .str s.operator.name), ("inputs", .arr (s.inputs.map Scalar.toJson)),
    ("result", s.result.toJson)]

def Evaluation.toJson (e : Evaluation) : Json :=
  .obj ([("value", .ofFloat e.value)] ++
    if e.trace.isEmpty then [] else [("trace", .arr (e.trace.map TraceStep.toJson))])

end DesignTokens
