import DesignTokens.Rule.Checker
import DesignTokens.Token.Resolution

/-!
# Incremental checking

* `Engine` : the values and declared values of the tokens, the citations, and the checkers;
* `evaluate`, `evaluateAll` : the issues that touch some ids, or any;
* `commit id v` : declares a value, resolves the tokens that depend on it again, and gives the
  issues that touch the token or one of these.
-/

namespace DesignTokens

/-- The values and declared values of the tokens, the citations, and the checkers. -/
structure Engine where
  values : Values
  raw : Values
  graph : DependencyGraph
  checkers : List Checker

structure Commit where
  affected : List String
  issues : List Issue
  patch : Values

namespace Engine

/-- An engine without checkers, for values and pairs of a cited and a citing token. -/
def new (values : Values) (edges : List (String × String)) : Engine :=
  ⟨values, values, .build values.keys edges, []⟩

/-- An engine without checkers, for a resolved tree. -/
def ofResolution (r : Resolution) : Engine := ⟨r.values, r.raw, .build r.values.keys r.edges, []⟩

def register (e : Engine) (checkers : List Checker) : Engine :=
  { e with checkers := e.checkers ++ checkers }

def view (e : Engine) : View := e.values.get?

def set (e : Engine) (id : String) (v : TokenValue) : Engine :=
  { e with values := e.values.insert id v }

def affected (e : Engine) (id : String) : List String := e.graph.affected id

/-- The issues of every checker that touch one of the candidates, in the order of the checkers. -/
def evaluate (e : Engine) (candidates : List String) : List Issue :=
  e.checkers.flatMap (Checker.evaluate e.view candidates)

def evaluateAll (e : Engine) : List Issue := e.evaluate e.values.keys

/-- Resolves the declared value of a token again, if it cites any. -/
def refreshOne (raw : Values) (values : Values) (id : String) : Values :=
  match raw.get? id with
  | some v => if v.hasPlaceholder then values.insert id (substitute values.get? v) else values
  | none => values

def refresh (e : Engine) (ids : List String) : Engine :=
  { e with values := (e.graph.orderWithin (ids.contains ·)).1.foldl (refreshOne e.raw) e.values }

/-- Declares a value and resolves the tokens that depend on it. -/
def declare (e : Engine) (id : String) (v : TokenValue) : Engine :=
  let e := { e with
    raw := e.raw.insert id v
    values := e.values.insert id (substitute e.values.get? v) }
  e.refresh (e.affected id)

/-- Declares a value: the tokens that depend on it, the issues that touch them or the token, and the
engine afterwards. -/
def commit (e : Engine) (id : String) (v : TokenValue) : Commit × Engine :=
  let affected := e.affected id
  let after := e.declare id v
  (⟨affected, after.evaluate (id :: affected), SortedMap.ofList [(id, v)]⟩, after)

end Engine

end DesignTokens
