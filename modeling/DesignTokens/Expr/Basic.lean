import DesignTokens.Decimal.Text

/-!
# Expressions

* `Expr` : numbers, references to tokens, arithmetic, clamping, comparisons and choices;
* `Expr.nodeCount`, `Expr.refs` : the number of nodes, and the ids that are referred to, in order
  and with repetitions;
* `Limits` : how many nodes an expression may have and how large its numbers may become.
-/

namespace DesignTokens

inductive Arithmetic where
  | add
  | sub
  | mul
  | div
  | pow
  | min
  | max
  deriving DecidableEq, Repr

inductive Test where
  | eq
  | lt
  | gt
  deriving DecidableEq, Repr

def Arithmetic.name : Arithmetic → String
  | add => "add"
  | sub => "sub"
  | mul => "mul"
  | div => "div"
  | pow => "pow"
  | min => "min"
  | max => "max"

def Arithmetic.ofName? : String → Option Arithmetic
  | "add" => some add
  | "sub" => some sub
  | "mul" => some mul
  | "div" => some div
  | "pow" => some pow
  | "min" => some min
  | "max" => some max
  | _ => none

def Test.name : Test → String
  | eq => "eq"
  | lt => "lt"
  | gt => "gt"

def Test.ofName? : String → Option Test
  | "eq" => some eq
  | "lt" => some lt
  | "gt" => some gt
  | _ => none

/-- An expression. A branch of a choice is a condition and the expression that it guards. -/
inductive Expr where
  | literal (x : Float)
  | ref (id : String)
  | arithmetic (op : Arithmetic) (a b : Expr)
  | clamp (value low high : Expr)
  | test (op : Test) (a b : Expr)
  | piecewise (branches : List (Expr × Expr)) (otherwise : Expr)
  deriving BEq, Inhabited, Repr

namespace Expr

mutual

def nodeCount : Expr → Nat
  | literal _ => 1
  | ref _ => 1
  | arithmetic _ a b => 1 + (nodeCount a + nodeCount b)
  | clamp v lo hi => 1 + (nodeCount v + nodeCount lo + nodeCount hi)
  | test _ a b => 1 + (nodeCount a + nodeCount b)
  | piecewise bs e => 1 + (branchCount bs + nodeCount e)

def branchCount : List (Expr × Expr) → Nat
  | [] => 0
  | (c, e) :: bs => nodeCount c + nodeCount e + branchCount bs

end

mutual

/-- The ids that are referred to, from left to right. -/
def refs : Expr → List String
  | literal _ => []
  | ref id => [id]
  | arithmetic _ a b => refs a ++ refs b
  | clamp v lo hi => refs v ++ refs lo ++ refs hi
  | test _ a b => refs a ++ refs b
  | piecewise bs e => branchRefs bs ++ refs e

def branchRefs : List (Expr × Expr) → List String
  | [] => []
  | (c, e) :: bs => refs c ++ refs e ++ branchRefs bs

end

end Expr

/-- How many nodes an expression may have, and the greatest magnitude of its numbers. -/
structure Limits where
  maxNodes : Nat
  maxMagnitude : Float
  deriving DecidableEq, Repr

/-- The limits that hold if none are given. -/
def Limits.default : Limits := ⟨256, 1000000000.0⟩

end DesignTokens
