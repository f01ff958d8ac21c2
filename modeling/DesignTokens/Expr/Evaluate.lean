import DesignTokens.Expr.Basic

/-!
# Evaluating expressions

* `Evaluator` : where references are looked up, the limits, and whether steps are recorded;
* `Evaluator.evaluate` : the number that an expression comes to, or why it comes to none, together
  with the steps recorded on the way, also before an error;
* `evaluate` : the number alone.

Every number on the way is checked: it is finite and its magnitude is within the limit. An
expression with too many nodes is not evaluated at all.
-/

namespace DesignTokens

inductive Scalar where
  | number (x : Float)
  | boolean (b : Bool)
  deriving DecidableEq, Repr

def Scalar.kind : Scalar → String
  | number _ => "number"
  | boolean _ => "boolean"

def Scalar.asText : Scalar → String
  | number x => Decimal.plain x
  | boolean true => "true"
  | boolean false => "false"

inductive Operator where
  | literal
  | ref
  | arithmetic (op : Arithmetic)
  | clamp
  | test (op : Test)
  | piecewise
  deriving DecidableEq, Repr

def Operator.name : Operator → String
  | literal => "literal"
  | ref => "ref"
  | arithmetic op => op.name
  | clamp => "clamp"
  | test op => op.name
  | piecewise => "piecewise"

/-- A node that was evaluated: what it does, the operands and the result. -/
structure TraceStep where
  operator : Operator
  inputs : List Scalar
  result : Scalar
  deriving DecidableEq, Repr

/-- Why an expression comes to no number. -/
inductive EvalError where
  | tooManyNodes (count max : Nat)
  | unknownReference (id : String)
  | nonFinite (operator : Operator)
  | magnitudeExceeded (operator : Operator) (value max : Float)
  | divisionByZero
  | typeMismatch (operator : Operator) (expected found : String)
  | booleanResult
  deriving DecidableEq, Repr

namespace EvalError

def code : EvalError → String
  | tooManyNodes _ _ => "too_many_nodes"
  | unknownReference _ => "unknown_reference"
  | nonFinite _ => "non_finite"
  | magnitudeExceeded _ _ _ => "magnitude_exceeded"
  | divisionByZero => "division_by_zero"
  | typeMismatch _ _ _ => "type_mismatch"
  | booleanResult => "boolean_result"

def message : EvalError → String
  | tooManyNodes count max =>
    "Expression has " ++ toString count ++ " nodes, limit is " ++ toString max
  | unknownReference id => "Unknown reference '" ++ id ++ "'"
  | nonFinite op => "Non-finite value from " ++ op.name
  | magnitudeExceeded op value max =>
    "Value " ++ Decimal.plain value ++ " from " ++ op.name ++ " exceeds magnitude limit " ++
      Decimal.plain max
  | divisionByZero => "Division by zero"
  | typeMismatch op expected found =>
    "Type mismatch in " ++ op.name ++ ": expected " ++ expected ++ ", found " ++ found
  | booleanResult => "Expression evaluates to a boolean, a number is required"

end EvalError

/-- An outcome together with the steps that were recorded on the way to it. -/
structure Traced (α : Type) where
  result : Except EvalError α
  trace : List TraceStep

namespace Traced

/-- Goes on from a value, with the further steps after the ones so far; an error ends it. -/
def andThen {α β : Type} (t : Traced α) (f : α → Traced β) : Traced β :=
  match t.result with
  | .error e => ⟨.error e, t.trace⟩
  | .ok a => ⟨(f a).result, t.trace ++ (f a).trace⟩

instance : Monad Traced where
  pure a := ⟨.ok a, []⟩
  bind := andThen

theorem bind_of_ok {α β : Type} {t : Traced α} {f : α → Traced β} {a : α} (h : t.result = .ok a) :
    t >>= f = ⟨(f a).result, t.trace ++ (f a).trace⟩ := by
  show t.andThen f = _
  unfold andThen
  rw [h]

theorem bind_of_error {α β : Type} {t : Traced α} {f : α → Traced β} {e : EvalError}
    (h : t.result = .error e) : t >>= f = ⟨.error e, t.trace⟩ := by
  show t.andThen f = _
  unfold andThen
  rw [h]

def fail {α : Type} (e : EvalError) : Traced α := ⟨.error e, []⟩

end Traced

/-- Where references are looked up, the limits, and whether steps are recorded. -/
structure Evaluator where
  lookup : String → Option Float
  limits : Limits
  tracing : Bool

/-- Smaller numbers do not divide anything. -/
def smallestDivisor : Float := 1e-12

/-- The smaller of two numbers, the first if they are equal. -/
def lesser (x y : Float) : Float := if y < x then y else x

/-- The greater of two numbers, the first if they are equal. -/
def greater (x y : Float) : Float := if x < y then y else x

/-- The value of an operation, which has none if the divisor is too small. -/
def Arithmetic.apply? (op : Arithmetic) (x y : Float) : Option Float :=
  match op with
  | add => some (x + y)
  | sub => some (x - y)
  | mul => some (x * y)
  | div => if y.abs < smallestDivisor then none else some (x / y)
  | pow => some (Float.pow x y)
  | min => some (lesser x y)
  | max => some (greater x y)

/-- The number moved into bounds, of which the lower one wins if they are the wrong way round. -/
def clampBetween (lo hi x : Float) : Float := greater (lesser x hi) lo

def Test.holds (op : Test) (x y : Float) : Bool :=
  match op with
  | eq => x == y
  | lt => x < y
  | gt => y < x

namespace Evaluator

/-- Records a step, if steps are recorded, and gives its result. -/
def record (ev : Evaluator) (op : Operator) (inputs : List Scalar) (result : Scalar) :
    Traced Scalar :=
  ⟨.ok result, if ev.tracing then [⟨op, inputs, result⟩] else []⟩

/-- A number that is finite and within the limit. -/
def check (ev : Evaluator) (op : Operator) (x : Float) : Traced Float :=
  if !x.isFinite then Traced.fail (.nonFinite op)
  else if ev.limits.maxMagnitude < x.abs then
    Traced.fail (.magnitudeExceeded op x ev.limits.maxMagnitude)
  else pure x

/-- Checks a number and records the step that came to it. -/
def finish (ev : Evaluator) (op : Operator) (inputs : List Float) (x : Float) : Traced Scalar := do
  let x ← ev.check op x
  ev.record op (inputs.map .number) (.number x)

def asNumber (op : Operator) (s : Scalar) : Traced Float :=
  match s with
  | .number x => pure x
  | .boolean _ => Traced.fail (.typeMismatch op "number" s.kind)

def asBoolean (op : Operator) (s : Scalar) : Traced Bool :=
  match s with
  | .boolean b => pure b
  | .number _ => Traced.fail (.typeMismatch op "boolean" s.kind)

mutual

/-- What an expression comes to. -/
def eval (ev : Evaluator) : Expr → Traced Scalar
  | .literal x => ev.finish .literal [] x
  | .ref id =>
    match ev.lookup id with
    | some x => ev.finish .ref [] x
    | none => Traced.fail (.unknownReference id)
  | .arithmetic op a b => do
    let x ← asNumber (.arithmetic op) (← eval ev a)
    let y ← asNumber (.arithmetic op) (← eval ev b)
    match op.apply? x y with
    | some z => ev.finish (.arithmetic op) [x, y] z
    | none => Traced.fail .divisionByZero
  | .clamp v lo hi => do
    let x ← asNumber .clamp (← eval ev v)
    let l ← asNumber .clamp (← eval ev lo)
    let h ← asNumber .clamp (← eval ev hi)
    ev.finish .clamp [x, l, h] (clampBetween l h x)
  | .test op a b => do
    let x ← asNumber (.test op) (← eval ev a)
    let y ← asNumber (.test op) (← eval ev b)
    ev.record (.test op) [.number x, .number y] (.boolean (op.holds x y))
  | .piecewise branches otherwise => do
    let (conditions, hit) ← evalBranches ev branches
    let result ← match hit with
      | some result => pure result
      | none => eval ev otherwise
    ev.record .piecewise (conditions.map .boolean) result

/-- The conditions up to the first that holds, and what the expression that it guards comes to. -/
def evalBranches (ev : Evaluator) : List (Expr × Expr) → Traced (List Bool × Option Scalar)
  | [] => pure ([], none)
  | (condition, guarded) :: branches => do
    let holds ← asBoolean .piecewise (← eval ev condition)
    if holds then
      let result ← eval ev guarded
      pure ([true], some result)
    else
      let (conditions, hit) ← evalBranches ev branches
      pure (false :: conditions, hit)

end

theorem eval_piecewise (ev : Evaluator) (branches : List (Expr × Expr)) (otherwise : Expr) :
    ev.eval (.piecewise branches otherwise) = ev.evalBranches branches >>= fun r =>
      r.2.elim (ev.eval otherwise) pure >>= ev.record .piecewise (r.1.map .boolean) := by
  rw [eval]
  refine congrArg (ev.evalBranches branches >>= ·) (funext fun r => ?_)
  obtain ⟨conditions, hit⟩ := r
  cases hit <;> rfl

theorem evalBranches_cons (ev : Evaluator) (condition guarded : Expr) (branches : List (Expr × Expr)) :
    ev.evalBranches ((condition, guarded) :: branches) = ev.eval condition >>= fun s =>
      asBoolean .piecewise s >>= fun holds =>
        if holds then ev.eval guarded >>= fun result => pure ([true], some result)
        else ev.evalBranches branches >>= fun r => pure (false :: r.1, r.2) := by
  rw [evalBranches]

def topNumber (s : Scalar) : Traced Float :=
  match s with
  | .number x => pure x
  | .boolean _ => Traced.fail .booleanResult

/-- The number that an expression comes to, and the steps on the way. -/
def evaluate (ev : Evaluator) (e : Expr) : Traced Float :=
  if ev.limits.maxNodes < e.nodeCount then
    Traced.fail (.tooManyNodes e.nodeCount ev.limits.maxNodes)
  else do topNumber (← ev.eval e)

end Evaluator

/-- The number that an expression comes to. -/
def evaluate (lookup : String → Option Float) (limits : Limits) (e : Expr) :
    Except EvalError Float :=
  (Evaluator.evaluate ⟨lookup, limits, false⟩ e).result

end DesignTokens
