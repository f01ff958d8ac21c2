import DesignTokens.Expr.Evaluate
import Mathlib.Data.List.Basic

/-!
# The steps of an evaluation as a program

* `op.result? xs` : what an operator makes of numbers;
* `step.replay stack` : a step as an instruction of a stack machine. It takes its operands from the stack, where
  they must lie, and leaves its result, which must be what the operator makes of them;
* `replay steps stack` : the instructions in turn;
* `t.Takes before after` : if a computation comes to something then its steps take one stack to another.
  `Takes.bind` is the rule for two computations in turn;
* `takes_eval` : an expression leaves its result on any stack, and `replay_evaluate` : so the steps of an
  evaluation leave just its number on the empty one.
-/

namespace DesignTokens

/-! ## The machine -/

/-- What an operator makes of numbers. -/
def Operator.result? : Operator → List Float → Option Scalar
  | .arithmetic op, [x, y] => op.apply? x y |>.map .number
  | .clamp, [x, lo, hi] => some (.number (clampBetween lo hi x))
  | .test op, [x, y] => some (.boolean (op.holds x y))
  | _, _ => none

def Scalar.number? : Scalar → Option Float
  | number x => some x
  | boolean _ => none

def Scalar.boolean? : Scalar → Option Bool
  | boolean b => some b
  | number _ => none

namespace TraceStep

/-- The stack, whose top comes first, without operands that were pushed in order. -/
def pop? (operands stack : List Scalar) : Option (List Scalar) := stack.dropPrefix? operands.reverse

/-- A step as an instruction of a stack machine. -/
def replay (step : TraceStep) (stack : List Scalar) : Option (List Scalar) :=
  match step.operator with
  | .literal => some (step.result :: stack)
  | .ref => some (step.result :: stack)
  | .piecewise => do
    let _ ← step.inputs.mapM Scalar.boolean?
    let rest ← pop? (step.inputs ++ [step.result]) stack
    some (step.result :: rest)
  | op => do
    let operands ← step.inputs.mapM Scalar.number?
    let result ← op.result? operands
    let rest ← pop? step.inputs stack
    if result = step.result then some (step.result :: rest) else none

end TraceStep

/-- The instructions in turn. -/
def replay (steps : List TraceStep) (stack : List Scalar) : Option (List Scalar) :=
  steps.foldlM (fun stack step => step.replay stack) stack

variable {stack : List Scalar} {op : Operator} {xs : List Float} {s : Scalar}

theorem replay_append (steps steps' : List TraceStep) (stack : List Scalar) :
    replay (steps ++ steps') stack = (replay steps stack).bind (replay steps') := by
  unfold replay
  rw [List.foldlM_append]
  rfl

theorem replay_singleton (step : TraceStep) (stack : List Scalar) :
    replay [step] stack = step.replay stack := by
  unfold replay
  rw [List.foldlM_cons]
  exact bind_pure _

namespace TraceStep

theorem pop?_append (operands stack : List Scalar) :
    pop? operands (operands.reverse ++ stack) = some stack := by
  unfold pop?
  rw [List.dropPrefix?_eq_some_iff]
  exact ⟨operands.reverse, rfl, beq_self_eq_true _⟩

theorem mapM_number? (xs : List Float) : (xs.map Scalar.number).mapM Scalar.number? = some xs := by
  rw [List.mapM_map]
  exact List.mapM_pure.trans (congrArg some xs.map_id)

theorem mapM_boolean? (bs : List Bool) : (bs.map Scalar.boolean).mapM Scalar.boolean? = some bs := by
  rw [List.mapM_map]
  exact List.mapM_pure.trans (congrArg some bs.map_id)

/-- An operator finds its operands on the stack. -/
theorem replay_of_result? (h : op.result? xs = some s) :
    replay ⟨op, xs.map .number, s⟩ ((xs.map .number).reverse ++ stack) = some (s :: stack) := by
  have hpop := pop?_append (xs.map .number) stack
  have hread := mapM_number? xs
  cases op with
  | literal => cases h
  | ref => cases h
  | piecewise => cases h
  | arithmetic op => simp [replay, hpop, hread, h]
  | clamp => simp [replay, hpop, hread, h]
  | test op => simp [replay, hpop, hread, h]

/-- A choice finds its result on the stack, and its conditions below it. -/
theorem replay_piecewise (bs : List Bool) (s : Scalar) (stack : List Scalar) :
    replay ⟨.piecewise, bs.map .boolean, s⟩ (s :: ((bs.map .boolean).reverse ++ stack)) =
      some (s :: stack) := by
  have hpop := pop?_append (bs.map .boolean ++ [s]) stack
  rw [List.reverse_append, List.append_assoc, List.reverse_singleton, List.singleton_append] at hpop
  simp only [replay, mapM_boolean?, hpop, Option.bind_eq_bind, Option.bind_some]

end TraceStep

/-! ## Computations as programs -/

namespace Traced

variable {α β : Type} {t : Traced α} {f : α → Traced β} {before : List Scalar}
  {between : α → List Scalar} {after : β → List Scalar}

/-- If the computation comes to something then its steps take the one stack to the other. -/
def Takes (before : List Scalar) (after : α → List Scalar) (t : Traced α) : Prop :=
  ∀ a, t.result = .ok a → replay t.trace before = some (after a)

theorem takes_pure {a : α} (h : before = between a) : (pure a : Traced α).Takes before between := by
  intro b hb
  cases hb
  rw [h]
  rfl

theorem takes_fail (e : EvalError) : (fail e : Traced α).Takes before between := by
  intro b hb
  cases hb

theorem Takes.bind (ht : t.Takes before between) (hf : ∀ a, (f a).Takes (between a) after) :
    (t >>= f).Takes before after := by
  intro b hb
  cases hresult : t.result with
  | error e =>
    rw [bind_of_error hresult] at hb
    cases hb
  | ok a =>
    rw [bind_of_ok hresult] at hb ⊢
    rw [replay_append, ht a hresult]
    exact hf a b hb

end Traced

namespace Evaluator

open Traced

variable {ev : Evaluator} {x : Float} {before : List Scalar}

theorem takes_record (htracing : ev.tracing = true) {inputs : List Scalar}
    (h : TraceStep.replay ⟨op, inputs, s⟩ before = some (s :: stack)) :
    (ev.record op inputs s).Takes before (· :: stack) := by
  intro b hb
  unfold record at hb ⊢
  cases hb
  rw [htracing, if_pos rfl, replay_singleton, h]

theorem check_eq (ev : Evaluator) (op : Operator) (x : Float) :
    (∃ e, ev.check op x = fail e) ∨ ev.check op x = pure x := by
  unfold check
  split_ifs
  · exact .inl ⟨_, rfl⟩
  · exact .inl ⟨_, rfl⟩
  · exact .inr rfl

/-- A check passes its number on as it is. -/
theorem takes_finish (htracing : ev.tracing = true)
    (h : TraceStep.replay ⟨op, xs.map .number, .number x⟩ before = some (.number x :: stack)) :
    (ev.finish op xs x).Takes before (· :: stack) := by
  unfold finish
  rcases ev.check_eq op x with ⟨e, he⟩ | hx
  · rw [he]
    exact takes_fail e
  · rw [hx]
    exact takes_record htracing h

theorem takes_asNumber (op : Operator) (s : Scalar) (stack : List Scalar) :
    (asNumber op s).Takes (s :: stack) (fun x => .number x :: stack) := by
  cases s with
  | number x => exact takes_pure rfl
  | boolean b => exact takes_fail _

theorem takes_asBoolean (op : Operator) (s : Scalar) (stack : List Scalar) :
    (asBoolean op s).Takes (s :: stack) (fun b => .boolean b :: stack) := by
  cases s with
  | number x => exact takes_fail _
  | boolean b => exact takes_pure rfl

theorem takes_operand {α : Type} {t : Traced Scalar} {f : Float → Traced α} {after : α → List Scalar}
    (op : Operator) (ht : t.Takes stack (· :: stack))
    (hf : ∀ x, (f x).Takes (.number x :: stack) after) :
    (t >>= fun s => asNumber op s >>= f).Takes stack after :=
  ht.bind fun s => (takes_asNumber op s stack).bind hf

mutual

theorem takes_eval (htracing : ev.tracing = true) : ∀ (e : Expr) (stack : List Scalar),
    (ev.eval e).Takes stack (· :: stack)
  | .literal x, stack => by
    rw [eval]
    exact takes_finish htracing rfl
  | .ref id, stack => by
    rw [eval]
    cases ev.lookup id with
    | none => exact takes_fail _
    | some x => exact takes_finish htracing rfl
  | .arithmetic op a b, stack => by
    rw [eval]
    refine takes_operand _ (takes_eval htracing a stack) fun x => ?_
    refine takes_operand _ (takes_eval htracing b _) fun y => ?_
    cases hz : op.apply? x y with
    | none => exact takes_fail _
    | some z =>
      have hresult : Operator.result? (.arithmetic op) [x, y] = some (.number z) := by
        rw [Operator.result?, hz, Option.map_some]
      exact takes_finish htracing (TraceStep.replay_of_result? hresult)
  | .clamp v lo hi, stack => by
    rw [eval]
    refine takes_operand _ (takes_eval htracing v stack) fun x => ?_
    refine takes_operand _ (takes_eval htracing lo _) fun l => ?_
    refine takes_operand _ (takes_eval htracing hi _) fun h => ?_
    have hresult : Operator.result? .clamp [x, l, h] = some (.number (clampBetween l h x)) := rfl
    exact takes_finish htracing (TraceStep.replay_of_result? hresult)
  | .test op a b, stack => by
    rw [eval]
    refine takes_operand _ (takes_eval htracing a stack) fun x => ?_
    refine takes_operand _ (takes_eval htracing b _) fun y => ?_
    have hresult : Operator.result? (.test op) [x, y] = some (.boolean (op.holds x y)) := rfl
    exact takes_record htracing (TraceStep.replay_of_result? hresult)
  | .piecewise branches otherwise, stack => by
    rw [eval_piecewise]
    refine (takes_evalBranches htracing branches stack).bind fun r => ?_
    have hchosen : (r.2.elim (ev.eval otherwise) pure).Takes
        (r.2.toList ++ ((r.1.map .boolean).reverse ++ stack))
        (· :: ((r.1.map .boolean).reverse ++ stack)) := by
      cases r.2 with
      | none => exact takes_eval htracing otherwise _
      | some s => exact takes_pure rfl
    exact hchosen.bind fun s => takes_record htracing (TraceStep.replay_piecewise r.1 s stack)

/-- The conditions stay on the stack, and on top of them the result of the branch that is taken. -/
theorem takes_evalBranches (htracing : ev.tracing = true) : ∀ (bs : List (Expr × Expr))
    (stack : List Scalar), (ev.evalBranches bs).Takes stack
      fun r => r.2.toList ++ ((r.1.map .boolean).reverse ++ stack)
  | [], stack => by
    rw [evalBranches]
    exact takes_pure rfl
  | (condition, guarded) :: bs, stack => by
    rw [evalBranches_cons]
    refine (takes_eval htracing condition stack).bind fun s => ?_
    refine (takes_asBoolean .piecewise s stack).bind fun holds => ?_
    cases holds with
    | true =>
      exact (takes_eval htracing guarded _).bind fun s => takes_pure rfl
    | false =>
      refine (takes_evalBranches htracing bs _).bind fun r => ?_
      exact takes_pure (by simp)

end

theorem replay_evaluate {e : Expr} (htracing : ev.tracing = true)
    (h : (ev.evaluate e).result = .ok x) : replay (ev.evaluate e).trace [] = some [.number x] := by
  have htakes : (ev.evaluate e).Takes [] fun x => [.number x] := by
    unfold evaluate
    split_ifs
    · exact takes_fail _
    · refine (takes_eval htracing e []).bind fun s => ?_
      cases s with
      | number x => exact takes_pure rfl
      | boolean b => exact takes_fail _
  exact htakes x h

/-- Twice a size unless it is large; the second condition is the one that holds. -/
def doubledUnlessLarge : Expr :=
  .piecewise
    [(.test .gt (.ref "size") (.literal 20), .literal 20),
      (.test .lt (.literal 0) (.ref "size"), .arithmetic .mul (.literal 2) (.ref "size"))]
    (.arithmetic .div (.literal 1) (.literal 0))

/-- An evaluator that knows one size. -/
def sizeEvaluator : Evaluator := ⟨fun id => if id = "size" then some 8 else none, Limits.default, true⟩

theorem replay_evaluate_doubled : sizeEvaluator.tracing = true ∧
    (sizeEvaluator.evaluate doubledUnlessLarge).result = .ok 16 ∧
    (sizeEvaluator.evaluate doubledUnlessLarge).trace.length = 10 ∧
    replay (sizeEvaluator.evaluate doubledUnlessLarge).trace [] = some [.number 16] := by
  have hresult : (sizeEvaluator.evaluate doubledUnlessLarge).result = .ok 16 := by decide +kernel
  exact ⟨rfl, hresult, by decide +kernel, replay_evaluate rfl hresult⟩

end Evaluator

end DesignTokens
