import DesignTokens.Proofs.Expr.Evaluate
import Mathlib.Data.List.Basic

/-!
# Evaluation with and without its steps

* `t.forget` : a computation without the steps that it recorded; it commutes with going on after one
  (`Traced.forget_bind`);
* `ev.silent` : the evaluator that records nothing. `eval_silent` : what it does is what the other one
  does, with the steps forgotten;
* `evaluate_eq_of_eqOn_refs` : an evaluation and its steps depend on what is found for the ids
  referred to and on nothing else that is looked up, and its outcome does not depend on whether steps
  are recorded.
-/

namespace DesignTokens

namespace Traced

variable {α β : Type}

def forget (t : Traced α) : Traced α := ⟨t.result, []⟩

theorem forget_bind (t : Traced α) (f : α → Traced β) :
    (t >>= f).forget = t.forget >>= fun a => (f a).forget := by
  cases h : t.result with
  | error e =>
    have hforget : t.forget.result = .error e := h
    rw [bind_of_error h, bind_of_error hforget]
    rfl
  | ok a =>
    have hforget : t.forget.result = .ok a := h
    rw [bind_of_ok h, bind_of_ok hforget]
    rfl

end Traced

namespace Evaluator

open Traced

/-- The evaluator that records no steps. -/
def silent (ev : Evaluator) : Evaluator := { ev with tracing := false }

variable (ev : Evaluator)

theorem record_silent (op : Operator) (inputs : List Scalar) (s : Scalar) :
    ev.silent.record op inputs s = (ev.record op inputs s).forget := rfl

theorem check_silent (op : Operator) (x : Float) : ev.silent.check op x = (ev.check op x).forget := by
  have hsame : ev.silent.check op x = ev.check op x := rfl
  rw [hsame]
  unfold check
  split_ifs <;> rfl

theorem finish_silent (op : Operator) (inputs : List Float) (x : Float) :
    ev.silent.finish op inputs x = (ev.finish op inputs x).forget := by
  unfold finish
  rw [forget_bind, check_silent]
  rfl

theorem forget_asNumber (op : Operator) (s : Scalar) : (asNumber op s).forget = asNumber op s := by
  cases s <;> rfl

theorem forget_asBoolean (op : Operator) (s : Scalar) : (asBoolean op s).forget = asBoolean op s := by
  cases s <;> rfl

theorem forget_operand {α : Type} {f g : Float → Traced α} (op : Operator) (t : Traced Scalar)
    (hf : ∀ x, f x = (g x).forget) :
    t.forget >>= (fun s => asNumber op s >>= f) = (t >>= fun s => asNumber op s >>= g).forget := by
  obtain rfl : f = fun x => (g x).forget := funext hf
  simp only [forget_bind, forget_asNumber]

mutual

theorem eval_silent : ∀ e : Expr, ev.silent.eval e = (ev.eval e).forget
  | .literal x => by
    rw [eval, eval, finish_silent]
  | .ref id => by
    have hlookup : ev.silent.lookup id = ev.lookup id := rfl
    rw [eval, eval, hlookup]
    cases ev.lookup id with
    | none => rfl
    | some x => exact finish_silent ev .ref [] x
  | .arithmetic op a b => by
    rw [eval, eval, eval_silent a, eval_silent b]
    refine forget_operand _ _ fun x => forget_operand _ _ fun y => ?_
    cases op.apply? x y with
    | none => rfl
    | some z => exact finish_silent ev _ _ z
  | .clamp v lo hi => by
    rw [eval, eval, eval_silent v, eval_silent lo, eval_silent hi]
    exact forget_operand _ _ fun x => forget_operand _ _ fun l => forget_operand _ _ fun h =>
      finish_silent ev _ _ _
  | .test op a b => by
    rw [eval, eval, eval_silent a, eval_silent b]
    exact forget_operand _ _ fun x => forget_operand _ _ fun y => record_silent ev _ _ _
  | .piecewise branches otherwise => by
    rw [eval_piecewise, eval_piecewise, evalBranches_silent branches, eval_silent otherwise, forget_bind]
    refine congrArg _ (funext fun r => ?_)
    rw [forget_bind]
    cases r.2 <;> rfl

theorem evalBranches_silent : ∀ bs : List (Expr × Expr),
    ev.silent.evalBranches bs = (ev.evalBranches bs).forget
  | [] => by
    rw [evalBranches, evalBranches]
    rfl
  | (condition, guarded) :: bs => by
    rw [evalBranches_cons, evalBranches_cons, eval_silent condition, eval_silent guarded,
      evalBranches_silent bs, forget_bind]
    refine congrArg _ (funext fun s => ?_)
    rw [forget_bind, forget_asBoolean]
    refine congrArg _ (funext fun holds => ?_)
    cases holds with
    | true =>
      rw [if_pos rfl, if_pos rfl, forget_bind]
      rfl
    | false =>
      rw [if_neg Bool.false_ne_true, if_neg Bool.false_ne_true, forget_bind]
      rfl

end

theorem evaluate_silent (e : Expr) : ev.silent.evaluate e = (ev.evaluate e).forget := by
  have hlimits : ev.silent.limits = ev.limits := rfl
  unfold evaluate
  rw [hlimits, eval_silent]
  split_ifs
  · rfl
  · rw [forget_bind]
    refine congrArg _ (funext fun s => ?_)
    cases s <;> rfl

/-- Two ways to look ids up that agree on the ids referred to lead to the same outcome and the same
steps, and without recording the outcome is the one with it. -/
theorem evaluate_eq_of_eqOn_refs (limits : Limits) (e : Expr) :
    (∀ f g : String → Option Float, (∀ id ∈ e.refs, f id = g id) →
      ∀ tracing, evaluate ⟨f, limits, tracing⟩ e = evaluate ⟨g, limits, tracing⟩ e) ∧
    ∀ f, evaluate ⟨f, limits, false⟩ e = ⟨(evaluate ⟨f, limits, true⟩ e).result, []⟩ := by
  refine ⟨fun f g h tracing => ?_, fun f => ?_⟩
  · exact (evaluate_congr ⟨f, limits, tracing⟩ g h).symm
  · exact evaluate_silent ⟨f, limits, true⟩ e

/-- A gap if it is small, and otherwise half of a size. -/
def gapOrHalf : Expr :=
  .piecewise [(.test .lt (.ref "gap") (.literal 4), .ref "gap")]
    (.arithmetic .div (.ref "size") (.literal 2))

def gapScope (id : String) : Option Float := if id = "gap" then some 8 else none

/-- A line is known as well. -/
def gapLineScope (id : String) : Option Float := if id = "line" then some 1 else gapScope id

theorem evaluate_eq_of_eqOn_refs_gapOrHalf :
    (∀ id ∈ gapOrHalf.refs, gapScope id = gapLineScope id) ∧
    gapScope "line" ≠ gapLineScope "line" ∧
    evaluate ⟨gapScope, Limits.default, true⟩ gapOrHalf =
      evaluate ⟨gapLineScope, Limits.default, true⟩ gapOrHalf ∧
    evaluate ⟨gapScope, Limits.default, false⟩ gapOrHalf = ⟨.error (.unknownReference "size"), []⟩ ∧
    (evaluate ⟨gapScope, Limits.default, true⟩ gapOrHalf).trace.length = 3 := by
  have hrefs : ∀ id ∈ gapOrHalf.refs, gapScope id = gapLineScope id := by decide +kernel
  obtain ⟨hcongr, hsilent⟩ := evaluate_eq_of_eqOn_refs Limits.default gapOrHalf
  have hresult : (evaluate ⟨gapScope, Limits.default, true⟩ gapOrHalf).result =
      .error (.unknownReference "size") := by decide +kernel
  refine ⟨hrefs, by decide +kernel, hcongr _ _ hrefs true, ?_, by decide +kernel⟩
  rw [hsilent, hresult]

end Evaluator

end DesignTokens
