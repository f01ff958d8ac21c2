import DesignTokens.Expr.Evaluate

/-!
# What evaluation looks up

`Evaluator.eval_congr` : the outcome of an expression and its steps depend only on what is found for the
ids that it refers to; `evaluate_congr` : so does its number.
-/

namespace DesignTokens

namespace Evaluator

/-- The evaluator that looks references up elsewhere. -/
def withLookup (ev : Evaluator) (lookup : String → Option Float) : Evaluator := { ev with lookup := lookup }

variable (ev : Evaluator) (lookup : String → Option Float)

theorem finish_withLookup (op : Operator) (inputs : List Float) (x : Float) :
    (ev.withLookup lookup).finish op inputs x = ev.finish op inputs x := rfl

mutual

theorem eval_congr : ∀ e : Expr, (∀ id ∈ e.refs, ev.lookup id = lookup id) →
    (ev.withLookup lookup).eval e = ev.eval e
  | .literal x, _ => by
    rw [eval, eval, finish_withLookup]
  | .ref id, h => by
    have hid : (ev.withLookup lookup).lookup id = ev.lookup id := (h id (by simp [Expr.refs])).symm
    rw [eval, eval, hid]
    rfl
  | .arithmetic op a b, h => by
    have ha := eval_congr a fun id hid => h id (by simp [Expr.refs, hid])
    have hb := eval_congr b fun id hid => h id (by simp [Expr.refs, hid])
    rw [eval, eval, ha, hb]
    rfl
  | .clamp v lo hi, h => by
    have hv := eval_congr v fun id hid => h id (by simp [Expr.refs, hid])
    have hlo := eval_congr lo fun id hid => h id (by simp [Expr.refs, hid])
    have hhi := eval_congr hi fun id hid => h id (by simp [Expr.refs, hid])
    rw [eval, eval, hv, hlo, hhi]
    rfl
  | .test op a b, h => by
    have ha := eval_congr a fun id hid => h id (by simp [Expr.refs, hid])
    have hb := eval_congr b fun id hid => h id (by simp [Expr.refs, hid])
    rw [eval, eval, ha, hb]
    rfl
  | .piecewise branches otherwise, h => by
    have hbranches := evalBranches_congr branches fun id hid => h id (by simp [Expr.refs, hid])
    have hotherwise := eval_congr otherwise fun id hid => h id (by simp [Expr.refs, hid])
    rw [eval, eval, hbranches, hotherwise]
    rfl

theorem evalBranches_congr : ∀ bs : List (Expr × Expr),
    (∀ id ∈ Expr.branchRefs bs, ev.lookup id = lookup id) →
      (ev.withLookup lookup).evalBranches bs = ev.evalBranches bs
  | [], _ => by
    rw [evalBranches, evalBranches]
  | (condition, guarded) :: bs, h => by
    have hcondition := eval_congr condition fun id hid => h id (by simp [Expr.branchRefs, hid])
    have hguarded := eval_congr guarded fun id hid => h id (by simp [Expr.branchRefs, hid])
    have hbs := evalBranches_congr bs fun id hid => h id (by simp [Expr.branchRefs, hid])
    rw [evalBranches, evalBranches, hcondition, hguarded, hbs]

end

theorem evaluate_congr {e : Expr} (h : ∀ id ∈ e.refs, ev.lookup id = lookup id) :
    (ev.withLookup lookup).evaluate e = ev.evaluate e := by
  unfold evaluate
  rw [eval_congr ev lookup e h]
  rfl

end Evaluator

theorem evaluate_congr {f g : String → Option Float} {e : Expr} (limits : Limits)
    (h : ∀ id ∈ e.refs, f id = g id) : evaluate f limits e = evaluate g limits e :=
  (congrArg Traced.result (Evaluator.evaluate_congr ⟨f, limits, false⟩ g h)).symm

end DesignTokens
