import DesignTokens.Expr.Evaluate
import DesignTokens.Proofs.Decimal.Order

/-!
# What evaluation stays within

* `l.Bounds x` : the number is finite and its magnitude does not exceed the limit, so it is at most the limit
  unless that is NaN; `bounds_of_not_lt` says that this is what a check looks at;
* `t.Within l n P` : of a computation with its steps: there are at most `n` of them, all their numbers are in
  bounds, and what it comes to, if anything, satisfies `P`. One computation after another adds up the steps
  (`Within.bind`);
* `within_eval` : an expression stays within its number of nodes, one step for a node that is visited;
* `evaluate_bounded` : so its number is in bounds, and so are those of all steps, also before an error.
-/

namespace DesignTokens

variable {l : Limits} {x : Float} {s : Scalar}

/-- The number is finite and its magnitude does not exceed the limit. -/
structure Limits.Bounds (l : Limits) (x : Float) : Prop where
  finite : x.isFinite = true
  not_lt : ¬ l.maxMagnitude < x.abs
  abs_le : l.maxMagnitude.isNaN = false → x.abs ≤ l.maxMagnitude

theorem Limits.bounds_of_not_lt (hfinite : x.isFinite = true) (h : ¬ l.maxMagnitude < x.abs) :
    l.Bounds x :=
  ⟨hfinite, h, fun hmax => Decimal.float_le_of_not_lt hmax (Decimal.isNaN_abs hfinite) h⟩

def Scalar.InBounds (l : Limits) (s : Scalar) : Prop := ∀ x, s = .number x → l.Bounds x

def TraceStep.InBounds (l : Limits) (step : TraceStep) : Prop :=
  ∀ s ∈ step.result :: step.inputs, s.InBounds l

theorem Scalar.inBounds_boolean (b : Bool) : (Scalar.boolean b).InBounds l := by
  intro x hx
  cases hx

theorem Scalar.inBounds_number (h : l.Bounds x) : (Scalar.number x).InBounds l := by
  intro y hy
  cases hy
  exact h

namespace Traced

variable {α β : Type} {t : Traced α} {f : α → Traced β} {P : α → Prop} {Q : β → Prop} {a : α} {m n : ℕ}

/-- There are at most `n` steps, all in bounds, and the result satisfies `P` if there is one. -/
structure Within (l : Limits) (n : ℕ) (P : α → Prop) (t : Traced α) : Prop where
  steps : ∀ step ∈ t.trace, step.InBounds l
  length : t.trace.length ≤ n
  result : ∀ a, t.result = .ok a → P a

theorem within_pure (h : P a) : (pure a : Traced α).Within l 0 P := by
  refine ⟨?_, le_refl 0, ?_⟩
  · intro step hstep
    cases hstep
  · intro b hb
    cases hb
    exact h

theorem within_fail (e : EvalError) : (fail e : Traced α).Within l 0 P := by
  refine ⟨?_, le_refl 0, ?_⟩
  · intro step hstep
    cases hstep
  · intro b hb
    cases hb

theorem Within.mono (h : t.Within l m P) (hmn : m ≤ n) : t.Within l n P :=
  ⟨h.steps, h.length.trans hmn, h.result⟩

theorem Within.bind (ht : t.Within l m P) (hf : ∀ a, P a → (f a).Within l n Q) :
    (t >>= f).Within l (m + n) Q := by
  have hlength := ht.length
  cases hresult : t.result with
  | error e =>
    rw [bind_of_error hresult]
    refine ⟨ht.steps, Nat.le_add_right_of_le hlength, ?_⟩
    intro b hb
    cases hb
  | ok a =>
    have ha := hf a (ht.result a hresult)
    rw [bind_of_ok hresult]
    refine ⟨?_, ?_, ha.result⟩
    · intro step hstep
      rcases List.mem_append.1 hstep with hstep | hstep
      · exact ht.steps step hstep
      · exact ha.steps step hstep
    · rw [List.length_append]
      exact Nat.add_le_add hlength ha.length

end Traced

namespace Evaluator

variable {ev : Evaluator} {op : Operator} {inputs : List Scalar} {xs : List Float}

open Traced

theorem within_check (ev : Evaluator) (op : Operator) (x : Float) :
    (ev.check op x).Within ev.limits 0 ev.limits.Bounds := by
  unfold check
  split_ifs with hfinite hmagnitude
  · exact within_fail _
  · exact within_fail _
  · rw [Bool.not_eq_true', Bool.not_eq_false] at hfinite
    exact within_pure (Limits.bounds_of_not_lt hfinite hmagnitude)

theorem within_record (hinputs : ∀ i ∈ inputs, i.InBounds ev.limits) (hs : s.InBounds ev.limits) :
    (ev.record op inputs s).Within ev.limits 1 (Scalar.InBounds ev.limits) := by
  have hstep : TraceStep.InBounds ev.limits ⟨op, inputs, s⟩ := List.forall_mem_cons.2 ⟨hs, hinputs⟩
  unfold record
  refine ⟨?_, ?_, ?_⟩
  · intro step hmem
    dsimp only at hmem
    split_ifs at hmem
    · obtain rfl := List.mem_singleton.1 hmem
      exact hstep
    · cases hmem
  · dsimp only
    split_ifs <;> simp
  · intro a ha
    cases ha
    exact hs

theorem within_finish (hxs : ∀ y ∈ xs, ev.limits.Bounds y) :
    (ev.finish op xs x).Within ev.limits 1 (Scalar.InBounds ev.limits) := by
  refine (within_check ev op x).bind (n := 1) fun y hy => within_record ?_ (Scalar.inBounds_number hy)
  intro i hi
  obtain ⟨z, hz, rfl⟩ := List.mem_map.1 hi
  exact Scalar.inBounds_number (hxs z hz)

theorem within_asNumber (op : Operator) (hs : s.InBounds l) : (asNumber op s).Within l 0 l.Bounds := by
  cases s with
  | number x => exact within_pure (hs x rfl)
  | boolean b => exact within_fail _

theorem within_asBoolean (op : Operator) (s : Scalar) : (asBoolean op s).Within l 0 fun _ => True := by
  cases s with
  | number x => exact within_fail _
  | boolean b => exact within_pure trivial

/-- What operands in bounds are continued with may have the rest of the steps. -/
theorem within_operand {α : Type} {t : Traced Scalar} {f : Float → Traced α} {P : α → Prop} {m n : ℕ}
    (op : Operator) (ht : t.Within l m (Scalar.InBounds l)) (hf : ∀ x, l.Bounds x → (f x).Within l n P) :
    (t >>= fun s => asNumber op s >>= f).Within l (m + n) P :=
  ht.bind fun _ hs => ((within_asNumber op hs).bind hf).mono (Nat.zero_add n).le

mutual

theorem within_eval (ev : Evaluator) : ∀ e : Expr,
    (ev.eval e).Within ev.limits e.nodeCount (Scalar.InBounds ev.limits)
  | .literal x => by
    rw [eval, Expr.nodeCount]
    exact within_finish (by simp)
  | .ref id => by
    rw [eval, Expr.nodeCount]
    cases ev.lookup id with
    | none => exact (within_fail _).mono (Nat.zero_le 1)
    | some x => exact within_finish (by simp)
  | .arithmetic op a b => by
    rw [eval, Expr.nodeCount, Nat.add_comm, Nat.add_assoc]
    refine within_operand _ (within_eval ev a) fun x hx => ?_
    refine within_operand _ (within_eval ev b) fun y hy => ?_
    cases op.apply? x y with
    | none => exact (within_fail _).mono (Nat.zero_le 1)
    | some z => exact within_finish (by simp [hx, hy])
  | .clamp v lo hi => by
    rw [eval, Expr.nodeCount, Nat.add_comm, Nat.add_assoc, Nat.add_assoc]
    refine within_operand _ (within_eval ev v) fun x hx => ?_
    refine within_operand _ (within_eval ev lo) fun y hy => ?_
    refine within_operand _ (within_eval ev hi) fun z hz => ?_
    exact within_finish (by simp [hx, hy, hz])
  | .test op a b => by
    rw [eval, Expr.nodeCount, Nat.add_comm, Nat.add_assoc]
    refine within_operand _ (within_eval ev a) fun x hx => ?_
    refine within_operand _ (within_eval ev b) fun y hy => ?_
    refine within_record ?_ (Scalar.inBounds_boolean _)
    simp [Scalar.inBounds_number hx, Scalar.inBounds_number hy]
  | .piecewise branches otherwise => by
    rw [eval_piecewise, Expr.nodeCount, Nat.add_comm, Nat.add_assoc]
    refine (within_evalBranches ev branches).bind fun r hhit => ?_
    have hchosen : (r.2.elim (ev.eval otherwise) pure).Within ev.limits otherwise.nodeCount
        (Scalar.InBounds ev.limits) := by
      cases hr : r.2 with
      | none => exact within_eval ev otherwise
      | some s => exact (within_pure (hhit s hr)).mono (Nat.zero_le _)
    refine hchosen.bind fun s hs => within_record ?_ hs
    exact List.forall_mem_map.2 fun b _ => Scalar.inBounds_boolean b

/-- Conditions are no numbers, and branches that are not taken add to the nodes only. -/
theorem within_evalBranches (ev : Evaluator) : ∀ bs : List (Expr × Expr),
    (ev.evalBranches bs).Within ev.limits (Expr.branchCount bs)
      fun r => ∀ s ∈ r.2, s.InBounds ev.limits
  | [] => by
    rw [evalBranches, Expr.branchCount]
    exact within_pure (by simp)
  | (condition, guarded) :: bs => by
    rw [evalBranches_cons, Expr.branchCount, Nat.add_assoc]
    refine (within_eval ev condition).bind fun s _ => ?_
    refine ((within_asBoolean .piecewise s).bind (n := guarded.nodeCount + Expr.branchCount bs)
      fun holds _ => ?_).mono (Nat.zero_add _).le
    cases holds with
    | true =>
      refine ((within_eval ev guarded).bind (n := 0) fun s hs => within_pure ?_).mono (Nat.le_add_right _ _)
      simpa using hs
    | false =>
      refine ((within_evalBranches ev bs).bind (n := 0) fun r hr => ?_).mono (Nat.le_add_left _ _)
      exact within_pure hr

end

theorem within_topNumber (hs : s.InBounds l) : (topNumber s).Within l 0 l.Bounds := by
  cases s with
  | number x => exact within_pure (hs x rfl)
  | boolean b => exact within_fail _

theorem within_evaluate (ev : Evaluator) (e : Expr) :
    (ev.evaluate e).Within ev.limits e.nodeCount ev.limits.Bounds := by
  unfold evaluate
  split_ifs
  · exact (within_fail _).mono (Nat.zero_le _)
  · exact (within_eval ev e).bind fun _ hs => within_topNumber hs

theorem evaluate_bounded (ev : Evaluator) (e : Expr) :
    (∀ x, (ev.evaluate e).result = .ok x → ev.limits.Bounds x) ∧
      (∀ step ∈ (ev.evaluate e).trace, ∀ x, .number x ∈ step.result :: step.inputs → ev.limits.Bounds x) ∧
      (ev.evaluate e).trace.length ≤ e.nodeCount ∧
      (ev.limits.maxNodes < e.nodeCount → (ev.evaluate e).trace = []) := by
  have hwithin := within_evaluate ev e
  refine ⟨hwithin.result, ?_, hwithin.length, ?_⟩
  · intro step hstep x hx
    exact hwithin.steps step hstep _ hx x rfl
  · intro hmany
    unfold evaluate
    rw [if_pos hmany]
    rfl

end Evaluator

end DesignTokens
