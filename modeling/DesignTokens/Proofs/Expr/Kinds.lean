import DesignTokens.Expr.Evaluate
import Mathlib.Data.List.Basic

/-!
# Kinds of expressions

* `Kind`, `e.HasKind k` : the expressions that are numbers, and those that are truth values. The
  operands of an operation are numbers, and so is its result unless it is a comparison; a choice has
  the kind of all that it can choose, and its conditions are truth values;
* `s.Is k` : a scalar of a kind; `err.BlamesKind` : an error that says that a scalar is of the wrong kind;
* `t.Sound P` : what a computation comes to satisfies `P`, and if it fails then not because of a kind.
  `Sound.bind` is the rule for one computation after another;
* `sound_eval` : an expression that has a kind comes to a scalar of this kind, unless it fails for
  another reason;
* `evaluate_sound` : an expression that is a number is never refused for its kind, and one that is a
  truth value for no other kind than its own.
-/

namespace DesignTokens

/-- What a scalar can be. -/
inductive Kind where
  | number
  | boolean
  deriving DecidableEq, Repr

/-- The expression is a number, or a truth value, whatever the references stand for. -/
inductive Expr.HasKind : Expr → Kind → Prop
  | literal (x : Float) : HasKind (.literal x) .number
  | ref (id : String) : HasKind (.ref id) .number
  | arithmetic {a b : Expr} (op : Arithmetic) (ha : HasKind a .number) (hb : HasKind b .number) :
    HasKind (.arithmetic op a b) .number
  | clamp {v lo hi : Expr} (hv : HasKind v .number) (hlo : HasKind lo .number) (hhi : HasKind hi .number) :
    HasKind (.clamp v lo hi) .number
  | test {a b : Expr} (op : Test) (ha : HasKind a .number) (hb : HasKind b .number) :
    HasKind (.test op a b) .boolean
  | piecewise {branches : List (Expr × Expr)} {otherwise : Expr} {k : Kind}
    (hconditions : ∀ branch ∈ branches, HasKind branch.1 .boolean)
    (hguarded : ∀ branch ∈ branches, HasKind branch.2 k) (hotherwise : HasKind otherwise k) :
    HasKind (.piecewise branches otherwise) k

inductive Scalar.Is : Scalar → Kind → Prop
  | number (x : Float) : Is (.number x) .number
  | boolean (b : Bool) : Is (.boolean b) .boolean

/-- The error says that a scalar is of the wrong kind. -/
inductive EvalError.BlamesKind : EvalError → Prop
  | typeMismatch (op : Operator) (expected found : String) : BlamesKind (.typeMismatch op expected found)
  | booleanResult : BlamesKind .booleanResult

namespace Traced

variable {α β : Type} {t : Traced α} {f : α → Traced β} {P : α → Prop} {Q : β → Prop} {a : α}
  {e : EvalError}

/-- The result satisfies `P` if there is one, and otherwise the error does not blame a kind. -/
structure Sound (P : α → Prop) (t : Traced α) : Prop where
  result : ∀ a, t.result = .ok a → P a
  error : ∀ e, t.result = .error e → ¬ e.BlamesKind

theorem sound_pure (h : P a) : (pure a : Traced α).Sound P := by
  refine ⟨?_, ?_⟩
  · intro b hb
    cases hb
    exact h
  · intro e he
    cases he

theorem sound_fail (h : ¬ e.BlamesKind) : (fail e : Traced α).Sound P := by
  refine ⟨?_, ?_⟩
  · intro a ha
    cases ha
  · intro e he
    cases he
    exact h

theorem Sound.bind (ht : t.Sound P) (hf : ∀ a, P a → (f a).Sound Q) : (t >>= f).Sound Q := by
  cases h : t.result with
  | error e =>
    rw [bind_of_error h]
    refine ⟨?_, fun e' he' => ?_⟩
    · intro b hb
      cases hb
    · cases he'
      exact ht.error e h
  | ok a =>
    have ha := hf a (ht.result a h)
    rw [bind_of_ok h]
    exact ⟨ha.result, ha.error⟩

end Traced

namespace Evaluator

open Traced

variable {ev : Evaluator} {s : Scalar} {k : Kind}

theorem sound_check (ev : Evaluator) (op : Operator) (x : Float) : (ev.check op x).Sound fun _ => True := by
  unfold check
  split_ifs
  · exact sound_fail nofun
  · exact sound_fail nofun
  · exact sound_pure trivial

theorem sound_record (ev : Evaluator) (op : Operator) (inputs : List Scalar) (hs : s.Is k) :
    (ev.record op inputs s).Sound (·.Is k) := by
  refine ⟨?_, ?_⟩
  · intro a ha
    cases ha
    exact hs
  · intro e he
    cases he

theorem sound_finish (ev : Evaluator) (op : Operator) (inputs : List Float) (x : Float) :
    (ev.finish op inputs x).Sound (·.Is .number) :=
  (sound_check ev op x).bind fun y _ => sound_record ev op _ (.number y)

theorem sound_operand {α : Type} {t : Traced Scalar} {f : Float → Traced α} {P : α → Prop}
    (op : Operator) (ht : t.Sound (·.Is .number)) (hf : ∀ x, (f x).Sound P) :
    (t >>= fun s => asNumber op s >>= f).Sound P := by
  refine ht.bind fun s hs => ?_
  cases hs with
  | number x => exact hf x

theorem sound_condition {α : Type} {t : Traced Scalar} {f : Bool → Traced α} {P : α → Prop}
    (op : Operator) (ht : t.Sound (·.Is .boolean)) (hf : ∀ b, (f b).Sound P) :
    (t >>= fun s => asBoolean op s >>= f).Sound P := by
  refine ht.bind fun s hs => ?_
  cases hs with
  | boolean b => exact hf b

mutual

theorem sound_eval (ev : Evaluator) : ∀ {e : Expr} {k : Kind}, e.HasKind k → (ev.eval e).Sound (·.Is k)
  | .literal x, _, .literal _ => by
    rw [eval]
    exact sound_finish ev _ _ x
  | .ref id, _, .ref _ => by
    rw [eval]
    cases ev.lookup id with
    | none => exact sound_fail nofun
    | some x => exact sound_finish ev _ _ x
  | .arithmetic op a b, _, .arithmetic _ ha hb => by
    rw [eval]
    refine sound_operand _ (sound_eval ev ha) fun x => ?_
    refine sound_operand _ (sound_eval ev hb) fun y => ?_
    cases op.apply? x y with
    | none => exact sound_fail nofun
    | some z => exact sound_finish ev _ _ z
  | .clamp v lo hi, _, .clamp hv hlo hhi => by
    rw [eval]
    refine sound_operand _ (sound_eval ev hv) fun x => ?_
    refine sound_operand _ (sound_eval ev hlo) fun l => ?_
    refine sound_operand _ (sound_eval ev hhi) fun h => ?_
    exact sound_finish ev _ _ _
  | .test op a b, _, .test _ ha hb => by
    rw [eval]
    refine sound_operand _ (sound_eval ev ha) fun x => ?_
    refine sound_operand _ (sound_eval ev hb) fun y => ?_
    exact sound_record ev _ _ (.boolean _)
  | .piecewise branches otherwise, k, .piecewise hconditions hguarded hotherwise => by
    rw [eval_piecewise]
    refine (sound_evalBranches ev branches hconditions hguarded).bind fun r hhit => ?_
    have hchosen : (r.2.elim (ev.eval otherwise) pure).Sound (·.Is k) := by
      cases hr : r.2 with
      | none => exact sound_eval ev hotherwise
      | some s => exact sound_pure (hhit s hr)
    exact hchosen.bind fun s hs => sound_record ev _ _ hs

/-- What is chosen, if anything, is of the kind that all branches have. -/
theorem sound_evalBranches (ev : Evaluator) {k : Kind} : ∀ bs : List (Expr × Expr),
    (∀ branch ∈ bs, branch.1.HasKind .boolean) → (∀ branch ∈ bs, branch.2.HasKind k) →
      (ev.evalBranches bs).Sound fun r => ∀ s ∈ r.2, s.Is k
  | [], _, _ => by
    rw [evalBranches]
    exact sound_pure (by simp)
  | (condition, guarded) :: bs, hconditions, hguarded => by
    obtain ⟨hcondition, hconditions⟩ := List.forall_mem_cons.1 hconditions
    obtain ⟨hfirst, hguarded⟩ := List.forall_mem_cons.1 hguarded
    rw [evalBranches_cons]
    refine sound_condition _ (sound_eval ev hcondition) fun holds => ?_
    cases holds with
    | true =>
      refine (sound_eval ev hfirst).bind fun s hs => sound_pure ?_
      simpa using hs
    | false =>
      exact (sound_evalBranches ev bs hconditions hguarded).bind fun r hr => sound_pure hr

end

theorem sound_evaluate (ev : Evaluator) {e : Expr} (h : e.HasKind .number) :
    (ev.evaluate e).Sound fun _ => True := by
  unfold evaluate
  split_ifs
  · exact sound_fail nofun
  · refine (sound_eval ev h).bind fun s hs => ?_
    cases hs with
    | number x => exact sound_pure trivial

/-- A truth value comes to no number, and what it comes to is refused for that only. -/
theorem evaluate_boolean (ev : Evaluator) {e : Expr} (h : e.HasKind .boolean) :
    ∃ err, (ev.evaluate e).result = .error err ∧ (err.BlamesKind → err = .booleanResult) := by
  unfold evaluate
  split_ifs
  · exact ⟨_, rfl, nofun⟩
  · have hsound := sound_eval ev h
    cases hresult : (ev.eval e).result with
    | error err =>
      rw [bind_of_error hresult]
      exact ⟨err, rfl, fun hblames => absurd hblames (hsound.error err hresult)⟩
    | ok s =>
      rw [bind_of_ok hresult]
      cases hsound.result s hresult with
      | boolean b => exact ⟨.booleanResult, rfl, fun _ => rfl⟩

/-- A number is never refused for its kind, and a truth value never for a wrong kind of an operand. -/
theorem evaluate_sound (ev : Evaluator) (e : Expr) :
    (e.HasKind .number → ∀ err, (ev.evaluate e).result = .error err →
      err ≠ .booleanResult ∧ ∀ op expected found, err ≠ .typeMismatch op expected found) ∧
    (e.HasKind .boolean → ∃ err, (ev.evaluate e).result = .error err ∧
      ∀ op expected found, err ≠ .typeMismatch op expected found) := by
  refine ⟨fun h err herr => ?_, fun h => ?_⟩
  · have hnot := (sound_evaluate ev h).error err herr
    refine ⟨?_, fun op expected found => ?_⟩
    · rintro rfl
      exact hnot .booleanResult
    · rintro rfl
      exact hnot (.typeMismatch op expected found)
  · obtain ⟨err, herr, honly⟩ := evaluate_boolean ev h
    refine ⟨err, herr, fun op expected found => ?_⟩
    rintro rfl
    cases honly (.typeMismatch op expected found)

/-- Whether a size is large, where the answer hangs on another one: a truth value chosen by a truth
value. -/
def isLarge : Expr :=
  .piecewise [(.test .lt (.ref "gap") (.literal 4), .test .gt (.ref "size") (.literal 20))]
    (.test .gt (.ref "size") (.arithmetic .div (.ref "gap") (.literal 0)))

/-- A size that is at most twice the gap if it is large. -/
def boundedSize : Expr :=
  .piecewise
    [(isLarge, .clamp (.ref "size") (.literal 0) (.arithmetic .mul (.literal 2) (.ref "gap")))]
    (.ref "size")

theorem isLarge_hasKind : isLarge.HasKind .boolean := by
  refine .piecewise ?_ ?_ (.test _ (.ref _) (.arithmetic _ (.ref _) (.literal _)))
  · exact List.forall_mem_singleton.2 (.test _ (.ref _) (.literal _))
  · exact List.forall_mem_singleton.2 (.test _ (.ref _) (.literal _))

theorem boundedSize_hasKind : boundedSize.HasKind .number := by
  refine .piecewise ?_ ?_ (.ref _)
  · exact List.forall_mem_singleton.2 isLarge_hasKind
  · refine List.forall_mem_singleton.2 ?_
    exact .clamp (.ref _) (.literal _) (.arithmetic _ (.literal _) (.ref _))

/-- An evaluator that knows a small gap and a large size. -/
def gapEvaluator : Evaluator :=
  ⟨fun id => if id = "gap" then some 2 else if id = "size" then some 24 else none, Limits.default, false⟩

/-- One that knows a large gap only. -/
def gapOnlyEvaluator : Evaluator := ⟨fun id => if id = "gap" then some 8 else none, Limits.default, false⟩

theorem evaluate_sound_boundedSize : boundedSize.HasKind .number ∧ isLarge.HasKind .boolean ∧
    (gapEvaluator.evaluate boundedSize).result = .ok 4 ∧
    (gapOnlyEvaluator.evaluate boundedSize).result = .error (.unknownReference "size") ∧
    (EvalError.unknownReference "size" ≠ .booleanResult ∧
      ∀ op expected found, EvalError.unknownReference "size" ≠ .typeMismatch op expected found) ∧
    (∃ err, (gapEvaluator.evaluate isLarge).result = .error err ∧
      ∀ op expected found, err ≠ .typeMismatch op expected found) := by
  have herror : (gapOnlyEvaluator.evaluate boundedSize).result = .error (.unknownReference "size") := by
    decide +kernel
  exact ⟨boundedSize_hasKind, isLarge_hasKind, by decide +kernel, herror,
    (evaluate_sound gapOnlyEvaluator boundedSize).1 boundedSize_hasKind _ herror,
    (evaluate_sound gapEvaluator isLarge).2 isLarge_hasKind⟩

end Evaluator

end DesignTokens
