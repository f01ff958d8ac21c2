import DesignTokens.Engine
import DesignTokens.Proofs.Expr.Evaluate
import Mathlib.Data.List.Basic

/-!
# What the issue of a rule depends on

* `Rule.check_congr` : the issue that a rule raises depends only on the values of its participants;
* `r.issues view candidates` : the issues that a rule adds to those that touch some candidates;
* `Engine.evaluate_eq_flatMap` : the issues of an engine are those of its rules, one after the other.
-/

namespace DesignTokens

variable {f g : View} {candidates : List String}

/-! ## Rules of each kind -/

namespace ContrastPair

theorem colorOf_congr {operand : String} (h : Color.parse? operand = none → f operand = g operand) :
    colorOf f operand = colorOf g operand := by
  unfold colorOf
  cases hc : Color.parse? operand with
  | some c => rfl
  | none =>
    dsimp only
    rw [h hc]

theorem mem_participants {p : ContrastPair} {operand : String} : operand ∈ p.participants ↔
    (operand = p.foreground ∨ operand = p.background ∨ p.backdrop = some operand) ∧
      Color.parse? operand = none := by
  simp [participants]

theorem check_congr {p : ContrastPair} (h : ∀ id ∈ p.participants, f id = g id) :
    p.check f = p.check g := by
  have hforeground : colorOf f p.foreground = colorOf g p.foreground :=
    colorOf_congr fun hc => h _ (mem_participants.2 ⟨.inl rfl, hc⟩)
  have hbackground : colorOf f p.background = colorOf g p.background :=
    colorOf_congr fun hc => h _ (mem_participants.2 ⟨.inr (.inl rfl), hc⟩)
  have hbackdrop : backdropColor f p = backdropColor g p := by
    unfold backdropColor
    cases hp : p.backdrop with
    | none => rfl
    | some operand => exact colorOf_congr fun hc => h _ (mem_participants.2 ⟨.inr (.inr hp), hc⟩)
  have hratio : p.ratio f = p.ratio g := by
    unfold ratio
    rw [hbackdrop, hbackground, hforeground]
  unfold check verdict
  rw [hratio]

end ContrastPair

namespace ThresholdRule

theorem check_congr {r : ThresholdRule} (limits : Limits) (h : ∀ id ∈ r.participants, f id = g id) :
    r.check limits f = r.check limits g := by
  have hactual : r.actual f = r.actual g := by
    unfold actual
    rw [h r.id (by simp [participants])]
  have hbound : r.bound limits f = r.bound limits g := by
    unfold bound
    cases he : r.expr with
    | none => cases r.pixels <;> rfl
    | some e =>
      have hsizes : ∀ id ∈ e.refs, sizeIn? f id = sizeIn? g id := by
        intro id hid
        unfold sizeIn?
        rw [h id (by simp [participants, he, hid])]
      dsimp only
      rw [evaluate_congr limits hsizes]
  unfold check verdict
  rw [hbound, hactual]

end ThresholdRule

theorem OrderRule.check_congr {r : OrderRule} (h : ∀ id ∈ r.participants, f id = g id) :
    r.check f = r.check g := by
  have hleft : f r.triple.left = g r.triple.left := h _ (by simp [participants])
  have hright : f r.triple.right = g r.triple.right := h _ (by simp [participants])
  unfold check violation?
  rw [hleft, hright]

namespace CrossAxisRule

theorem lengthIn_congr {id : String} (h : f id = g id) : lengthIn f id = lengthIn g id := by
  unfold lengthIn
  rw [h]

theorem target_congr {r : Requirement} (h : ∀ id, r.reference = some id → f id = g id) :
    r.target f = r.target g := by
  unfold Requirement.target
  cases hr : r.reference with
  | none => cases r.fallback <;> rfl
  | some id =>
    dsimp only
    rw [lengthIn_congr (h id hr)]

theorem check_congr {r : CrossAxisRule} (h : ∀ id ∈ r.participants, f id = g id) :
    r.check f = r.check g := by
  cases r with
  | conditional c r tag =>
    have htrigger : lengthIn f c.id = lengthIn g c.id :=
      lengthIn_congr (h _ (by simp [participants]))
    have hactual : lengthIn f r.id = lengthIn g r.id :=
      lengthIn_congr (h _ (by simp [participants]))
    have htarget : r.target f = r.target g :=
      target_congr fun id hid => h id (by simp [participants, hid])
    have hverdict : conditionalVerdict f c r = conditionalVerdict g c r := by
      unfold conditionalVerdict
      rw [htrigger, htarget, hactual]
    rw [check, check, hverdict]
  | compare p tag =>
    have hleft : lengthIn f p.left = lengthIn g p.left :=
      lengthIn_congr (h _ (by simp [participants]))
    have hright : lengthIn f p.right = lengthIn g p.right :=
      lengthIn_congr (h _ (by simp [participants]))
    have hverdict : pairVerdict f p = pairVerdict g p := by
      unfold pairVerdict
      rw [hleft, hright]
    rw [check, check, hverdict]

end CrossAxisRule

/-! ## The issues of several rules -/

namespace Rule

theorem check_congr {r : Rule} (h : ∀ id ∈ r.participants, f id = g id) : r.check f = r.check g := by
  cases r with
  | contrast p => exact ContrastPair.check_congr h
  | threshold limits r => exact ThresholdRule.check_congr limits h
  | order r => exact OrderRule.check_congr h
  | crossAxis r => exact CrossAxisRule.check_congr h

/-- The issues of a rule if some participant is a candidate. -/
def issues (view : View) (candidates : List String) (r : Rule) : List Issue :=
  if touches candidates r.participants then (r.check view).toList else []

end Rule

theorem touches_iff {participants : List String} :
    touches candidates participants = true ↔ ∃ id ∈ participants, id ∈ candidates := by
  simp [touches]

theorem Checker.evaluate_eq_flatMap (view : View) (candidates : List String) (c : Checker) :
    c.evaluate view candidates = c.rules.flatMap (Rule.issues view candidates) := by
  have hissues (r : Rule) : (if touches candidates r.participants = true then r.check view
      else none).toList = r.issues view candidates := by
    unfold Rule.issues
    split <;> rfl
  unfold evaluate
  rw [List.filterMap_filter, List.filterMap_eq_flatMap_toList]
  exact congrArg (c.rules.flatMap ·) (funext hissues)

theorem Engine.evaluate_eq_flatMap (e : Engine) (candidates : List String) :
    e.evaluate candidates =
      (e.checkers.flatMap Checker.rules).flatMap (Rule.issues e.view candidates) := by
  rw [evaluate, List.flatMap_assoc]
  exact congrArg (e.checkers.flatMap ·) (funext (Checker.evaluate_eq_flatMap e.view candidates))

end DesignTokens
