import DesignTokens.Rule.Checker

/-!
# When a rule raises no issue

* `r.Holds view` : all that the rule asks about can be computed, and what it asks for is so. A
  conditional rule asks for nothing while its condition is false, and an order triple asks for nothing
  unless both its values can be read;
* `Rule.check_eq_none` : a rule that is checked raises no issue if and only if it holds.
-/

namespace DesignTokens

theorem Issue.ofVerdict_eq_none {id rule : String} {tag : Option String}
    {verdict : Except String (Option String)} :
    ofVerdict id rule tag verdict = none ↔ verdict = .ok none := by
  unfold ofVerdict
  split <;> simp

variable {view : View}

namespace ContrastPair

/-- There is a contrast, and it is not below the least one. -/
def Holds (view : View) (p : ContrastPair) : Prop := ∃ x, p.ratio view = .ok x ∧ ¬ x < p.least

theorem check_eq_none {p : ContrastPair} : p.check view = none ↔ p.Holds view := by
  unfold check verdict Holds
  rw [Issue.ofVerdict_eq_none]
  cases p.ratio view with
  | error reason => simp [bind, Except.bind]
  | ok x => simp [bind, Except.bind, pure, Except.pure]

end ContrastPair

namespace ThresholdRule

/-- There is a bound, and the token has a size that compares with it as it should. -/
def Holds (limits : Limits) (view : View) (r : ThresholdRule) : Prop :=
  ∃ b x, r.bound limits view = .ok b ∧ r.actual view = .ok x ∧ r.comparison.holds x b = true

theorem check_eq_none {limits : Limits} {r : ThresholdRule} :
    r.check limits view = none ↔ r.Holds limits view := by
  unfold check verdict Holds
  rw [Issue.ofVerdict_eq_none]
  cases r.bound limits view with
  | error reason => simp [bind, Except.bind]
  | ok b =>
    cases r.actual view with
    | error reason => simp [bind, Except.bind]
    | ok x => simp [bind, Except.bind, pure, Except.pure]

end ThresholdRule

namespace OrderRule

/-- The two values compare as they should if both can be read. -/
def Holds (view : View) (r : OrderRule) : Prop :=
  ∀ x y, (view r.triple.left).bind r.measure.read? = some x →
    (view r.triple.right).bind r.measure.read? = some y → r.triple.relation.holds x y = true

theorem violation?_eq_none {r : OrderRule} : r.violation? view = none ↔ r.Holds view := by
  unfold violation? Holds
  cases (view r.triple.left).bind r.measure.read? with
  | none => simp
  | some x =>
    cases (view r.triple.right).bind r.measure.read? with
    | none => simp
    | some y => simp

instance (r : OrderRule) : Decidable (r.Holds view) := decidable_of_iff _ violation?_eq_none

theorem check_eq_none {r : OrderRule} : r.check view = none ↔ r.Holds view := by
  unfold check
  rw [Option.map_eq_none_iff, violation?_eq_none]

end OrderRule

namespace CrossAxisRule

/-- If the condition is true then the requirement can be compared with its target and is met; two
tokens with a distance between them compare as they should. -/
def Holds (view : View) : CrossAxisRule → Prop
  | conditional c r _ => ∃ trigger, lengthIn view c.id = .ok trigger ∧
    (c.comparison.holds trigger c.pixels = true →
      ∃ target actual, r.target view = .ok target ∧ lengthIn view r.id = .ok actual ∧
        r.comparison.holds actual target = true)
  | compare p _ => ∃ x y, lengthIn view p.left = .ok x ∧ lengthIn view p.right = .ok y ∧
    p.comparison.holds x (y + p.distance) = true

theorem conditionalVerdict_eq_ok {c : Condition} {r : Requirement} (tag : Option String) :
    conditionalVerdict view c r = .ok none ↔ (conditional c r tag).Holds view := by
  simp only [conditionalVerdict, Holds]
  cases lengthIn view c.id with
  | error reason => simp [bind, Except.bind]
  | ok trigger =>
    by_cases hcondition : c.comparison.holds trigger c.pixels = true
    · cases r.target view with
      | error reason => simp [bind, Except.bind, hcondition]
      | ok target =>
        cases lengthIn view r.id with
        | error reason => simp [bind, Except.bind, hcondition]
        | ok actual => simp [bind, Except.bind, pure, Except.pure, hcondition]
    · simp [bind, Except.bind, pure, Except.pure, hcondition]

theorem pairVerdict_eq_ok {p : PairComparison} (tag : Option String) :
    pairVerdict view p = .ok none ↔ (compare p tag).Holds view := by
  simp only [pairVerdict, Holds]
  cases lengthIn view p.left with
  | error reason => simp [bind, Except.bind]
  | ok x =>
    cases lengthIn view p.right with
    | error reason => simp [bind, Except.bind]
    | ok y => simp [bind, Except.bind, pure, Except.pure]

theorem check_eq_none {r : CrossAxisRule} : r.check view = none ↔ r.Holds view := by
  cases r with
  | conditional c r tag => rw [check, Issue.ofVerdict_eq_none, conditionalVerdict_eq_ok tag]
  | compare p tag => rw [check, Issue.ofVerdict_eq_none, pairVerdict_eq_ok tag]

end CrossAxisRule

namespace Rule

/-- What the rule asks for can be computed and is so. -/
def Holds (view : View) : Rule → Prop
  | contrast p => p.Holds view
  | threshold limits r => r.Holds limits view
  | order r => r.Holds view
  | crossAxis r => r.Holds view

theorem check_eq_none {r : Rule} : r.check view = none ↔ r.Holds view := by
  cases r with
  | contrast p => exact ContrastPair.check_eq_none
  | threshold limits r => exact ThresholdRule.check_eq_none
  | order r => exact OrderRule.check_eq_none
  | crossAxis r => exact CrossAxisRule.check_eq_none

theorem exists_check_of_not_holds {r : Rule} (h : ¬ r.Holds view) : ∃ i, r.check view = some i :=
  Option.ne_none_iff_exists'.1 (mt check_eq_none.1 h)

end Rule

end DesignTokens
