import DesignTokens.Proofs.Rule.Participants

/-!
# What a conditional rule raises

* `lengthIn? view id` : the size of a token, if it can be read; `r.target? view` : the size of the id to compare
  with, or else the fallback;
* `c.truth? view`, `r.truth? view` : whether the condition, and the requirement, is true, if the sizes are there;
* `level_check_conditional` : these two decide between no issue, an error and a warning;
* `conditionalVerdict_eq_error` : the reason of a warning is the first size that is missing;
* `check_of_fallback`, `check_of_not_true` : the issue does not depend on an id that cannot be read while there
  is a fallback, nor on the requirement unless the condition is true;
* `evaluate_conditional` : what a rule adds to the issues of the rules around it.
-/

namespace DesignTokens

variable {view : View} {candidates : List String} {c : Condition} {r : Requirement} {tag : Option String}
  {id reason : String}

/-! ## Sizes -/

/-- The number of a token, or the first length in its text. -/
def lengthIn? (view : View) (id : String) : Option Float :=
  (view id).bind fun v => v.asNumber?.or (firstLength? v.asText)

theorem toOption_lengthIn (view : View) (id : String) : (lengthIn view id).toOption = lengthIn? view id := by
  unfold lengthIn lengthIn?
  cases view id with
  | none => rfl
  | some v => cases h : v.asNumber?.or (firstLength? v.asText) <;> simp [h, Except.toOption]

namespace Requirement

/-- The size of the id to compare with if it can be read, or else the fallback. -/
def target? (view : View) (r : Requirement) : Option Float :=
  (r.reference.bind (lengthIn? view)).or r.fallback

theorem toOption_target (view : View) (r : Requirement) : (r.target view).toOption = r.target? view := by
  unfold target target?
  cases r.reference with
  | none => cases r.fallback <;> rfl
  | some id =>
    rw [Option.bind_some, ← toOption_lengthIn]
    dsimp only
    cases lengthIn view id with
    | ok x => rfl
    | error reason => cases r.fallback <;> rfl

/-- An id that cannot be read is as good as none while there is a fallback. -/
theorem target_of_fallback (hid : r.reference = some id) (hfallback : r.fallback.isSome)
    (hread : lengthIn? view id = none) : r.target view = { r with reference := none }.target view := by
  obtain ⟨x, hx⟩ := Option.isSome_iff_exists.1 hfallback
  rw [← toOption_lengthIn] at hread
  unfold target
  simp only [hid, hx]
  cases h : lengthIn view id with
  | ok y => simp [h, Except.toOption] at hread
  | error reason => rfl

end Requirement

/-! ## What is known of the parts -/

/-- Whether the condition is true of the size of its token, if that can be read. -/
def Condition.truth? (view : View) (c : Condition) : Option Bool := do
  let trigger ← lengthIn? view c.id
  some (c.comparison.holds trigger c.pixels)

/-- Whether the requirement is true of the size of its token and its target, if there are both. -/
def Requirement.truth? (view : View) (r : Requirement) : Option Bool := do
  let target ← r.target? view
  let actual ← lengthIn? view r.id
  some (r.comparison.holds actual target)

namespace CrossAxisRule

/-- The level of the issue that a conditional rule raises, by what is known of its parts. -/
def levelOf (condition requirement : Option Bool) : Option Level :=
  match condition, requirement with
  | some false, _ => none
  | some true, some true => none
  | some true, some false => some .error
  | some true, none => some .warn
  | none, _ => some .warn

section LevelOf

variable {condition requirement : Option Bool}

theorem levelOf_eq_none : levelOf condition requirement = none ↔
    condition = some false ∨ condition = some true ∧ requirement = some true := by
  unfold levelOf
  split <;> simp [*]

theorem levelOf_eq_error : levelOf condition requirement = some .error ↔
    condition = some true ∧ requirement = some false := by
  unfold levelOf
  split <;> simp [*]

theorem levelOf_eq_warn : levelOf condition requirement = some .warn ↔
    condition = none ∨ condition = some true ∧ requirement = none := by
  unfold levelOf
  split <;> simp [*]

end LevelOf

theorem level_check_conditional (view : View) (c : Condition) (r : Requirement) (tag : Option String) :
    ((conditional c r tag).check view).map Issue.level = levelOf (c.truth? view) (r.truth? view) := by
  rw [check, conditionalVerdict, Condition.truth?, Requirement.truth?, ← toOption_lengthIn, ← toOption_lengthIn,
    ← r.toOption_target]
  -- the cases follow the order in which the sizes are read
  cases lengthIn view c.id with
  | error reason => rfl
  | ok trigger =>
    by_cases hc : c.comparison.holds trigger c.pixels = true
    · cases r.target view with
      | error reason => simp [bind, Except.bind, Except.toOption, hc, levelOf, Issue.ofVerdict]
      | ok target =>
        cases lengthIn view r.id with
        | error reason => simp [bind, Except.bind, Except.toOption, hc, levelOf, Issue.ofVerdict]
        | ok actual =>
          cases hr : r.comparison.holds actual target <;>
            simp [bind, Except.bind, pure, Except.pure, Except.toOption, hc, hr, levelOf, Issue.ofVerdict]
    · simp [bind, Except.bind, pure, Except.pure, Except.toOption, hc, levelOf, Issue.ofVerdict]

theorem conditionalVerdict_eq_error : conditionalVerdict view c r = .error reason ↔
    lengthIn view c.id = .error reason ∨ c.truth? view = some true ∧
      (r.target view = .error reason ∨ (r.target? view).isSome ∧ lengthIn view r.id = .error reason) := by
  unfold conditionalVerdict Condition.truth?
  rw [← toOption_lengthIn, ← r.toOption_target]
  cases lengthIn view c.id with
  | error reason => simp [bind, Except.bind, Except.toOption]
  | ok trigger =>
    by_cases hc : c.comparison.holds trigger c.pixels = true
    · cases r.target view with
      | error reason => simp [bind, Except.bind, Except.toOption, hc]
      | ok target =>
        cases lengthIn view r.id with
        | error reason => simp [bind, Except.bind, Except.toOption, hc]
        | ok actual => simp [bind, Except.bind, pure, Except.pure, Except.toOption, hc]
    · simp [bind, Except.bind, pure, Except.pure, Except.toOption, hc]

/-- An issue of a conditional rule. -/
def conditionalIssue (c : Condition) (r : Requirement) (tag : Option String) (level : Level) (message : String) :
    Issue :=
  ⟨pairId c.id r.id, "cross-axis", level, message, tag⟩

theorem check_eq_none_iff :
    (conditional c r tag).check view = none ↔ levelOf (c.truth? view) (r.truth? view) = none := by
  rw [← level_check_conditional view c r tag, Option.map_eq_none_iff]

theorem exists_check_eq_iff {level : Level} :
    (∃ message, (conditional c r tag).check view = some (conditionalIssue c r tag level message)) ↔
      levelOf (c.truth? view) (r.truth? view) = some level := by
  rw [← level_check_conditional view c r tag, check]
  unfold Issue.ofVerdict conditionalIssue
  split <;> simp

theorem check_eq_warn_iff :
    (conditional c r tag).check view = some (conditionalIssue c r tag .warn reason) ↔
      conditionalVerdict view c r = .error reason := by
  rw [check]
  unfold Issue.ofVerdict conditionalIssue
  split <;> simp [*]

theorem check_of_fallback (hid : r.reference = some id) (hfallback : r.fallback.isSome)
    (hread : lengthIn? view id = none) :
    (conditional c r tag).check view = (conditional c { r with reference := none } tag).check view := by
  rw [check, check, conditionalVerdict, Requirement.target_of_fallback hid hfallback hread]
  rfl

/-- While the condition is not known to be true, the requirement is not looked at. -/
theorem check_of_not_true (h : c.truth? view ≠ some true) {r' : Requirement} (hid : r'.id = r.id) :
    (conditional c r' tag).check view = (conditional c r tag).check view := by
  have hverdict : conditionalVerdict view c r' = conditionalVerdict view c r := by
    unfold conditionalVerdict
    rw [Condition.truth?, ← toOption_lengthIn] at h
    cases hsize : lengthIn view c.id with
    | error reason => rfl
    | ok trigger =>
      have hfalse : ¬ c.comparison.holds trigger c.pixels = true := by
        simpa [hsize, Except.toOption] using h
      simp [bind, Except.bind, hfalse]
  rw [check, check, hverdict, hid]

/-! ## A rule among others -/

theorem evaluate_append_cons {before after : List CrossAxisRule} {rule : CrossAxisRule}
    (hexamined : ∃ id ∈ rule.participants, id ∈ candidates) :
    (Checker.crossAxis (before ++ rule :: after)).evaluate view candidates =
      (Checker.crossAxis before).evaluate view candidates ++ (rule.check view).toList ++
        (Checker.crossAxis after).evaluate view candidates := by
  have hissues : Rule.issues view candidates (.crossAxis rule) = (rule.check view).toList :=
    if_pos (touches_iff.2 hexamined)
  simp only [Checker.evaluate_eq_flatMap, Checker.rules, List.map_append, List.map_cons, List.flatMap_append,
    List.flatMap_cons, hissues, List.append_assoc]

/-- A conditional rule that is examined adds at most one issue: none if its condition is false or its requirement
true, an error if the requirement is false, and a warning of the first size that is missing if it cannot be
told. -/
theorem evaluate_conditional (view : View) (before after : List CrossAxisRule) (tag : Option String)
    (hexamined : ∃ id ∈ (conditional c r tag).participants, id ∈ candidates) :
    (Checker.crossAxis (before ++ conditional c r tag :: after)).evaluate view candidates =
      (Checker.crossAxis before).evaluate view candidates ++ ((conditional c r tag).check view).toList ++
        (Checker.crossAxis after).evaluate view candidates ∧
    ((conditional c r tag).check view = none ↔
      c.truth? view = some false ∨ c.truth? view = some true ∧ r.truth? view = some true) ∧
    ((∃ message, (conditional c r tag).check view = some (conditionalIssue c r tag .error message)) ↔
      c.truth? view = some true ∧ r.truth? view = some false) ∧
    ((∃ reason, (conditional c r tag).check view = some (conditionalIssue c r tag .warn reason)) ↔
      c.truth? view = none ∨ c.truth? view = some true ∧ r.truth? view = none) ∧
    (∀ reason, (conditional c r tag).check view = some (conditionalIssue c r tag .warn reason) ↔
      lengthIn view c.id = .error reason ∨ c.truth? view = some true ∧
        (r.target view = .error reason ∨ (r.target? view).isSome ∧ lengthIn view r.id = .error reason)) ∧
    (∀ id, r.reference = some id → r.fallback.isSome → lengthIn? view id = none →
      (conditional c r tag).check view = (conditional c { r with reference := none } tag).check view) ∧
    (c.truth? view ≠ some true → ∀ r' : Requirement, r'.id = r.id →
      (conditional c r' tag).check view = (conditional c r tag).check view) :=
  ⟨evaluate_append_cons hexamined, check_eq_none_iff.trans levelOf_eq_none,
    exists_check_eq_iff.trans levelOf_eq_error, exists_check_eq_iff.trans levelOf_eq_warn,
    fun _ => check_eq_warn_iff.trans conditionalVerdict_eq_error, fun _ => check_of_fallback,
    fun h _ => check_of_not_true h⟩

/-- The font is large. -/
def largeFont : Condition := ⟨"font", .atLeast, 18⟩

/-- The lines have the least height or more, for which 24 pixels count if it is not known. -/
def highLines : Requirement := ⟨"line", .atLeast, some "least", some 24⟩

/-- A font of the given size on lines of 22 pixels. -/
def fontView (size : String) : View
  | "font" => some (.text size)
  | "line" => some (.text "22px")
  | _ => none

/-- The least height is not known: the lines fail against the fallback, but only under the large font. -/
theorem evaluate_conditional_fontView :
    (∃ id ∈ (conditional largeFont highLines none).participants, id ∈ ["line"]) ∧
    (∃ message, (Checker.crossAxis [conditional largeFont highLines none]).evaluate
      (fontView "clamp(1.25rem, 2vw, 2rem)") ["line"] =
        [conditionalIssue largeFont highLines none .error message]) ∧
    (Checker.crossAxis [conditional largeFont highLines none]).evaluate (fontView "16px") ["line"] = [] := by
  have hexamined : ∃ id ∈ (conditional largeFont highLines none).participants, id ∈ ["line"] := by decide
  obtain ⟨hlarge, -, herror, -⟩ :=
    evaluate_conditional (fontView "clamp(1.25rem, 2vw, 2rem)") [] [] none hexamined
  obtain ⟨hsmall, hnone, -⟩ := evaluate_conditional (fontView "16px") [] [] none hexamined
  obtain ⟨message, hmessage⟩ := herror.2 (by decide +kernel)
  refine ⟨hexamined, ⟨message, ?_⟩, ?_⟩
  · rw [hmessage] at hlarge
    exact hlarge
  · rw [hnone.2 (.inl (by decide +kernel))] at hsmall
    exact hsmall

end CrossAxisRule

end DesignTokens
