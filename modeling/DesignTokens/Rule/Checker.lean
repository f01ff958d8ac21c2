import DesignTokens.Rule.Contrast
import DesignTokens.Rule.CrossAxis
import DesignTokens.Rule.Monotonic
import DesignTokens.Rule.Threshold

/-!
# Checkers

* `Rule` : a rule of one of the four kinds, with its participants and the issue that it raises;
* `Checker` : rules of one kind under a name;
* `Checker.evaluate view candidates c` : the issues of the rules of which some participant is a
  candidate, in the order of the rules.
-/

namespace DesignTokens

/-- A rule of one of the four kinds. -/
inductive Rule where
  | contrast (pair : ContrastPair)
  | threshold (limits : Limits) (rule : ThresholdRule)
  | order (rule : OrderRule)
  | crossAxis (rule : CrossAxisRule)
  deriving Repr

namespace Rule

def participants : Rule → List String
  | contrast p => p.participants
  | threshold _ r => r.participants
  | order r => r.participants
  | crossAxis r => r.participants

def check (view : View) : Rule → Option Issue
  | contrast p => p.check view
  | threshold limits r => r.check limits view
  | order r => r.check view
  | crossAxis r => r.check view

end Rule

def touches (candidates participants : List String) : Bool :=
  participants.any (candidates.contains ·)

/-- Rules of one kind. -/
inductive Checker where
  | contrast (pairs : List ContrastPair)
  | threshold (limits : Limits) (rules : List ThresholdRule)
  | monotonic (axis : String) (measure : Measure) (tag : Option String) (triples : List OrderTriple)
  | crossAxis (rules : List CrossAxisRule)
  deriving Repr

namespace Checker

def name : Checker → String
  | contrast _ => "contrast"
  | threshold _ _ => "threshold"
  | monotonic axis measure _ _ => measure.ruleName ++ ":" ++ axis
  | crossAxis _ => "cross-axis"

def rules : Checker → List Rule
  | contrast ps => ps.map .contrast
  | threshold limits rs => rs.map (.threshold limits)
  | monotonic _ measure tag ts => ts.map fun t => .order ⟨t, measure, tag⟩
  | crossAxis rs => rs.map .crossAxis

/-- The issues of the rules of which some participant is a candidate. -/
def evaluate (view : View) (candidates : List String) (c : Checker) : List Issue :=
  (c.rules.filter fun r => touches candidates r.participants).filterMap (Rule.check view)

end Checker

end DesignTokens
