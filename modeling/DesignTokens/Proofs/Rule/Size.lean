import DesignTokens.Proofs.Quantity
import DesignTokens.Proofs.Token.Placed
import DesignTokens.Rule.CrossAxis
import DesignTokens.Rule.Monotonic
import DesignTokens.Rule.Threshold

/-!
# The size of a token

Four places read the size of a token: expressions through the text of its value, thresholds and order rules
from its number or its text, and cross-axis rules from its number or the first length in its text.

* `TokenValue.size?_asText` : the text of a value reads as its size;
* `readers_agree` : so all four read the same size, apart from cross-axis rules, which also read the first
  length of a text that is no size.
-/

namespace DesignTokens

variable {view : View} {v : TokenValue} {x : Float}

theorem TokenValue.size?_asText (h : v.Finite) : size? v.asText = Measure.size.read? v := by
  cases v with
  | text s => rfl
  | number x => exact size?_plain h

theorem TokenValue.number_or_size? (v : TokenValue) :
    v.asNumber?.or (size? v.asText) = Measure.size.read? v := by
  cases v <;> rfl

theorem TokenValue.number_or_firstLength? (h : Measure.size.read? v = some x) :
    v.asNumber?.or (firstLength? v.asText) = some x := by
  cases v with
  | text s => exact firstLength?_of_size? h
  | number y => exact h

/-- Expressions, thresholds and order rules read the same size of a token or none, and where they read one
so do cross-axis rules. The size of a number is the number. -/
theorem readers_agree (r : ThresholdRule) (hv : view r.id = some v) (hfinite : v.Finite) :
    sizeIn? view r.id = Measure.size.read? v ∧ (r.actual view).toOption = Measure.size.read? v ∧
      (∀ x, Measure.size.read? v = some x → lengthIn view r.id = .ok x) ∧
      ∀ x, v = .number x → Measure.size.read? v = some x := by
  refine ⟨?_, ?_, fun x hx => ?_, ?_⟩
  · rw [sizeIn?, hv]
    exact TokenValue.size?_asText hfinite
  · unfold ThresholdRule.actual
    simp only [hv, TokenValue.number_or_size?]
    cases Measure.size.read? v <;> rfl
  · unfold lengthIn
    simp only [hv, TokenValue.number_or_firstLength? hx]
  · rintro x rfl
    rfl

/-- A gap with blanks around its text, and a shift that is a number. -/
def gapView : View
  | "gap" => some (.text " 1.5rem\t")
  | "shift" => some (.number (-0.1))
  | _ => none

theorem readers_agree_gapView :
    (sizeIn? gapView "gap" = some 24 ∧ ((ThresholdRule.fixed "gap" .atLeast 8).actual gapView).toOption = some 24 ∧
      lengthIn gapView "gap" = .ok 24) ∧
    sizeIn? gapView "shift" = some (-0.1) ∧
      ((ThresholdRule.fixed "shift" .less 0).actual gapView).toOption = some (-0.1) ∧
      lengthIn gapView "shift" = .ok (-0.1) := by
  have hgap : gapView "gap" = some (.text " 1.5rem\t") := rfl
  have hshift : gapView "shift" = some (.number (-0.1)) := rfl
  have hread : Measure.size.read? (.text " 1.5rem\t") = some 24 := by decide +kernel
  obtain ⟨hscope, hactual, hlength, -⟩ := readers_agree (.fixed "gap" .atLeast 8) hgap trivial
  obtain ⟨hscope', hactual', hlength', hnumber⟩ :=
    readers_agree (.fixed "shift" .less 0) hshift (by decide +kernel)
  have hread' := hnumber (-0.1) rfl
  exact ⟨⟨hscope.trans hread, hactual.trans hread, hlength _ hread⟩, hscope'.trans hread', hactual'.trans hread',
    hlength' _ hread'⟩

end DesignTokens
