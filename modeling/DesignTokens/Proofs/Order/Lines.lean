import DesignTokens.Order.Diagram
import DesignTokens.Proofs.Text.Pieces

/-!
# The lines of a diagram

* `OneLine s` : the text has no line end; so have the texts that are put together from such texts, the
  replaced and escaped ones among them;
* `splitString_unlines` : the lines of a diagram are found again at the line ends of its text.
-/

namespace DesignTokens.OrderGraph

variable {s t u sep : String} {ss ls : List String}

/-- The text has no line end. -/
def OneLine (s : String) : Prop := '\n' ∉ s.toList

instance : DecidablePred OneLine := fun _ => inferInstanceAs (Decidable (¬ _))

theorem oneLine_append : OneLine (s ++ t) ↔ OneLine s ∧ OneLine t := by
  rw [OneLine, String.toList_append, List.mem_append, not_or]
  rfl

theorem OneLine.between (hs : OneLine s) (ht : OneLine t) (hu : OneLine u) : OneLine (s ++ t ++ u) :=
  oneLine_append.2 ⟨oneLine_append.2 ⟨hs, ht⟩, hu⟩

theorem oneLine_intercalate (hsep : OneLine sep) (h : ∀ s ∈ ss, OneLine s) : OneLine (sep.intercalate ss) := by
  induction ss with
  | nil => exact List.not_mem_nil
  | cons s ss ih =>
    rw [List.forall_mem_cons] at h
    cases ss with
    | nil =>
      rw [String.intercalate_singleton]
      exact h.1
    | cons t ss =>
      rw [String.intercalate_cons_cons, oneLine_append, oneLine_append]
      exact ⟨⟨h.1, hsep⟩, ih h.2⟩

theorem oneLine_toString (n : Nat) : OneLine (toString n) := by
  rw [OneLine, Nat.toString_eq_ofList_toDigits, String.toList_ofList]
  intro h
  cases Nat.isDigit_of_mem_toDigits (by decide) (by decide) h

theorem oneLine_mermaidText (s : String) : OneLine (mermaidText s) := by
  simp [OneLine, mermaidText, Text.mem_replaceChar]

theorem quote_not_mem_mermaidText (s : String) : '"' ∉ (mermaidText s).toList := by
  simp [mermaidText, Text.mem_replaceChar]

theorem oneLine_dotText (s : String) : OneLine (dotText s) := by
  simp [OneLine, dotText, Text.mem_replaceChar]

theorem unlines_cons (l : String) (ls : List String) : unlines (l :: ls) = l ++ "\n" ++ unlines ls := by
  rw [← String.toList_inj]
  simp [unlines, String.toList_join]

theorem splitString_unlines (h : ∀ l ∈ ls, OneLine l) : Text.splitString '\n' (unlines ls) = ls ++ [""] := by
  induction ls with
  | nil => rfl
  | cons l ls ih =>
    rw [List.forall_mem_cons] at h
    have hchars : (unlines (l :: ls)).toList = l.toList ++ '\n' :: (unlines ls).toList := by
      rw [unlines_cons]
      simp
    have hline : ∀ c ∈ l.toList, (c == '\n') = false := by
      intro c hc
      rw [beq_eq_false_iff_ne]
      rintro rfl
      exact h.1 hc
    unfold Text.splitString at ih ⊢
    rw [hchars, Text.pieces_append_cons (by simp), List.map_append, ih h.2, Text.pieces_of_forall hline]
    simp

end DesignTokens.OrderGraph
