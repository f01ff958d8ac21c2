import DesignTokens.Text.Blank
import Mathlib.Data.List.TakeWhile

/-!
# What trimming leaves

* `exists_dropEndWhile`, `dropEndWhile_append` : a text without certain characters at its end is what is left
  when only such characters are cut off and the last one that is left is none of them;
* `exists_trim`, `trim_append` : the same of the blanks at both ends of a text;
* `trim_of_forall` : nothing is cut off a text without blanks.
-/

namespace DesignTokens.Text

variable {p : Char → Bool} {cs before after : List Char}

theorem exists_dropEndWhile (p : Char → Bool) (cs : List Char) : ∃ after, (∀ c ∈ after, p c = true) ∧
    cs = dropEndWhile p cs ++ after ∧ ∀ c ∈ (dropEndWhile p cs).getLast?, p c = false := by
  refine ⟨(cs.reverse.takeWhile p).reverse, fun c hc => List.mem_takeWhile_imp (List.mem_reverse.1 hc), ?_, ?_⟩
  · rw [dropEndWhile, ← List.reverse_append, List.takeWhile_append_dropWhile, List.reverse_reverse]
  · intro c hc
    rw [dropEndWhile, List.getLast?_reverse] at hc
    have hhead := List.head?_dropWhile_not p cs.reverse
    rw [Option.mem_def.1 hc] at hhead
    simpa using hhead

theorem dropEndWhile_append (hafter : ∀ c ∈ after, p c = true) (hlast : ∀ c ∈ cs.getLast?, p c = false) :
    dropEndWhile p (cs ++ after) = cs := by
  have hreverse : ∀ c ∈ after.reverse, p c = true := fun c hc => hafter c (List.mem_reverse.1 hc)
  rw [dropEndWhile, List.reverse_append, List.dropWhile_append_of_pos hreverse]
  cases hcs : cs.reverse with
  | nil => exact (List.reverse_eq_nil_iff.1 hcs).symm
  | cons c rest =>
    have hc : p c = false := hlast c (by rw [← List.head?_reverse, hcs]; rfl)
    rw [List.dropWhile_cons_of_neg (by simp [hc]), ← hcs, List.reverse_reverse]

theorem exists_trim (cs : List Char) : ∃ before after, (∀ c ∈ before, isBlank c = true) ∧
    (∀ c ∈ after, isBlank c = true) ∧ cs = before ++ (trim cs ++ after) := by
  obtain ⟨after, hafter, hcut, -⟩ := exists_dropEndWhile isBlank (cs.dropWhile isBlank)
  refine ⟨cs.takeWhile isBlank, after, fun c hc => List.mem_takeWhile_imp hc, hafter, ?_⟩
  rw [trim, trimEnd, ← hcut, List.takeWhile_append_dropWhile]

theorem trim_append_of_blank (hbefore : ∀ c ∈ before, isBlank c = true) : trim (before ++ cs) = trim cs := by
  rw [trim, List.dropWhile_append_of_pos hbefore, ← trim]

theorem trim_append (hbefore : ∀ c ∈ before, isBlank c = true) (hafter : ∀ c ∈ after, isBlank c = true)
    (hfirst : ∀ c ∈ cs.head?, isBlank c = false) (hlast : ∀ c ∈ cs.getLast?, isBlank c = false) :
    trim (before ++ (cs ++ after)) = cs := by
  rw [trim_append_of_blank hbefore, trim, trimEnd]
  cases cs with
  | nil =>
    rw [List.nil_append, List.dropWhile_eq_nil_iff.2 hafter]
    rfl
  | cons c cs =>
    have hc : isBlank c = false := hfirst c rfl
    rw [List.cons_append, List.dropWhile_cons_of_neg (by simp [hc]), ← List.cons_append,
      dropEndWhile_append hafter hlast]

theorem trim_of_forall (h : ∀ c ∈ cs, isBlank c = false) : trim cs = cs := by
  have hnone : ∀ c ∈ ([] : List Char), isBlank c = true := by simp
  have htrim := trim_append hnone hnone
    (fun c hc => h c (List.mem_of_mem_head? hc)) (fun c hc => h c (List.mem_of_getLast? hc))
  rwa [List.nil_append, List.append_nil] at htrim

end DesignTokens.Text
