import DesignTokens.Proofs.Json.Layout

/-!
# Printed documents are read back

The printed texts of a document are layouts of it, so a normal document that reads back is what its
text is read as:

* `Json.parse?_compress` : the text without blanks;
* `Json.parse?_pretty` : the indented text, whatever blanks follow.
-/

namespace DesignTokens.Json

open Written (Spacing spacing_nil NameLaidOut)

/-! ## Without blanks -/

theorem nameLaidOut_quote (k : String) : NameLaidOut k (quote k ++ [':']) :=
  ⟨[], [], spacing_nil, spacing_nil, by rw [List.append_nil]⟩

mutual

theorem laidOut_chars : ∀ j : Json, j.LaidOut j.chars
  | null => rfl
  | bool _ => rfl
  | num _ => rfl
  | str _ => rfl
  | arr [] => ⟨[], spacing_nil, by rw [chars]; rfl⟩
  | arr (j :: js) =>
    ⟨[], j.chars, itemChars js, spacing_nil, laidOut_chars j, itemsLaidOut_itemChars js, by rw [chars]; rfl⟩
  | obj [] => ⟨[], spacing_nil, by rw [chars]; rfl⟩
  | obj ((k, j) :: ms) =>
    ⟨[], quote k ++ [':'], j.chars, memberChars ms, spacing_nil, nameLaidOut_quote k, laidOut_chars j,
      membersLaidOut_memberChars ms, by rw [chars]; simp⟩

theorem itemsLaidOut_itemChars : ∀ js : List Json, ItemsLaidOut js (itemChars js)
  | [] => ⟨[], spacing_nil, by rw [itemChars]; rfl⟩
  | j :: js =>
    ⟨[], [], j.chars, itemChars js, spacing_nil, spacing_nil, laidOut_chars j, itemsLaidOut_itemChars js,
      by rw [itemChars]; rfl⟩

theorem membersLaidOut_memberChars : ∀ ms : List (String × Json), MembersLaidOut ms (memberChars ms)
  | [] => ⟨[], spacing_nil, by rw [memberChars]; rfl⟩
  | (k, j) :: ms =>
    ⟨[], [], quote k ++ [':'], j.chars, memberChars ms, spacing_nil, spacing_nil, nameLaidOut_quote k,
      laidOut_chars j, membersLaidOut_memberChars ms, by rw [memberChars]; simp⟩

end

/-- A normal document is what its text without blanks is read as. -/
theorem parse?_compress {j : Json} (hread : j.ReadsBack maxDepth) (hnormal : j.Normal) :
    parse? j.compress = some j :=
  parse?_of_laidOut hread hnormal j.laidOut_chars spacing_nil spacing_nil (by simp [compress])

/-! ## Indented -/

theorem spacing_newLine (depth : Nat) : Spacing (newLine depth) := by
  intro c hc
  rcases List.mem_cons.1 hc with rfl | hc
  · rfl
  · rw [List.eq_of_mem_replicate hc]
    rfl

theorem nameLaidOut_spaced (k : String) : NameLaidOut k (quote k ++ [':', ' ']) :=
  ⟨[], [' '], spacing_nil, by simp [Spacing, Written.isSpacing], by rw [List.append_nil]⟩

mutual

theorem laidOut_prettyChars (depth : Nat) : ∀ j : Json, j.LaidOut (prettyChars depth j)
  | null => rfl
  | bool _ => rfl
  | num _ => rfl
  | str _ => rfl
  | arr [] => ⟨[], spacing_nil, by rw [prettyChars]; rfl⟩
  | arr (j :: js) =>
    ⟨newLine (depth + 1), _, _, spacing_newLine _, laidOut_prettyChars (depth + 1) j,
      itemsLaidOut_prettyItems depth js, by rw [prettyChars]; simp⟩
  | obj [] => ⟨[], spacing_nil, by rw [prettyChars]; rfl⟩
  | obj ((k, j) :: ms) =>
    ⟨newLine (depth + 1), _, _, _, spacing_newLine _, nameLaidOut_spaced k,
      laidOut_prettyChars (depth + 1) j, membersLaidOut_prettyMembers depth ms, by rw [prettyChars]; simp⟩

theorem itemsLaidOut_prettyItems (depth : Nat) : ∀ js : List Json, ItemsLaidOut js (prettyItems depth js)
  | [] => ⟨newLine depth, spacing_newLine depth, by rw [prettyItems]⟩
  | j :: js =>
    ⟨[], newLine (depth + 1), _, _, spacing_nil, spacing_newLine _, laidOut_prettyChars (depth + 1) j,
      itemsLaidOut_prettyItems depth js, by rw [prettyItems]; simp⟩

theorem membersLaidOut_prettyMembers (depth : Nat) :
    ∀ ms : List (String × Json), MembersLaidOut ms (prettyMembers depth ms)
  | [] => ⟨newLine depth, spacing_newLine depth, by rw [prettyMembers]⟩
  | (k, j) :: ms =>
    ⟨[], newLine (depth + 1), _, _, _, spacing_nil, spacing_newLine _, nameLaidOut_spaced k,
      laidOut_prettyChars (depth + 1) j, membersLaidOut_prettyMembers depth ms, by rw [prettyMembers]; simp⟩

end

/-- A normal document is what its indented text is read as, whatever blanks follow. -/
theorem parse?_pretty {j : Json} {blanks : String} (hread : j.ReadsBack maxDepth)
    (hnormal : j.Normal) (hblanks : ∀ c ∈ blanks.toList, Written.isSpacing c = true) :
    parse? (j.pretty ++ blanks) = some j :=
  parse?_of_laidOut hread hnormal (laidOut_prettyChars 0 j) spacing_nil hblanks
    (by simp [pretty])

end DesignTokens.Json
