import DesignTokens.Json.Written

/-!
# The texts and the numbers of a document

* `w.leaves` : the texts of a document as it is written;
* `Written.leaves_of_read?` : they are those of the document that it is read as, if all of it is;
* `Json.leaves_normal_subset` : the normal form has no other texts than the document;
* `j.numbers` : the numbers of a document.
-/

namespace DesignTokens

namespace Written

mutual

/-- The texts of a document as it is written, in order; one without a value is `none`. -/
def leaves : Written → List (Option String)
  | str s => [s]
  | arr ws => itemLeaves ws
  | obj ms => memberLeaves ms
  | null => []
  | bool _ => []
  | num _ => []

def itemLeaves : List Written → List (Option String)
  | [] => []
  | w :: ws => leaves w ++ itemLeaves ws

def memberLeaves : List (Option String × Written) → List (Option String)
  | [] => []
  | (_, w) :: ms => leaves w ++ memberLeaves ms

end

/-! ## Reading the whole -/

mutual

theorem leaves_of_read? : ∀ (w : Written) {depth : Nat} {j : Json}, w.read? depth .whole = some j →
    w.leaves = j.leaves.map some
  | null, depth, j, h => by
    rw [read?] at h
    cases h
    simp [leaves, Json.leaves]
  | bool b, depth, j, h => by
    rw [read?] at h
    cases h
    simp [leaves, Json.leaves]
  | num n, depth, j, h => by
    rw [read?] at h
    obtain ⟨m, -, rfl⟩ := Option.map_eq_some_iff.1 h
    simp [leaves, Json.leaves]
  | str s, depth, j, h => by
    rw [read?] at h
    obtain ⟨t, rfl, rfl⟩ := Option.map_eq_some_iff.1 h
    simp [leaves, Json.leaves]
  | arr ws, depth, j, h => by
    rw [read?] at h
    split at h
    · cases h
    · obtain ⟨js, hjs, rfl⟩ := Option.map_eq_some_iff.1 h
      rw [leaves, Json.leaves, itemLeaves_of_readItems? ws hjs]
  | obj ms, depth, j, h => by
    rw [read?] at h
    split at h
    · cases h
    · obtain ⟨js, hjs, rfl⟩ := Option.map_eq_some_iff.1 h
      rw [leaves, Json.leaves, memberLeaves_of_readMembers? ms hjs]

theorem itemLeaves_of_readItems? : ∀ (ws : List Written) {depth index : Nat} {js : List Json},
    readItems? depth .whole index ws = some js → itemLeaves ws = (Json.itemLeaves js).map some
  | [], depth, index, js, h => by
    rw [readItems?] at h
    cases h
    simp [itemLeaves, Json.itemLeaves]
  | w :: ws, depth, index, js, h => by
    rw [readItems?] at h
    obtain ⟨j, hj, h⟩ := Option.bind_eq_some_iff.1 h
    obtain ⟨js, hjs, h⟩ := Option.bind_eq_some_iff.1 h
    cases h
    simp [itemLeaves, Json.itemLeaves, leaves_of_read? w hj, itemLeaves_of_readItems? ws hjs]

theorem memberLeaves_of_readMembers? : ∀ (ms : List (Option String × Written)) {depth : Nat}
    {js : List (String × Json)},
    readMembers? depth .whole ms = some js → memberLeaves ms = (Json.memberLeaves js).map some
  | [], depth, js, h => by
    rw [readMembers?] at h
    cases h
    simp [memberLeaves, Json.memberLeaves]
  | (none, w) :: ms, depth, js, h => by
    rw [readMembers?] at h
    cases h
  | (some name, w) :: ms, depth, js, h => by
    rw [readMembers?] at h
    obtain ⟨j, hj, h⟩ := Option.bind_eq_some_iff.1 h
    obtain ⟨js, hjs, h⟩ := Option.bind_eq_some_iff.1 h
    cases h
    simp [memberLeaves, Json.memberLeaves, leaves_of_read? w hj, memberLeaves_of_readMembers? ms hjs]

end

end Written

/-! ## The normal form -/

namespace Json

theorem mem_memberLeaves {ms : List (String × Json)} {s : String} :
    s ∈ memberLeaves ms ↔ ∃ m ∈ ms, s ∈ m.2.leaves := by
  induction ms with
  | nil => simp [memberLeaves]
  | cons m ms ih => simp [memberLeaves, ih]

mutual

theorem leaves_normal_subset : ∀ j : Json, j.normal.leaves ⊆ j.leaves
  | null => by simp [normal]
  | bool b => by simp [normal]
  | num n => by simp [normal]
  | str s => by simp [normal]
  | arr js => by
    rw [normal, leaves, leaves]
    exact itemLeaves_normalItems_subset js
  | obj ms => by
    intro s hs
    rw [normal, leaves] at hs
    rw [leaves]
    simpa [memberLeaves] using memberLeaves_normalMembers_subset ms [] hs

theorem itemLeaves_normalItems_subset : ∀ js : List Json, itemLeaves (normalItems js) ⊆ itemLeaves js
  | [] => by simp [normalItems]
  | j :: js => by
    rw [normalItems, itemLeaves, itemLeaves]
    intro s hs
    rw [List.mem_append] at hs ⊢
    exact hs.imp (@leaves_normal_subset j s) (@itemLeaves_normalItems_subset js s)

theorem memberLeaves_normalMembers_subset : ∀ ms done : List (String × Json),
    memberLeaves (normalMembers done ms) ⊆ memberLeaves done ++ memberLeaves ms
  | [], done => by simp [normalMembers]
  | (k, j) :: ms, done => by
    intro s hs
    rw [normalMembers] at hs
    rw [memberLeaves]
    have hmem := memberLeaves_normalMembers_subset ms _ hs
    simp only [List.mem_append] at hmem ⊢
    rcases hmem with hmem | hmem
    · obtain ⟨m, hm, hs⟩ := mem_memberLeaves.1 hmem
      rcases mem_insertEntry hm with rfl | hm
      · exact .inr (.inl (leaves_normal_subset j hs))
      · exact .inl (mem_memberLeaves.2 ⟨m, hm, hs⟩)
    · exact .inr (.inr hmem)

end

/-! ## Numbers -/

mutual

/-- The numbers of a document, in the order of its items and members. -/
def numbers : Json → List Number
  | num n => [n]
  | arr js => itemNumbers js
  | obj ms => memberNumbers ms
  | null => []
  | bool _ => []
  | str _ => []

def itemNumbers : List Json → List Number
  | [] => []
  | j :: js => numbers j ++ itemNumbers js

def memberNumbers : List (String × Json) → List Number
  | [] => []
  | (_, j) :: ms => numbers j ++ memberNumbers ms

end

end Json

end DesignTokens
