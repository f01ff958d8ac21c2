import DesignTokens.Proofs.Json.Layout

/-!
# How deep documents are nested

* `j.depth` : how deep arrays and objects are nested. `Json.readsBack_iff_depth` : a document reads back if
  its numbers do and it is not nested deeper than that;
* `Json.depth_le_of_parse?` : what is read is nested at most `maxDepth` deep;
* `Json.depth_mapLeaves`, `Json.normal_mapLeaves` : replacing the texts of a document by scalars keeps its
  depth and its normal form.
-/

namespace DesignTokens

namespace Json

mutual

/-- How deep arrays and objects are nested. -/
def depth : Json → Nat
  | arr js => itemDepth js + 1
  | obj ms => memberDepth ms + 1
  | null => 0
  | bool _ => 0
  | num _ => 0
  | str _ => 0

def itemDepth : List Json → Nat
  | [] => 0
  | j :: js => max (depth j) (itemDepth js)

def memberDepth : List (String × Json) → Nat
  | [] => 0
  | (_, j) :: ms => max (depth j) (memberDepth ms)

end

variable {f : String → Json} {d : Nat}

mutual

theorem readsBack_iff_depth : ∀ {j : Json} {d : Nat},
    ReadsBack d j ↔ j.depth ≤ d ∧ ∀ n ∈ j.numbers, n.ReadsBack
  | arr js, d => by
    rw [ReadsBack, itemsReadBack_iff_depth, depth, numbers, ← and_assoc]
    exact and_congr_left' (by omega)
  | obj ms, d => by
    rw [ReadsBack, membersReadBack_iff_depth, depth, numbers, ← and_assoc]
    exact and_congr_left' (by omega)
  | null, _ => by simp [ReadsBack, depth, numbers]
  | bool _, _ => by simp [ReadsBack, depth, numbers]
  | num _, _ => by simp [ReadsBack, depth, numbers]
  | str _, _ => by simp [ReadsBack, depth, numbers]

theorem itemsReadBack_iff_depth : ∀ {js : List Json} {d : Nat},
    ItemsReadBack d js ↔ itemDepth js ≤ d ∧ ∀ n ∈ itemNumbers js, n.ReadsBack
  | [], _ => by simp [ItemsReadBack, itemDepth, itemNumbers]
  | j :: js, d => by
    rw [ItemsReadBack, readsBack_iff_depth, itemsReadBack_iff_depth, itemDepth, itemNumbers, max_le_iff,
      List.forall_mem_append, and_and_and_comm]

theorem membersReadBack_iff_depth : ∀ {ms : List (String × Json)} {d : Nat},
    MembersReadBack d ms ↔ memberDepth ms ≤ d ∧ ∀ n ∈ memberNumbers ms, n.ReadsBack
  | [], _ => by simp [MembersReadBack, memberDepth, memberNumbers]
  | (_, j) :: ms, d => by
    rw [MembersReadBack, readsBack_iff_depth, membersReadBack_iff_depth, memberDepth, memberNumbers,
      max_le_iff, List.forall_mem_append, and_and_and_comm]

end

/-! ## The depth of what is read -/

theorem memberDepth_le_iff {ms : List (String × Json)} :
    memberDepth ms ≤ d ↔ ∀ m ∈ ms, m.2.depth ≤ d := by
  induction ms with
  | nil => simp [memberDepth]
  | cons m ms ih => rw [memberDepth, max_le_iff, ih, List.forall_mem_cons]

mutual

theorem depth_normal_le : ∀ j : Json, j.normal.depth ≤ j.depth
  | arr js => by
    rw [normal, depth, depth]
    exact Nat.succ_le_succ (itemDepth_normalItems_le js)
  | obj ms => by
    rw [normal, depth, depth]
    exact Nat.succ_le_succ (memberDepth_normalMembers_le ms [] (Nat.zero_le _) le_rfl)
  | null => le_rfl
  | bool _ => le_rfl
  | num _ => le_rfl
  | str _ => le_rfl

theorem itemDepth_normalItems_le : ∀ js : List Json, itemDepth (normalItems js) ≤ itemDepth js
  | [] => le_rfl
  | j :: js => max_le_max (depth_normal_le j) (itemDepth_normalItems_le js)

theorem memberDepth_normalMembers_le : ∀ (ms done : List (String × Json)) {d : Nat},
    memberDepth done ≤ d → memberDepth ms ≤ d → memberDepth (normalMembers done ms) ≤ d
  | [], _, _, hdone, _ => hdone
  | (k, j) :: ms, done, d, hdone, h => by
    rw [memberDepth, max_le_iff] at h
    rw [normalMembers]
    refine memberDepth_normalMembers_le ms _ (memberDepth_le_iff.2 fun m hm => ?_) h.2
    rcases mem_insertEntry hm with rfl | hm
    · exact (depth_normal_le j).trans h.1
    · exact memberDepth_le_iff.1 hdone m hm

end

end Json

namespace Written

mutual

theorem depth_le_of_read? : ∀ (w : Written) {d : Nat} {j : Json}, w.read? d .whole = some j → j.depth ≤ d
  | arr ws, d, j, h => by
    rw [read?] at h
    split at h
    · cases h
    · obtain ⟨js, hjs, rfl⟩ := Option.map_eq_some_iff.1 h
      have hdepth := itemDepth_le_of_readItems? ws hjs
      rw [Json.depth]
      omega
  | obj ms, d, j, h => by
    rw [read?] at h
    split at h
    · cases h
    · obtain ⟨js, hjs, rfl⟩ := Option.map_eq_some_iff.1 h
      have hdepth := memberDepth_le_of_readMembers? ms hjs
      rw [Json.depth]
      omega
  | null, d, j, h => by
    rw [read?] at h
    cases h
    exact Nat.zero_le d
  | bool b, d, j, h => by
    rw [read?] at h
    cases h
    exact Nat.zero_le d
  | num n, d, j, h => by
    rw [read?] at h
    obtain ⟨m, -, rfl⟩ := Option.map_eq_some_iff.1 h
    exact Nat.zero_le d
  | str s, d, j, h => by
    rw [read?] at h
    obtain ⟨t, -, rfl⟩ := Option.map_eq_some_iff.1 h
    exact Nat.zero_le d

theorem itemDepth_le_of_readItems? : ∀ (ws : List Written) {d index : Nat} {js : List Json},
    readItems? d .whole index ws = some js → Json.itemDepth js ≤ d
  | [], d, index, js, h => by
    rw [readItems?] at h
    cases h
    exact Nat.zero_le d
  | w :: ws, d, index, js, h => by
    rw [readItems?] at h
    obtain ⟨j, hj, h⟩ := Option.bind_eq_some_iff.1 h
    obtain ⟨js, hjs, h⟩ := Option.bind_eq_some_iff.1 h
    cases h
    exact max_le (depth_le_of_read? w hj) (itemDepth_le_of_readItems? ws hjs)

theorem memberDepth_le_of_readMembers? : ∀ (ms : List (Option String × Written)) {d : Nat}
    {js : List (String × Json)}, readMembers? d .whole ms = some js → Json.memberDepth js ≤ d
  | [], d, js, h => by
    rw [readMembers?] at h
    cases h
    exact Nat.zero_le d
  | (none, w) :: ms, d, js, h => by
    rw [readMembers?] at h
    cases h
  | (some name, w) :: ms, d, js, h => by
    rw [readMembers?] at h
    obtain ⟨j, hj, h⟩ := Option.bind_eq_some_iff.1 h
    obtain ⟨js, hjs, h⟩ := Option.bind_eq_some_iff.1 h
    cases h
    exact max_le (depth_le_of_read? w hj) (memberDepth_le_of_readMembers? ms hjs)

end

end Written

namespace Json

variable {j : Json} {s : String}

theorem depth_le_of_parse? (h : parse? s = some j) : j.depth ≤ maxDepth := by
  obtain ⟨d, hd, rfl⟩ := Option.map_eq_some_iff.1 h
  obtain ⟨w, -, hread⟩ := Option.bind_eq_some_iff.1 hd
  exact (depth_normal_le d).trans (Written.depth_le_of_read? w hread)

theorem normal_of_parse? (h : parse? s = some j) : j.Normal := by
  obtain ⟨d, -, rfl⟩ := Option.map_eq_some_iff.1 h
  exact normal_normal d

/-! ## Documents with their texts replaced -/

mutual

theorem depth_mapLeaves (hf : ∀ s, (f s).depth = 0) : ∀ j : Json, (j.mapLeaves f).depth = j.depth
  | str s => by rw [mapLeaves, hf, depth]
  | arr js => by rw [mapLeaves, depth, depth, itemDepth_mapItemLeaves hf js]
  | obj ms => by rw [mapLeaves, depth, depth, memberDepth_mapMemberLeaves hf ms]
  | null => rfl
  | bool _ => rfl
  | num _ => rfl

theorem itemDepth_mapItemLeaves (hf : ∀ s, (f s).depth = 0) :
    ∀ js : List Json, itemDepth (mapItemLeaves f js) = itemDepth js
  | [] => rfl
  | j :: js => by
    rw [mapItemLeaves, itemDepth, itemDepth, depth_mapLeaves hf j, itemDepth_mapItemLeaves hf js]

theorem memberDepth_mapMemberLeaves (hf : ∀ s, (f s).depth = 0) :
    ∀ ms : List (String × Json), memberDepth (mapMemberLeaves f ms) = memberDepth ms
  | [] => rfl
  | (k, j) :: ms => by
    rw [mapMemberLeaves, memberDepth, memberDepth, depth_mapLeaves hf j, memberDepth_mapMemberLeaves hf ms]

end

theorem mapMemberLeaves_eq_map (f : String → Json) (ms : List (String × Json)) :
    mapMemberLeaves f ms = ms.map fun m => (m.1, m.2.mapLeaves f) := by
  induction ms with
  | nil => rfl
  | cons m ms ih => rw [mapMemberLeaves, ih, List.map_cons]

mutual

theorem normal_mapLeaves (hf : ∀ s, (f s).Normal) : ∀ {j : Json}, j.Normal → (j.mapLeaves f).Normal
  | str s, _ => by
    rw [mapLeaves]
    exact hf s
  | arr _, h => normalItems_mapItemLeaves hf h
  | obj ms, h => by
    refine ⟨?_, normalMembers_mapMemberLeaves hf h.2⟩
    rw [mapMemberLeaves_eq_map, Ascending, List.pairwise_map]
    exact h.1
  | null, _ => trivial
  | bool _, _ => trivial
  | num _, _ => trivial

theorem normalItems_mapItemLeaves (hf : ∀ s, (f s).Normal) :
    ∀ {js : List Json}, NormalItems js → NormalItems (mapItemLeaves f js)
  | [], _ => trivial
  | _ :: _, h => ⟨normal_mapLeaves hf h.1, normalItems_mapItemLeaves hf h.2⟩

theorem normalMembers_mapMemberLeaves (hf : ∀ s, (f s).Normal) :
    ∀ {ms : List (String × Json)}, NormalMembers ms → NormalMembers (mapMemberLeaves f ms)
  | [], _ => trivial
  | (_, _) :: _, h => ⟨normal_mapLeaves hf h.1, normalMembers_mapMemberLeaves hf h.2⟩

end

end Json

end DesignTokens
