import DesignTokens.SortedMap

/-!
# Looking up in sorted maps

* `rebind k v es` : entries with another value at every entry of a key; what `insertEntry` and
  `ofList` make of it;
* `SortedMap.get?_insert`, `get?_adjust`, `get?_mapValues`, `get?_insertAll` : what an operation
  does to the values that are found;
* `get?_ofList_iff_last`, `get?_ofList_map_entries` : the last binding of a key in a list is the one that
  counts, and so the last one of the keys that get one new key;
* `mem_keys`, `keys_eq_of_mem` : the keys are those for which a value is found, and the keys as a set
  determine the keys as a list; `mem_keys_filter`, `get?_filter_eq_some` : what a filter leaves;
* `Ascending.around` : what stands before an entry is less, and what stands behind it is greater;
* `Ascending.filter_isLT`, `filter_isLE`, `entries_filter` : the entries before a key, and those up to it, are
  those that stand there;
* `ext_get?` : maps in which the same values are found are equal;
* `SortedSet.mem_add`, `mem_erase`, `mem_filter`, `ext_mem`, `nodup_toList` : members of a set;
* `mem_getD_adjust_add` : the members of the sets of a map to sets, after one is added.
-/

set_option linter.unusedSectionVars false

namespace DesignTokens

universe u v w

variable {κ : Type u} {α : Type v} {β : Type w}

/-! ## Rebinding keys in place -/

section Rebind

variable [BEq κ] [LawfulBEq κ]

/-- The entries with `v` at every entry of `k`. -/
def rebind (k : κ) (v : α) (es : List (κ × α)) : List (κ × α) :=
  es.map fun e => (e.1, if e.1 == k then v else e.2)

theorem rebind_of_not_mem {k : κ} {es : List (κ × α)} (h : k ∉ es.map (·.1)) (v : α) :
    rebind k v es = es := by
  have hid : ∀ e ∈ es, (e.1, if e.1 == k then v else e.2) = e := by
    intro e he
    have hne : ¬ (e.1 == k) = true := fun hk => h (List.mem_map.2 ⟨e, he, eq_of_beq hk⟩)
    rw [if_neg hne]
  rw [rebind, List.map_congr_left hid, List.map_id']

theorem lookup_rebind (j k : κ) (v : α) (es : List (κ × α)) :
    (rebind k v es).lookup j = if j == k then (es.lookup j).map fun _ => v else es.lookup j := by
  induction es with
  | nil => simp [rebind]
  | cons e es ih =>
    rw [rebind, List.map_cons, ← rebind, List.lookup_cons, List.lookup_cons, ih]
    cases h : j == e.1
    · rfl
    · obtain rfl : j = e.1 := eq_of_beq h
      cases hk : e.1 == k <;> simp

end Rebind

variable [Ord κ]

/-! ## Ascending entries -/

section Entries

variable [BEq κ] [LawfulBEq κ] [Std.LawfulEqOrd κ]

theorem lookup_insertEntry (j k : κ) (v : α) (es : List (κ × α)) :
    (insertEntry k v es).lookup j = if j == k then some v else es.lookup j := by
  induction es with
  | nil => cases h : j == k <;> simp [insertEntry, List.lookup_cons, h]
  | cons e es ih =>
    rw [insertEntry]
    split
    · cases h : j == k <;> simp [List.lookup_cons, h]
    · rename_i hk
      have hk : k = e.1 := Std.LawfulEqCmp.eq_of_compare hk
      subst hk
      rw [List.lookup_cons, List.lookup_cons]
      cases j == e.1 <;> rfl
    · rename_i hk
      rw [List.lookup_cons, List.lookup_cons, ih]
      cases h : j == e.1
      · rfl
      · have hj : j = e.1 := eq_of_beq h
        have hne : (j == k) = false := by
          rw [beq_eq_false_iff_ne]
          rintro rfl
          simp [hj] at hk
        simp [hne]

end Entries

section Order

variable [Std.TransOrd κ] [Std.LawfulEqOrd κ]

theorem Ascending.keys_ne {es : List (κ × α)} (h : Ascending es) :
    es.Pairwise fun a b => a.1 ≠ b.1 := by
  refine List.Pairwise.imp (fun {a b} hab he => ?_) h
  simp [he] at hab

theorem Ascending.nodup_keys {es : List (κ × α)} (h : Ascending es) : (es.map (·.1)).Nodup :=
  List.pairwise_map.2 h.keys_ne

theorem Ascending.lookup_eq_some [BEq κ] [LawfulBEq κ] {es : List (κ × α)} (h : Ascending es) {k : κ}
    {v : α} : es.lookup k = some v ↔ (k, v) ∈ es := by
  induction es with
  | nil => simp
  | cons e es ih =>
    obtain ⟨he, hes⟩ := List.pairwise_cons.1 h.keys_ne
    rw [List.lookup_cons]
    cases hk : k == e.1
    · have hne : k ≠ e.1 := beq_eq_false_iff_ne.1 hk
      rw [ih (List.pairwise_cons.1 h).2, List.mem_cons]
      exact ⟨.inr, fun hm => hm.resolve_left fun hc => hne (congrArg Prod.fst hc)⟩
    · have heq : k = e.1 := eq_of_beq hk
      subst heq
      constructor
      · rintro ⟨⟩
        exact List.mem_cons_self
      · intro hm
        rcases List.mem_cons.1 hm with hm | hm
        · rw [← hm]
        · exact (he _ hm rfl).elim

/-- Ascending lists with the same members are the same list. -/
theorem Ascending.eq_of_mem {es ds : List (κ × α)} (he : Ascending es) (hd : Ascending ds)
    (h : ∀ e, e ∈ es ↔ e ∈ ds) : es = ds := by
  have nodup {fs : List (κ × α)} (hf : Ascending fs) : fs.Nodup :=
    hf.keys_ne.imp fun hab hc => hab (congrArg Prod.fst hc)
  refine List.Perm.eq_of_pairwise (fun a b _ _ hab hba => ?_) he hd
    ((List.perm_ext_iff_of_nodup (nodup he) (nodup hd)).2 fun e => h e)
  have := Std.OrientedCmp.gt_of_lt hab
  rw [hba] at this
  cases this

/-- What stands before an entry is less, and what stands behind it is greater. -/
theorem Ascending.around {before after : List (κ × α)} {e : κ × α} (h : Ascending (before ++ e :: after)) :
    (∀ d ∈ before, compare d.1 e.1 = .lt) ∧ ∀ d ∈ after, compare d.1 e.1 = .gt := by
  obtain ⟨-, hafter, hbefore⟩ := List.pairwise_append.1 h
  exact ⟨fun d hd => hbefore d hd e List.mem_cons_self,
    fun d hd => Std.OrientedCmp.gt_of_lt ((List.pairwise_cons.1 hafter).1 d hd)⟩

/-- What is less than an entry stands before it. -/
theorem Ascending.mem_before {before after : List (κ × α)} {d e : κ × α}
    (h : Ascending (before ++ e :: after)) (hd : d ∈ before ++ e :: after)
    (hlt : compare d.1 e.1 = .lt) : d ∈ before := by
  rcases List.mem_append.1 hd with hd | hd
  · exact hd
  rcases List.mem_cons.1 hd with rfl | hd
  · simp at hlt
  · rw [h.around.2 d hd] at hlt
    cases hlt

/-- An entry is the last one with a property if the others with it are less. -/
theorem Ascending.forall_after_iff {before after : List (κ × α)} {e : κ × α}
    (h : Ascending (before ++ e :: after)) {P : κ → Prop} : (∀ d ∈ after, ¬ P d.1) ↔
      ∀ d ∈ before ++ e :: after, P d.1 → d.1 = e.1 ∨ compare d.1 e.1 = .lt := by
  constructor
  · intro hafter d hd hP
    rcases List.mem_append.1 hd with hd | hd
    · exact .inr (h.around.1 d hd)
    rcases List.mem_cons.1 hd with rfl | hd
    · exact .inl rfl
    · exact absurd hP (hafter d hd)
  · intro hall d hd hP
    have hgreater : compare d.1 e.1 = .gt := h.around.2 d hd
    rcases hall d (List.mem_append_right _ (List.mem_cons_of_mem _ hd)) hP with heq | hless
    · simp [heq] at hgreater
    · rw [hless] at hgreater
      cases hgreater

/-- The entries less than one of them are those that stand before it. -/
theorem Ascending.filter_isLT {before after : List (κ × α)} {d : κ × α} (h : Ascending (before ++ d :: after)) :
    (before ++ d :: after).filter (fun e => (compare e.1 d.1).isLT) = before := by
  have hkept : before.filter (fun e => (compare e.1 d.1).isLT) = before :=
    List.filter_eq_self.2 fun e he => by rw [h.around.1 e he]; rfl
  have hdropped : after.filter (fun e => (compare e.1 d.1).isLT) = [] := by
    refine List.filter_eq_nil_iff.2 fun e he => ?_
    rw [h.around.2 e he]
    simp
  rw [List.filter_append, List.filter_cons_of_neg (by simp), hkept, hdropped, List.append_nil]

theorem Ascending.filter_isLE {before after : List (κ × α)} {d : κ × α} (h : Ascending (before ++ d :: after)) :
    (before ++ d :: after).filter (fun e => (compare e.1 d.1).isLE) = before ++ [d] := by
  have hkept : before.filter (fun e => (compare e.1 d.1).isLE) = before :=
    List.filter_eq_self.2 fun e he => by rw [h.around.1 e he]; rfl
  have hdropped : after.filter (fun e => (compare e.1 d.1).isLE) = [] := by
    refine List.filter_eq_nil_iff.2 fun e he => ?_
    rw [h.around.2 e he]
    simp
  rw [List.filter_append, List.filter_cons_of_pos (by simp), hkept, hdropped]

theorem Ascending.insertEntry_eq_rebind [BEq κ] [LawfulBEq κ] {es : List (κ × α)} (h : Ascending es) {k : κ}
    (hk : k ∈ es.map (·.1)) (v : α) : insertEntry k v es = rebind k v es := by
  induction es with
  | nil => cases hk
  | cons e es ih =>
    obtain ⟨he, hes⟩ := List.pairwise_cons.1 h
    have hnodup : e.1 ∉ es.map (·.1) := (List.nodup_cons.1 h.nodup_keys).1
    rw [insertEntry, rebind, List.map_cons, ← rebind]
    split
    · rename_i hlt
      exfalso
      rcases List.mem_cons.1 hk with rfl | hk
      · simp at hlt
      · obtain ⟨d, hd, rfl⟩ := List.mem_map.1 hk
        have hgt := Std.OrientedCmp.gt_of_lt (he d hd)
        rw [hlt] at hgt
        cases hgt
    · rename_i heq
      obtain rfl : k = e.1 := Std.LawfulEqCmp.eq_of_compare heq
      rw [rebind_of_not_mem hnodup, if_pos (beq_self_eq_true _)]
    · rename_i hgt
      have hne : e.1 ≠ k := by
        rintro rfl
        simp at hgt
      have hk : k ∈ es.map (·.1) := (List.mem_cons.1 hk).resolve_left hne.symm
      rw [ih hes hk, if_neg (by simpa using hne)]

/-- Binding a key to the value that it has changes nothing. -/
theorem Ascending.insertEntry_of_lookup [BEq κ] [LawfulBEq κ] {es : List (κ × α)} (h : Ascending es) {k : κ}
    {v : α} (hk : es.lookup k = some v) : insertEntry k v es = es := by
  have hinsert : Ascending (insertEntry k v es) := insertEntry_sorted k v h
  refine hinsert.eq_of_mem h fun e => ?_
  rw [← hinsert.lookup_eq_some, ← h.lookup_eq_some, lookup_insertEntry]
  by_cases he : e.1 = k
  · simp [he, hk]
  · simp [he]

end Order

namespace SortedMap

section Lookup

variable [BEq κ] [LawfulBEq κ] [Std.TransOrd κ] [Std.LawfulEqOrd κ]

@[simp] theorem get?_empty (k : κ) : (∅ : SortedMap κ α).get? k = none := rfl

theorem get?_insert (m : SortedMap κ α) (j k : κ) (v : α) :
    (m.insert k v).get? j = if j == k then some v else m.get? j :=
  lookup_insertEntry j k v m.entries

@[simp] theorem get?_insert_self (m : SortedMap κ α) (k : κ) (v : α) :
    (m.insert k v).get? k = some v := by
  rw [get?_insert, beq_self_eq_true, if_pos rfl]

theorem get?_insert_of_ne (m : SortedMap κ α) {j k : κ} (v : α) (h : j ≠ k) :
    (m.insert k v).get? j = m.get? j := by
  rw [get?_insert, if_neg (by simpa using h)]

theorem get?_adjust (m : SortedMap κ α) (j k : κ) (d : α) (f : α → α) :
    (m.adjust k d f).get? j = if j == k then some (f ((m.get? k).getD d)) else m.get? j :=
  get?_insert m j k _

theorem get?_mapValues (f : α → β) (m : SortedMap κ α) (k : κ) :
    (m.mapValues f).get? k = (m.get? k).map f := by
  show (m.entries.map fun e => (e.1, f e.2)).lookup k = (m.entries.lookup k).map f
  induction m.entries with
  | nil => rfl
  | cons e es ih =>
    rw [List.map_cons, List.lookup_cons, List.lookup_cons]
    cases h : k == e.1
    · exact ih
    · rfl

theorem get?_eq_some (m : SortedMap κ α) {k : κ} {v : α} :
    m.get? k = some v ↔ (k, v) ∈ m.entries :=
  m.ascending.lookup_eq_some

theorem mem_keys (m : SortedMap κ α) {k : κ} : k ∈ m.keys ↔ (m.get? k).isSome := by
  rw [Option.isSome_iff_exists, keys, List.mem_map]
  constructor
  · rintro ⟨e, he, rfl⟩
    exact ⟨e.2, m.get?_eq_some.2 he⟩
  · rintro ⟨v, hv⟩
    exact ⟨(k, v), m.get?_eq_some.1 hv, rfl⟩

theorem contains_iff (m : SortedMap κ α) {k : κ} : m.contains k = true ↔ k ∈ m.keys :=
  m.mem_keys.symm

theorem get?_eq_none (m : SortedMap κ α) {k : κ} : m.get? k = none ↔ k ∉ m.keys := by
  rw [m.mem_keys, Option.not_isSome_iff_eq_none]

theorem mem_keys_insert (m : SortedMap κ α) {j k : κ} {v : α} :
    j ∈ (m.insert k v).keys ↔ j = k ∨ j ∈ m.keys := by
  rw [mem_keys, mem_keys, get?_insert]
  by_cases h : j = k
  · simp [h]
  · simp [h]

theorem mem_keys_filter (m : SortedMap κ α) {p : κ → Bool} {k : κ} :
    k ∈ (m.filter fun k _ => p k).keys ↔ k ∈ m.keys ∧ p k = true := by
  unfold filter keys
  rw [List.mem_map, List.mem_map]
  constructor
  · rintro ⟨e, he, rfl⟩
    obtain ⟨he, hp⟩ := List.mem_filter.1 he
    exact ⟨⟨e, he, rfl⟩, hp⟩
  · rintro ⟨⟨e, he, rfl⟩, hp⟩
    exact ⟨e, List.mem_filter.2 ⟨he, hp⟩, rfl⟩

theorem entries_filter (m : SortedMap κ α) (p : κ → α → Bool) :
    (m.filter p).entries = m.entries.filter fun e => p e.1 e.2 := rfl

theorem get?_filter_eq_some (m : SortedMap κ α) {p : κ → α → Bool} {k : κ} {v : α} :
    (m.filter p).get? k = some v ↔ m.get? k = some v ∧ p k v = true := by
  rw [get?_eq_some, get?_eq_some]
  exact List.mem_filter

theorem get?_filter (m : SortedMap κ α) (p : κ → α → Bool) (k : κ) :
    (m.filter p).get? k = (m.get? k).filter (p k) := by
  refine Option.ext fun v => ?_
  rw [get?_filter_eq_some, Option.filter_eq_some_iff]

theorem mem_keys_erase (m : SortedMap κ α) {j k : κ} :
    j ∈ (m.erase k).keys ↔ j ∈ m.keys ∧ j ≠ k := by
  rw [erase, mem_keys_filter, Bool.not_eq_true', beq_eq_false_iff_ne]

theorem nodup_keys (m : SortedMap κ α) : m.keys.Nodup := m.ascending.nodup_keys

@[simp] theorem keys_mapValues (f : α → β) (m : SortedMap κ α) : (m.mapValues f).keys = m.keys := by
  simp [keys, mapValues]

/-- Maps in which the same values are found are equal. -/
theorem ext_get? {m n : SortedMap κ α} (h : ∀ k, m.get? k = n.get? k) : m = n := by
  refine SortedMap.ext (m.ascending.eq_of_mem n.ascending fun e => ?_)
  rw [← m.get?_eq_some, ← n.get?_eq_some, h]

/-- The keys stand in ascending order, so they are known from which keys there are. -/
theorem keys_eq_of_mem {m : SortedMap κ α} {n : SortedMap κ β} (h : ∀ k, k ∈ m.keys ↔ k ∈ n.keys) :
    m.keys = n.keys := by
  have key (m : SortedMap κ α) : Ascending (m.keys.map fun k => (k, ())) := by
    simpa [Ascending, keys, List.pairwise_map] using m.ascending
  have key' (n : SortedMap κ β) : Ascending (n.keys.map fun k => (k, ())) := by
    simpa [Ascending, keys, List.pairwise_map] using n.ascending
  have := (key m).eq_of_mem (key' n) (by simpa using h)
  simpa [Function.comp_def] using congrArg (List.map Prod.fst) this

theorem keys_insert_of_mem {m : SortedMap κ α} {k : κ} (h : k ∈ m.keys) (v : α) :
    (m.insert k v).keys = m.keys :=
  keys_eq_of_mem fun j => by
    rw [mem_keys_insert]
    exact ⟨fun hj => hj.elim (fun e => e ▸ h) id, .inr⟩

/-- Of several bindings of a key the last one counts. -/
theorem get?_insertAll (es : List (κ × α)) (m : SortedMap κ α) (k : κ) :
    (m.insertAll es).get? k = (es.reverse.lookup k).or (m.get? k) := by
  induction es generalizing m with
  | nil => rfl
  | cons e es ih =>
    rw [insertAll, List.foldl_cons, ← insertAll, ih, get?_insert, List.reverse_cons,
      List.lookup_append, Option.or_assoc]
    congr 1
    rw [List.lookup_cons]
    cases k == e.1 <;> rfl

theorem get?_ofList (es : List (κ × α)) (k : κ) :
    (SortedMap.ofList es).get? k = es.reverse.lookup k := by
  rw [ofList, get?_insertAll, get?_empty, Option.or_none]

/-- The binding that counts stands behind all others of its key. -/
theorem get?_ofList_iff_last {es : List (κ × α)} {k : κ} {v : α} : (SortedMap.ofList es).get? k = some v ↔
    ∃ before after, es = before ++ (k, v) :: after ∧ ∀ e ∈ after, e.1 ≠ k := by
  rw [get?_ofList, List.lookup_eq_some_iff]
  constructor
  · rintro ⟨after, before, heq, hafter⟩
    refine ⟨before.reverse, after.reverse, ?_, fun e he => ?_⟩
    · rw [← List.reverse_reverse es, heq]
      simp
    · have hne := hafter e (List.mem_reverse.1 he)
      rw [bne_iff_ne] at hne
      exact hne.symm
  · rintro ⟨before, after, rfl, hafter⟩
    refine ⟨after.reverse, before.reverse, by simp, fun e he => ?_⟩
    rw [bne_iff_ne]
    exact (hafter e (List.mem_reverse.1 he)).symm

/-- Where keys get one and the same new key, the last one of them gives the value. -/
theorem get?_ofList_map_entries {m : SortedMap κ α} {f : κ → κ} {g : α → β} {k : κ} {t : β} :
    (SortedMap.ofList (m.entries.map fun e => (f e.1, g e.2))).get? k = some t ↔
      ∃ i v, m.get? i = some v ∧ f i = k ∧ g v = t ∧
        ∀ c ∈ m.keys, f c = k → c = i ∨ compare c i = .lt := by
  rw [get?_ofList_iff_last]
  constructor
  · rintro ⟨earlier, later, heq, hlater⟩
    obtain ⟨before, rest, hentries, rfl, hrest⟩ := List.map_eq_append_iff.1 heq
    obtain ⟨⟨i, v⟩, after, rfl, he, rfl⟩ := List.map_eq_cons_iff.1 hrest
    obtain ⟨rfl, rfl⟩ := Prod.mk.inj he
    have hlast := (Ascending.forall_after_iff (hentries ▸ m.ascending) (P := fun c => f c = f i)).1
      fun d hd => hlater _ (List.mem_map_of_mem hd)
    refine ⟨i, v, m.get?_eq_some.2 (by simp [hentries]), rfl, rfl, fun c hc hk => ?_⟩
    obtain ⟨d, hd, rfl⟩ := List.mem_map.1 hc
    exact hlast d (hentries ▸ hd) hk
  · rintro ⟨i, v, hv, rfl, rfl, hlast⟩
    obtain ⟨before, after, hentries⟩ := List.append_of_mem (m.get?_eq_some.1 hv)
    have hafter := (Ascending.forall_after_iff (hentries ▸ m.ascending) (P := fun c => f c = f i)).2
      fun d hd => hlast d.1 (List.mem_map_of_mem (hentries ▸ hd))
    refine ⟨before.map fun e => (f e.1, g e.2), after.map fun e => (f e.1, g e.2), by simp [hentries], ?_⟩
    intro d hd
    obtain ⟨e, he, rfl⟩ := List.mem_map.1 hd
    exact hafter e he

/-- If all bindings of a key agree then any of them counts. -/
theorem get?_ofList_eq_some {es : List (κ × α)} {k : κ} {v : α}
    (h : ∀ w, (k, w) ∈ es → ∀ u, (k, u) ∈ es → w = u) :
    (SortedMap.ofList es).get? k = some v ↔ (k, v) ∈ es := by
  have hmem {w : α} (hw : es.reverse.lookup k = some w) : (k, w) ∈ es := by
    obtain ⟨before, after, heq, -⟩ := List.lookup_eq_some_iff.1 hw
    rw [← List.mem_reverse, heq]
    simp
  rw [get?_ofList]
  refine ⟨hmem, fun hv => ?_⟩
  cases hlookup : es.reverse.lookup k with
  | none =>
    have hne := List.lookup_eq_none_iff.1 hlookup (k, v) (List.mem_reverse.2 hv)
    simp at hne
  | some w => rw [h w (hmem hlookup) v hv]

theorem mem_keys_insertAll (es : List (κ × α)) (m : SortedMap κ α) {k : κ} :
    k ∈ (m.insertAll es).keys ↔ k ∈ es.map (·.1) ∨ k ∈ m.keys := by
  induction es generalizing m with
  | nil => simp [insertAll]
  | cons e es ih =>
    rw [insertAll, List.foldl_cons, ← insertAll, ih, mem_keys_insert, List.map_cons, List.mem_cons,
      or_left_comm, or_assoc]

theorem mem_keys_ofList {es : List (κ × α)} {k : κ} :
    k ∈ (SortedMap.ofList es).keys ↔ k ∈ es.map (·.1) := by
  rw [ofList, mem_keys_insertAll]
  exact or_iff_left List.not_mem_nil

theorem ofList_rebind {es : List (κ × α)} {k : κ} (hk : k ∈ es.map (·.1)) (v : α) :
    SortedMap.ofList (rebind k v es) = (SortedMap.ofList es).insert k v := by
  have hsome : (es.reverse.lookup k).isSome := by
    rw [← get?_ofList, ← mem_keys, mem_keys_ofList]
    exact hk
  refine ext_get? fun j => ?_
  rw [get?_insert, get?_ofList, get?_ofList, rebind, ← List.map_reverse, ← rebind, lookup_rebind]
  by_cases hj : j = k
  · obtain ⟨w, hw⟩ := Option.isSome_iff_exists.1 hsome
    simp [hj, hw]
  · simp [hj]

theorem mapValues_ofList (f : α → β) (es : List (κ × α)) :
    (SortedMap.ofList es).mapValues f = SortedMap.ofList (es.map fun e => (e.1, f e.2)) := by
  refine ext_get? fun j => ?_
  rw [get?_mapValues, get?_ofList, get?_ofList, ← List.map_reverse]
  generalize es.reverse = ds
  induction ds with
  | nil => rfl
  | cons d ds ih =>
    rw [List.map_cons, List.lookup_cons, List.lookup_cons, ← ih]
    cases j == d.1 <;> rfl

@[simp] theorem ofList_entries (m : SortedMap κ α) : SortedMap.ofList m.entries = m := by
  refine ext_get? fun k => Option.ext fun v => ?_
  rw [m.get?_eq_some]
  refine get?_ofList_eq_some fun w hw u hu => ?_
  rw [← m.get?_eq_some] at hw hu
  exact Option.some.inj (hw.symm.trans hu)

theorem get?_insertAll_entries (m n : SortedMap κ α) (k : κ) :
    (m.insertAll n.entries).get? k = (n.get? k).or (m.get? k) := by
  rw [get?_insertAll, ← get?_ofList, ofList_entries]

theorem insertAll_append (m : SortedMap κ α) (es ds : List (κ × α)) :
    m.insertAll (es ++ ds) = (m.insertAll es).insertAll ds :=
  List.foldl_append

end Lookup

end SortedMap

namespace SortedSet

variable [BEq κ] [LawfulBEq κ] [Std.TransOrd κ] [Std.LawfulEqOrd κ]

theorem mem_add (s : SortedSet κ) {j k : κ} :
    j ∈ (s.add k).toList ↔ j = k ∨ j ∈ s.toList :=
  SortedMap.mem_keys_insert s

theorem mem_erase (s : SortedSet κ) {j k : κ} :
    j ∈ toList (SortedMap.erase s k) ↔ j ∈ s.toList ∧ j ≠ k :=
  SortedMap.mem_keys_erase s

theorem mem_filter (s : SortedSet κ) {p : κ → Bool} {k : κ} :
    k ∈ toList (SortedMap.filter (fun k _ => p k) s) ↔ k ∈ s.toList ∧ p k = true :=
  SortedMap.mem_keys_filter s

/-- Sets with the same members are equal. -/
theorem ext_mem {s t : SortedSet κ} (h : ∀ k, k ∈ s.toList ↔ k ∈ t.toList) : s = t := by
  refine SortedMap.ext_get? fun k => ?_
  have hsome : (s.get? k).isSome = (t.get? k).isSome := by
    rw [Bool.eq_iff_iff, ← SortedMap.mem_keys, ← SortedMap.mem_keys]
    exact h k
  cases hs : s.get? k <;> cases ht : t.get? k <;> simp [hs, ht] at hsome ⊢

theorem nodup_toList (s : SortedSet κ) : s.toList.Nodup := SortedMap.nodup_keys s

end SortedSet

/-! ## Sets by key -/

/-- One member more in the set of a key. -/
theorem mem_getD_adjust_add (m : SortedMap String (SortedSet String)) (s c a b : String) :
    b ∈ (((m.adjust s ∅ (SortedSet.add · c)).get? a).getD ∅).toList ↔
      (a = s ∧ b = c) ∨ b ∈ ((m.get? a).getD ∅).toList := by
  rw [SortedMap.get?_adjust]
  by_cases h : a = s
  · subst h
    simp [SortedSet.mem_add]
  · simp [h]

theorem getD_adjust_id (m : SortedMap String (SortedSet String)) (s a : String) :
    ((m.adjust s ∅ fun t => t).get? a).getD ∅ = (m.get? a).getD ∅ := by
  rw [SortedMap.get?_adjust]
  by_cases h : a = s
  · simp [h]
  · simp [h]

end DesignTokens
