import DesignTokens.Proofs.Token.Overridden

/-!
# Patches that cannot be applied

* `exists_end_of_assign_error` : the error of an assignment names a part of the path that leads to an
  end of the tree;
* `exists_stop_of_overrideEach` : the values before the one at which a patch stops can be put, and the
  tree is left as they make it;
* `overrideAll_stopped` : so a patch that cannot be applied leaves what its part before the first id
  that cannot be put makes, and reports this id with the end that its path goes through.
-/

namespace DesignTokens

variable {tree tree' tree₁ j : Json} {path walked stop : List String} {id : String} {value : Json}
  {v : TokenValue} {entries before after : List (String × TokenValue)} {d : String × TokenValue}
  {patch : Values} {e : OverrideError} {ms : List (String × Json)}

/-! ## The end that an error names -/

theorem isTokenObject_of_endAt? (h : j.endAt? path = some (.obj ms)) : isTokenObject ms = true := by
  induction path generalizing j with
  | nil =>
    cases j with
    | obj ns =>
      cases htoken : isTokenObject ns with
      | true =>
        rw [endAt?_nil_token htoken] at h
        cases h
        exact htoken
      | false =>
        rw [endAt?_nil_group htoken] at h
        cases h
    | _ => cases h
  | cons name path ih =>
    obtain ⟨_, _, -, -, -, hend⟩ := endAt?_cons_eq_some h
    exact ih hend

theorem exists_end_of_assignFrom_error (h : assignFrom value walked path j = .error stop) :
    ∃ way leaf, stop = walked ++ way ∧ GoesOn way path ∧ j.endAt? way = some leaf := by
  induction path generalizing walked j with
  | nil => cases j <;> cases h
  | cons name path ih =>
    have hroot : GoesOn [] (name :: path) := ⟨List.nil_prefix, by simp⟩
    cases j with
    | obj ms =>
      cases htoken : isTokenObject ms with
      | true =>
        rw [assignFrom_cons_token htoken] at h
        cases h
        exact ⟨[], .obj ms, (List.append_nil _).symm, hroot, endAt?_nil_token htoken⟩
      | false =>
        rw [assignFrom_cons_group htoken] at h
        obtain ⟨way, leaf, rfl, hgoes, hend⟩ := ih (map_eq_error_iff.1 h)
        refine ⟨name :: way, leaf, by simp, goesOn_cons.2 hgoes, ?_⟩
        rw [endAt?_cons_group htoken]
        exact hend
    | _ =>
      cases h
      exact ⟨[], _, (List.append_nil _).symm, hroot, rfl⟩

theorem exists_end_of_assign_error (h : assign id v tree = .error e) : e.id = id ∧
    ∃ way leaf, GoesOn way (splitId id) ∧ e.leaf = joinPath way ∧ tree.endAt? way = some leaf := by
  obtain ⟨stop, hstop, rfl⟩ := assign_eq_error.1 h
  obtain ⟨_, leaf, rfl, hgoes, hend⟩ := exists_end_of_assignFrom_error hstop
  exact ⟨rfl, stop, leaf, hgoes, rfl, hend⟩

/-! ## The value at which a patch stops -/

theorem overrideEach_append (h : overrideEach before tree = (tree₁, none)) (after : List (String × TokenValue)) :
    overrideEach (before ++ after) tree = overrideEach after tree₁ := by
  induction before generalizing tree with
  | nil =>
    cases h
    rfl
  | cons d before ih =>
    obtain ⟨tree₂, hassign, hrest⟩ := overrideEach_cons_eq_ok.1 h
    rw [List.cons_append, overrideEach, put_of_ok hassign]
    exact ih hrest

theorem exists_of_overrideEach_append (h : overrideEach (before ++ after) tree = (tree', none)) :
    ∃ tree₁, overrideEach before tree = (tree₁, none) := by
  induction before generalizing tree with
  | nil => exact ⟨tree, rfl⟩
  | cons d before ih =>
    obtain ⟨tree₂, hassign, hrest⟩ := overrideEach_cons_eq_ok.1 h
    obtain ⟨tree₁, hbefore⟩ := ih hrest
    exact ⟨tree₁, overrideEach_cons_eq_ok.2 ⟨tree₂, hassign, hbefore⟩⟩

theorem overrideEach_cons_of_error (htree : tree.Normal) (h : assign d.1 d.2 tree = .error e)
    (after : List (String × TokenValue)) : overrideEach (d :: after) tree = (tree, some e) := by
  rw [overrideEach, put_of_error htree h]

theorem exists_stop_of_overrideEach (htree : tree.Normal) (h : overrideEach entries tree = (tree', some e)) :
    ∃ before v after, entries = before ++ (e.id, v) :: after ∧ overrideEach before tree = (tree', none) ∧
      assign e.id v tree' = .error e := by
  induction entries generalizing tree with
  | nil => cases h
  | cons d entries ih =>
    cases hassign : assign d.1 d.2 tree with
    | ok tree₁ =>
      rw [overrideEach, put_of_ok hassign] at h
      have hnormal := assignFrom_normal d.2.normal_toJson htree (assign_eq_ok.1 hassign)
      obtain ⟨before, v, after, rfl, hbefore, herror⟩ := ih hnormal h
      exact ⟨d :: before, v, after, rfl, overrideEach_cons_eq_ok.2 ⟨tree₁, hassign, hbefore⟩, herror⟩
    | error e' =>
      rw [overrideEach_cons_of_error htree hassign] at h
      cases h
      obtain ⟨hid, -⟩ := exists_end_of_assign_error hassign
      rw [hid]
      exact ⟨[], d.2, entries, rfl, rfl, hassign⟩

/-! ## The part of a patch before an id -/

theorem overrideAll_filter_isLT (hpatch : patch.entries = before ++ d :: after) (tree : Json) :
    overrideAll (patch.filter fun k _ => (compare k d.1).isLT) tree = overrideEach before tree := by
  rw [overrideAll, SortedMap.entries_filter, hpatch, Ascending.filter_isLT (hpatch ▸ patch.ascending)]

theorem overrideAll_filter_isLE (hpatch : patch.entries = before ++ d :: after) (tree : Json) :
    overrideAll (patch.filter fun k _ => (compare k d.1).isLE) tree = overrideEach (before ++ [d]) tree := by
  rw [overrideAll, SortedMap.entries_filter, hpatch, Ascending.filter_isLE (hpatch ▸ patch.ascending)]

/-- The first id up to which a patch cannot be applied is the one at which it stops. -/
theorem overrideAll_filter_isLE_iff (htree : tree.Normal) (hpatch : patch.entries = before ++ d :: after)
    (hbefore : overrideEach before tree = (tree', none)) (herror : assign d.1 d.2 tree' = .error e)
    (hid : id ∈ patch.keys) :
    (overrideAll (patch.filter fun k _ => (compare k id).isLE) tree).2 = none ↔ compare id d.1 = .lt := by
  have hstops := overrideEach_cons_of_error (overrideEach_normal htree hbefore) herror
  obtain ⟨hless, hgreater⟩ := Ascending.around (hpatch ▸ patch.ascending)
  obtain ⟨x, hx, rfl⟩ := List.mem_map.1 hid
  rw [hpatch] at hx
  rcases List.mem_append.1 hx with hx | hx
  · obtain ⟨first, last, rfl⟩ := List.append_of_mem hx
    refine iff_of_true ?_ (hless x hx)
    rw [List.append_cons] at hbefore
    obtain ⟨tree₁, hfirst⟩ := exists_of_overrideEach_append hbefore
    rw [overrideAll_filter_isLE (by rw [hpatch, List.append_assoc, List.cons_append]), hfirst]
  rcases List.mem_cons.1 hx with rfl | hx
  · refine iff_of_false ?_ (by simp)
    rw [overrideAll_filter_isLE hpatch, overrideEach_append hbefore, hstops]
    simp
  · obtain ⟨first, last, rfl⟩ := List.append_of_mem hx
    refine iff_of_false ?_ ?_
    · rw [overrideAll_filter_isLE (by rw [hpatch, ← List.cons_append, ← List.append_assoc]),
        List.append_assoc, overrideEach_append hbefore, List.cons_append, hstops]
      simp
    · rw [hgreater x hx]
      simp

/-- A patch that cannot be applied leaves the tree that its values before the reported id make: the id is the
first one that cannot be put, putting its value changes nothing, and its path goes through the reported
part to a token or to something that is no object. -/
theorem overrideAll_stopped (htree : tree.Normal) (h : overrideAll patch tree = (tree', some e)) :
    overrideAll (patch.filter fun k _ => (compare k e.id).isLT) tree = (tree', none) ∧
      (∃ v, patch.get? e.id = some v ∧ put e.id v tree' = (tree', some e)) ∧
      (∀ id ∈ patch.keys, (overrideAll (patch.filter fun k _ => (compare k id).isLE) tree).2 = none ↔
        compare id e.id = .lt) ∧
      ∃ way leaf, GoesOn way (splitId e.id) ∧ e.leaf = joinPath way ∧ tree'.endAt? way = some leaf ∧
        ∀ ms, leaf = .obj ms → isTokenObject ms = true := by
  obtain ⟨before, v, after, hentries, hbefore, herror⟩ := exists_stop_of_overrideEach htree h
  have hnormal : tree'.Normal := overrideEach_normal htree hbefore
  obtain ⟨-, way, leaf, hgoes, hleaf, hend⟩ := exists_end_of_assign_error herror
  refine ⟨?_, ⟨v, ?_, put_of_error hnormal herror⟩, fun id hid => ?_, way, leaf, hgoes, hleaf, hend, ?_⟩
  · rw [overrideAll_filter_isLT hentries, hbefore]
  · rw [patch.get?_eq_some, hentries]
    simp
  · exact overrideAll_filter_isLE_iff htree hentries hbefore herror hid
  · rintro ms rfl
    exact isTokenObject_of_endAt? hend

/-- A group for the heading that is a token, between a new group and a length that would fit. -/
def blockedPatch : Values :=
  SortedMap.ofList [("size.a.b", .number 1), ("size.h1.sm.wide", .text "3rem"), ("size.new-er", .text "6px")]

theorem overrideAll_stopped_headingTokens : ∃ tree', overrideAll blockedPatch headingTokens =
      (tree', some ⟨"size.h1.sm.wide", "size.h1"⟩) ∧
    overrideAll (blockedPatch.filter fun k _ => (compare k "size.h1.sm.wide").isLT) headingTokens = (tree', none) ∧
    (declaredValues tree').entries = [("size.a.b", .number 1), ("size.h1", .text "2rem"),
      ("size.new-er", .text "5px"), ("size.new.deep.sm", .text "4px")] := by
  have hnormal : headingTokens.Normal := headingTokens.normal_normal
  obtain ⟨herror, hdeclared⟩ :
      (overrideAll blockedPatch headingTokens).2 = some ⟨"size.h1.sm.wide", "size.h1"⟩ ∧
      (declaredValues (overrideAll blockedPatch headingTokens).1).entries = [("size.a.b", .number 1),
        ("size.h1", .text "2rem"), ("size.new-er", .text "5px"), ("size.new.deep.sm", .text "4px")] := by
    decide +kernel
  have h : overrideAll blockedPatch headingTokens = (_, some ⟨"size.h1.sm.wide", "size.h1"⟩) := Prod.ext rfl herror
  exact ⟨_, h, (overrideAll_stopped hnormal h).1, hdeclared⟩

end DesignTokens
