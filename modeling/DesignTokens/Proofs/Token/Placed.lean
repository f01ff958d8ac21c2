import DesignTokens.Proofs.Token.Assign
import DesignTokens.Token.Resolution

/-!
# Where the tokens of a tree stand

* `placedTokens tree` : the paths of the tokens of a tree with their declared values, in the order of
  the walk; `raws_declarationMap` : the declared values by id are made from these;
* `assignFrom_placedBelow` : assigning to the path of a token changes the value placed there, and
  neither the other tokens nor their order;
* `tree.Spells id` : every token with this id stands at the path that the id spells;
* `raws_overrideAll` : overriding such a token declares the value in the place of its old one.
-/

namespace DesignTokens

mutual

/-- The tokens at and below a path with their paths and declared values. -/
def placedBelow (path : List String) : Json → List (List String × TokenValue)
  | .obj ms =>
    match ms.lookup "$value" with
    | some value => if path = [] then [] else ((TokenValue.declared? value).map (path, ·)).toList
    | none => placedMembers path ms
  | _ => []

def placedMembers (path : List String) : List (String × Json) → List (List String × TokenValue)
  | [] => []
  | (name, j) :: ms =>
    (if isReserved name then [] else placedBelow (path ++ [name]) j) ++ placedMembers path ms

end

/-- The paths of the tokens of a tree with their declared values. -/
def placedTokens (tree : Json) : List (List String × TokenValue) := placedBelow [] tree

/-- The entry of a token with its id for its path. -/
def byId (t : List String × TokenValue) : String × TokenValue := (joinPath t.1, t.2)

variable {path place : List String} {name id : String} {value : Json} {w v : TokenValue}
  {ms : List (String × Json)} {j tree : Json}

/-! ## The declarations and the placed tokens -/

theorem declarationAt_byId (path : List String) (kind : Option String) (value : Json) :
    (declarationAt path kind value).map (fun d => (d.id, d.raw)) =
      (if path = [] then [] else ((TokenValue.declared? value).map (path, ·)).toList).map byId := by
  unfold declarationAt
  cases path with
  | nil => rfl
  | cons name path =>
    cases TokenValue.declared? value with
    | none => rfl
    | some raw => rfl

mutual

theorem declarationsBelow_byId (path : List String) (kind : Option String) : ∀ j : Json,
    (declarationsBelow path kind j).map (fun d => (d.id, d.raw)) = (placedBelow path j).map byId
  | .obj ms => by
    rw [declarationsBelow, placedBelow]
    cases ms.lookup "$value" with
    | some value => exact declarationAt_byId path _ value
    | none => exact memberDeclarations_byId path _ ms
  | .null => rfl
  | .bool _ => rfl
  | .num _ => rfl
  | .str _ => rfl
  | .arr _ => rfl

theorem memberDeclarations_byId (path : List String) (kind : Option String) :
    ∀ ms : List (String × Json), (memberDeclarations path kind ms).map (fun d => (d.id, d.raw)) =
      (placedMembers path ms).map byId
  | [] => rfl
  | (name, j) :: ms => by
    rw [memberDeclarations, placedMembers, List.map_append, List.map_append,
      memberDeclarations_byId path kind ms]
    cases isReserved name with
    | true => rfl
    | false => rw [if_neg (by simp), if_neg (by simp), declarationsBelow_byId (path ++ [name]) kind j]

end

theorem raws_declarationMap (tree : Json) :
    Resolution.raws (declarationMap tree) = SortedMap.ofList ((placedTokens tree).map byId) := by
  rw [Resolution.raws, declarationMap, SortedMap.mapValues_ofList, List.map_map, placedTokens,
    ← declarationsBelow_byId [] none tree]
  rfl

/-! ## The paths of the placed tokens -/

theorem placedMembers_eq_flatMap (path : List String) (ms : List (String × Json)) :
    placedMembers path ms =
      ms.flatMap fun m => if isReserved m.1 then [] else placedBelow (path ++ [m.1]) m.2 := by
  induction ms with
  | nil => rfl
  | cons m ms ih => rw [placedMembers, ih, List.flatMap_cons]

theorem mem_placedMembers {t : List String × TokenValue} : t ∈ placedMembers path ms ↔
    ∃ m ∈ ms, ¬ isReserved m.1 ∧ t ∈ placedBelow (path ++ [m.1]) m.2 := by
  rw [placedMembers_eq_flatMap, List.mem_flatMap]
  refine exists_congr fun m => and_congr_right fun _ => ?_
  cases isReserved m.1 <;> simp

theorem placedBelow_obj_token (h : ms.lookup "$value" = some value) : placedBelow path (.obj ms) =
    if path = [] then [] else ((TokenValue.declared? value).map (path, ·)).toList := by
  rw [placedBelow, h]

theorem placedBelow_obj_group (h : ms.lookup "$value" = none) :
    placedBelow path (.obj ms) = placedMembers path ms := by
  rw [placedBelow, h]

mutual

theorem isPrefix_of_mem_placedBelow {t : List String × TokenValue} (path : List String) :
    ∀ j : Json, t ∈ placedBelow path j → path <+: t.1
  | .obj ms, h => by
    cases hv : ms.lookup "$value" with
    | none =>
      rw [placedBelow_obj_group hv] at h
      exact isPrefix_of_mem_placedMembers path ms h
    | some value =>
      rw [placedBelow_obj_token hv] at h
      split at h
      · cases h
      · obtain ⟨raw, -, rfl⟩ := Option.map_eq_some_iff.1 (Option.mem_toList.1 h)
        exact List.prefix_refl _
  | .null, h => by simp [placedBelow] at h
  | .bool _, h => by simp [placedBelow] at h
  | .num _, h => by simp [placedBelow] at h
  | .str _, h => by simp [placedBelow] at h
  | .arr _, h => by simp [placedBelow] at h

theorem isPrefix_of_mem_placedMembers {t : List String × TokenValue} (path : List String) :
    ∀ ms : List (String × Json), t ∈ placedMembers path ms → path <+: t.1
  | [], h => by simp [placedMembers] at h
  | (name, j) :: ms, h => by
    rcases List.mem_append.1 h with h | h
    · split at h
      · cases h
      · exact (List.prefix_append _ _).trans (isPrefix_of_mem_placedBelow (path ++ [name]) j h)
    · exact isPrefix_of_mem_placedMembers path ms h

end

/-! ## Assigning to the path of a token -/

theorem rebind_append (k : List String) (v : TokenValue) (es ds : List (List String × TokenValue)) :
    rebind k v (es ++ ds) = rebind k v es ++ rebind k v ds :=
  List.map_append

/-- Only the member of the name has tokens whose paths go through the name. -/
theorem rebind_placedBelow_of_ne {other : String} (h : other ≠ name) (v : TokenValue) (j : Json) :
    rebind (path ++ name :: place) v (placedBelow (path ++ [other]) j) =
      placedBelow (path ++ [other]) j := by
  refine rebind_of_not_mem (fun hmem => ?_) v
  obtain ⟨t, ht, heq⟩ := List.mem_map.1 hmem
  have hpre : path ++ [other] <+: path ++ name :: place :=
    heq ▸ isPrefix_of_mem_placedBelow (path ++ [other]) j ht
  rw [List.prefix_append_right_inj, List.cons_prefix_cons] at hpre
  exact h hpre.1

theorem placedMembers_rebind {child : Json} (hname : ¬ isReserved name)
    (hchild : ∀ m ∈ ms, m.1 = name → placedBelow (path ++ [name]) child =
      rebind (path ++ name :: place) v (placedBelow (path ++ [name]) m.2)) :
    placedMembers path (rebind name child ms) =
      rebind (path ++ name :: place) v (placedMembers path ms) := by
  induction ms with
  | nil => rfl
  | cons m ms ih =>
    obtain ⟨other, j⟩ := m
    rw [rebind, List.map_cons, ← rebind, placedMembers, placedMembers, rebind_append,
      ih fun m hm => hchild m (List.mem_cons_of_mem _ hm)]
    refine congrArg (· ++ _) ?_
    by_cases h : other = name
    · subst h
      rw [if_neg hname, if_neg hname, if_pos (beq_self_eq_true _), hchild _ List.mem_cons_self rfl]
    · have hne : ¬ (other == name) = true := by simpa using h
      dsimp only
      rw [if_neg hne]
      split
      · rfl
      · rw [rebind_placedBelow_of_ne h]

theorem eq_obj_of_mem_placedBelow {t : List String × TokenValue} (h : t ∈ placedBelow path j) :
    ∃ ms, j = .obj ms := by
  cases j with
  | obj ms => exact ⟨ms, rfl⟩
  | _ => simp [placedBelow] at h

theorem lookup_value_eq_none_of_mem (h : (path ++ name :: place, w) ∈ placedBelow path (.obj ms)) :
    ms.lookup "$value" = none := by
  cases hv : ms.lookup "$value" with
  | none => rfl
  | some value =>
    rw [placedBelow_obj_token hv] at h
    split at h
    · cases h
    · obtain ⟨raw, -, heq⟩ := Option.map_eq_some_iff.1 (Option.mem_toList.1 h)
      simpa using congrArg Prod.fst heq

/-- A token further down stands in one member of a group. -/
theorem exists_member_of_mem (h : (path ++ name :: place, w) ∈ placedBelow path (.obj ms)) :
    ∃ child, (name, child) ∈ ms ∧ ¬ isReserved name ∧
      (path ++ [name] ++ place, w) ∈ placedBelow (path ++ [name]) child := by
  rw [placedBelow_obj_group (lookup_value_eq_none_of_mem h)] at h
  obtain ⟨⟨other, child⟩, hm, hres, ht⟩ := mem_placedMembers.1 h
  obtain rfl : other = name := by
    have hpre := isPrefix_of_mem_placedBelow _ _ ht
    rw [List.prefix_append_right_inj, List.cons_prefix_cons] at hpre
    exact hpre.1
  refine ⟨child, hm, hres, ?_⟩
  rw [List.append_assoc]
  exact ht

theorem placedBelow_insert_value (hvalue : TokenValue.declared? value = some v)
    (h : (path, w) ∈ placedBelow path (.obj ms)) :
    placedBelow path (.obj (insertEntry "$value" value ms)) =
      rebind path v (placedBelow path (.obj ms)) := by
  have hnew : (insertEntry "$value" value ms).lookup "$value" = some value := by
    rw [lookup_insertEntry, if_pos (beq_self_eq_true _)]
  rw [placedBelow_obj_token hnew]
  cases hold : ms.lookup "$value" with
  | none =>
    rw [placedBelow_obj_group hold] at h
    obtain ⟨m, -, -, hm⟩ := mem_placedMembers.1 h
    have hpre := isPrefix_of_mem_placedBelow _ _ hm
    exact absurd hpre.length_le (by simp)
  | some old =>
    rw [placedBelow_obj_token hold] at h ⊢
    by_cases hpath : path = []
    · rw [if_pos hpath] at h
      cases h
    · rw [if_neg hpath] at h
      obtain ⟨raw, hraw, -⟩ := Option.map_eq_some_iff.1 (Option.mem_toList.1 h)
      rw [if_neg hpath, if_neg hpath, hvalue, hraw]
      simp [rebind]

theorem placedBelow_insert_member {child child' : Json} (hasc : Ascending ms)
    (hgroup : ms.lookup "$value" = none) (hm : (name, child) ∈ ms) (hres : ¬ isReserved name)
    (hchild : placedBelow (path ++ [name]) child' =
      rebind (path ++ name :: place) v (placedBelow (path ++ [name]) child)) :
    placedBelow path (.obj (insertEntry name child' ms)) =
      rebind (path ++ name :: place) v (placedBelow path (.obj ms)) := by
  have hgroup' : (rebind name child' ms).lookup "$value" = none := by
    rw [lookup_rebind, hgroup]
    simp
  have hkey : name ∈ ms.map (·.1) := List.mem_map.2 ⟨_, hm, rfl⟩
  rw [hasc.insertEntry_eq_rebind hkey, placedBelow_obj_group hgroup', placedBelow_obj_group hgroup]
  apply placedMembers_rebind hres
  rintro ⟨other, j⟩ hm' rfl
  have hsame : j = child := by
    have hfirst := hasc.lookup_eq_some.2 hm'
    have hsecond := hasc.lookup_eq_some.2 hm
    rw [hfirst] at hsecond
    exact Option.some.inj hsecond
  rw [hsame, hchild]

/-- By induction on the rest of the path: each step goes into the one member that leads to the
token. -/
theorem assignFrom_placedBelow (hvalue : TokenValue.declared? value = some v) (hj : j.Normal)
    (h : (path ++ place, w) ∈ placedBelow path j) (walked : List String) :
    ∃ j', assignFrom value walked place j = .ok j' ∧
      placedBelow path j' = rebind (path ++ place) v (placedBelow path j) := by
  induction place generalizing path walked j with
  | nil =>
    obtain ⟨ms, rfl⟩ := eq_obj_of_mem_placedBelow h
    rw [List.append_nil] at h ⊢
    exact ⟨_, rfl, placedBelow_insert_value hvalue h⟩
  | cons name place ih =>
    obtain ⟨ms, rfl⟩ := eq_obj_of_mem_placedBelow h
    obtain ⟨hasc, hms⟩ : Ascending ms ∧ Json.NormalMembers ms := by simpa [Json.Normal] using hj
    have hgroup := lookup_value_eq_none_of_mem h
    obtain ⟨child, hm, hres, ht⟩ := exists_member_of_mem h
    have hlookup : ms.lookup name = some child := hasc.lookup_eq_some.2 hm
    have hnormal : child.Normal := Json.normalMembers_iff.1 hms _ hm
    obtain ⟨child', hassign, hplaced⟩ := ih hnormal ht (walked ++ [name])
    rw [List.append_assoc] at hplaced
    refine ⟨.obj (insertEntry name child' ms), ?_, ?_⟩
    · rw [assignFrom, isTokenObject, hgroup, hlookup]
      simp only [Option.isSome_none, Bool.false_eq_true, if_false, Option.getD_some, hassign]
      rfl
    · exact placedBelow_insert_member hasc hgroup hm hres hplaced

/-! ## Overriding the value of a token -/

/-- Every token with this id stands at the path that the id spells. -/
def Json.Spells (tree : Json) (id : String) : Prop :=
  ∀ t ∈ placedTokens tree, joinPath t.1 = id → t.1 = splitId id

/-- A number that is not finite has no document, and `null` declares nothing. -/
def TokenValue.Finite : TokenValue → Prop
  | number x => x.isFinite = true
  | text _ => True

instance : DecidablePred TokenValue.Finite
  | .number x => inferInstanceAs (Decidable (x.isFinite = true))
  | .text _ => inferInstanceAs (Decidable True)

theorem TokenValue.declared?_toJson (h : v.Finite) : declared? v.toJson = some v := by
  cases v with
  | text s => rfl
  | number x =>
    have hx : x.isFinite = true := h
    rw [toJson, if_pos hx]
    rfl

theorem TokenValue.normal_toJson (v : TokenValue) : v.toJson.Normal := by
  cases v with
  | number x =>
    rw [toJson]
    split <;> trivial
  | text s => trivial

theorem map_byId_rebind {ts : List (List String × TokenValue)}
    (h : ∀ t ∈ ts, joinPath t.1 = id ↔ t.1 = path) (v : TokenValue) :
    (rebind path v ts).map byId = rebind id v (ts.map byId) := by
  rw [rebind, rebind, List.map_map, List.map_map]
  refine List.map_congr_left fun t ht => ?_
  have hbeq : (t.1 == path) = (joinPath t.1 == id) := by
    rw [Bool.eq_iff_iff, beq_iff_eq, beq_iff_eq, h t ht]
  rw [Function.comp_apply, Function.comp_apply, byId, byId, hbeq]

theorem raws_overrideAll (htree : tree.Normal) (hspells : tree.Spells id) (hfinite : v.Finite)
    (hid : id ∈ (Resolution.raws (declarationMap tree)).keys) :
    ∃ tree', overrideAll (SortedMap.ofList [(id, v)]) tree = (tree', none) ∧
      Resolution.raws (declarationMap tree') = (Resolution.raws (declarationMap tree)).insert id v := by
  rw [raws_declarationMap] at hid ⊢
  have hmem := SortedMap.mem_keys_ofList.1 hid
  obtain ⟨t, ht, hjoin⟩ : ∃ t ∈ placedTokens tree, joinPath t.1 = id := by
    obtain ⟨e, he, rfl⟩ := List.mem_map.1 hmem
    obtain ⟨t, ht, rfl⟩ := List.mem_map.1 he
    exact ⟨t, ht, rfl⟩
  have hpath := hspells t ht hjoin
  have hsplit : joinPath (splitId id) = id := hpath ▸ hjoin
  have hplace : ([] ++ splitId id, t.2) ∈ placedBelow [] tree := by
    rw [List.nil_append, ← hpath]
    exact ht
  obtain ⟨tree', hassign, hplaced⟩ :=
    assignFrom_placedBelow (TokenValue.declared?_toJson hfinite) htree hplace []
  refine ⟨tree', ?_, ?_⟩
  · show overrideEach [(id, v)] tree = (tree', none)
    rw [overrideEach, put_of_ok (assign_eq_ok.2 hassign)]
    rfl
  · have hiff : ∀ t ∈ placedTokens tree, joinPath t.1 = id ↔ t.1 = splitId id := by
      intro t ht
      refine ⟨hspells t ht, ?_⟩
      rintro h
      rw [h, hsplit]
    rw [raws_declarationMap, placedTokens, hplaced, List.nil_append, ← placedTokens,
      map_byId_rebind hiff, SortedMap.ofList_rebind hmem]

end DesignTokens
