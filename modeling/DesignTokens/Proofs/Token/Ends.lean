import DesignTokens.Proofs.Alias.Outcome
import DesignTokens.Proofs.Text.Pieces
import DesignTokens.Proofs.Token.Placed

/-!
# Where the paths of a tree end

* `j.endAt? path` : what a path leads to through groups only, if it is no group itself. No path goes
  on from an end (`endAt?_append`);
* `exists_assignFrom_iff` : a value can be assigned at a place if and only if no end stands on the way;
* `endAt?_assignFrom_self`, `endAt?_assignFrom_of_not_isPrefix` : the place is an end with the value
  then, and the paths that do not lead through the place end as before;
* `mem_placedTokens` : the tokens are the ends with a declared value at paths without reserved names;
* `declaredValues_get?` : where no name has a dot, the declared value of an id is found at the path that it
  spells.
-/

namespace DesignTokens

variable {path place way rest : List String} {name id : String} {value e j j' child child' tree : Json}
  {v : TokenValue} {ms : List (String × Json)} {walked : List String}

/-! ## Ends -/

/-- What a path leads to through groups, if it is no group itself. -/
def Json.endAt? : List String → Json → Option Json
  | [], .obj ms => if isTokenObject ms then some (.obj ms) else none
  | [], j => some j
  | name :: path, .obj ms => if isTokenObject ms then none else (ms.lookup name).bind (endAt? path)
  | _ :: _, _ => none

/-- A longer path leads through the end of the way. -/
def GoesOn (way path : List String) : Prop := way <+: path ∧ way ≠ path

instance : Decidable (GoesOn way path) := inferInstanceAs (Decidable (_ ∧ _))

theorem goesOn_iff : GoesOn way path ↔ ∃ name rest, path = way ++ name :: rest := by
  constructor
  · rintro ⟨⟨rest, rfl⟩, hne⟩
    cases rest with
    | nil => exact absurd (List.append_nil way).symm hne
    | cons name rest => exact ⟨name, rest, rfl⟩
  · rintro ⟨name, rest, rfl⟩
    exact ⟨List.prefix_append _ _, by simp⟩

theorem goesOn_cons : GoesOn (name :: way) (name :: path) ↔ GoesOn way path := by
  simp [GoesOn]

theorem endAt?_nil_group (h : isTokenObject ms = false) : (Json.obj ms).endAt? [] = none := by
  simp [Json.endAt?, h]

theorem endAt?_cons_group (h : isTokenObject ms = false) :
    (Json.obj ms).endAt? (name :: path) = ((ms.lookup name).getD (.obj [])).endAt? path := by
  have hempty : (Json.obj []).endAt? path = none := by cases path <;> rfl
  rw [Json.endAt?, if_neg (by simp [h])]
  cases ms.lookup name with
  | none => exact hempty.symm
  | some child => rfl

theorem endAt?_nil_token (h : isTokenObject ms = true) : (Json.obj ms).endAt? [] = some (.obj ms) := by
  simp [Json.endAt?, h]

theorem endAt?_cons_token (h : isTokenObject ms = true) : (Json.obj ms).endAt? (name :: path) = none := by
  simp [Json.endAt?, h]

/-- Only a group is gone through. -/
theorem endAt?_cons_eq_some (h : j.endAt? (name :: path) = some e) :
    ∃ ms child, j = .obj ms ∧ isTokenObject ms = false ∧ ms.lookup name = some child ∧
      child.endAt? path = some e := by
  cases j with
  | obj ms =>
    cases htoken : isTokenObject ms with
    | true =>
      rw [endAt?_cons_token htoken] at h
      cases h
    | false =>
      rw [Json.endAt?, if_neg (by simp [htoken])] at h
      obtain ⟨child, hchild, hend⟩ := Option.bind_eq_some_iff.1 h
      exact ⟨ms, child, rfl, htoken, hchild, hend⟩
  | _ => simp [Json.endAt?] at h

theorem endAt?_append (h : j.endAt? way = some e) (name : String) (rest : List String) :
    j.endAt? (way ++ name :: rest) = none := by
  induction way generalizing j with
  | nil =>
    cases j with
    | obj ms =>
      cases htoken : isTokenObject ms with
      | true => exact endAt?_cons_token htoken
      | false =>
        rw [endAt?_nil_group htoken] at h
        cases h
    | _ => rfl
  | cons other way ih =>
    obtain ⟨ms, child, rfl, htoken, hchild, hend⟩ := endAt?_cons_eq_some h
    rw [List.cons_append, endAt?_cons_group htoken, hchild]
    exact ih hend

theorem GoesOn.endAt?_eq_none (hgoes : GoesOn way path) (h : j.endAt? way = some e) :
    j.endAt? path = none := by
  obtain ⟨name, rest, rfl⟩ := goesOn_iff.1 hgoes
  exact endAt?_append h name rest

/-! ## Assigning at a path -/

theorem assignFrom_nil (value : Json) (walked : List String) (j : Json) :
    ∃ ms, assignFrom value walked [] j = .ok (.obj ms) ∧ ms.lookup "$value" = some value := by
  cases j with
  | obj ms => exact ⟨_, rfl, by rw [lookup_insertEntry, if_pos (beq_self_eq_true _)]⟩
  | _ => exact ⟨_, rfl, rfl⟩

theorem assignFrom_cons_eq_ok : assignFrom value walked (name :: place) j = .ok j' ↔
    ∃ ms child, j = .obj ms ∧ isTokenObject ms = false ∧
      assignFrom value (walked ++ [name]) place ((ms.lookup name).getD (.obj [])) = .ok child ∧
      j' = .obj (insertEntry name child ms) := by
  cases j with
  | obj ms =>
    rw [assignFrom]
    cases htoken : isTokenObject ms with
    | true => simp [htoken]
    | false =>
      rw [if_neg (by simp)]
      constructor
      · intro h
        obtain ⟨child, hchild, hmade⟩ := bind_eq_ok_iff.1 h
        cases hmade
        exact ⟨ms, child, rfl, htoken, hchild, rfl⟩
      · rintro ⟨ms', child, hms, -, hchild, rfl⟩
        cases hms
        rw [hchild]
        rfl
  | _ => simp [assignFrom]

theorem exists_assignFrom_iff (value : Json) (walked place : List String) (j : Json) :
    (∃ j', assignFrom value walked place j = .ok j') ↔ ∀ way, GoesOn way place → j.endAt? way = none := by
  induction place generalizing walked j with
  | nil =>
    obtain ⟨ms, hassign, -⟩ := assignFrom_nil value walked j
    refine ⟨fun _ way hgoes => ?_, fun _ => ⟨_, hassign⟩⟩
    exact absurd (List.prefix_nil.1 hgoes.1) hgoes.2
  | cons name place ih =>
    have hroot : GoesOn [] (name :: place) := ⟨List.nil_prefix, by simp⟩
    cases j with
    | obj ms =>
      cases htoken : isTokenObject ms with
      | true =>
        constructor
        · rintro ⟨j', h⟩
          obtain ⟨ms', -, hms, hgroup, -⟩ := assignFrom_cons_eq_ok.1 h
          cases hms
          rw [htoken] at hgroup
          cases hgroup
        · intro h
          have hnone := h [] hroot
          rw [endAt?_nil_token htoken] at hnone
          cases hnone
      | false =>
        have hchild := ih (walked ++ [name]) ((ms.lookup name).getD (.obj []))
        constructor
        · rintro ⟨j', h⟩ way hgoes
          obtain ⟨ms', child, hms, -, hassign, -⟩ := assignFrom_cons_eq_ok.1 h
          cases hms
          cases way with
          | nil => exact endAt?_nil_group htoken
          | cons other way =>
            obtain rfl : other = name := (List.cons_prefix_cons.1 hgoes.1).1
            rw [endAt?_cons_group htoken]
            exact hchild.1 ⟨child, hassign⟩ way (goesOn_cons.1 hgoes)
        · intro h
          obtain ⟨child, hassign⟩ := hchild.2 fun way hgoes => by
            rw [← endAt?_cons_group htoken]
            exact h (name :: way) (goesOn_cons.2 hgoes)
          exact ⟨_, assignFrom_cons_eq_ok.2 ⟨ms, child, rfl, htoken, hassign, rfl⟩⟩
    | _ =>
      constructor
      · rintro ⟨j', h⟩
        simp [assignFrom] at h
      · intro h
        have hnone := h [] hroot
        cases hnone

/-- A member other than the value makes no token of a group. -/
theorem isTokenObject_insertEntry (h : name ≠ "$value") (child : Json) (ms : List (String × Json)) :
    isTokenObject (insertEntry name child ms) = isTokenObject ms := by
  rw [isTokenObject, isTokenObject, lookup_insertEntry, if_neg (by simpa using h.symm)]

theorem endAt?_assignFrom_self (hplace : "$value" ∉ place)
    (h : assignFrom value walked place j = .ok j') :
    ∃ ms, j'.endAt? place = some (.obj ms) ∧ ms.lookup "$value" = some value := by
  induction place generalizing walked j j' with
  | nil =>
    obtain ⟨ms, hassign, hvalue⟩ := assignFrom_nil value walked j
    obtain rfl : Json.obj ms = j' := by simpa [hassign] using h
    exact ⟨ms, endAt?_nil_token (by rw [isTokenObject, hvalue]; rfl), hvalue⟩
  | cons name place ih =>
    obtain ⟨ms, child, rfl, hgroup, hassign, rfl⟩ := assignFrom_cons_eq_ok.1 h
    obtain ⟨hname, hrest⟩ : name ≠ "$value" ∧ "$value" ∉ place := by simpa [eq_comm] using hplace
    rw [endAt?_cons_group ((isTokenObject_insertEntry hname _ _).trans hgroup), lookup_insertEntry,
      if_pos (beq_self_eq_true _)]
    exact ih hrest hassign

theorem endAt?_assignFrom_of_not_isPrefix (hplace : "$value" ∉ place) (hpath : ¬ place <+: path)
    (h : assignFrom value walked place j = .ok j') : j'.endAt? path = j.endAt? path := by
  induction place generalizing walked j j' path with
  | nil => exact absurd List.nil_prefix hpath
  | cons name place ih =>
    obtain ⟨ms, child, rfl, hgroup, hassign, rfl⟩ := assignFrom_cons_eq_ok.1 h
    obtain ⟨hname, hrest⟩ : name ≠ "$value" ∧ "$value" ∉ place := by simpa [eq_comm] using hplace
    have hgroup' : isTokenObject (insertEntry name child ms) = false :=
      (isTokenObject_insertEntry hname child ms).trans hgroup
    cases path with
    | nil => rw [endAt?_nil_group hgroup', endAt?_nil_group hgroup]
    | cons other path =>
      rw [endAt?_cons_group hgroup', endAt?_cons_group hgroup, lookup_insertEntry]
      by_cases hother : other = name
      · subst hother
        rw [if_pos (beq_self_eq_true _)]
        exact ih hrest (fun hp => hpath (List.cons_prefix_cons.2 ⟨rfl, hp⟩)) hassign
      · rw [if_neg (by simpa using hother)]

theorem Json.normal_insertEntry (hchild : child.Normal) (hms : (Json.obj ms).Normal) :
    (Json.obj (insertEntry name child ms)).Normal := by
  rw [Json.Normal, Json.normalMembers_iff] at hms ⊢
  refine ⟨insertEntry_sorted _ _ hms.1, fun m hm => ?_⟩
  rcases mem_insertEntry hm with rfl | hm
  · exact hchild
  · exact hms.2 m hm

theorem assignFrom_normal (hvalue : value.Normal) (hj : j.Normal)
    (h : assignFrom value walked place j = .ok j') : j'.Normal := by
  have hempty : (Json.obj []).Normal := by simp [Json.Normal, Json.NormalMembers, Ascending]
  induction place generalizing walked j j' with
  | nil =>
    cases j with
    | obj ms =>
      cases h
      exact Json.normal_insertEntry hvalue hj
    | _ =>
      cases h
      exact Json.normal_insertEntry hvalue hempty
  | cons name place ih =>
    obtain ⟨ms, child, rfl, -, hassign, rfl⟩ := assignFrom_cons_eq_ok.1 h
    refine Json.normal_insertEntry (ih ?_ hassign) hj
    cases hlookup : ms.lookup name with
    | none => exact hempty
    | some c => exact hj.of_lookup hlookup

/-! ## Tokens are ends -/

/-- The value that an end declares. -/
def Json.declared? : Json → Option TokenValue
  | .obj ms => (ms.lookup "$value").bind TokenValue.declared?
  | _ => none

def Json.rawAt? (path : List String) (j : Json) : Option TokenValue :=
  if path = [] ∨ ∃ name ∈ path, isReserved name then none else (j.endAt? path).bind declared?

theorem mem_placedBelow (hj : j.Normal) : (way ++ path, v) ∈ placedBelow way j ↔
    way ++ path ≠ [] ∧ (∀ name ∈ path, ¬ isReserved name) ∧
      (j.endAt? path).bind Json.declared? = some v := by
  induction path generalizing way j with
  | nil =>
    rw [List.append_nil]
    cases j with
    | obj ms =>
      cases hvalue : ms.lookup "$value" with
      | none =>
        have hgroup : isTokenObject ms = false := by rw [isTokenObject, hvalue]; rfl
        rw [endAt?_nil_group hgroup, placedBelow_obj_group hvalue, mem_placedMembers]
        refine iff_of_false ?_ (by simp)
        rintro ⟨m, -, -, hm⟩
        exact absurd (isPrefix_of_mem_placedBelow _ _ hm).length_le (by simp)
      | some value =>
        have htoken : isTokenObject ms = true := by rw [isTokenObject, hvalue]; rfl
        rw [endAt?_nil_token htoken, placedBelow_obj_token hvalue]
        by_cases hway : way = []
        · simp [hway]
        · simp [hway, Json.declared?, hvalue]
    | _ => simp [placedBelow, Json.endAt?, Json.declared?]
  | cons name path ih =>
    cases j with
    | obj ms =>
      cases hvalue : ms.lookup "$value" with
      | none =>
        obtain ⟨hasc, hms⟩ : Ascending ms ∧ ∀ m ∈ ms, m.2.Normal := by
          rwa [Json.Normal, Json.normalMembers_iff] at hj
        have hgroup : isTokenObject ms = false := by rw [isTokenObject, hvalue]; rfl
        have hchild {child : Json} (hm : (name, child) ∈ ms) : (way ++ [name] ++ path, v) ∈
            placedBelow (way ++ [name]) child ↔ (∀ name ∈ path, ¬ isReserved name) ∧
              (child.endAt? path).bind Json.declared? = some v := by
          rw [ih (hms _ hm), and_iff_right (by simp)]
        constructor
        · intro h
          obtain ⟨child, hm, hres, ht⟩ := exists_member_of_mem h
          obtain ⟨hnames, hend⟩ := (hchild hm).1 ht
          refine ⟨by simp, List.forall_mem_cons.2 ⟨hres, hnames⟩, ?_⟩
          rw [endAt?_cons_group hgroup, hasc.lookup_eq_some.2 hm]
          exact hend
        · rintro ⟨-, hnames, hend⟩
          obtain ⟨hres, hnames⟩ := List.forall_mem_cons.1 hnames
          obtain ⟨e, he, hdeclared⟩ := Option.bind_eq_some_iff.1 hend
          obtain ⟨ms', child, heq, -, hlookup, hchildEnd⟩ := endAt?_cons_eq_some he
          cases heq
          have hm := hasc.lookup_eq_some.1 hlookup
          rw [placedBelow_obj_group hvalue, mem_placedMembers]
          refine ⟨(name, child), hm, hres, ?_⟩
          have ht := (hchild hm).2 ⟨hnames, by rw [hchildEnd]; exact hdeclared⟩
          rwa [List.append_assoc] at ht
      | some value =>
        have htoken : isTokenObject ms = true := by rw [isTokenObject, hvalue]; rfl
        rw [endAt?_cons_token htoken]
        refine iff_of_false (fun h => ?_) (by simp)
        have hnone := lookup_value_eq_none_of_mem h
        rw [hvalue] at hnone
        cases hnone
    | _ => simp [placedBelow, Json.endAt?]

theorem mem_placedTokens (htree : tree.Normal) : (path, v) ∈ placedTokens tree ↔ tree.rawAt? path = some v := by
  rw [placedTokens, ← List.nil_append path, mem_placedBelow htree, List.nil_append, Json.rawAt?]
  by_cases hpath : path = [] ∨ ∃ name ∈ path, isReserved name
  · rw [if_pos hpath]
    refine iff_of_false ?_ (by simp)
    rintro ⟨hne, hnames, -⟩
    rcases hpath with hnil | ⟨name, hname, hres⟩
    · exact hne hnil
    · exact hnames name hname hres
  · rw [if_neg hpath]
    obtain ⟨hne, hnames⟩ := not_or.1 hpath
    rw [and_iff_right hne, and_iff_right fun name hname hres => hnames ⟨name, hname, hres⟩]

/-! ## Ids and paths -/

theorem joinPath_splitId (id : String) : joinPath (splitId id) = id := Text.intercalate_splitString '.' id

theorem splitId_ne_nil (id : String) : splitId id ≠ [] := Text.splitString_ne_nil '.' id

theorem splitId_injective : Function.Injective splitId := Function.LeftInverse.injective joinPath_splitId

theorem splitId_joinPath (hne : path ≠ []) (hdots : ∀ name ∈ path, '.' ∉ name.toList) :
    splitId (joinPath path) = path := by
  have hsplit : splitId (joinPath path) = path.flatMap (Text.splitString '.') :=
    Text.splitString_intercalate '.' hne
  rw [hsplit]
  clear hne hsplit
  induction path with
  | nil => rfl
  | cons name path ih =>
    obtain ⟨hname, hdots⟩ := List.forall_mem_cons.1 hdots
    rw [List.flatMap_cons, Text.splitString_of_not_mem hname, ih hdots]
    rfl

/-- No name on the way to a token has a dot. -/
def Json.Undotted (tree : Json) : Prop := ∀ t ∈ placedTokens tree, ∀ name ∈ t.1, '.' ∉ name.toList

mutual

/-- The names of the members of objects, at every depth. -/
def Json.names : Json → List String
  | .obj ms => memberNames ms
  | .arr js => itemNames js
  | _ => []

def Json.itemNames : List Json → List String
  | [] => []
  | j :: js => j.names ++ itemNames js

def Json.memberNames : List (String × Json) → List String
  | [] => []
  | (name, j) :: ms => name :: j.names ++ memberNames ms

end

theorem mem_memberNames : name ∈ Json.memberNames ms ↔ ∃ m ∈ ms, name = m.1 ∨ name ∈ m.2.names := by
  induction ms with
  | nil => simp [Json.memberNames]
  | cons m ms ih => simp [Json.memberNames, ih, or_assoc]

theorem mem_names_of_endAt? (h : j.endAt? path = some e) : ∀ name ∈ path, name ∈ j.names := by
  induction path generalizing j with
  | nil => simp
  | cons first path ih =>
    obtain ⟨ms, child, rfl, -, hchild, hend⟩ := endAt?_cons_eq_some h
    obtain ⟨before, after, rfl, -⟩ := List.lookup_eq_some_iff.1 hchild
    intro name hname
    rw [Json.names, mem_memberNames]
    refine ⟨(first, child), by simp, ?_⟩
    exact (List.mem_cons.1 hname).imp_right (ih hend name)

theorem undotted_of_names (htree : tree.Normal) (hnames : ∀ name ∈ tree.names, '.' ∉ name.toList) :
    tree.Undotted := by
  rintro ⟨path, v⟩ ht name hname
  rw [mem_placedTokens htree, Json.rawAt?] at ht
  split at ht
  · cases ht
  · obtain ⟨e, hend, -⟩ := Option.bind_eq_some_iff.1 ht
    exact hnames name (mem_names_of_endAt? hend name hname)

theorem declaredValues_get?_eq_some (htree : tree.Normal) (hdots : tree.Undotted) :
    (declaredValues tree).get? id = some v ↔ tree.rawAt? (splitId id) = some v := by
  have hsplit {t : List String × TokenValue} (ht : t ∈ placedTokens tree) : splitId (joinPath t.1) = t.1 := by
    refine splitId_joinPath ?_ (hdots t ht)
    rintro hnil
    rw [show t = ([], t.2) from Prod.ext hnil rfl, mem_placedTokens htree] at ht
    simp [Json.rawAt?] at ht
  have hmem {v : TokenValue} : (id, v) ∈ (placedTokens tree).map byId ↔ tree.rawAt? (splitId id) = some v := by
    rw [← mem_placedTokens htree, List.mem_map]
    constructor
    · rintro ⟨t, ht, heq⟩
      obtain ⟨rfl, rfl⟩ := Prod.mk.inj heq
      rwa [hsplit ht]
    · exact fun ht => ⟨_, ht, by rw [byId, joinPath_splitId]⟩
  rw [declaredValues, raws_declarationMap, ← hmem]
  refine SortedMap.get?_ofList_eq_some fun w hw u hu => ?_
  rw [hmem] at hw hu
  exact Option.some.inj (hw.symm.trans hu)

theorem declaredValues_get? (htree : tree.Normal) (hdots : tree.Undotted) (id : String) :
    (declaredValues tree).get? id = tree.rawAt? (splitId id) :=
  Option.ext fun _ => declaredValues_get?_eq_some htree hdots

end DesignTokens
