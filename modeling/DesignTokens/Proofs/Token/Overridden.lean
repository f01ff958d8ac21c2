import DesignTokens.Proofs.Alias.Complete
import DesignTokens.Proofs.Token.Ends

/-!
# What a patch changes

* `exists_overrideAll_iff` : a patch can be applied if and only if neither an end of the tree nor
  another id of the patch stands on the way to one of its ids;
* `endAt?_overrideEach_self`, `endAt?_overrideEach_of_not_isPrefix` : the ids of the patch are tokens
  with its values then, and the paths that do not lead through them end as before;
* `declared_of_overrideAll` : the declared values are those of the patch and, apart from what stood below
  its ids, those from before. `exists_overrideAll_hides` : what stood there is gone;
* `overrideAll_empty` : values that are written into an empty tree are read back from it.
-/

namespace DesignTokens

open Resolution

variable {tree tree' e : Json} {path way : List String} {id k l name : String} {v : TokenValue}
  {entries : List (String × TokenValue)} {patch values : Values}

/-! ## The order of ids on one way -/

theorem compare_append_cons (cs ds : List Char) (c : Char) :
    compare (String.ofList cs) (String.ofList (cs ++ c :: ds)) = .lt := by
  refine compareOfLessAndEq_eq_lt.2 ?_
  rw [String.lt_iff, String.toList_ofList, String.toList_ofList]
  induction cs with
  | nil => exact List.nil_lt_cons c ds
  | cons b cs ih => exact List.cons_lt_cons_iff.2 (.inr ⟨rfl, ih⟩)

theorem joinPath_append_cons (hway : way ≠ []) (name : String) (rest : List String) :
    joinPath (way ++ name :: rest) = joinPath way ++ "." ++ joinPath (name :: rest) := by
  unfold joinPath
  induction way with
  | nil => exact absurd rfl hway
  | cons a way ih =>
    cases way with
    | nil => rw [List.singleton_append, String.intercalate_cons_cons, String.intercalate_singleton]
    | cons b way =>
      rw [List.cons_append, List.cons_append, String.intercalate_cons_cons, ← List.cons_append,
        ih (List.cons_ne_nil b way), String.intercalate_cons_cons, String.append_assoc, String.append_assoc,
        String.append_assoc, String.append_assoc, String.append_assoc]

/-- The shorter one of two ids on one way comes first. -/
theorem compare_lt_of_goesOn (h : GoesOn (splitId k) (splitId l)) : compare k l = .lt := by
  obtain ⟨name, rest, hl⟩ := goesOn_iff.1 h
  have hjoin := joinPath_append_cons (splitId_ne_nil k) name rest
  rw [← hl, joinPath_splitId, joinPath_splitId] at hjoin
  have hchars : l = String.ofList (k.toList ++ '.' :: (joinPath (name :: rest)).toList) := by
    rw [hjoin, ← String.toList_inj]
    simp
  rw [hchars]
  have hlt := compare_append_cons k.toList (joinPath (name :: rest)).toList '.'
  rwa [String.ofList_toList] at hlt

/-- No later id stands on the way to an earlier one. -/
def InWayOrder (entries : List (String × TokenValue)) : Prop :=
  entries.Pairwise fun a b => ¬ splitId b.1 <+: splitId a.1

theorem Ascending.inWayOrder (h : Ascending entries) : InWayOrder entries := by
  refine List.Pairwise.imp (fun {a b} hab hlead => ?_) h
  by_cases heq : splitId b.1 = splitId a.1
  · rw [splitId_injective heq] at hab
    simp at hab
  · have hba := Std.OrientedCmp.gt_of_lt (compare_lt_of_goesOn ⟨hlead, heq⟩)
    rw [hab] at hba
    cases hba

/-! ## Applying a patch -/

theorem exists_assign_iff : (∃ tree', assign id v tree = .ok tree') ↔
    ∀ way, GoesOn way (splitId id) → tree.endAt? way = none :=
  (exists_congr fun _ => assign_eq_ok).trans (exists_assignFrom_iff v.toJson [] (splitId id) tree)

theorem overrideEach_cons_eq_ok : overrideEach ((id, v) :: entries) tree = (tree', none) ↔
    ∃ tree₁, assign id v tree = .ok tree₁ ∧ overrideEach entries tree₁ = (tree', none) := by
  simp only [← put_eq_none_iff, overrideEach]
  rcases put id v tree with ⟨tree₁, _ | e⟩ <;> simp

theorem endAt?_overrideEach_of_not_isPrefix (hvalue : ∀ e ∈ entries, "$value" ∉ splitId e.1)
    (hpath : ∀ e ∈ entries, ¬ splitId e.1 <+: path) (h : overrideEach entries tree = (tree', none)) :
    tree'.endAt? path = tree.endAt? path := by
  induction entries generalizing tree with
  | nil =>
    cases h
    rfl
  | cons e entries ih =>
    obtain ⟨tree₁, hassign, hrest⟩ := overrideEach_cons_eq_ok.1 h
    rw [List.forall_mem_cons] at hvalue hpath
    rw [ih hvalue.2 hpath.2 hrest]
    exact endAt?_assignFrom_of_not_isPrefix hvalue.1 hpath.1 (assign_eq_ok.1 hassign)

theorem endAt?_overrideEach_self (hvalue : ∀ e ∈ entries, "$value" ∉ splitId e.1)
    (horder : InWayOrder entries) (h : overrideEach entries tree = (tree', none)) (hmem : (id, v) ∈ entries) :
    ∃ ms, tree'.endAt? (splitId id) = some (.obj ms) ∧ ms.lookup "$value" = some v.toJson := by
  induction entries generalizing tree with
  | nil => cases hmem
  | cons e entries ih =>
    obtain ⟨tree₁, hassign, hrest⟩ := overrideEach_cons_eq_ok.1 h
    obtain ⟨hfirst, horder⟩ := List.pairwise_cons.1 horder
    rw [List.forall_mem_cons] at hvalue
    rcases List.mem_cons.1 hmem with rfl | hmem
    · rw [endAt?_overrideEach_of_not_isPrefix hvalue.2 hfirst hrest]
      exact endAt?_assignFrom_self hvalue.1 (assign_eq_ok.1 hassign)
    · exact ih hvalue.2 horder hrest hmem

theorem overrideEach_normal (htree : tree.Normal) (h : overrideEach entries tree = (tree', none)) :
    tree'.Normal := by
  induction entries generalizing tree with
  | nil =>
    cases h
    exact htree
  | cons e entries ih =>
    obtain ⟨tree₁, hassign, hrest⟩ := overrideEach_cons_eq_ok.1 h
    exact ih (assignFrom_normal e.2.normal_toJson htree (assign_eq_ok.1 hassign)) hrest

/-- Two ids of a patch that was applied are both ends, so neither stands on the way to the other. -/
theorem not_goesOn_of_overrideEach (hvalue : ∀ e ∈ entries, "$value" ∉ splitId e.1)
    (horder : InWayOrder entries) (h : overrideEach entries tree = (tree', none)) :
    ∀ a ∈ entries, ∀ b ∈ entries, ¬ GoesOn (splitId a.1) (splitId b.1) := by
  intro a ha b hb hgoes
  obtain ⟨ms, hend, -⟩ := endAt?_overrideEach_self hvalue horder h ha
  obtain ⟨ms', hend', -⟩ := endAt?_overrideEach_self hvalue horder h hb
  rw [hgoes.endAt?_eq_none hend] at hend'
  cases hend'

theorem GoesOn.trans_isPrefix {a b c : List String} (h : a <+: b) (hgoes : GoesOn b c) : GoesOn a c := by
  refine ⟨h.trans hgoes.1, ?_⟩
  rintro rfl
  exact hgoes.2 (hgoes.1.eq_of_length (le_antisymm hgoes.1.length_le h.length_le))

theorem GoesOn.not_isPrefix {a b c : List String} (hgoes : GoesOn b c) (hnot : ¬ GoesOn a c) : ¬ a <+: b :=
  fun hlead => hnot (hgoes.trans_isPrefix hlead)

theorem exists_overrideEach_iff (hvalue : ∀ e ∈ entries, "$value" ∉ splitId e.1) (horder : InWayOrder entries) :
    (∃ tree', overrideEach entries tree = (tree', none)) ↔
      (∀ e ∈ entries, ∀ way, GoesOn way (splitId e.1) → tree.endAt? way = none) ∧
        ∀ a ∈ entries, ∀ b ∈ entries, ¬ GoesOn (splitId a.1) (splitId b.1) := by
  induction entries generalizing tree with
  | nil => simp [overrideEach]
  | cons e entries ih =>
    have hrestValue := (List.forall_mem_cons.1 hvalue).2
    have ih {tree : Json} := @ih tree hrestValue (List.pairwise_cons.1 horder).2
    -- the first value changes nothing on a way that does not lead through its place
    have hkept {tree₁ : Json} {way : List String} (hassign : assign e.1 e.2 tree = .ok tree₁)
        (hway : ¬ splitId e.1 <+: way) : tree₁.endAt? way = tree.endAt? way :=
      endAt?_assignFrom_of_not_isPrefix (hvalue e List.mem_cons_self) hway (assign_eq_ok.1 hassign)
    constructor
    · rintro ⟨tree', h⟩
      have hpatch := not_goesOn_of_overrideEach hvalue horder h
      obtain ⟨tree₁, hassign, hrest⟩ := overrideEach_cons_eq_ok.1 h
      refine ⟨List.forall_mem_cons.2 ⟨exists_assign_iff.1 ⟨tree₁, hassign⟩, fun b hb way hgoes => ?_⟩, hpatch⟩
      have hpair := hpatch e List.mem_cons_self b (List.mem_cons_of_mem _ hb)
      rw [← hkept hassign (hgoes.not_isPrefix hpair)]
      exact (ih.1 ⟨tree', hrest⟩).1 b hb way hgoes
    · rintro ⟨hends, hpatch⟩
      obtain ⟨tree₁, hassign⟩ := exists_assign_iff.2 (hends e List.mem_cons_self)
      obtain ⟨tree', hrest⟩ : ∃ tree', overrideEach entries tree₁ = (tree', none) := by
        refine ih.2 ⟨fun b hb way hgoes => ?_,
          fun a ha b hb => hpatch a (List.mem_cons_of_mem _ ha) b (List.mem_cons_of_mem _ hb)⟩
        have hpair := hpatch e List.mem_cons_self b (List.mem_cons_of_mem _ hb)
        rw [hkept hassign (hgoes.not_isPrefix hpair)]
        exact hends b (List.mem_cons_of_mem _ hb) way hgoes
      exact ⟨tree', overrideEach_cons_eq_ok.2 ⟨tree₁, hassign, hrest⟩⟩

/-- No id of the patch has a reserved name in it. -/
def Unreserved (patch : Values) : Prop := ∀ id ∈ patch.keys, ∀ name ∈ splitId id, ¬ isReserved name

theorem Unreserved.value_not_mem (h : Unreserved patch) : ∀ e ∈ patch.entries, "$value" ∉ splitId e.1 :=
  fun e he hmem => h e.1 (List.mem_map_of_mem he) "$value" hmem (by decide)

theorem forall_mem_keys {p : String → Prop} : (∀ id ∈ patch.keys, p id) ↔ ∀ e ∈ patch.entries, p e.1 :=
  List.forall_mem_map

theorem exists_overrideAll_iff (hpatch : Unreserved patch) :
    (∃ tree', overrideAll patch tree = (tree', none)) ↔
      (∀ id ∈ patch.keys, ∀ way, GoesOn way (splitId id) → tree.endAt? way = none) ∧
        ∀ k ∈ patch.keys, ∀ l ∈ patch.keys, ¬ GoesOn (splitId k) (splitId l) := by
  simp only [forall_mem_keys]
  exact exists_overrideEach_iff hpatch.value_not_mem patch.ascending.inWayOrder

/-! ## The declared values after a patch -/

def AllFinite (values : Values) : Prop := ∀ v ∈ values.values, v.Finite

instance : Decidable (Unreserved patch) := inferInstanceAs (Decidable (∀ id ∈ patch.keys, _))

instance : Decidable (AllFinite values) := inferInstanceAs (Decidable (∀ v ∈ values.values, _))

theorem rawAt?_of_endAt? {ms : List (String × Json)} (hfinite : v.Finite)
    (hres : ∀ name ∈ splitId id, ¬ isReserved name) (h : tree.endAt? (splitId id) = some (.obj ms))
    (hvalue : ms.lookup "$value" = some v.toJson) : tree.rawAt? (splitId id) = some v := by
  have hnot : ¬ (splitId id = [] ∨ ∃ name ∈ splitId id, isReserved name) := by
    rintro (hnil | ⟨name, hname, hreserved⟩)
    · exact splitId_ne_nil id hnil
    · exact hres name hname hreserved
  rw [Json.rawAt?, if_neg hnot, h]
  show (ms.lookup "$value").bind TokenValue.declared? = some v
  rw [hvalue]
  exact TokenValue.declared?_toJson hfinite

theorem rawAt?_eq_none (h : tree.endAt? path = none) : tree.rawAt? path = none := by
  rw [Json.rawAt?, h]
  split <;> rfl

theorem rawAt?_congr (h : tree'.endAt? path = tree.endAt? path) : tree'.rawAt? path = tree.rawAt? path := by
  rw [Json.rawAt?, Json.rawAt?, h]

/-- The path leads on from an id of the patch. -/
def Below (patch : Values) (path : List String) : Prop := ∃ k ∈ patch.keys, GoesOn (splitId k) path

instance : Decidable (Below patch path) := inferInstanceAs (Decidable (∃ k ∈ patch.keys, _))

section Applied

variable (hpatch : Unreserved patch) (hfinite : AllFinite patch) (h : overrideAll patch tree = (tree', none))

include hpatch hfinite h

theorem rawAt?_overrideAll_self (hid : patch.get? id = some v) : tree'.rawAt? (splitId id) = some v := by
  have hmem := patch.get?_eq_some.1 hid
  obtain ⟨ms, hend, hvalue⟩ :=
    endAt?_overrideEach_self hpatch.value_not_mem patch.ascending.inWayOrder h hmem
  exact rawAt?_of_endAt? (hfinite v (List.mem_map.2 ⟨_, hmem, rfl⟩))
    (hpatch id (List.mem_map.2 ⟨_, hmem, rfl⟩)) hend hvalue

omit hfinite in
theorem rawAt?_overrideAll_of_not_mem (hid : ∀ k ∈ patch.keys, splitId k ≠ path) : tree'.rawAt? path =
    if Below patch path then none else tree.rawAt? path := by
  split
  · rename_i hbelow
    obtain ⟨k, hk, hgoes⟩ := hbelow
    obtain ⟨e, he, rfl⟩ := List.mem_map.1 hk
    obtain ⟨ms, hend, -⟩ :=
      endAt?_overrideEach_self hpatch.value_not_mem patch.ascending.inWayOrder h he
    exact rawAt?_eq_none (hgoes.endAt?_eq_none hend)
  · rename_i hbelow
    refine rawAt?_congr (endAt?_overrideEach_of_not_isPrefix hpatch.value_not_mem (fun e he hlead => ?_) h)
    have hk : e.1 ∈ patch.keys := List.mem_map_of_mem he
    exact hbelow ⟨e.1, hk, hlead, hid e.1 hk⟩

omit hfinite in
theorem undotted_overrideAll (htree : tree.Normal) (hdots : tree.Undotted) : tree'.Undotted := by
  rintro ⟨path, v⟩ ht name hname
  rw [mem_placedTokens (overrideEach_normal htree h)] at ht
  by_cases hid : ∀ k ∈ patch.keys, splitId k ≠ path
  · rw [rawAt?_overrideAll_of_not_mem hpatch h hid] at ht
    split at ht
    · cases ht
    · exact hdots (path, v) ((mem_placedTokens htree).2 ht) name hname
  · push Not at hid
    obtain ⟨k, -, rfl⟩ := hid
    exact Text.not_mem_of_mem_splitString hname

theorem declaredValues_get?_overrideAll (htree : tree.Normal) (hdots : tree.Undotted) (id : String) :
    (declaredValues tree').get? id = (patch.get? id).or
      (if Below patch (splitId id) then none else (declaredValues tree).get? id) := by
  rw [declaredValues_get? htree hdots,
    declaredValues_get? (overrideEach_normal htree h) (undotted_overrideAll hpatch h htree hdots)]
  cases hid : patch.get? id with
  | some v => exact rawAt?_overrideAll_self hpatch hfinite h hid
  | none =>
    rw [rawAt?_overrideAll_of_not_mem hpatch h, Option.none_or]
    rintro k hk heq
    rw [splitId_injective heq] at hk
    exact patch.get?_eq_none.1 hid hk

end Applied

/-- A patch declares its ids with its values, and what was declared below one of them is gone: an object
that carries a value is a token and holds no tokens. So the patch is nothing but a change of its own
ids where nothing was declared below them. -/
theorem declared_of_overrideAll (htree : tree.Normal) (hnames : ∀ name ∈ tree.names, '.' ∉ name.toList)
    (hpatch : Unreserved patch) (hfinite : AllFinite patch) (h : overrideAll patch tree = (tree', none)) :
    declaredValues tree' =
        ((declaredValues tree).filter fun id _ => ¬ Below patch (splitId id)).insertAll patch.entries ∧
      (declaredValues tree' = (declaredValues tree).insertAll patch.entries ↔
        ∀ id ∈ (declaredValues tree).keys, ¬ Below patch (splitId id)) := by
  have hget := declaredValues_get?_overrideAll hpatch hfinite h htree (undotted_of_names htree hnames)
  have hunpatched {id : String} (hbelow : Below patch (splitId id)) : patch.get? id = none := by
    obtain ⟨k, hk, hgoes⟩ := hbelow
    have hpairs := ((exists_overrideAll_iff hpatch).1 ⟨tree', h⟩).2
    exact patch.get?_eq_none.2 fun hid => hpairs k hk id hid hgoes
  refine ⟨SortedMap.ext_get? fun id => ?_, fun heq id hid hbelow => ?_, fun habove => SortedMap.ext_get? fun id => ?_⟩
  · rw [hget, SortedMap.get?_insertAll_entries, SortedMap.get?_filter]
    congr 1
    by_cases hbelow : Below patch (splitId id) <;>
      cases (declaredValues tree).get? id <;> simp [Option.filter, hbelow]
  · have hnone := hget id
    rw [heq, SortedMap.get?_insertAll_entries, hunpatched hbelow, Option.none_or, Option.none_or,
      if_pos hbelow] at hnone
    rw [(declaredValues tree).get?_eq_none] at hnone
    exact hnone hid
  · rw [hget, SortedMap.get?_insertAll_entries]
    congr 1
    split
    · rename_i hbelow
      exact ((declaredValues tree).get?_eq_none.2 fun hid => habove id hid hbelow).symm
    · rfl

/-- A heading's length with its kind, one in a group of its own, and a name that starts like the group's. -/
def headingTokens : Json :=
  .obj [("size", .obj [("h1", .obj [("$type", .str "dimension"), ("$value", .str "2rem")]),
    ("new", .obj [("deep", .obj [("sm", .obj [("$value", .str "4px")])])]),
    ("new-er", .obj [("$value", .str "5px")])])]

def headingPatch : Values := SortedMap.ofList [("size.h1", .text "3rem"), ("size.new.deep", .number 4)]

theorem declared_of_overrideAll_headingTokens : ∃ tree', overrideAll headingPatch headingTokens = (tree', none) ∧
    declaredValues tree' = ((declaredValues headingTokens).filter fun id _ =>
      ¬ Below headingPatch (splitId id)).insertAll headingPatch.entries ∧
    (declaredValues tree').keys = ["size.h1", "size.new-er", "size.new.deep"] := by
  have hnormal : headingTokens.Normal := headingTokens.normal_normal
  have hnames : ∀ name ∈ headingTokens.names, '.' ∉ name.toList := by decide +kernel
  obtain ⟨hok, hkeys⟩ : (overrideAll headingPatch headingTokens).2 = none ∧
      (declaredValues (overrideAll headingPatch headingTokens).1).keys =
        ["size.h1", "size.new-er", "size.new.deep"] := by decide +kernel
  have h : overrideAll headingPatch headingTokens = (_, none) := Prod.ext rfl hok
  obtain ⟨hdeclared, -⟩ := declared_of_overrideAll hnormal hnames (by decide +kernel) (by decide +kernel) h
  exact ⟨_, h, hdeclared, hkeys⟩

def groupedTokens : Json := .obj [("size", .obj [("sm", .obj [("$value", .str "4px")])])]

def groupPatch : Values := SortedMap.ofList [("size", .text "8px")]

theorem exists_overrideAll_hides : ∃ tree', groupedTokens.Normal ∧
    (∀ name ∈ groupedTokens.names, '.' ∉ name.toList) ∧ Unreserved groupPatch ∧ AllFinite groupPatch ∧
    overrideAll groupPatch groupedTokens = (tree', none) ∧
    declaredValues tree' ≠ (declaredValues groupedTokens).insertAll groupPatch.entries ∧
    (declaredValues groupedTokens).keys = ["size.sm"] ∧ (declaredValues tree').keys = ["size"] := by
  obtain ⟨hok, hbefore, hafter, hboth⟩ : (overrideAll groupPatch groupedTokens).2 = none ∧
      (declaredValues groupedTokens).keys = ["size.sm"] ∧
      (declaredValues (overrideAll groupPatch groupedTokens).1).keys = ["size"] ∧
      ((declaredValues groupedTokens).insertAll groupPatch.entries).keys = ["size", "size.sm"] := by
    decide +kernel
  refine ⟨(overrideAll groupPatch groupedTokens).1, groupedTokens.normal_normal, by decide +kernel,
    by decide +kernel, by decide +kernel, Prod.ext rfl hok, fun heq => ?_, hbefore, hafter⟩
  rw [heq, hboth] at hafter
  simp at hafter

/-! ## Values that make a tree -/

/-- Values can be written into an empty tree if and only if no id stands on the way to another, and what
is then read back are these values. -/
theorem overrideAll_empty (hvalues : Unreserved values) (hfinite : AllFinite values)
    (hplain : ∀ v ∈ values.values, v.hasPlaceholder = false) :
    ((∃ tree, overrideAll values (.obj []) = (tree, none)) ↔
      ∀ k ∈ values.keys, ∀ l ∈ values.keys, ¬ GoesOn (splitId k) (splitId l)) ∧
    ∀ tree, overrideAll values (.obj []) = (tree, none) →
      ∃ r, resolve tree = .ok r ∧ r.values = values ∧ r.edges = [] := by
  have hnoEnd (way : List String) : (Json.obj []).endAt? way = none := by cases way <;> rfl
  refine ⟨(exists_overrideAll_iff hvalues).trans (and_iff_right fun _ _ way _ => hnoEnd way),
    fun tree h => resolve_of_refs_eq_nil (fun id v hv => ?_) (SortedMap.ext_get? fun id => ?_)⟩
  · have hrefs := hplain v (List.mem_map.2 ⟨_, values.get?_eq_some.1 hv, rfl⟩)
    simpa [TokenValue.hasPlaceholder] using hrefs
  · have hnormal : (Json.obj []).Normal := (Json.obj []).normal_normal
    have hdots : (Json.obj []).Undotted := fun t ht => absurd ht List.not_mem_nil
    have hnone : (declaredValues (.obj [])).get? id = none := rfl
    rw [declaredValues_get?_overrideAll hvalues hfinite h hnormal hdots, hnone, ite_self, Option.or_none]

/-- Names that are empty, one that starts like a group, and numbers. -/
def stackedValues : Values :=
  SortedMap.ofList [("", .text "#fff"), ("a", .number 4), ("a-b.c", .number 0.5), ("b..c", .text ""),
    ("b.c", .text "4px")]

theorem overrideAll_empty_stackedValues : ∃ tree r, overrideAll stackedValues (.obj []) = (tree, none) ∧
    resolve tree = .ok r ∧ r.values = stackedValues ∧ r.edges = [] := by
  have hplain : ∀ v ∈ stackedValues.values, v.hasPlaceholder = false := by decide +kernel
  have hvalues : Unreserved stackedValues := by decide +kernel
  obtain ⟨hiff, hread⟩ := overrideAll_empty hvalues (by decide +kernel) hplain
  obtain ⟨tree, h⟩ := hiff.2 (by decide +kernel)
  obtain ⟨r, hr⟩ := hread tree h
  exact ⟨tree, r, h, hr⟩

end DesignTokens
