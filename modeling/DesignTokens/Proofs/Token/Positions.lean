import DesignTokens.Proofs.Token.Ends
import Mathlib.Data.Set.Function

/-!
# Where tokens are declared

* `j.LeadsTo path above leaf` : each name of a path leads from a group to a member of it, and the last
  one to the leaf; `above` are the groups on the way, from the root on;
* `nearestType above leaf` : the type of a leaf, or of the nearest group above it that gives one;
* `TokenValue.Declared value raw` : the value that a document declares;
* `tree.Position path above leaf value` : a token stands at the path: it leads to an object with a
  value that is not `null`, and no name on it is reserved;
* `mem_declarationsBelow` : the walk meets the tokens at their positions, with their types;
* `declarationMap_bijOn` : where no name has a dot, the positions and the ids of the tokens correspond
  one to one, and what is declared for an id is what stands at its position.
-/

namespace DesignTokens

variable {path way : List String} {name id : String} {j leaf leaf' child value tree : Json}
  {above above' : List Json} {d : Declaration} {inherited kind : Option String} {raw : TokenValue}

/-! ## Ways through groups -/

/-- Each name of the path leads from a group to a member of it; `above` are the groups, from the root on. -/
inductive Json.LeadsTo : Json → List String → List Json → Json → Prop
  | here (j : Json) : LeadsTo j [] [] j
  | through {j child leaf : Json} {name : String} {path : List String} {above : List Json}
    (hgroup : j.get? "$value" = none) (hchild : j.get? name = some child)
    (hrest : LeadsTo child path above leaf) :
    LeadsTo j (name :: path) (j :: above) leaf

/-- A path leads to one leaf at most, and through the same groups. -/
theorem Json.LeadsTo.unique (h : j.LeadsTo path above leaf) (h' : j.LeadsTo path above' leaf') :
    above = above' ∧ leaf = leaf' := by
  induction h generalizing above' with
  | here j =>
    cases h' with
    | here => exact ⟨rfl, rfl⟩
  | through _ hchild _ ih =>
    cases h' with
    | through _ hchild' hrest' =>
      cases hchild.symm.trans hchild'
      obtain ⟨rfl, rfl⟩ := ih hrest'
      exact ⟨rfl, rfl⟩

theorem Json.LeadsTo.mem_names (h : j.LeadsTo path above leaf) : ∀ name ∈ path, name ∈ j.names := by
  induction h with
  | here j => simp
  | @through j child leaf first path above _ hchild _ ih =>
    cases j with
    | obj ms =>
      obtain ⟨before, after, rfl, -⟩ := List.lookup_eq_some_iff.1 hchild
      intro name hname
      rw [Json.names, mem_memberNames]
      exact ⟨(first, child), by simp, (List.mem_cons.1 hname).imp_right (ih name)⟩
    | _ => cases hchild

/-- The type that an object gives to what stands in it, which is a text. -/
def Json.type? (j : Json) : Option String := (j.get? "$type").bind Json.str?

/-- The type of a leaf, or of the nearest group above it that gives one. -/
def nearestType (above : List Json) (leaf : Json) : Option String :=
  (leaf :: above.reverse).findSome? Json.type?

theorem nearestType_nil (leaf : Json) : nearestType [] leaf = leaf.type? := by
  simp [nearestType]

theorem nearestType_cons (j : Json) (above : List Json) (leaf : Json) :
    nearestType (j :: above) leaf = (nearestType above leaf).or j.type? := by
  unfold nearestType
  rw [List.reverse_cons, ← List.cons_append, List.findSome?_append]
  simp

/-! ## The walk

A token stands below a group if it stands below one of its members, whose type is inherited from the
group; the induction is on the document, for any way to it and any type that it inherits.
-/

/-- A token stands at a path below a way, where a type is inherited. -/
structure Json.Declares (j : Json) (way : List String) (inherited : Option String) (path : List String)
    (above : List Json) (leaf : Json) (d : Declaration) : Prop where
  leads : j.LeadsTo path above leaf
  unreserved : ∀ name ∈ path, ¬ isReserved name
  below : way ++ path ≠ []
  raw : (leaf.get? "$value").bind TokenValue.declared? = some d.raw
  id : d.id = joinPath (way ++ path)
  kind : d.kind = (nearestType above leaf).or inherited

theorem mem_declarationAt : d ∈ declarationAt path kind value ↔
    path ≠ [] ∧ TokenValue.declared? value = some d.raw ∧ d.id = joinPath path ∧ d.kind = kind := by
  obtain ⟨id, kind', raw⟩ := d
  unfold declarationAt
  cases path with
  | nil => simp
  | cons name path =>
    cases TokenValue.declared? value with
    | none => simp
    | some v =>
      rw [List.mem_singleton, Declaration.mk.injEq, Option.some.injEq]
      constructor
      · rintro ⟨rfl, rfl, rfl⟩
        exact ⟨List.cons_ne_nil name path, rfl, rfl, rfl⟩
      · rintro ⟨-, rfl, rfl, rfl⟩
        exact ⟨rfl, rfl, rfl⟩

/-- The first step of a way leads from a group to one of its members. -/
theorem declares_cons (hgroup : j.get? "$value" = none) (hchild : j.get? name = some child) :
    j.Declares way inherited (name :: path) (j :: above) leaf d ↔
      ¬ isReserved name ∧ child.Declares (way ++ [name]) (j.type?.or inherited) path above leaf d := by
  have hway : way ++ name :: path = way ++ [name] ++ path := by simp
  have hkind : (nearestType (j :: above) leaf).or inherited =
      (nearestType above leaf).or (j.type?.or inherited) := by
    rw [nearestType_cons, Option.or_assoc]
  constructor
  · rintro ⟨hleads, hnames, hbelow, hraw, hid, hk⟩
    obtain ⟨hname, hnames⟩ := List.forall_mem_cons.1 hnames
    cases hleads with
    | through _ hchild' hrest =>
      cases hchild.symm.trans hchild'
      exact ⟨hname, hrest, hnames, hway ▸ hbelow, hraw, hway ▸ hid, hk.trans hkind⟩
  · rintro ⟨hname, hleads, hnames, hbelow, hraw, hid, hk⟩
    exact ⟨.through hgroup hchild hleads, List.forall_mem_cons.2 ⟨hname, hnames⟩, hway ▸ hbelow, hraw,
      hway ▸ hid, hk.trans hkind.symm⟩

/-- What is no object has no members, so no token stands in it. -/
theorem mem_declarationsBelow_of_get? (hnone : declarationsBelow way inherited j = [])
    (hget : ∀ name, j.get? name = none) : d ∈ declarationsBelow way inherited j ↔
      ∃ path above leaf, j.Declares way inherited path above leaf d := by
  rw [hnone]
  refine iff_of_false List.not_mem_nil ?_
  rintro ⟨path, above, leaf, hd⟩
  cases hd.leads with
  | here =>
    have hraw := hd.raw
    rw [hget] at hraw
    cases hraw
  | through _ hchild _ => cases (hget _).symm.trans hchild

mutual

theorem mem_declarationsBelow : ∀ (j : Json) (way : List String) (inherited : Option String), j.Normal →
    (d ∈ declarationsBelow way inherited j ↔ ∃ path above leaf, j.Declares way inherited path above leaf d)
  | .obj ms, way, inherited, hj => by
    obtain ⟨hasc, hms⟩ : Ascending ms ∧ Json.NormalMembers ms := by simpa [Json.Normal] using hj
    have hkind : ((ms.lookup "$type").bind Json.str?).or inherited = (Json.obj ms).type?.or inherited := rfl
    rw [declarationsBelow, hkind]
    cases hvalue : ms.lookup "$value" with
    | some value =>
      have hget : (Json.obj ms).get? "$value" = some value := hvalue
      rw [mem_declarationAt]
      constructor
      · rintro ⟨hway, hraw, hid, hk⟩
        rw [← nearestType_nil] at hk
        refine ⟨[], [], .obj ms, .here _, by simp, by simpa using hway, ?_, by simpa using hid, hk⟩
        rw [hget]
        exact hraw
      · rintro ⟨path, above, leaf, hleads, -, hbelow, hraw, hid, hk⟩
        cases hleads with
        | here =>
          rw [hget] at hraw
          rw [List.append_nil] at hbelow hid
          rw [nearestType_nil] at hk
          exact ⟨hbelow, hraw, hid, hk⟩
        | through hgroup => cases hget.symm.trans hgroup
    | none =>
      have hget : (Json.obj ms).get? "$value" = none := hvalue
      have hmember {m : String × Json} (hm : m ∈ ms) : (Json.obj ms).get? m.1 = some m.2 :=
        hasc.lookup_eq_some.2 hm
      dsimp only
      rw [mem_memberDeclarations ms way _ hms]
      constructor
      · rintro ⟨m, hm, hname, path, above, leaf, hd⟩
        exact ⟨m.1 :: path, .obj ms :: above, leaf, (declares_cons hget (hmember hm)).2 ⟨hname, hd⟩⟩
      · rintro ⟨path, above, leaf, hd⟩
        cases hd.leads with
        | here =>
          have hraw := hd.raw
          rw [hget] at hraw
          cases hraw
        | @through _ child _ name path above _ hchild _ =>
          obtain ⟨hname, hd⟩ := (declares_cons hget hchild).1 hd
          exact ⟨(name, child), hasc.lookup_eq_some.1 hchild, hname, path, above, leaf, hd⟩
  | .null, _, _, _ => mem_declarationsBelow_of_get? rfl fun _ => rfl
  | .bool _, _, _, _ => mem_declarationsBelow_of_get? rfl fun _ => rfl
  | .num _, _, _, _ => mem_declarationsBelow_of_get? rfl fun _ => rfl
  | .str _, _, _, _ => mem_declarationsBelow_of_get? rfl fun _ => rfl
  | .arr _, _, _, _ => mem_declarationsBelow_of_get? rfl fun _ => rfl

theorem mem_memberDeclarations : ∀ (ms : List (String × Json)) (way : List String) (kind : Option String),
    Json.NormalMembers ms → (d ∈ memberDeclarations way kind ms ↔
      ∃ m ∈ ms, ¬ isReserved m.1 ∧ ∃ path above leaf, m.2.Declares (way ++ [m.1]) kind path above leaf d)
  | [], _, _, _ => by simp [memberDeclarations]
  | (name, j) :: ms, way, kind, h => by
    rw [Json.NormalMembers] at h
    rw [memberDeclarations, List.mem_append, mem_memberDeclarations ms way kind h.2,
      List.exists_mem_cons_iff]
    refine or_congr_left ?_
    rw [← mem_declarationsBelow j (way ++ [name]) kind h.1]
    cases isReserved name <;> simp

end

/-! ## Positions -/

/-- The value that a document declares: its number, its text, or the compressed text of anything else
but `null`. -/
inductive TokenValue.Declared : Json → TokenValue → Prop
  | number (n : Number) : Declared (.num n) (.number n.toFloat)
  | text (s : String) : Declared (.str s) (.text s)
  | boolean (b : Bool) : Declared (.bool b) (.text (Json.bool b).compress)
  | array (js : List Json) : Declared (.arr js) (.text (Json.arr js).compress)
  | object (ms : List (String × Json)) : Declared (.obj ms) (.text (Json.obj ms).compress)

theorem TokenValue.declared?_eq_some_iff : declared? value = some raw ↔ Declared value raw := by
  constructor
  · intro h
    cases value with
    | null => cases h
    | bool b => cases h; exact .boolean b
    | num n => cases h; exact .number n
    | str s => cases h; exact .text s
    | arr js => cases h; exact .array js
    | obj ms => cases h; exact .object ms
  · intro h
    cases h <;> rfl

theorem TokenValue.exists_declared_iff : (∃ raw, Declared value raw) ↔ value ≠ .null := by
  constructor
  · rintro ⟨raw, h⟩ rfl
    cases h
  · intro h
    cases value with
    | null => exact absurd rfl h
    | bool b => exact ⟨_, .boolean b⟩
    | num n => exact ⟨_, .number n⟩
    | str s => exact ⟨_, .text s⟩
    | arr js => exact ⟨_, .array js⟩
    | obj ms => exact ⟨_, .object ms⟩

/-- A token stands at the path: it leads through groups to an object with a value that is not `null`,
and no name on it is reserved. -/
structure Json.Position (tree : Json) (path : List String) (above : List Json) (leaf value : Json) :
    Prop where
  leads : tree.LeadsTo path above leaf
  ne_nil : path ≠ []
  unreserved : ∀ name ∈ path, ¬ isReserved name
  declares : leaf.get? "$value" = some value
  ne_null : value ≠ .null

theorem mem_declarations (htree : tree.Normal) : d ∈ declarations tree ↔ ∃ path above leaf value,
    tree.Position path above leaf value ∧ d.id = joinPath path ∧ TokenValue.Declared value d.raw ∧
      d.kind = nearestType above leaf := by
  rw [declarations, mem_declarationsBelow tree [] none htree]
  refine exists_congr fun path => exists_congr fun above => exists_congr fun leaf => ?_
  constructor
  · rintro ⟨hleads, hnames, hne, hraw, hid, hkind⟩
    obtain ⟨value, hvalue, hraw⟩ := Option.bind_eq_some_iff.1 hraw
    have hdeclared := TokenValue.declared?_eq_some_iff.1 hraw
    have hnull := TokenValue.exists_declared_iff.1 ⟨_, hdeclared⟩
    refine ⟨value, ⟨hleads, hne, hnames, hvalue, hnull⟩, hid, hdeclared, ?_⟩
    rw [hkind, Option.or_none]
  · rintro ⟨value, ⟨hleads, hne, hnames, hvalue, -⟩, hid, hdeclared, hkind⟩
    refine ⟨hleads, hnames, hne, ?_, hid, ?_⟩
    · rw [hvalue]
      exact TokenValue.declared?_eq_some_iff.2 hdeclared
    · rw [hkind, Option.or_none]

theorem Json.Position.unique {value value' : Json} (h : tree.Position path above leaf value)
    (h' : tree.Position path above' leaf' value') : above = above' ∧ leaf = leaf' ∧ value = value' := by
  obtain ⟨rfl, rfl⟩ := h.leads.unique h'.leads
  exact ⟨rfl, rfl, Option.some.inj (h.declares.symm.trans h'.declares)⟩

theorem TokenValue.Declared.unique {raw raw' : TokenValue} (h : Declared value raw)
    (h' : Declared value raw') : raw = raw' :=
  Option.some.inj ((declared?_eq_some_iff.2 h).symm.trans (declared?_eq_some_iff.2 h'))

section Undotted

variable (htree : tree.Normal) (hnames : ∀ name ∈ tree.names, '.' ∉ name.toList)

include hnames in
theorem Json.Position.splitId_joinPath (h : tree.Position path above leaf value) :
    splitId (joinPath path) = path :=
  DesignTokens.splitId_joinPath h.ne_nil fun name hname => hnames name (h.leads.mem_names name hname)

include htree hnames

/-- Two declarations of one id stand at one path, so they are the same. -/
theorem declarations_unique {d d' : Declaration} (hd : d ∈ declarations tree) (hd' : d' ∈ declarations tree)
    (hid : d.id = d'.id) : d = d' := by
  obtain ⟨path, above, leaf, value, hposition, hpath, hraw, hkind⟩ := (mem_declarations htree).1 hd
  obtain ⟨path', above', leaf', value', hposition', hpath', hraw', hkind'⟩ := (mem_declarations htree).1 hd'
  obtain rfl : path = path' := by
    rw [← hposition.splitId_joinPath hnames, ← hposition'.splitId_joinPath hnames, ← hpath, ← hpath', hid]
  obtain ⟨rfl, rfl, rfl⟩ := hposition.unique hposition'
  cases d
  cases d'
  simp only [Declaration.mk.injEq]
  exact ⟨hid, hkind.trans hkind'.symm, hraw.unique hraw'⟩

theorem declarationMap_get?_eq_some :
    (declarationMap tree).get? id = some d ↔ d ∈ declarations tree ∧ d.id = id := by
  have hmem {d : Declaration} : (id, d) ∈ (declarations tree).map (fun d => (d.id, d)) ↔
      d ∈ declarations tree ∧ d.id = id := by
    rw [List.mem_map]
    constructor
    · rintro ⟨d', hd', heq⟩
      obtain ⟨hid, rfl⟩ := Prod.mk.inj heq
      exact ⟨hd', hid⟩
    · rintro ⟨hd, rfl⟩
      exact ⟨d, hd, rfl⟩
  rw [declarationMap, ← hmem]
  refine SortedMap.get?_ofList_eq_some fun d hd d' hd' => ?_
  rw [hmem] at hd hd'
  exact declarations_unique htree hnames hd.1 hd'.1 (hd.2.trans hd'.2.symm)

/-- Joining its names takes each position of a token to its id, and this loses, merges and adds no
token. What is declared for the id is the value there, with the type that is nearest to it. -/
theorem declarationMap_bijOn :
    Set.BijOn joinPath {path | ∃ above leaf value, tree.Position path above leaf value}
      {id | id ∈ (declarationMap tree).keys} ∧
    ∀ path above leaf value, tree.Position path above leaf value →
      ∃ d, (declarationMap tree).get? (joinPath path) = some d ∧ d.id = joinPath path ∧
        TokenValue.Declared value d.raw ∧ d.refs = d.raw.refs ∧ d.kind = nearestType above leaf := by
  have hget {path : List String} {above : List Json} {leaf value : Json}
      (hposition : tree.Position path above leaf value) :
      ∃ d, (declarationMap tree).get? (joinPath path) = some d ∧ d.id = joinPath path ∧
        TokenValue.Declared value d.raw ∧ d.refs = d.raw.refs ∧ d.kind = nearestType above leaf := by
    obtain ⟨raw, hraw⟩ := TokenValue.exists_declared_iff.2 hposition.ne_null
    have hd : ⟨joinPath path, nearestType above leaf, raw⟩ ∈ declarations tree :=
      (mem_declarations htree).2 ⟨path, above, leaf, value, hposition, rfl, hraw, rfl⟩
    exact ⟨_, (declarationMap_get?_eq_some htree hnames).2 ⟨hd, rfl⟩, rfl, hraw, rfl, rfl⟩
  refine ⟨⟨?_, ?_, ?_⟩, fun path above leaf value => hget⟩
  · rintro path ⟨above, leaf, value, hposition⟩
    obtain ⟨d, hd, -⟩ := hget hposition
    exact (SortedMap.mem_keys _).2 (Option.isSome_iff_exists.2 ⟨d, hd⟩)
  · rintro path ⟨above, leaf, value, hposition⟩ path' ⟨above', leaf', value', hposition'⟩ hjoin
    rw [← hposition.splitId_joinPath hnames, ← hposition'.splitId_joinPath hnames, hjoin]
  · intro id hid
    obtain ⟨d, hget⟩ := Option.isSome_iff_exists.1 ((SortedMap.mem_keys _).1 hid)
    obtain ⟨hmem, rfl⟩ := (declarationMap_get?_eq_some htree hnames).1 hget
    obtain ⟨path, above, leaf, value, hposition, hpath, -⟩ := (mem_declarations htree).1 hmem
    exact ⟨path, ⟨above, leaf, value, hposition⟩, hpath.symm⟩

end Undotted

/-- A colour with members that are not looked at; its own type is no text. -/
def foreground : Json :=
  .obj [("$type", .num (.int 1)), ("$value", .str "{color.size}"), ("x", .obj [("$value", .str "#fff")])]

/-- It stands beside a size, a token without a value and a group of reserved name. -/
def colors : Json :=
  .obj [("$description", .obj [("old", .obj [("$value", .str "#000")])]), ("$type", .str "color"),
    ("empty", .obj [("$value", .null)]), ("fg", foreground),
    ("size", .obj [("$type", .str "dimension"), ("$value", .arr [.num (.int 4), .str "px"])])]

theorem declarationMap_bijOn_colors : ∃ d, (Json.obj [("color", colors)]).Normal ∧
    (∀ name ∈ (Json.obj [("color", colors)]).names, '.' ∉ name.toList) ∧
    Set.BijOn joinPath
      {path | ∃ above leaf value, (Json.obj [("color", colors)]).Position path above leaf value}
      {id | id ∈ ["color.fg", "color.size"]} ∧
    (declarationMap (.obj [("color", colors)])).get? "color.fg" = some d ∧ d.raw = .text "{color.size}" ∧
    d.refs = ["color.size"] ∧ d.kind = some "color" := by
  have hnormal : (Json.obj [("color", colors)]).Normal := Json.normal_normal (.obj [("color", colors)])
  have hnames : ∀ name ∈ (Json.obj [("color", colors)]).names, '.' ∉ name.toList := by decide +kernel
  have hkeys : (declarationMap (.obj [("color", colors)])).keys = ["color.fg", "color.size"] := by
    decide +kernel
  have hposition : (Json.obj [("color", colors)]).Position ["color", "fg"]
      [.obj [("color", colors)], colors] foreground (.str "{color.size}") :=
    ⟨.through rfl rfl (.through rfl rfl (.here _)), by decide, by decide +kernel, rfl, nofun⟩
  obtain ⟨hbij, hdeclared⟩ := declarationMap_bijOn hnormal hnames
  obtain ⟨d, hget, -, hraw, hrefs, hkind⟩ := hdeclared _ _ _ _ hposition
  have htext : d.raw = .text "{color.size}" := hraw.unique (.text _)
  refine ⟨d, hnormal, hnames, hkeys ▸ hbij, hget, htext, ?_, hkind⟩
  rw [hrefs, htext]
  decide +kernel

end DesignTokens
