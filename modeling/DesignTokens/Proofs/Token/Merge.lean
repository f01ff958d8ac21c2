import DesignTokens.Proofs.Token.Ends
import DesignTokens.Token.Merge

/-!
# What merged trees hold

* `j.group?`, `j.child? name`, `j.groupAt? path` : the members of a group, one of them, and those of the group
  that a path leads to;
* `j.LeavesAtGroup path` : the path goes on from a group of the tree by a name that this does not have;
* `child?_merge` : a member of a merged group is merged if both trees have one, and else taken as it is;
* `endAt?_merge_eq_some`, `groupAt?_merge`, `merge_merge` : the ends and groups of a merged tree, and what
  merging again does; `ends_merge` has the three together.
-/

namespace DesignTokens

variable {a b j e child : Json} {bs os ms : List (String × Json)} {path : List String} {name : String}

/-! ## Groups and their members -/

namespace Json

/-- The members, if the document is a group. -/
def group? : Json → Option (List (String × Json))
  | obj ms => if isTokenObject ms then none else some ms
  | _ => none

/-- The member of a name, if the document is a group that has one. -/
def child? (name : String) (j : Json) : Option Json := j.group?.bind (List.lookup name)

/-- The members of the group that a path leads to, through groups only. -/
def groupAt? : List String → Json → Option (List (String × Json))
  | [], j => j.group?
  | name :: path, j => (j.child? name).bind (groupAt? path)

/-- The path goes on from a group by a name that the group does not have. -/
def LeavesAtGroup (j : Json) (path : List String) : Prop :=
  ∃ way name rest ms, path = way ++ name :: rest ∧ j.groupAt? way = some ms ∧ ms.lookup name = none

theorem group?_eq_some : j.group? = some ms ↔ j = obj ms ∧ isTokenObject ms = false := by
  cases j with
  | obj ns =>
    rw [group?]
    constructor
    · intro h
      split at h
      · cases h
      · rename_i htoken
        cases h
        exact ⟨rfl, by simpa using htoken⟩
    · rintro ⟨heq, htoken⟩
      cases heq
      simp [htoken]
  | _ => simp [group?]

theorem endAt?_nil (j : Json) : j.endAt? [] = if j.group?.isSome then none else some j := by
  cases j with
  | obj ms => cases h : isTokenObject ms <;> simp [endAt?, group?, h]
  | _ => rfl

theorem endAt?_cons (name : String) (path : List String) (j : Json) :
    j.endAt? (name :: path) = (j.child? name).bind (endAt? path) := by
  cases j with
  | obj ms => cases h : isTokenObject ms <;> simp [endAt?, child?, group?, h]
  | _ => rfl

theorem not_leavesAtGroup_nil (j : Json) : ¬ j.LeavesAtGroup [] := by
  rintro ⟨way, name, rest, ms, heq, -⟩
  simp at heq

theorem leavesAtGroup_cons : j.LeavesAtGroup (name :: path) ↔
    j.group?.isSome ∧ ∀ child, j.child? name = some child → child.LeavesAtGroup path := by
  constructor
  · rintro ⟨way, last, rest, ms, heq, hgroup, hnone⟩
    cases way with
    | nil =>
      obtain ⟨rfl, rfl⟩ := List.cons.inj heq
      rw [groupAt?] at hgroup
      simp [hgroup, child?, hnone]
    | cons first way =>
      obtain ⟨rfl, rfl⟩ := List.cons.inj heq
      obtain ⟨child, hchild, hgroup⟩ := Option.bind_eq_some_iff.1 hgroup
      obtain ⟨ns, hns, -⟩ := Option.bind_eq_some_iff.1 hchild
      refine ⟨by rw [hns]; rfl, fun child' hchild' => ?_⟩
      cases hchild.symm.trans hchild'
      exact ⟨way, last, rest, ms, rfl, hgroup, hnone⟩
  · rintro ⟨hsome, hleaves⟩
    obtain ⟨ms, hms⟩ := Option.isSome_iff_exists.1 hsome
    cases hchild : j.child? name with
    | none =>
      rw [child?, hms] at hchild
      exact ⟨[], name, path, ms, rfl, hms, hchild⟩
    | some child =>
      obtain ⟨way, last, rest, ns, rfl, hgroup, hnone⟩ := hleaves child hchild
      exact ⟨name :: way, last, rest, ns, rfl, by rw [groupAt?, hchild]; exact hgroup, hnone⟩

/-- The members of a normal document are normal. -/
theorem normal_of_child? (hj : j.Normal) (h : j.child? name = some child) : child.Normal := by
  obtain ⟨ms, hms, hchild⟩ := Option.bind_eq_some_iff.1 h
  obtain ⟨rfl, -⟩ := group?_eq_some.1 hms
  exact hj.of_lookup hchild

end Json

/-! ## Merging groups -/

theorem merge_null (j : Json) : merge .null j = j := by
  cases j <;> simp [merge]

theorem merge_eq_overlay (h : a.group? = none ∨ b.group? = none) : merge a b = b := by
  cases b with
  | obj os =>
    cases a with
    | obj bs =>
      rw [merge, if_pos]
      simpa [Json.group?] using h
    | _ => simp [merge]
  | _ => simp [merge]

theorem merge_groups (ha : a.group? = some bs) (hb : b.group? = some os) :
    merge a b = .obj (mergeMembers bs os) := by
  obtain ⟨rfl, hbase⟩ := Json.group?_eq_some.1 ha
  obtain ⟨rfl, hoverlay⟩ := Json.group?_eq_some.1 hb
  rw [merge, if_neg (by simp [hbase, hoverlay])]

theorem mergeMembers_cons (bs : List (String × Json)) (name : String) (j : Json) (os : List (String × Json)) :
    mergeMembers bs ((name, j) :: os) =
      mergeMembers (insertEntry name (merge ((bs.lookup name).getD .null) j) bs) os := by
  rw [mergeMembers]
  cases bs.lookup name with
  | none => rw [Option.getD_none, merge_null]
  | some b => rfl

theorem lookup_mergeMembers (hos : (os.map (·.1)).Nodup) (bs : List (String × Json)) (name : String) :
    (mergeMembers bs os).lookup name =
      ((os.lookup name).map (merge ((bs.lookup name).getD .null))).or (bs.lookup name) := by
  induction os generalizing bs with
  | nil => simp [mergeMembers]
  | cons o os ih =>
    obtain ⟨key, j⟩ := o
    obtain ⟨hkey, hos⟩ := List.nodup_cons.1 hos
    rw [mergeMembers_cons, ih hos, lookup_insertEntry, List.lookup_cons]
    by_cases hname : name = key
    · subst hname
      have hnone : os.lookup name = none := by
        refine List.lookup_eq_none_iff.2 fun m hm => bne_iff_ne.2 ?_
        rintro heq
        exact hkey (List.mem_map.2 ⟨m, hm, heq.symm⟩)
      simp [hnone]
    · have hne : (name == key) = false := by simpa using hname
      simp [hne]

/-- What is merged is a group if the overlay is one. -/
theorem group?_merge (hb : b.Normal) (hgroup : b.group?.isSome) : ∃ ms, (merge a b).group? = some ms ∧
    ∀ name, ms.lookup name =
      ((b.child? name).map (merge ((a.child? name).getD .null))).or (a.child? name) := by
  obtain ⟨os, hos⟩ := Option.isSome_iff_exists.1 hgroup
  cases ha : a.group? with
  | none =>
    rw [merge_eq_overlay (.inl ha)]
    refine ⟨os, hos, fun name => ?_⟩
    simp only [Json.child?, ha, hos, Option.bind_none, Option.bind_some, Option.getD_none]
    cases os.lookup name <;> simp [merge_null]
  | some bs =>
    obtain ⟨rfl, hbase⟩ := Json.group?_eq_some.1 ha
    obtain ⟨rfl, hoverlay⟩ := Json.group?_eq_some.1 hos
    rw [Json.Normal] at hb
    have hlookup := lookup_mergeMembers hb.1.nodup_keys bs
    refine ⟨mergeMembers bs os, ?_, fun name => ?_⟩
    · rw [merge_groups ha hos, Json.group?_eq_some, isTokenObject, hlookup]
      rw [isTokenObject, Option.isSome_eq_false_iff, Option.isNone_iff_eq_none] at hbase hoverlay
      simp [hbase, hoverlay]
    · rw [hlookup, Json.child?, Json.child?, ha, hos]
      rfl

theorem child?_merge (hb : b.Normal) (hgroup : b.group?.isSome) (name : String) : (merge a b).child? name =
    ((b.child? name).map (merge ((a.child? name).getD .null))).or (a.child? name) := by
  obtain ⟨ms, hms, hlookup⟩ := group?_merge (a := a) hb hgroup
  rw [Json.child?, hms, Option.bind_some, hlookup]

/-! ## The ends of what is merged -/

/-- By induction on the path: as long as it stays in groups of both trees, the member of its next name is
merged or taken from the tree that has one. -/
theorem endAt?_merge_eq_some (hb : b.Normal) : (merge a b).endAt? path = some e ↔
    b.endAt? path = some e ∨ (a.endAt? path = some e ∧ b.LeavesAtGroup path) := by
  induction path generalizing a b with
  | nil =>
    rw [or_iff_left fun h => b.not_leavesAtGroup_nil h.2]
    cases hgroup : b.group? with
    | none => rw [merge_eq_overlay (.inr hgroup)]
    | some os =>
      obtain ⟨ms, hms, -⟩ := group?_merge (a := a) hb (by rw [hgroup]; rfl)
      simp [Json.endAt?_nil, hms, hgroup]
  | cons name path ih =>
    rw [Json.leavesAtGroup_cons]
    cases hgroup : b.group? with
    | none => simp [merge_eq_overlay (.inr hgroup)]
    | some os =>
      rw [Json.endAt?_cons, child?_merge hb (by rw [hgroup]; rfl), Json.endAt?_cons, Json.endAt?_cons]
      cases hchild : b.child? name with
      | none => simp
      | some child =>
        rw [Option.map_some, Option.some_or, Option.bind_some, Option.bind_some,
          ih (Json.normal_of_child? hb hchild)]
        cases hbase : a.child? name with
        | none =>
          -- A document that takes the place of none has no ends that are kept.
          cases path with
          | nil => simp [child.not_leavesAtGroup_nil]
          | cons next path => simp [Json.endAt?]
        | some base => simp

theorem groupAt?_merge (hb : b.Normal) (h : b.groupAt? path = some os) : ∃ ms,
    (merge a b).groupAt? path = some ms ∧ ∀ name, (os.lookup name).isSome → (ms.lookup name).isSome := by
  induction path generalizing a b with
  | nil =>
    rw [Json.groupAt?] at h
    obtain ⟨ms, hms, hlookup⟩ := group?_merge (a := a) hb (by rw [h]; rfl)
    refine ⟨ms, hms, fun name hname => ?_⟩
    obtain ⟨child, hchild⟩ := Option.isSome_iff_exists.1 hname
    simp [hlookup, Json.child?, h, hchild]
  | cons name path ih =>
    obtain ⟨child, hchild, hgroup⟩ := Option.bind_eq_some_iff.1 h
    have hsome : b.group?.isSome := by
      obtain ⟨ns, hns, -⟩ := Option.bind_eq_some_iff.1 hchild
      rw [hns]
      rfl
    obtain ⟨ms, hms, hnames⟩ := ih (Json.normal_of_child? hb hchild) hgroup
    refine ⟨ms, ?_, hnames⟩
    rw [Json.groupAt?, child?_merge hb hsome, hchild, Option.map_some, Option.some_or, Option.bind_some]
    exact hms

/-! ## Merging again -/

mutual

theorem normal_merge : ∀ {b a : Json}, a.Normal → b.Normal → (merge a b).Normal
  | .obj os, a, ha, hb => by
    cases hgroups : a.group? with
    | none => rwa [merge_eq_overlay (.inl hgroups)]
    | some bs =>
      obtain ⟨rfl, -⟩ := Json.group?_eq_some.1 hgroups
      rw [merge]
      split
      · exact hb
      · exact normal_mergeMembers ha hb.2
  | .null, _, _, _ => by simp [merge, Json.Normal]
  | .bool _, _, _, _ => by simp [merge, Json.Normal]
  | .num _, _, _, _ => by simp [merge, Json.Normal]
  | .str _, _, _, _ => by simp [merge, Json.Normal]
  | .arr _, _, _, hb => by rwa [merge]

theorem normal_mergeMembers : ∀ {os bs : List (String × Json)}, (Json.obj bs).Normal →
    Json.NormalMembers os → (Json.obj (mergeMembers bs os)).Normal
  | [], bs, hbs, _ => by rwa [mergeMembers]
  | (name, j) :: os, bs, hbs, hos => by
    have hbase : ((bs.lookup name).getD .null).Normal := by
      cases hlookup : bs.lookup name with
      | none => trivial
      | some base => exact hbs.of_lookup hlookup
    rw [mergeMembers_cons]
    exact normal_mergeMembers (Json.normal_insertEntry (normal_merge hbase hos.1) hbs) hos.2

end

theorem mergeMembers_eq_self (hms : Ascending ms)
    (h : ∀ m ∈ os, ∃ j, ms.lookup m.1 = some j ∧ merge j m.2 = j) : mergeMembers ms os = ms := by
  induction os with
  | nil => rw [mergeMembers]
  | cons m os ih =>
    obtain ⟨⟨j, hlookup, hmerge⟩, hos⟩ := List.forall_mem_cons.1 h
    rw [mergeMembers_cons, hlookup, Option.getD_some, hmerge, hms.insertEntry_of_lookup hlookup, ih hos]

mutual

/-- By recursion on the overlay: each of its members is merged into a member that it was merged into
before. -/
theorem merge_merge : ∀ {b a : Json}, a.Normal → b.Normal → merge (merge a b) b = merge a b
  | .obj os, a, ha, hb => by
    cases htoken : isTokenObject os with
    | true =>
      have hnone : (Json.obj os).group? = none := by rw [Json.group?, if_pos htoken]
      rw [merge_eq_overlay (.inr hnone), merge_eq_overlay (.inr hnone)]
    | false =>
      have hgroup : (Json.obj os).group? = some os := Json.group?_eq_some.2 ⟨rfl, htoken⟩
      obtain ⟨ms, hms, hlookup⟩ := group?_merge (a := a) hb (by rw [hgroup]; rfl)
      obtain ⟨hmerged, -⟩ := Json.group?_eq_some.1 hms
      have hnormal := normal_merge ha hb
      rw [hmerged] at hnormal
      rw [merge_groups hms hgroup, hmerged, mergeMembers_eq_self hnormal.1 fun m hm => ?_]
      have hchild : (Json.obj os).child? m.1 = some m.2 := by
        rw [Json.child?, hgroup]
        exact hb.1.lookup_eq_some.2 hm
      refine ⟨_, by rw [hlookup, hchild, Option.map_some, Option.some_or], ?_⟩
      refine merge_merge_of_mem hb.2 m hm ?_
      cases hbase : a.child? m.1 with
      | none => trivial
      | some base => exact Json.normal_of_child? ha hbase
  | .null, _, _, _ => by simp [merge]
  | .bool _, _, _, _ => by simp [merge]
  | .num _, _, _, _ => by simp [merge]
  | .str _, _, _, _ => by simp [merge]
  | .arr _, _, _, _ => by simp [merge]

theorem merge_merge_of_mem : ∀ {os : List (String × Json)}, Json.NormalMembers os → ∀ m ∈ os, ∀ {a : Json},
    a.Normal → merge (merge a m.2) m.2 = merge a m.2
  | [], _, _, hm, _, _ => by cases hm
  | (name, j) :: os, hos, m, hm, a, ha => by
    rcases List.mem_cons.1 hm with heq | hm
    · rw [heq]
      exact merge_merge ha hos.1
    · exact merge_merge_of_mem hos.2 m hm ha

end

/-- The ends of the merged tree are those of the overlay, with those of the base whose path leaves the overlay
at a group that does not have its next name. Each group of the overlay is there with its names, and merging
the overlay once more changes nothing. -/
theorem ends_merge (ha : a.Normal) (hb : b.Normal) :
    (∀ path e, (merge a b).endAt? path = some e ↔
      b.endAt? path = some e ∨ (a.endAt? path = some e ∧ b.LeavesAtGroup path)) ∧
    (∀ path os, b.groupAt? path = some os → ∃ ms, (merge a b).groupAt? path = some ms ∧
      ∀ name, (os.lookup name).isSome → (ms.lookup name).isSome) ∧
    merge (merge a b) b = merge a b :=
  ⟨fun _ _ => endAt?_merge_eq_some hb, fun _ _ => groupAt?_merge hb, merge_merge ha hb⟩

/-- A group with a token and a nested one, a size and a number. -/
def baseTree : Json :=
  .obj [("color", .obj [("bg", .obj [("$value", .str "#fff")]), ("fg", .obj [("$value", .str "#000")])]),
    ("size", .obj [("sm", .obj [("$type", .str "dimension"), ("$value", .str "4px")])]), ("x", .num (.int 5))]

/-- A group in the place of a token, a token in the place of another, and groups that are new. -/
def overlayTree : Json :=
  .obj [("color", .obj [("fg", .obj [("new", .obj [("$value", .str "#111")])])]),
    ("size", .obj [("md", .obj []), ("sm", .obj [("$value", .null)])]), ("x", .obj [("y", .arr [])])]

theorem ends_merge_overlayTree : baseTree.Normal ∧ overlayTree.Normal ∧
    (merge baseTree overlayTree).endAt? ["color", "bg"] = some (.obj [("$value", .str "#fff")]) ∧
    (merge baseTree overlayTree).endAt? ["size", "sm"] = some (.obj [("$value", .null)]) ∧
    (∀ e, (merge baseTree overlayTree).endAt? ["color", "fg"] ≠ some e) ∧
    (∃ ms, (merge baseTree overlayTree).groupAt? ["size", "md"] = some ms) ∧
    merge (merge baseTree overlayTree) overlayTree = merge baseTree overlayTree := by
  have hbase : baseTree.Normal := Json.normal_normal baseTree
  have hoverlay : overlayTree.Normal := Json.normal_normal overlayTree
  obtain ⟨hends, hgroups, hagain⟩ := ends_merge hbase hoverlay
  refine ⟨hbase, hoverlay, (hends _ _).2 (.inr ⟨rfl, ["color"], "bg", [], _, rfl, rfl, rfl⟩),
    (hends _ _).2 (.inl rfl), fun e he => ?_, ?_, hagain⟩
  · rcases (hends _ _).1 he with hoverlay | ⟨-, hleaves⟩
    · cases hoverlay
    · rw [Json.leavesAtGroup_cons] at hleaves
      have hfg := hleaves.2 _ rfl
      rw [Json.leavesAtGroup_cons] at hfg
      exact Json.not_leavesAtGroup_nil _ (hfg.2 _ rfl)
  · obtain ⟨ms, hms, -⟩ := hgroups ["size", "md"] [] rfl
    exact ⟨ms, hms⟩

end DesignTokens
