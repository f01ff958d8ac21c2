import DesignTokens.Proofs.Except
import DesignTokens.Proofs.SortedMap
import DesignTokens.Token.Override

/-!
# Putting a value, all or nothing

* `assign id value tree` : the tree in which the token at the path of the id has the value, or the
  error. No tree comes with the error;
* `put_eq_none_iff` : a walk comes to the end of the path if and only if the value can be assigned, and
  it leaves the tree of the assignment;
* `put_of_error` : a walk that ends early leaves the tree as it was. The groups that it makes are empty,
  so nothing below them ends it (`exists_assignFrom_empty`), and a walk that ends early has made none.
-/

namespace DesignTokens

variable {path walked : List String} {name id : String} {value j j' child : Json} {v : TokenValue}
  {tree tree' : Json} {ms : List (String × Json)} {e : OverrideError}

/-- The tree in which the token at a path has the value, or the part of the path that leads to what
is no group; `walked` is the path up to here. -/
def assignFrom (value : Json) (walked : List String) :
    List String → Json → Except (List String) Json
  | [], .obj ms => .ok (.obj (insertEntry "$value" value ms))
  | [], _ => .ok (.obj [("$value", value)])
  | name :: path, .obj ms =>
    if isTokenObject ms then .error walked
    else do
      let child ← assignFrom value (walked ++ [name]) path ((ms.lookup name).getD (.obj []))
      pure (.obj (insertEntry name child ms))
  | _ :: _, _ => .error walked

/-- The tree in which the token of an id has the value. -/
def assign (id : String) (value : TokenValue) (tree : Json) : Except OverrideError Json :=
  match assignFrom value.toJson [] (splitId id) tree with
  | .ok tree => .ok tree
  | .error walked => .error ⟨id, joinPath walked⟩

theorem assign_eq_ok : assign id v tree = .ok tree' ↔ assignFrom v.toJson [] (splitId id) tree = .ok tree' := by
  unfold assign
  cases assignFrom v.toJson [] (splitId id) tree <;> simp

theorem assign_eq_error : assign id v tree = .error e ↔
    ∃ stop, assignFrom v.toJson [] (splitId id) tree = .error stop ∧ e = ⟨id, joinPath stop⟩ := by
  unfold assign
  cases assignFrom v.toJson [] (splitId id) tree <;> simp [eq_comm]

/-! ## A walk to the end of the path -/

theorem assignFrom_cons_group (htoken : isTokenObject ms = false) :
    assignFrom value walked (name :: path) (.obj ms) =
      (assignFrom value (walked ++ [name]) path ((ms.lookup name).getD (.obj []))).map
        fun child => .obj (insertEntry name child ms) := by
  rw [assignFrom, if_neg (by simp [htoken])]
  cases assignFrom value (walked ++ [name]) path ((ms.lookup name).getD (.obj [])) <;> rfl

theorem putFrom_cons_group (htoken : isTokenObject ms = false) :
    putFrom value walked (name :: path) (.obj ms) =
      (.obj (insertEntry name
          (putFrom value (walked ++ [name]) path ((ms.lookup name).getD (.obj []))).1 ms),
        (putFrom value (walked ++ [name]) path ((ms.lookup name).getD (.obj []))).2) := by
  rw [putFrom, if_neg (by simp [htoken])]

theorem putFrom_cons_token (htoken : isTokenObject ms = true) :
    putFrom value walked (name :: path) (.obj ms) = (.obj ms, some walked) := by
  rw [putFrom, if_pos htoken]

theorem assignFrom_cons_token (htoken : isTokenObject ms = true) :
    assignFrom value walked (name :: path) (.obj ms) = .error walked := by
  rw [assignFrom, if_pos htoken]

theorem putFrom_of_ok (h : assignFrom value walked path j = .ok j') :
    putFrom value walked path j = (j', none) := by
  induction path generalizing walked j j' with
  | nil => cases j <;> cases h <;> rfl
  | cons name path ih =>
    cases j with
    | obj ms =>
      cases htoken : isTokenObject ms with
      | true =>
        rw [assignFrom_cons_token htoken] at h
        cases h
      | false =>
        rw [assignFrom_cons_group htoken] at h
        obtain ⟨child, hchild, rfl⟩ := map_eq_ok_iff.1 h
        rw [putFrom_cons_group htoken, ih hchild]
    | _ => cases h

theorem putFrom_snd_of_error {stop : List String} (h : assignFrom value walked path j = .error stop) :
    (putFrom value walked path j).2 = some stop := by
  induction path generalizing walked j with
  | nil => cases j <;> cases h
  | cons name path ih =>
    cases j with
    | obj ms =>
      cases htoken : isTokenObject ms with
      | true =>
        rw [assignFrom_cons_token htoken] at h
        cases h
        rw [putFrom_cons_token htoken]
      | false =>
        rw [assignFrom_cons_group htoken] at h
        rw [putFrom_cons_group htoken]
        exact ih (map_eq_error_iff.1 h)
    | _ =>
      cases h
      rfl

theorem put_of_ok (h : assign id v tree = .ok tree') : put id v tree = (tree', none) := by
  rw [put, putFrom_of_ok (assign_eq_ok.1 h)]
  rfl

theorem put_eq_none_iff : put id v tree = (tree', none) ↔ assign id v tree = .ok tree' := by
  refine ⟨fun h => ?_, put_of_ok⟩
  cases hassign : assign id v tree with
  | ok tree₁ =>
    rw [put_of_ok hassign] at h
    cases h
    rfl
  | error e =>
    obtain ⟨stop, hstop, -⟩ := assign_eq_error.1 hassign
    have hnone := congrArg Prod.snd h
    rw [put] at hnone
    simp [putFrom_snd_of_error hstop] at hnone

/-! ## A walk that ends early -/

/-- Below an empty group every path can be walked to its end. -/
theorem exists_assignFrom_empty (value : Json) (walked path : List String) :
    ∃ j', assignFrom value walked path (.obj []) = .ok j' := by
  induction path generalizing walked with
  | nil => exact ⟨_, rfl⟩
  | cons name path ih =>
    obtain ⟨child, hchild⟩ := ih (walked ++ [name])
    have hgroup : isTokenObject [] = false := rfl
    exact ⟨_, (assignFrom_cons_group hgroup).trans (map_eq_ok_iff.2 ⟨child, hchild, rfl⟩)⟩

theorem Json.Normal.of_lookup (hms : (Json.obj ms).Normal) (h : ms.lookup name = some child) :
    child.Normal := by
  rw [Json.Normal, Json.normalMembers_iff] at hms
  exact hms.2 _ (hms.1.lookup_eq_some.1 h)

/-- By induction on the path: a step that goes on goes into a member that was there, as the walk would not
end below one that it made, and enters the member again as it was. -/
theorem putFrom_fst_of_error {stop : List String} (hj : j.Normal)
    (h : assignFrom value walked path j = .error stop) : (putFrom value walked path j).1 = j := by
  induction path generalizing walked j with
  | nil => cases j <;> cases h
  | cons name path ih =>
    cases j with
    | obj ms =>
      cases htoken : isTokenObject ms with
      | true => rw [putFrom_cons_token htoken]
      | false =>
        rw [assignFrom_cons_group htoken] at h
        have hbelow := map_eq_error_iff.1 h
        rw [putFrom_cons_group htoken]
        cases hmember : ms.lookup name with
        | none =>
          obtain ⟨child, hchild⟩ := exists_assignFrom_empty value (walked ++ [name]) path
          rw [hmember] at hbelow
          cases hchild.symm.trans hbelow
        | some child =>
          rw [hmember] at hbelow
          have hsame := ih (hj.of_lookup hmember) hbelow
          have hascending : Ascending ms := hj.1
          dsimp only [Option.getD_some]
          rw [hsame, hascending.insertEntry_of_lookup hmember]
    | _ => rfl

theorem put_of_error (htree : tree.Normal) (h : assign id v tree = .error e) :
    put id v tree = (tree, some e) := by
  obtain ⟨stop, hstop, rfl⟩ := assign_eq_error.1 h
  have htreeSame := putFrom_fst_of_error htree hstop
  have hend := putFrom_snd_of_error hstop
  rw [put]
  dsimp only
  rw [htreeSame, hend]
  rfl

end DesignTokens
