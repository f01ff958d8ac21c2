import DesignTokens.Engine
import DesignTokens.Proofs.Dependency.Order
import DesignTokens.Proofs.Token.Substitute

/-!
# The alias equations

* `Solves raws values` : the values belong to the same ids as the declared ones, each is its declared
  value if that cites nothing, and else the declared value with the values cited filled in;
* `Layered raws rank` : every id has a higher rank than those that it cites. Then there is at most one
  solution (`Solves.unique`);
* `Values.Closed raws` : every id that a declared value cites has one itself;
* `g.Covers raws`, `g.Reflects raws` : the graph has every citation, or just these;
* `foldl_refreshOne_get?` : resolving ids again, each after those that it cites, makes their equations
  true and keeps all other values.
-/

namespace DesignTokens

/-- What a declared value comes to. -/
def TokenValue.resolvedBy (lookup : String → Option TokenValue) (v : TokenValue) : TokenValue :=
  if v.refs = [] then v else substitute lookup v

theorem TokenValue.resolvedBy_congr {f g : String → Option TokenValue} {v : TokenValue}
    (h : ∀ id ∈ v.refs, f id = g id) : v.resolvedBy f = v.resolvedBy g := by
  rw [resolvedBy, resolvedBy, substitute_congr h]

/-- The values are a solution of the equations of the declared values. -/
structure Solves (raws values : Values) : Prop where
  keys : values.keys = raws.keys
  equation : ∀ ⦃id d⦄, raws.get? id = some d → values.get? id = some (d.resolvedBy values.get?)

/-- Every id has a higher rank than those that its declared value cites. -/
def Layered (raws : Values) (rank : String → Nat) : Prop :=
  ∀ ⦃id d r⦄, raws.get? id = some d → r ∈ d.refs → rank r < rank id

variable {raws values v w : Values} {id x : String} {d : TokenValue}

theorem Solves.get?_eq_none (h : Solves raws values) (hid : raws.get? id = none) :
    values.get? id = none := by
  rw [SortedMap.get?_eq_none] at hid ⊢
  rwa [h.keys]

/-- By induction on the rank: the values that an equation reads are those of lower ranks. -/
theorem Solves.unique {rank : String → Nat} (hrank : Layered raws rank) (hv : Solves raws v)
    (hw : Solves raws w) : v = w := by
  have agree (n : Nat) : ∀ id, rank id = n → v.get? id = w.get? id := by
    induction n using Nat.strongRecOn with
    | _ n ih =>
      intro id hid
      cases hd : raws.get? id with
      | none => rw [hv.get?_eq_none hd, hw.get?_eq_none hd]
      | some d =>
        rw [hv.equation hd, hw.equation hd]
        refine congrArg some (TokenValue.resolvedBy_congr fun r hr => ?_)
        exact ih (rank r) (hid ▸ hrank hd hr) r rfl
  exact SortedMap.ext_get? fun id => agree (rank id) id rfl

/-! ## Citations in a graph -/

/-- Every id that a declared value cites has a declared value itself. -/
def Values.Closed (raws : Values) : Prop :=
  ∀ ⦃id d r⦄, raws.get? id = some d → r ∈ d.refs → r ∈ raws.keys

namespace DependencyGraph

variable {g : DependencyGraph} {rank : String → Nat}

/-- Every citation of a declared value is one of the graph. -/
def Covers (g : DependencyGraph) (raws : Values) : Prop :=
  ∀ ⦃id d r⦄, raws.get? id = some d → r ∈ d.refs → g.Feeds r id

/-- The citations of the graph are those of the declared values. -/
def Reflects (g : DependencyGraph) (raws : Values) : Prop :=
  ∀ a b, g.Feeds a b ↔ ∃ d, raws.get? b = some d ∧ a ∈ d.refs

theorem Covers.layered (h : g.Covers raws) (hrank : g.Ranks rank) : Layered raws rank :=
  fun _ _ _ hd hr => hrank _ _ (h hd hr)

theorem Reflects.covers (h : g.Reflects raws) : g.Covers raws :=
  fun _ d _ hd hr => (h _ _).2 ⟨d, hd, hr⟩

theorem Reflects.ranks_iff (h : g.Reflects raws) : g.Ranks rank ↔ Layered raws rank := by
  refine ⟨h.covers.layered, fun hrank a b hab => ?_⟩
  obtain ⟨d, hd, ha⟩ := (h a b).1 hab
  exact hrank hd ha

end DependencyGraph

/-! ## Resolving one id again -/

namespace Engine

theorem refreshOne_of_some (hd : raws.get? id = some d) (values : Values) :
    refreshOne raws values id =
      if d.refs = [] then values else values.insert id (substitute values.get? d) := by
  rw [refreshOne, hd]
  by_cases h : d.refs = [] <;> simp [TokenValue.hasPlaceholder, h]

theorem refreshOne_get?_of_ne (h : x ≠ id) : (refreshOne raws values id).get? x = values.get? x := by
  cases hd : raws.get? id with
  | none => rw [refreshOne, hd]
  | some d =>
    rw [refreshOne_of_some hd]
    split
    · rfl
    · exact SortedMap.get?_insert_of_ne values _ h

theorem refreshOne_keys (h : raws.keys ⊆ values.keys) :
    (refreshOne raws values id).keys = values.keys := by
  cases hd : raws.get? id with
  | none => rw [refreshOne, hd]
  | some d =>
    have hid : id ∈ values.keys := h (raws.mem_keys.2 (hd ▸ rfl))
    rw [refreshOne_of_some hd]
    split
    · rfl
    · exact SortedMap.keys_insert_of_mem hid _

/-! ## Resolving several ids again -/

theorem foldl_refreshOne_get?_of_not_mem {ids : List String} (h : x ∉ ids) :
    (ids.foldl (refreshOne raws) values).get? x = values.get? x := by
  induction ids generalizing values with
  | nil => rfl
  | cons id ids ih =>
    obtain ⟨hid, hids⟩ := not_or.1 (mt List.mem_cons.2 h)
    rw [List.foldl_cons, ih hids, refreshOne_get?_of_ne hid]

theorem foldl_refreshOne_keys (h : raws.keys ⊆ values.keys) (ids : List String) :
    (ids.foldl (refreshOne raws) values).keys = values.keys := by
  induction ids generalizing values with
  | nil => rfl
  | cons id ids ih =>
    have hid : (refreshOne raws values id).keys = values.keys := refreshOne_keys h
    rw [List.foldl_cons, ih (hid ▸ h), hid]

/-- Each id reads values that are final: what it cites in the scope came before it, and what it cites
outside is not touched. -/
theorem foldl_refreshOne_get? {g : DependencyGraph} {scope : String → Bool} {done ids : List String}
    (hg : g.WellFormed) (hcovers : ∀ ⦃d r⦄, raws.get? x = some d → r ∈ d.refs → g.Feeds r x)
    (horder : g.InOrder scope done ids) (hscope : ∀ id ∈ ids, scope id) (hx : x ∈ ids)
    (hd : raws.get? x = some d) (hplain : d.refs = [] → values.get? x = some d) :
    (ids.foldl (refreshOne raws) values).get? x =
      some (d.resolvedBy (ids.foldl (refreshOne raws) values).get?) := by
  induction ids generalizing done values with
  | nil => cases hx
  | cons id ids ih =>
    have hnodup := List.nodup_cons.1 horder.nodup
    obtain ⟨hnew, hrefs, hids⟩ := horder
    rw [List.foldl_cons]
    by_cases hxid : x = id
    · subst hxid
      rw [foldl_refreshOne_get?_of_not_mem hnodup.1, refreshOne_of_some hd, TokenValue.resolvedBy]
      split
      · rename_i h
        exact hplain h
      · rw [SortedMap.get?_insert_self]
        refine congrArg some (substitute_congr fun r hr => ?_)
        have href : r ∈ g.references x := hg.converse.1 (hcovers hd hr)
        have hr : r ≠ x ∧ r ∉ ids := by
          by_cases hs : scope r
          · have hdone := hrefs r href hs
            exact ⟨fun h => hnew (h ▸ hdone),
              fun h => hids.not_mem_done h (List.mem_cons_of_mem x hdone)⟩
          · exact ⟨fun h => hs (h ▸ hscope x List.mem_cons_self),
              fun h => hs (hscope r (List.mem_cons_of_mem x h))⟩
        rw [foldl_refreshOne_get?_of_not_mem hr.2, SortedMap.get?_insert_of_ne values _ hr.1]
    · refine ih hids (fun y hy => hscope y (List.mem_cons_of_mem id hy))
        ((List.mem_cons.1 hx).resolve_left hxid) fun h => ?_
      rw [refreshOne_get?_of_ne hxid, hplain h]

end Engine

end DesignTokens
