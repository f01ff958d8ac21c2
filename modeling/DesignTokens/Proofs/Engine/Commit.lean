import DesignTokens.Proofs.Alias.Equations
import DesignTokens.Proofs.Dependency.Affected

/-!
# What one commit does to the values

* `e.refreshOrder id` : the tokens that a commit of `id` resolves again, in this order;
* `declare_get?_of_not_mem` : only the token and those that depend on it get other values;
* `declare_get?_of_mem_affected` : each of those that depend on it is filled in when its turn comes;
* `declare_equation_self`, `declare_equation_of_mem_affected`, `declare_equation_of_not_mem` : the alias
  equations of the token, of those that depend on it, and of all others;
* `declare_solves` : in an engine whose values solve the alias equations they still do after a
  commit, if the new value cites neither the token nor what depends on it;
* `declare_of_dependents_eq_nil` : a commit of a token on which nothing depends assigns its value.
-/

namespace DesignTokens

namespace Engine

/-- The tokens that a commit resolves again, each after those that it cites. -/
def refreshOrder (e : Engine) (id : String) : List String :=
  (e.graph.orderWithin ((e.affected id).contains ·)).1

/-- The values of a commit when some tokens have had their turn. -/
def valuesAfter (e : Engine) (id : String) (v : TokenValue) (done : List String) : Values :=
  done.foldl (refreshOne (e.raw.insert id v)) (e.values.insert id (substitute e.values.get? v))

variable {e : Engine} {id x : String} {v : TokenValue}

theorem declare_values (e : Engine) (id : String) (v : TokenValue) : (e.declare id v).values =
    (e.refreshOrder id).foldl (refreshOne (e.raw.insert id v))
      (e.values.insert id (substitute e.values.get? v)) := rfl

theorem commit_snd (e : Engine) (id : String) (v : TokenValue) : (e.commit id v).2 = e.declare id v := rfl

@[simp] theorem declare_raw (e : Engine) (id : String) (v : TokenValue) :
    (e.declare id v).raw = e.raw.insert id v := rfl

@[simp] theorem declare_graph (e : Engine) (id : String) (v : TokenValue) :
    (e.declare id v).graph = e.graph := rfl

/-! ## Which tokens are resolved again -/

theorem refreshOrder_split (hg : e.graph.WellFormed) (id : String) :
    e.graph.Split ((e.affected id).contains ·) (e.refreshOrder id)
      (e.graph.orderWithin ((e.affected id).contains ·)).2 :=
  DependencyGraph.orderWithin_split hg _

theorem mem_affected_of_mem_refreshOrder (hg : e.graph.WellFormed) (hx : x ∈ e.refreshOrder id) :
    x ∈ e.affected id :=
  List.contains_iff_mem.1 (((refreshOrder_split hg id).covers x).1 (.inl hx)).2

/-- Without a cycle no token is left over. -/
theorem mem_refreshOrder (hg : e.graph.WellFormed) {rank : String → Nat} (hrank : e.graph.Ranks rank) :
    x ∈ e.refreshOrder id ↔ x ∈ e.affected id := by
  refine ⟨mem_affected_of_mem_refreshOrder hg, ?_⟩
  intro hx
  have hsplit := refreshOrder_split hg id
  have hmem := (hsplit.covers x).2
    ⟨DependencyGraph.mem_nodes_of_mem_affected hx, List.contains_iff_mem.2 hx⟩
  rw [hsplit.stuck_eq_nil hg hrank] at hmem
  exact hmem.resolve_right List.not_mem_nil

/-! ## The values afterwards -/

theorem declare_get?_of_not_mem (hg : e.graph.WellFormed) (hne : x ≠ id) (hx : x ∉ e.affected id) :
    (e.declare id v).values.get? x = e.values.get? x := by
  rw [declare_values, foldl_refreshOne_get?_of_not_mem (mt (mem_affected_of_mem_refreshOrder hg) hx),
    SortedMap.get?_insert_of_ne _ _ hne]

theorem declare_get?_self (hg : e.graph.WellFormed) :
    (e.declare id v).values.get? id = some (substitute e.values.get? v) := by
  have hid : id ∉ e.refreshOrder id := by
    intro h
    exact DependencyGraph.not_mem_affected_self (mem_affected_of_mem_refreshOrder hg h)
  rw [declare_values, foldl_refreshOne_get?_of_not_mem hid, SortedMap.get?_insert_self]

theorem keys_insert_congr {raws values : Values} (h : values.keys = raws.keys) (id : String)
    (v w : TokenValue) : (values.insert id w).keys = (raws.insert id v).keys :=
  SortedMap.keys_eq_of_mem fun k => by rw [SortedMap.mem_keys_insert, SortedMap.mem_keys_insert, h]

theorem declare_keys (h : e.values.keys = e.raw.keys) (id : String) (v : TokenValue) :
    (e.declare id v).values.keys = (e.raw.insert id v).keys := by
  have hkeys := keys_insert_congr h id v (substitute e.values.get? v)
  rw [declare_values, foldl_refreshOne_keys (fun k hk => hkeys ▸ hk), hkeys]

/-! ## The equations afterwards -/

variable {d : TokenValue} {rank : String → Nat}

theorem insert_get?_of_mem_affected (hx : x ∈ e.affected id) (values : Values) (v : TokenValue) :
    (values.insert id v).get? x = values.get? x := by
  refine SortedMap.get?_insert_of_ne _ _ ?_
  rintro rfl
  exact DependencyGraph.not_mem_affected_self hx

/-- What depends on the token is resolved in order. -/
theorem declare_equation_of_mem_affected (hg : e.graph.WellFormed) (hrank : e.graph.Ranks rank)
    (hx : x ∈ e.affected id) (hd : e.raw.get? x = some d) (hcovers : ∀ r ∈ d.refs, e.graph.Feeds r x)
    (hplain : d.refs = [] → e.values.get? x = some d) :
    (e.declare id v).values.get? x = some (d.resolvedBy (e.declare id v).values.get?) := by
  have hraw : (e.raw.insert id v).get? x = some d := (insert_get?_of_mem_affected hx _ _).trans hd
  have hcited : ∀ ⦃d' r⦄, (e.raw.insert id v).get? x = some d' → r ∈ d'.refs → e.graph.Feeds r x := by
    intro d' r hd' hr
    rw [hraw, Option.some.injEq] at hd'
    exact hcovers r (hd' ▸ hr)
  have hscope : ∀ y ∈ e.refreshOrder id, (e.affected id).contains y := by
    intro y hy
    exact List.contains_iff_mem.2 (mem_affected_of_mem_refreshOrder hg hy)
  have hmem : x ∈ e.refreshOrder id := (mem_refreshOrder hg hrank).2 hx
  apply foldl_refreshOne_get? hg hcited (refreshOrder_split hg id).inOrder hscope hmem hraw
  intro h
  rw [insert_get?_of_mem_affected hx, hplain h]

/-- What depends on the token is filled in when its turn comes, whatever it cites by now. -/
theorem declare_get?_of_mem_affected (hg : e.graph.WellFormed) (hrank : e.graph.Ranks rank)
    (hx : x ∈ e.affected id) (hd : e.raw.get? x = some d) (hcites : d.refs ≠ []) :
    ∃ before after, e.refreshOrder id = before ++ x :: after ∧
      (e.declare id v).values.get? x = some (substitute (e.valuesAfter id v before).get? d) := by
  have hraw : (e.raw.insert id v).get? x = some d := (insert_get?_of_mem_affected hx _ _).trans hd
  obtain ⟨before, after, horder⟩ := List.append_of_mem ((mem_refreshOrder hg hrank).2 hx)
  have hafter : x ∉ after := by
    have hnodup := (refreshOrder_split hg id).inOrder.nodup
    rw [horder, List.nodup_append, List.nodup_cons] at hnodup
    exact hnodup.2.1.1
  refine ⟨before, after, horder, ?_⟩
  rw [declare_values, horder, List.foldl_append, List.foldl_cons, foldl_refreshOne_get?_of_not_mem hafter,
    refreshOne_of_some hraw, if_neg hcites, SortedMap.get?_insert_self, valuesAfter]

/-- What does not depend on the token reads values that stay. -/
theorem declare_equation_of_not_mem (hg : e.graph.WellFormed) (hcovers : e.graph.Covers e.raw)
    (hsolves : Solves e.raw e.values) (hne : x ≠ id) (hx : x ∉ e.affected id)
    (hd : e.raw.get? x = some d) :
    (e.declare id v).values.get? x = some (d.resolvedBy (e.declare id v).values.get?) := by
  rw [declare_get?_of_not_mem hg hne hx, hsolves.equation hd]
  congr 1
  apply TokenValue.resolvedBy_congr
  intro r hr
  have hout : ¬ (r = id ∨ r ∈ e.affected id) := by
    intro h
    exact (DependencyGraph.mem_affected_of_feeds hg h (hcovers hd hr)).elim hne hx
  rw [not_or] at hout
  rw [declare_get?_of_not_mem hg hout.1 hout.2]

/-- The new value is filled in from values that stay. -/
theorem declare_equation_self (hg : e.graph.WellFormed)
    (hrefs : ∀ r ∈ v.refs, r ≠ id ∧ r ∉ e.affected id) (hprinted : v.refs = [] → v.Printed) :
    (e.declare id v).values.get? id = some (v.resolvedBy (e.declare id v).values.get?) := by
  rw [declare_get?_self hg, TokenValue.resolvedBy]
  split
  · rename_i h
    rw [substitute_of_refs_eq_nil h (hprinted h)]
  · congr 1
    apply substitute_congr
    intro r hr
    obtain ⟨hne, hout⟩ := hrefs r hr
    rw [declare_get?_of_not_mem hg hne hout]

theorem declare_solves (hg : e.graph.WellFormed) (hrank : e.graph.Ranks rank)
    (hcovers : e.graph.Covers e.raw) (hsolves : Solves e.raw e.values)
    (hrefs : ∀ r ∈ v.refs, r ≠ id ∧ r ∉ e.affected id) (hprinted : v.refs = [] → v.Printed) :
    Solves (e.raw.insert id v) (e.declare id v).values := by
  refine ⟨declare_keys hsolves.keys id v, ?_⟩
  intro x d hd
  by_cases hne : x = id
  · subst hne
    rw [SortedMap.get?_insert_self, Option.some.injEq] at hd
    subst hd
    exact declare_equation_self hg hrefs hprinted
  · rw [SortedMap.get?_insert_of_ne _ _ hne] at hd
    by_cases hx : x ∈ e.affected id
    · refine declare_equation_of_mem_affected hg hrank hx hd (fun r hr => hcovers hd hr) fun h => ?_
      rw [hsolves.equation hd, TokenValue.resolvedBy, if_pos h]
    · exact declare_equation_of_not_mem hg hcovers hsolves hne hx hd

/-! ## A token on which nothing depends -/

/-- The engine in which a token has another value and all others keep theirs. -/
def assign (e : Engine) (id : String) (v : TokenValue) : Engine :=
  { e with
    raw := e.raw.insert id v
    values := e.values.insert id (substitute e.values.get? v) }

theorem declare_eq_refresh (e : Engine) (id : String) (v : TokenValue) :
    e.declare id v = (e.assign id v).refresh (e.affected id) := rfl

theorem refresh_nil (e : Engine) : e.refresh [] = e := by
  have hwaiting : e.graph.waitingWithin (fun id => ([] : List String).contains id) = [] := by
    simp [DependencyGraph.waitingWithin]
  unfold refresh DependencyGraph.orderWithin
  rw [hwaiting]
  simp [Waiting.ready, Waiting.blocked, DependencyGraph.drain]

theorem declare_of_dependents_eq_nil (h : e.graph.dependents id = []) (v : TokenValue) :
    e.declare id v = e.assign id v := by
  rw [declare_eq_refresh, affected, DependencyGraph.affected_eq_nil h, refresh_nil]

end Engine

end DesignTokens
