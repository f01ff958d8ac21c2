import DesignTokens.Proofs.Alias.Equations

/-!
# What resolving a tree gives

* `Resolution.citationGraph decls` : the citations of some declarations;
* `resolve_eq_ok` : when a tree is resolved, and to what;
* `exists_resolve_eq_ok` : it is if and only if the declared values are closed and have ranks;
* `solves_iff_eq_resolved` : the resolved values are the one solution of the alias equations, and a
  token that only stands for another ends with the value of that one.
-/

namespace DesignTokens

open Relation

/-- The id `a` stands for `b` and nothing else. -/
def Values.Stands (raws : Values) (a b : String) : Prop :=
  ∃ s, raws.get? a = some (.text s) ∧ composite? s = none ∧ CitesOnly s b

namespace Resolution

variable {decls : SortedMap String Declaration} {order : List String} {id x r : String}
  {d : Declaration} {v : TokenValue}

/-! ## Citations -/

/-- Pairs of a cited token and one that cites it. -/
def citationEdges (decls : SortedMap String Declaration) : List (String × String) :=
  (citations decls).map fun c => (c.2, c.1)

def citationGraph (decls : SortedMap String Declaration) : DependencyGraph :=
  .build decls.keys (citationEdges decls)

/-- Every declaration stands at its own id. -/
def Keyed (decls : SortedMap String Declaration) : Prop :=
  ∀ ⦃id d⦄, decls.get? id = some d → d.id = id

theorem declarationMap_keyed (tree : Json) : Keyed (declarationMap tree) := by
  intro id d h
  rw [declarationMap, SortedMap.get?_ofList, ← List.map_reverse] at h
  obtain ⟨before, after, heq, -⟩ := List.lookup_eq_some_iff.1 h
  obtain ⟨e, -, he⟩ := List.mem_map.1 (heq ▸ List.mem_append_right before List.mem_cons_self)
  obtain ⟨rfl, rfl⟩ := Prod.mk.inj he
  rfl

theorem raws_get? : (raws decls).get? id = (decls.get? id).map Declaration.raw :=
  SortedMap.get?_mapValues _ _ _

theorem raws_keys : (raws decls).keys = decls.keys := SortedMap.keys_mapValues _ _

theorem raws_get?_eq_some : (raws decls).get? id = some v ↔ ∃ d, decls.get? id = some d ∧ d.raw = v := by
  rw [raws_get?, Option.map_eq_some_iff]

theorem mem_citations (h : Keyed decls) :
    (x, r) ∈ citations decls ↔ ∃ v, (raws decls).get? x = some v ∧ r ∈ v.refs := by
  constructor
  · intro hx
    obtain ⟨d, hd, hr⟩ := List.mem_flatMap.1 hx
    obtain ⟨e, he, rfl⟩ := List.mem_map.1 hd
    have hget : decls.get? e.1 = some e.2 := decls.get?_eq_some.2 he
    obtain ⟨r', hr', heq⟩ := List.mem_map.1 hr
    obtain ⟨rfl, rfl⟩ := Prod.mk.inj heq
    exact ⟨e.2.raw, raws_get?_eq_some.2 ⟨e.2, h hget ▸ hget, rfl⟩, hr'⟩
  · rintro ⟨v, hv, hr⟩
    obtain ⟨d, hd, rfl⟩ := raws_get?_eq_some.1 hv
    have hmem : d ∈ decls.values := List.mem_map.2 ⟨(x, d), decls.get?_eq_some.1 hd, rfl⟩
    exact List.mem_flatMap.2 ⟨d, hmem, List.mem_map.2 ⟨r, hr, by rw [h hd]⟩⟩

theorem citationGraph_reflects (h : Keyed decls) : (citationGraph decls).Reflects (raws decls) := by
  intro r x
  rw [← mem_citations h, DependencyGraph.Feeds, citationGraph, DependencyGraph.mem_dependents_build,
    citationEdges, List.mem_map]
  constructor
  · rintro ⟨c, hc, heq⟩
    obtain ⟨rfl, rfl⟩ := Prod.mk.inj heq
    exact hc
  · exact fun hx => ⟨(x, r), hx, rfl⟩

theorem citationGraph_wellFormed (decls : SortedMap String Declaration) :
    (citationGraph decls).WellFormed :=
  DependencyGraph.build_wellFormed _ _

theorem mem_keys_of_mem_nodes_citationGraph (h : Keyed decls) (hclosed : (raws decls).Closed)
    (hx : x ∈ (citationGraph decls).nodes) : x ∈ decls.keys := by
  rcases DependencyGraph.mem_nodes_build.1 hx with ⟨edge, hedge, hx⟩ | hx
  · obtain ⟨c, hc, rfl⟩ := List.mem_map.1 hedge
    obtain ⟨v, hv, hr⟩ := (mem_citations h).1 hc
    rw [← raws_keys]
    rcases hx with rfl | rfl
    · exact hclosed hv hr
    · exact (raws decls).mem_keys.2 (hv ▸ rfl)
  · exact hx

theorem mem_nodes_citationGraph_of_mem_keys (hx : x ∈ decls.keys) : x ∈ (citationGraph decls).nodes :=
  DependencyGraph.mem_nodes_build.2 (.inr hx)

theorem dangling?_eq_none (h : Keyed decls) : dangling? decls = none ↔ (raws decls).Closed := by
  rw [dangling?, List.find?_eq_none]
  constructor
  · intro hnone id d r hd hr
    have := hnone (id, r) ((mem_citations h).2 ⟨d, hd, hr⟩)
    rw [Bool.not_eq_true, Bool.not_eq_false', SortedMap.contains_iff] at this
    rwa [raws_keys]
  · rintro hclosed ⟨x, r⟩ hc
    obtain ⟨v, hv, hr⟩ := (mem_citations h).1 hc
    have hmem : r ∈ decls.keys := raws_keys ▸ hclosed hv hr
    rw [Bool.not_eq_true, Bool.not_eq_false', SortedMap.contains_iff]
    exact hmem

/-! ## Resolving the tokens in order -/

theorem resolveOne_eq_refreshOne :
    resolveOne decls = Engine.refreshOne (raws decls) := by
  funext values id
  rw [resolveOne, Engine.refreshOne, raws_get?]
  cases decls.get? id with
  | none => rfl
  | some d => cases h : d.raw.refs <;> simp [Declaration.refs, TokenValue.hasPlaceholder, h]

theorem resolveAll_solves (h : Keyed decls) (horder : (citationGraph decls).order = (order, [])) :
    Solves (raws decls) (resolveAll decls order) := by
  have hsplit := DependencyGraph.orderWithin_split (citationGraph_wellFormed decls) fun _ => true
  rw [← DependencyGraph.order, horder] at hsplit
  rw [resolveAll, resolveOne_eq_refreshOne]
  have hmem : ∀ x, x ∈ order ↔ x ∈ (citationGraph decls).nodes := fun x => by
    simpa using hsplit.covers x
  refine ⟨Engine.foldl_refreshOne_keys (fun _ hx => hx) order, fun x d hd => ?_⟩
  have hx : x ∈ (raws decls).keys := (raws decls).mem_keys.2 (hd ▸ rfl)
  rw [raws_keys] at hx
  exact Engine.foldl_refreshOne_get? (citationGraph_wellFormed decls)
    (fun _ _ hd hr => (citationGraph_reflects h).covers hd hr) hsplit.inOrder (fun _ _ => rfl)
    ((hmem x).2 (mem_nodes_citationGraph_of_mem_keys hx)) hd fun _ => hd

/-- The declared values have ranks if and only if no token is left over. -/
theorem order_citationGraph (h : Keyed decls) :
    (∃ order, (citationGraph decls).order = (order, [])) ↔ ∃ rank, Layered (raws decls) rank := by
  have hwf := citationGraph_wellFormed decls
  have hsplit := DependencyGraph.orderWithin_split hwf fun _ => true
  constructor
  · rintro ⟨order, horder⟩
    rw [← DependencyGraph.order, horder] at hsplit
    exact ⟨order.idxOf, (citationGraph_reflects h).ranks_iff.1 (hsplit.ranks_idxOf hwf)⟩
  · rintro ⟨rank, hrank⟩
    have hstuck := hsplit.stuck_eq_nil hwf ((citationGraph_reflects h).ranks_iff.2 hrank)
    exact ⟨_, Prod.ext rfl hstuck⟩

end Resolution

/-! ## Resolving a tree -/

open Resolution

variable {tree : Json} {r : Resolution} {a b : String}

theorem resolve_eq_ok : resolve tree = .ok r ↔ (raws (declarationMap tree)).Closed ∧
    ∃ order, (citationGraph (declarationMap tree)).order = (order, []) ∧
      r = ⟨declarationMap tree, resolveAll (declarationMap tree) order,
        citationEdges (declarationMap tree)⟩ := by
  rw [← dangling?_eq_none (declarationMap_keyed tree), resolve]
  cases dangling? (declarationMap tree) with
  | some c => simp
  | none =>
    dsimp only
    rw [← citationEdges, ← citationGraph]
    generalize (citationGraph (declarationMap tree)).order = split
    obtain ⟨order, _ | ⟨x, stuck⟩⟩ := split
    · simp [citationEdges, eq_comm]
    · simp

theorem exists_resolve_eq_ok : (∃ r, resolve tree = .ok r) ↔
    (raws (declarationMap tree)).Closed ∧ ∃ rank, Layered (raws (declarationMap tree)) rank := by
  rw [← order_citationGraph (declarationMap_keyed tree)]
  constructor
  · rintro ⟨r, h⟩
    obtain ⟨hclosed, order, horder, -⟩ := resolve_eq_ok.1 h
    exact ⟨hclosed, order, horder⟩
  · rintro ⟨hclosed, order, horder⟩
    exact ⟨_, resolve_eq_ok.2 ⟨hclosed, order, horder, rfl⟩⟩

theorem resolve_raw (h : resolve tree = .ok r) : r.raw = raws (declarationMap tree) := by
  obtain ⟨-, order, -, rfl⟩ := resolve_eq_ok.1 h
  rfl

theorem resolve_solves (h : resolve tree = .ok r) : Solves r.raw r.values := by
  obtain ⟨-, order, horder, rfl⟩ := resolve_eq_ok.1 h
  exact resolveAll_solves (declarationMap_keyed tree) horder

theorem resolve_layered (h : resolve tree = .ok r) : ∃ rank, Layered r.raw rank :=
  resolve_raw h ▸ (exists_resolve_eq_ok.1 ⟨r, h⟩).2

/-- By induction on the chain: each step copies the value of the next token. -/
theorem Solves.get?_eq_of_stands {raws values : Values} (h : Solves raws values)
    (hclosed : raws.Closed) (hab : TransGen raws.Stands a b) :
    ∃ v, values.get? b = some v ∧ values.get? a = some v := by
  have step {a b : String} (hab : raws.Stands a b) :
      ∃ v, values.get? b = some v ∧ values.get? a = some v := by
    obtain ⟨s, hs, hdoc, hcites⟩ := hab
    have hrefs := refs_of_citesOnly hcites hdoc
    have hb : b ∈ values.keys := h.keys ▸ hclosed hs (hrefs ▸ List.mem_singleton_self b)
    obtain ⟨v, hv⟩ := Option.isSome_iff_exists.1 (values.mem_keys.1 hb)
    refine ⟨v, hv, ?_⟩
    rw [h.equation hs, TokenValue.resolvedBy, if_neg (by simp [hrefs]),
      substitute_placeholder hcites hdoc hv]
  induction hab with
  | single hab => exact step hab
  | tail _ hbc ih =>
    obtain ⟨v, hb, ha⟩ := ih
    obtain ⟨w, hc, hb'⟩ := step hbc
    rw [hb, Option.some.injEq] at hb'
    exact ⟨w, hc, hb' ▸ ha⟩

theorem solves_iff_eq_resolved (h : resolve tree = .ok r) :
    r.raw = raws (declarationMap tree) ∧ (∀ values, Solves r.raw values ↔ values = r.values) ∧
      ∀ a b, TransGen r.raw.Stands a b → ∃ v, r.values.get? b = some v ∧ r.values.get? a = some v := by
  have hsolves := resolve_solves h
  obtain ⟨rank, hrank⟩ := resolve_layered h
  have hclosed : r.raw.Closed := resolve_raw h ▸ (resolve_eq_ok.1 h).1
  refine ⟨resolve_raw h, fun values => ⟨fun hv => hv.unique hrank hsolves, ?_⟩, fun a b hab => ?_⟩
  · rintro rfl
    exact hsolves
  · exact hsolves.get?_eq_of_stands hclosed hab

/-- A token, an alias of it and an alias of the alias. -/
def aliasChain : Json :=
  .obj [("a", .obj [("$value", .str "4px")]), ("b", .obj [("$value", .str "{a}")]),
    ("c", .obj [("$value", .str "{b}")])]

theorem exists_eq_ok {ε α : Type} {x : Except ε α} (h : x.toOption.isSome) : ∃ a, x = .ok a := by
  cases x with
  | ok a => exact ⟨a, rfl⟩
  | error e => cases h

theorem exists_eq_ok_and {ε α : Type} {x : Except ε α} {P : α → Prop} [DecidablePred P]
    (h : x.toOption.any (fun a => decide (P a)) = true) : ∃ a, x = .ok a ∧ P a := by
  cases x with
  | ok a => exact ⟨a, rfl, of_decide_eq_true h⟩
  | error e => cases h

theorem exists_resolve_aliasChain : ∃ r, resolve aliasChain = .ok r := exists_eq_ok (by decide +kernel)

theorem solves_iff_eq_resolved_aliasChain : ∃ r, resolve aliasChain = .ok r ∧
    (∀ values, Solves r.raw values ↔ values = r.values) ∧
      ∃ v, r.values.get? "a" = some v ∧ r.values.get? "c" = some v := by
  obtain ⟨r, h⟩ := exists_resolve_aliasChain
  obtain ⟨hraw, hsolves, hstands⟩ := solves_iff_eq_resolved h
  refine ⟨r, h, hsolves, hstands "c" "a" (.tail (.single (b := "b") ?_) ?_)⟩ <;> rw [hraw]
  · refine ⟨"{b}", by decide +kernel, by decide +kernel, ['b'], rfl, by simp, by simp, ?_⟩
    decide +kernel
  · refine ⟨"{a}", by decide +kernel, by decide +kernel, ['a'], rfl, by simp, by simp, ?_⟩
    decide +kernel

end DesignTokens
