import DesignTokens.Proofs.Alias.Resolution
import DesignTokens.Proofs.Dependency.Cycle

/-!
# Which trees are resolved, and what is wrong with the others

* `raws.Cites a b` : the declared value of `a` cites `b`;
* `raws.FirstDangling token reference` : this is the first citation, in the order of ids and then of
  citations, of an id without a declared value;
* `resolve_eq_dangling`, `resolve_eq_circular` : the two errors;
* `resolve_outcome` : a tree is resolved if every id that is cited is declared and citations do not go
  around. If some is not declared, the first such citation is the error; else the error is a cycle.
-/

namespace DesignTokens

open Relation

/-- The first id has a declared value that cites the second one. -/
def Values.Cites (raws : Values) (a b : String) : Prop := ∃ v, raws.get? a = some v ∧ b ∈ v.refs

/-- The first citation, by id and then by place, of an id without a declared value. -/
structure Values.FirstDangling (raws : Values) (token reference : String) : Prop where
  missing : reference ∉ raws.keys
  cited : ∃ v before after, raws.get? token = some v ∧ v.refs = before ++ reference :: after ∧
    ∀ r ∈ before, r ∈ raws.keys
  earlier : ∀ ⦃id r⦄, raws.Cites id r → compare id token = .lt → r ∈ raws.keys

/-- The declared values of the tokens of a tree. -/
def declaredValues (tree : Json) : Values := Resolution.raws (declarationMap tree)

section Citations

variable {g : DependencyGraph} {raws : Values} {rank : String → Nat}

theorem DependencyGraph.Reflects.cites_eq (hg : g.WellFormed) (h : g.Reflects raws) :
    g.Cites = raws.Cites := by
  funext a b
  exact propext (hg.converse.symm.trans (h b a))

theorem Layered.acyclic (h : Layered raws rank) : Acyclic raws.Cites := by
  refine acyclic_of_rank rank ?_
  rintro a b ⟨v, hv, hb⟩
  exact h hv hb

end Citations

namespace Resolution

variable {decls : SortedMap String Declaration} {token reference : String}

/-- Tokens that are left over show a cycle. -/
theorem exists_cycleIn?_of_stuck (h : Keyed decls) (hne : (citationGraph decls).order.2 ≠ []) :
    ∃ cycle, (citationGraph decls).cycleIn? (citationGraph decls).order.2 = some cycle ∧
      IsCycle (raws decls).Cites cycle := by
  have hwf := citationGraph_wellFormed decls
  have hsplit := DependencyGraph.orderWithin_split hwf fun _ => true
  obtain ⟨cycle, hfound, hcycle, -⟩ := hsplit.exists_cycleIn? hne
  exact ⟨cycle, hfound, (citationGraph_reflects h).cites_eq hwf ▸ hcycle⟩

theorem exists_layered_iff (h : Keyed decls) :
    (∃ rank, Layered (raws decls) rank) ↔ Acyclic (raws decls).Cites := by
  constructor
  · rintro ⟨rank, hrank⟩
    exact hrank.acyclic
  · intro hacyclic
    rw [← order_citationGraph h]
    by_contra hstuck
    have hne : (citationGraph decls).order.2 ≠ [] := by
      intro hnil
      exact hstuck ⟨_, Prod.ext rfl hnil⟩
    obtain ⟨cycle, -, hcycle⟩ := exists_cycleIn?_of_stuck h hne
    exact hcycle.not_acyclic hacyclic

theorem firstDangling_of_dangling? (h : Keyed decls)
    (hdangling : dangling? decls = some (token, reference)) :
    (raws decls).FirstDangling token reference := by
  -- the declarations split at the first one with such a citation, then its citations at the first one
  rw [dangling?, citations, List.find?_flatMap, List.findSome?_eq_some_iff] at hdangling
  obtain ⟨ds, d, ds', hvalues, hfirst, hbefore⟩ := hdangling
  obtain ⟨es, rest, hentries, rfl, hrest⟩ := List.map_eq_append_iff.1 hvalues
  obtain ⟨e, es', rfl, rfl, rfl⟩ := List.map_eq_cons_iff.1 hrest
  have hget : decls.get? e.1 = some e.2 := decls.get?_eq_some.2 (hentries ▸ by simp)
  rw [List.find?_map, Option.map_eq_some_iff] at hfirst
  obtain ⟨r, hfind, heq⟩ := hfirst
  obtain ⟨rfl, rfl⟩ := Prod.mk.inj heq
  obtain ⟨hmissing, before, after, hrefs, hknown⟩ := List.find?_eq_some_iff_append.1 hfind
  rw [h hget]
  refine ⟨?_, ⟨e.2.raw, before, after, raws_get?_eq_some.2 ⟨e.2, hget, rfl⟩, hrefs, ?_⟩, ?_⟩
  · rw [raws_keys, ← decls.contains_iff]
    simpa using hmissing
  · intro x hx
    rw [raws_keys, ← decls.contains_iff]
    simpa using hknown x hx
  · rintro id x ⟨v, hv, hx⟩ hlt
    obtain ⟨d, hd, rfl⟩ := raws_get?_eq_some.1 hv
    have hmem : (id, d) ∈ es := by
      have hall : (id, d) ∈ es ++ e :: es' := hentries ▸ decls.get?_eq_some.1 hd
      exact (hentries ▸ decls.ascending : Ascending (es ++ e :: es')).mem_before hall hlt
    have hnone := hbefore d (List.mem_map_of_mem hmem)
    rw [List.find?_map, Option.map_eq_none_iff, List.find?_eq_none] at hnone
    rw [raws_keys, ← decls.contains_iff]
    simpa using hnone x hx

end Resolution

open Resolution

variable {tree : Json}

theorem resolve_eq_dangling (h : ¬ (declaredValues tree).Closed) :
    ∃ token reference, resolve tree = .error (.dangling token reference) ∧
      (declaredValues tree).FirstDangling token reference := by
  have hkeyed : Keyed (declarationMap tree) := declarationMap_keyed tree
  cases hdangling : dangling? (declarationMap tree) with
  | none => exact absurd ((dangling?_eq_none hkeyed).1 hdangling) h
  | some c =>
    refine ⟨c.1, c.2, ?_, firstDangling_of_dangling? hkeyed hdangling⟩
    simp only [resolve, hdangling]

theorem resolve_eq_circular (hclosed : (declaredValues tree).Closed)
    (hcyclic : ¬ Acyclic (declaredValues tree).Cites) :
    ∃ cycle, resolve tree = .error (.circular cycle) ∧ IsCycle (declaredValues tree).Cites cycle ∧
      (citationGraph (declarationMap tree)).cycleIn?
        (citationGraph (declarationMap tree)).order.2 = some cycle := by
  have hkeyed : Keyed (declarationMap tree) := declarationMap_keyed tree
  have hne : (citationGraph (declarationMap tree)).order.2 ≠ [] := by
    intro hnil
    have hranks := (order_citationGraph hkeyed).1 ⟨_, Prod.ext rfl hnil⟩
    exact hcyclic ((exists_layered_iff hkeyed).1 hranks)
  obtain ⟨cycle, hfound, hcycle⟩ := exists_cycleIn?_of_stuck hkeyed hne
  refine ⟨cycle, ?_, hcycle, hfound⟩
  simp only [resolve, (dangling?_eq_none hkeyed).2 hclosed]
  rw [← citationEdges, ← citationGraph]
  generalize (citationGraph (declarationMap tree)).order = split at hne hfound
  obtain ⟨order, _ | ⟨x, stuck⟩⟩ := split
  · exact absurd rfl hne
  · simp only [hfound, Option.getD_some]

theorem exists_resolve_iff_acyclic : (∃ r, resolve tree = .ok r) ↔
    (declaredValues tree).Closed ∧ Acyclic (declaredValues tree).Cites := by
  rw [exists_resolve_eq_ok, exists_layered_iff (declarationMap_keyed tree)]
  rfl

theorem resolve_outcome (tree : Json) :
    ((∃ r, resolve tree = .ok r) ↔
      (declaredValues tree).Closed ∧ Acyclic (declaredValues tree).Cites) ∧
    (¬ (declaredValues tree).Closed → ∃ token reference,
      resolve tree = .error (.dangling token reference) ∧
        (declaredValues tree).FirstDangling token reference) ∧
    ((declaredValues tree).Closed → ¬ Acyclic (declaredValues tree).Cites → ∃ cycle,
      resolve tree = .error (.circular cycle) ∧ IsCycle (declaredValues tree).Cites cycle ∧
        (citationGraph (declarationMap tree)).cycleIn?
          (citationGraph (declarationMap tree)).order.2 = some cycle) :=
  ⟨exists_resolve_iff_acyclic, resolve_eq_dangling, resolve_eq_circular⟩

example : (match resolve (.obj [("a", .obj [("$value", .str "{b}")]),
      ("b", .obj [("$value", .str "{c} {a}")]), ("c", .obj [("$value", .str "1px")])]) with
    | .error e => some e
    | .ok _ => none) = some (.circular ["a", "b", "a"]) := by
  decide +kernel

end DesignTokens
