import DesignTokens.Proofs.Alias.Redeclare
import DesignTokens.Proofs.Report
import DesignTokens.Proofs.Token.Placed

/-!
# A commit and an override of the tree

A value can be declared in the engine of a tree, or written into the tree, which is then resolved
anew.

* `exists_resolve_override` : the tree with the value can be resolved if and only if the value cites
  ids of tokens, but neither the token itself nor one that depends on it;
* `commitValue_eq_override` : the values are then those after the commit. The tree has to be a map at
  every level, as one that is read is, the token to stand where its id says, the value to have a document,
  and the text of an array or object to be the one that is printed for it;
* `not_commitValue_eq_override` : a tree and a value for each of the last three, of which the two ways
  both succeed and come to different values.
-/

namespace DesignTokens

open Resolution

variable {rs : RuleSet} {tree tree' : Json} {r r' : Resolution} {id : String} {v : TokenValue}
  {report : CommitReport}

/-! ## The tree with the value -/

theorem ofResolution_reflects (h : resolve tree = .ok r) : (Engine.ofResolution r).graph.Reflects r.raw := by
  rw [Engine.ofResolution_graph h, resolve_raw h]
  exact citationGraph_reflects (declarationMap_keyed tree)

theorem exists_resolve_override (h : resolve tree = .ok r) (hid : id ∈ r.values.keys)
    (hraws : raws (declarationMap tree') = r.raw.insert id v) :
    (∃ r', resolve tree' = .ok r') ↔
      ∀ c ∈ v.refs, c ∈ r.values.keys ∧ c ≠ id ∧ c ∉ (Engine.ofResolution r).affected id := by
  obtain ⟨rank, hrank⟩ := resolve_layered h
  obtain ⟨rank', hsound⟩ := Engine.ofResolution_sound h
  have hkeys : r.values.keys = r.raw.keys := (resolve_solves h).keys
  have hclosed : r.raw.Closed := resolve_raw h ▸ (resolve_eq_ok.1 h).1
  rw [exists_resolve_eq_ok, hraws, closed_insert hclosed (hkeys ▸ hid),
    exists_layered_insert hsound.wellFormed (ofResolution_reflects h) hrank, hkeys]
  exact ⟨fun h c hc => ⟨h.1 c hc, h.2 c hc⟩, fun h => ⟨fun c hc => (h c hc).1, fun c hc => (h c hc).2⟩⟩

theorem declare_values_eq_resolved (h : resolve tree = .ok r) (h' : resolve tree' = .ok r')
    (hraws : raws (declarationMap tree') = r.raw.insert id v)
    (hrefs : ∀ c ∈ v.refs, c ≠ id ∧ c ∉ (Engine.ofResolution r).affected id)
    (hprinted : v.refs = [] → v.Printed) :
    ((Engine.ofResolution r).declare id v).values = r'.values := by
  obtain ⟨rank, hsound⟩ := Engine.ofResolution_sound h
  obtain ⟨rank', hrank'⟩ := resolve_layered h'
  have hsolves := Engine.declare_solves hsound.wellFormed hsound.ranks hsound.covers hsound.solves
    hrefs hprinted
  have hraw : r'.raw = r.raw.insert id v := (resolve_raw h').trans hraws
  rw [hraw] at hrank'
  exact hsolves.unique hrank' (hraw ▸ resolve_solves h')

theorem commitValue_eq_override (htree : tree.Normal) (hspells : tree.Spells id) (hfinite : v.Finite)
    (hprinted : v.refs = [] → v.Printed) (hcommit : commitValue rs tree id v = .ok report) :
    ∃ e tree', buildEngine rs tree = .ok e ∧
      overrideAll (SortedMap.ofList [(id, v)]) tree = (tree', none) ∧
      ((∃ r', resolve tree' = .ok r') ↔
        ∀ c ∈ v.refs, c ∈ e.values.keys ∧ c ≠ id ∧ c ∉ e.affected id) ∧
      ∀ r', resolve tree' = .ok r' → (e.commit id v).2.values = r'.values ∧
        ∃ validation, validate rs tree' = .ok validation ∧
          validation.snapshotHash = report.snapshotHash := by
  obtain ⟨e, hbuild, hid, rfl⟩ := commitValue_eq_ok.1 hcommit
  obtain ⟨r, h, rfl⟩ := buildEngine_eq_ok.1 hbuild
  have hmem : id ∈ (raws (declarationMap tree)).keys := by
    rw [← resolve_raw h, ← (resolve_solves h).keys]
    exact hid
  obtain ⟨tree', hoverride, hraws⟩ := raws_overrideAll htree hspells hfinite hmem
  rw [← resolve_raw h] at hraws
  have hiff := exists_resolve_override h hid hraws
  refine ⟨_, tree', hbuild, hoverride, hiff, fun r' h' => ?_⟩
  have hrefs := hiff.1 ⟨r', h'⟩
  have hvalues := declare_values_eq_resolved h h' hraws (fun c hc => (hrefs c hc).2) hprinted
  obtain ⟨validation, hvalidate, hhash⟩ := validate_snapshotHash rs h'
  exact ⟨hvalues, validation, hvalidate, hhash.trans (congrArg snapshotHash hvalues.symm)⟩

/-- The last token of the chain gets a value that cites the first one in place of the second. -/
theorem commitValue_eq_override_aliasChain : ∃ report, ∃ e : Engine, ∃ tree' r',
    commitValue .empty aliasChain "c" (.text "{a} solid") = .ok report ∧
      buildEngine .empty aliasChain = .ok e ∧
      overrideAll (SortedMap.ofList [("c", .text "{a} solid")]) aliasChain = (tree', none) ∧
      resolve tree' = .ok r' ∧ (e.commit "c" (.text "{a} solid")).2.values = r'.values := by
  have hnormal : aliasChain.Normal := aliasChain.normal_normal
  have hspells : aliasChain.Spells "c" := by
    unfold Json.Spells
    decide +kernel
  have hfinite : (TokenValue.text "{a} solid").Finite := trivial
  have hrefs : (TokenValue.text "{a} solid").refs = ["a"] := by decide +kernel
  obtain ⟨report, hcommit⟩ : ∃ report, commitValue .empty aliasChain "c" (.text "{a} solid") = .ok report :=
    exists_eq_ok (by decide +kernel)
  obtain ⟨e, tree', hbuild, hoverride, -, hvalues⟩ :=
    commitValue_eq_override hnormal hspells hfinite (by simp [hrefs]) hcommit
  obtain ⟨r', h'⟩ : ∃ r', resolve tree' = .ok r' := by
    obtain rfl : (overrideAll (SortedMap.ofList [("c", .text "{a} solid")]) aliasChain).1 = tree' :=
      congrArg Prod.fst hoverride
    exact exists_eq_ok (by decide +kernel)
  exact ⟨report, e, tree', r', hcommit, hbuild, hoverride, h', (hvalues r' h').1⟩

/-! ## Where the two ways part -/

/-- The value can be declared by a commit, and it can be written into the tree, which can be resolved then.
The token gets the one value in the first way and the other in the second, and the hashes differ. -/
def WaysPart (tree : Json) (id : String) (v : TokenValue) (declared overridden : Option TokenValue) : Prop :=
  ∃ report e tree' r' validation,
    commitValue .empty tree id v = .ok report ∧ buildEngine .empty tree = .ok e ∧
      overrideAll (SortedMap.ofList [(id, v)]) tree = (tree', none) ∧ resolve tree' = .ok r' ∧
      validate .empty tree' = .ok validation ∧ (e.commit id v).2.values.get? id = declared ∧
      r'.values.get? id = overridden ∧ validation.snapshotHash ≠ report.snapshotHash

theorem waysPart {declared overridden : Option TokenValue}
    (hcommit : (commitValue .empty tree id v).toOption.isSome)
    (hdeclared : (buildEngine .empty tree).toOption.any
      fun e => decide ((e.commit id v).2.values.get? id = declared))
    (hoverride : (overrideAll (SortedMap.ofList [(id, v)]) tree).2 = none)
    (hoverridden : (resolve (overrideAll (SortedMap.ofList [(id, v)]) tree).1).toOption.any
      fun r' => decide (r'.values.get? id = overridden))
    (hhash : (validate .empty (overrideAll (SortedMap.ofList [(id, v)]) tree).1).toOption.map (·.snapshotHash) ≠
      (commitValue .empty tree id v).toOption.map (·.snapshotHash)) :
    WaysPart tree id v declared overridden := by
  obtain ⟨report, hreport⟩ := exists_eq_ok hcommit
  obtain ⟨e, he, hdeclared⟩ := exists_eq_ok_and hdeclared
  obtain ⟨r', hr', hoverridden⟩ := exists_eq_ok_and hoverridden
  obtain ⟨validation, hvalidation, -⟩ := validate_snapshotHash .empty hr'
  refine ⟨report, e, _, r', validation, hreport, he, Prod.ext rfl hoverride, hr', hvalidation, hdeclared,
    hoverridden, fun heq => hhash ?_⟩
  rw [hvalidation, hreport]
  exact congrArg some heq

/-- A tree of one token. -/
def lone (name value : String) : Json := .obj [(name, .obj [("$value", .str value)])]

/-- The override puts a second token with the id before one whose name has a dot in it. A commit prints an
array anew, while a tree keeps its text. A number that is not finite is a value of the engine, but in a tree
it is `null`, which declares none. -/
theorem not_commitValue_eq_override :
    WaysPart (lone "a.b" "2px") "a.b" (.text "3px") (some (.text "3px")) (some (.text "2px")) ∧
      WaysPart (lone "a" "1px") "a" (.text "[1, 2]") (some (.text "[1,2]")) (some (.text "[1, 2]")) ∧
      WaysPart (lone "a" "1px") "a" (.number (1.0 / 0.0)) (some (.number (1.0 / 0.0))) none :=
  ⟨waysPart (by decide +kernel) (by decide +kernel) (by decide +kernel) (by decide +kernel) (by decide +kernel),
    waysPart (by decide +kernel) (by decide +kernel) (by decide +kernel) (by decide +kernel) (by decide +kernel),
    waysPart (by decide +kernel) (by decide +kernel) (by decide +kernel) (by decide +kernel) (by decide +kernel)⟩

end DesignTokens
