import DesignTokens.Proofs.Alias.Resolution
import DesignTokens.Proofs.Engine.Commit

/-!
# Runs of commits

* `Run allowed start commits e` : `e` is the engine after commits each of which is allowed in the
  engine that it meets;
* `e.Keeps id v` : the value cites only what the token cites already;
* `e.Sound rank` : the values of the engine solve the alias equations of its declared values, and its
  graph has all their citations and no cycle. Every commit of a kept value preserves it;
* `Run.solves_iff_eq_values` : so after every run the values are those of a resolution from scratch.
-/

namespace DesignTokens

namespace Engine

/-- The engine after commits that are all allowed. -/
inductive Run (allowed : Engine → String → TokenValue → Prop) (start : Engine) :
    List (String × TokenValue) → Engine → Prop
  | nil : Run allowed start [] start
  | snoc {commits e id v} : Run allowed start commits e → allowed e id v →
      Run allowed start (commits ++ [(id, v)]) (e.commit id v).2

variable {allowed : Engine → String → TokenValue → Prop} {start e : Engine} {id : String}
  {v : TokenValue} {commits : List (String × TokenValue)} {rank : String → Nat}

/-- What holds at the start and is kept by every allowed commit holds after every run. -/
theorem Run.invariant {P : Engine → Prop} (hrun : Run allowed start commits e) (hstart : P start)
    (hcommit : ∀ e id v, P e → allowed e id v → P (e.commit id v).2) : P e := by
  induction hrun with
  | nil => exact hstart
  | snoc _ hallowed ih => exact hcommit _ _ _ ih hallowed

theorem Run.raw_eq (hrun : Run allowed start commits e) : e.raw = start.raw.insertAll commits := by
  induction hrun with
  | nil => rfl
  | snoc _ _ ih =>
    rw [SortedMap.insertAll_append, ← ih]
    rfl

/-- A value that cites only what the token cites already, and no array or object without citations. -/
def Keeps (e : Engine) (id : String) (v : TokenValue) : Prop :=
  (∀ r ∈ v.refs, r ∈ e.graph.references id) ∧ (v.refs = [] → v.document? = none)

/-- The values solve the equations of the declared values, whose citations are in the graph and go
upwards. -/
structure Sound (e : Engine) (rank : String → Nat) : Prop where
  wellFormed : e.graph.WellFormed
  ranks : e.graph.Ranks rank
  covers : e.graph.Covers e.raw
  solves : Solves e.raw e.values

theorem Sound.not_mem_of_feeds (h : e.Sound rank) {r : String} (hr : e.graph.Feeds r id) :
    r ≠ id ∧ r ∉ e.affected id := by
  have hlt : rank r < rank id := h.ranks _ _ hr
  constructor
  · rintro rfl
    omega
  · intro haff
    have hpath := ((DependencyGraph.mem_affected h.wellFormed).1 haff).2
    have hgt : rank id < rank r := h.ranks.lt_of_transGen hpath
    omega

theorem Sound.commit (h : e.Sound rank) (hkeeps : e.Keeps id v) : (e.commit id v).2.Sound rank := by
  have hfeeds : ∀ r ∈ v.refs, e.graph.Feeds r id := by
    intro r hr
    exact h.wellFormed.converse.2 (hkeeps.1 r hr)
  refine ⟨h.wellFormed, h.ranks, ?_, ?_⟩
  · intro x d r hd hr
    rw [commit_snd, declare_raw, SortedMap.get?_insert] at hd
    split at hd
    · rename_i hx
      obtain rfl := beq_iff_eq.1 hx
      obtain rfl := Option.some.inj hd
      exact hfeeds r hr
    · exact h.covers hd hr
  · apply declare_solves h.wellFormed h.ranks h.covers h.solves
    · intro r hr
      exact h.not_mem_of_feeds (hfeeds r hr)
    · intro hrefs
      exact TokenValue.printed_of_document?_eq_none (hkeeps.2 hrefs)

theorem Sound.solves_iff (h : e.Sound rank) {values : Values} :
    Solves e.raw values ↔ values = e.values := by
  constructor
  · intro hv
    exact hv.unique (h.covers.layered h.ranks) h.solves
  · rintro rfl
    exact h.solves

/-! ## The engine of a resolved tree -/

open Resolution

variable {tree : Json} {r : Resolution}

theorem ofResolution_graph (h : resolve tree = .ok r) :
    (ofResolution r).graph = citationGraph (declarationMap tree) := by
  have hkeys := (resolve_solves h).keys
  obtain ⟨-, order, -, rfl⟩ := resolve_eq_ok.1 h
  rw [ofResolution, hkeys, Resolution.raw, raws_keys]
  rfl

theorem ofResolution_sound (h : resolve tree = .ok r) : ∃ rank, (ofResolution r).Sound rank := by
  have hkeyed := declarationMap_keyed tree
  have hgraph := ofResolution_graph h
  obtain ⟨rank, hrank⟩ := resolve_layered h
  refine ⟨rank, ?_, ?_, ?_, resolve_solves h⟩
  · exact hgraph ▸ citationGraph_wellFormed _
  · rw [resolve_raw h] at hrank
    exact hgraph ▸ (citationGraph_reflects hkeyed).ranks_iff.2 hrank
  · have hcovers := (citationGraph_reflects hkeyed).covers
    rwa [← hgraph, ← resolve_raw h] at hcovers

theorem Run.solves_iff_eq_values (h : resolve tree = .ok r)
    (hrun : Run Keeps (ofResolution r) commits e) :
    e.raw = r.raw.insertAll commits ∧
      ∀ values, Solves (r.raw.insertAll commits) values ↔ values = e.values := by
  obtain ⟨rank, hstart⟩ := ofResolution_sound h
  have hsound : e.Sound rank := hrun.invariant hstart fun _ _ _ => Sound.commit
  have hraw := hrun.raw_eq
  exact ⟨hraw, fun values => hraw ▸ hsound.solves_iff⟩

/-- The first token of the chain gets a new value, and the last one more text around its citation. -/
theorem Run.solves_iff_eq_values_aliasChain : ∃ r e, resolve aliasChain = .ok r ∧
    Run Keeps (ofResolution r) [("a", .text "5px"), ("c", .text "{b} solid")] e ∧
      ∀ values, Solves (r.raw.insertAll [("a", .text "5px"), ("c", .text "{b} solid")]) values ↔
        values = e.values := by
  obtain ⟨r, h⟩ := exists_resolve_aliasChain
  have hcited : "b" ∈ (ofResolution r).graph.references "c" := by
    rw [ofResolution_graph h]
    decide +kernel
  have hrefs : (TokenValue.text "5px").refs = [] := by decide +kernel
  have hcites : (TokenValue.text "{b} solid").refs = ["b"] := by decide +kernel
  have hfirst : (ofResolution r).Keeps "a" (.text "5px") :=
    ⟨by simp [hrefs], fun _ => by decide +kernel⟩
  have hsecond : ((ofResolution r).commit "a" (.text "5px")).2.Keeps "c" (.text "{b} solid") :=
    ⟨by simpa [hcites, commit_snd] using hcited, by simp [hcites]⟩
  have hrun := (Run.nil.snoc hfirst).snoc hsecond
  exact ⟨r, _, h, hrun, (Run.solves_iff_eq_values h hrun).2⟩

end Engine

end DesignTokens
