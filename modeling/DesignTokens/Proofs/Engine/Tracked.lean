import DesignTokens.Proofs.Alias.Outcome
import DesignTokens.Proofs.Engine.Override

/-!
# Which citations a commit follows

The graph of an engine is that of the tree that it was made from; a commit declares a value and leaves
the graph as it is.

* `Run.graph_eq` : after every run of commits the graph is the one at the start;
* `Run.mem_affected_iff_cites` : so after every run the affected tokens are those that depend on a token
  by the declarations of the tree, and a commit of the token fills them all in again;
* `exists_cites_not_mem_affected` : a citation that a commit declares is not followed.
-/

namespace DesignTokens

open Relation

theorem DependencyGraph.Reflects.transGen_feeds {g : DependencyGraph} {raws : Values} {x y : String}
    (h : g.Reflects raws) : TransGen g.Feeds x y ↔ TransGen raws.Cites y x := by
  have hswap : g.Feeds = Function.swap raws.Cites := by
    funext a b
    exact propext (h a b)
  rw [hswap, transGen_swap]

namespace Engine

variable {allowed : Engine → String → TokenValue → Prop} {start e : Engine}
  {commits : List (String × TokenValue)} {tree : Json} {r : Resolution}

theorem Run.graph_eq (hrun : Run allowed start commits e) : e.graph = start.graph :=
  hrun.invariant (P := fun e => e.graph = start.graph) rfl fun _ _ _ h _ => h

theorem Run.mem_affected_iff_cites (h : resolve tree = .ok r)
    (hrun : Run (fun _ _ _ => True) (ofResolution r) commits e) :
    (∀ x y, y ∈ e.affected x ↔ y ≠ x ∧ TransGen r.raw.Cites y x) ∧
      (∀ x y, y ≠ x → TransGen (fun a b => e.raw.Cites a b ∧ r.raw.Cites a b) y x → y ∈ e.affected x) ∧
      (∀ x y v d, y ∈ e.affected x → e.raw.get? y = some d → d.refs ≠ [] →
        (∀ c ∈ d.refs, r.raw.Cites y c) →
          (e.commit x v).2.values.get? y = some (substitute (e.commit x v).2.values.get? d)) ∧
      ∀ x y v d, y ∈ e.affected x → e.raw.get? y = some d → d.refs ≠ [] →
        ∃ before after, e.refreshOrder x = before ++ y :: after ∧
          (e.commit x v).2.values.get? y = some (substitute (e.valuesAfter x v before).get? d) := by
  have hreflects : e.graph.Reflects r.raw := hrun.graph_eq ▸ ofResolution_reflects h
  obtain ⟨rank, hsound⟩ := ofResolution_sound h
  have hg : e.graph.WellFormed := hrun.graph_eq ▸ hsound.wellFormed
  have hrank : e.graph.Ranks rank := hrun.graph_eq ▸ hsound.ranks
  have haffected (x y : String) : y ∈ e.affected x ↔ y ≠ x ∧ TransGen r.raw.Cites y x := by
    rw [affected, DependencyGraph.mem_affected hg, hreflects.transGen_feeds]
  refine ⟨haffected, ?_, ?_, ?_⟩
  · intro x y hne hway
    exact (haffected x y).2 ⟨hne, TransGen.mono (fun _ _ hab => hab.2) _ _ hway⟩
  · intro x y v d hy hd hcites hdeclared
    have hcovers : ∀ c ∈ d.refs, e.graph.Feeds c y := by
      intro c hc
      exact (hreflects c y).2 (hdeclared c hc)
    rw [commit_snd, declare_equation_of_mem_affected hg hrank hy hd hcovers (absurd · hcites),
      TokenValue.resolvedBy, if_neg hcites]
  · intro x y v d hy hd hcites
    exact declare_get?_of_mem_affected hg hrank hy hd hcites

/-- The last token of the chain gets more text around its citation. -/
theorem Run.mem_affected_iff_cites_aliasChain : ∃ r e, resolve aliasChain = .ok r ∧
    Run (fun _ _ _ => True) (ofResolution r) [("c", .text "{b} solid")] e ∧
      "c" ∈ e.affected "a" ∧ ∀ v, (e.commit "a" v).2.values.get? "c" =
        some (substitute (e.commit "a" v).2.values.get? (.text "{b} solid")) := by
  obtain ⟨r, h, hb, hc⟩ : ∃ r, resolve aliasChain = .ok r ∧
      r.raw.get? "b" = some (.text "{a}") ∧ r.raw.get? "c" = some (.text "{b}") :=
    exists_eq_ok_and (by decide +kernel)
  have hrefsA : (TokenValue.text "{a}").refs = ["a"] := by decide +kernel
  have hrefsB : (TokenValue.text "{b}").refs = ["b"] := by decide +kernel
  have hrefs : (TokenValue.text "{b} solid").refs = ["b"] := by decide +kernel
  have hba : r.raw.Cites "b" "a" := ⟨_, hb, by simp [hrefsA]⟩
  have hcb : r.raw.Cites "c" "b" := ⟨_, hc, by simp [hrefsB]⟩
  have hrun : Run (fun _ _ _ => True) (ofResolution r) [("c", .text "{b} solid")] _ := Run.nil.snoc trivial
  obtain ⟨haffected, -, hvalue, -⟩ := hrun.mem_affected_iff_cites h
  have hmem := (haffected "a" "c").2 ⟨by decide, .tail (.single hcb) hba⟩
  refine ⟨r, _, h, hrun, hmem, fun v => hvalue "a" "c" v _ hmem ?_ (by simp [hrefs]) ?_⟩
  · exact SortedMap.get?_insert_self _ _ _
  · simp [hrefs, hcb]

/-- Two tokens that cite nothing. -/
def plainPair : Json :=
  .obj [("base", .obj [("$value", .str "#000000")]), ("other", .obj [("$value", .str "12px")])]

/-- The second token becomes an alias of the first one, which then gets another value. -/
theorem exists_cites_not_mem_affected : ∃ r e, resolve plainPair = .ok r ∧
    Run (fun _ _ _ => True) (ofResolution r) [("other", .text "{base}")] e ∧
      e.raw.Cites "other" "base" ∧ "other" ∉ e.affected "base" ∧
      (e.commit "base" (.text "#ffffff")).2.values.get? "base" = some (.text "#ffffff") ∧
      (e.commit "base" (.text "#ffffff")).2.values.get? "other" = some (.text "#000000") := by
  obtain ⟨r, h, hbase, hother, hvalues⟩ : ∃ r, resolve plainPair = .ok r ∧
      (ofResolution r).graph.dependents "base" = [] ∧ (ofResolution r).graph.dependents "other" = [] ∧
      let e := ((ofResolution r).assign "other" (.text "{base}")).assign "base" (.text "#ffffff")
      e.values.get? "base" = some (.text "#ffffff") ∧ e.values.get? "other" = some (.text "#000000") :=
    exists_eq_ok_and (by decide +kernel)
  have hrefs : (TokenValue.text "{base}").refs = ["base"] := by decide +kernel
  have hrun : Run (fun _ _ _ => True) (ofResolution r) [("other", .text "{base}")] _ := Run.nil.snoc trivial
  -- the commit leaves the graph without citations
  have hafter : ((ofResolution r).commit "other" (.text "{base}")).2.graph.dependents "base" = [] := hbase
  refine ⟨r, _, h, hrun, ⟨_, SortedMap.get?_insert_self _ _ _, by simp [hrefs]⟩, ?_, ?_⟩
  · rw [affected, DependencyGraph.affected_eq_nil hafter]
    exact List.not_mem_nil
  · rw [commit_snd, declare_of_dependents_eq_nil hafter, commit_snd, declare_of_dependents_eq_nil hother]
    exact hvalues

end Engine

end DesignTokens
