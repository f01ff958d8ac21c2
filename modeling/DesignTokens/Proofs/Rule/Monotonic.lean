import DesignTokens.Proofs.Decimal.Order
import DesignTokens.Proofs.Hasse

/-!
# An order is obeyed along the edges of its diagram

* `m.Descends view a b` : the values of both ids can be read, and that of `b` is not greater; a triple with
  readable values holds if and only if its edge descends (`holds_iff_descends`), and what descends in
  turn descends (`Descends.trans`);
* `violatedRules_eq_nil_iff` : no triple is violated if and only if the edges that the reduction keeps
  descend, since those that it drops are replaced by ways. The order may have cycles.
-/

namespace DesignTokens

open Relation OrderGraph

variable {view : View} {m : Measure} {ts : List OrderTriple} {t : OrderTriple} {tag : Option String}
  {a b c : String}

/-- The values of both ids can be read, and the second is not greater than the first. -/
def Measure.Descends (m : Measure) (view : View) (a b : String) : Prop :=
  ∃ x y, (view a).bind m.read? = some x ∧ (view b).bind m.read? = some y ∧ y ≤ x

theorem Measure.Descends.trans (hab : m.Descends view a b) (hbc : m.Descends view b c) :
    m.Descends view a c := by
  obtain ⟨x, y, hx, hy, hyx⟩ := hab
  obtain ⟨y', z, hy', hz, hzy⟩ := hbc
  obtain rfl : y = y' := Option.some.inj (hy.symm.trans hy')
  exact ⟨x, z, hx, hz, Decimal.float_le_trans hzy hyx⟩

theorem OrderRule.holds_iff_descends (hleft : ((view t.left).bind m.read?).isSome)
    (hright : ((view t.right).bind m.read?).isSome) :
    OrderRule.Holds view ⟨t, m, tag⟩ ↔ m.Descends view t.edge.1 t.edge.2 := by
  obtain ⟨x, hx⟩ := Option.isSome_iff_exists.1 hleft
  obtain ⟨y, hy⟩ := Option.isSome_iff_exists.1 hright
  obtain ⟨left, relation, right⟩ := t
  dsimp only at hx hy
  cases relation with
  | atLeast => simp [OrderRule.Holds, Measure.Descends, OrderTriple.edge, OrderRelation.holds, hx, hy]
  | atMost => simp [OrderRule.Holds, Measure.Descends, OrderTriple.edge, OrderRelation.holds, hx, hy]

theorem violatedRules_eq_nil {rules : List OrderRule} :
    violatedRules view rules = [] ↔ ∀ rule ∈ rules, rule.Holds view := by
  rw [← List.map_eq_nil_iff (f := Prod.fst), map_fst_violatedRules, List.filter_eq_nil_iff]
  simp

/-- A way in the reduction leads wherever a declared edge does. -/
theorem descends_iff_reduction : (∀ a b, (ofTriples ts).Edge a b → m.Descends view a b) ↔
    ∀ a b, (ofTriples ts).reduction.Edge a b → m.Descends view a b := by
  have hthins := reduction_thins (ofTriples ts)
  refine ⟨fun h a b hab => h a b (hthins.edge hab), fun h a b hab => ?_⟩
  have : IsTrans String (m.Descends view) := ⟨fun _ _ _ => Measure.Descends.trans⟩
  exact transGen_minimal h a b (hthins.way (.single hab))

theorem violatedRules_eq_nil_iff (view : View) (m : Measure) (tag : Option String) (ts : List OrderTriple)
    (hread : ∀ t ∈ ts, ∀ id ∈ [t.left, t.right], ((view id).bind m.read?).isSome) :
    violatedRules view (ts.map fun t => ⟨t, m, tag⟩) = [] ↔
      ∀ a b, (a, b) ∈ (ofTriples ts).reduction.edges →
        ∃ x y, (view a).bind m.read? = some x ∧ (view b).bind m.read? = some y ∧ y ≤ x := by
  have hholds (t : OrderTriple) (ht : t ∈ ts) :
      OrderRule.Holds view ⟨t, m, tag⟩ ↔ m.Descends view t.edge.1 t.edge.2 :=
    OrderRule.holds_iff_descends (hread t ht t.left (by simp)) (hread t ht t.right (by simp))
  have hedges : (∀ t ∈ ts, m.Descends view t.edge.1 t.edge.2) ↔
      ∀ a b, (ofTriples ts).Edge a b → m.Descends view a b := by
    simp only [edge_ofTriples, List.mem_map]
    constructor
    · rintro h a b ⟨t, ht, heq⟩
      have hdescends := h t ht
      rwa [heq] at hdescends
    · intro h t ht
      exact h _ _ ⟨t, ht, rfl⟩
  rw [violatedRules_eq_nil, List.forall_mem_map]
  simp only [mem_edges]
  exact (forall₂_congr hholds).trans (hedges.trans descends_iff_reduction)

/-- An order of three ids in which two are each below the other. -/
def tangle : List OrderTriple := ⟨"c", .atLeast, "b"⟩ :: chainAndMore

/-- Values that descend in the order, those of the two ids being equal. -/
def descendingView : View
  | "a" => some (.number 3)
  | "b" => some (.number 2)
  | "c" => some (.number 2)
  | _ => none

theorem violatedRules_eq_nil_iff_tangle :
    (∀ t ∈ tangle, ∀ id ∈ [t.left, t.right], ((descendingView id).bind Measure.number.read?).isSome) ∧
    violatedRules descendingView (tangle.map fun t => ⟨t, .number, none⟩) = [] := by
  have hread : ∀ t ∈ tangle, ∀ id ∈ [t.left, t.right],
      ((descendingView id).bind Measure.number.read?).isSome := by decide
  refine ⟨hread, (violatedRules_eq_nil_iff _ _ none _ hread).2 fun a b hab => ?_⟩
  have hedge := (reduction_thins (ofTriples tangle)).edge (mem_edges.1 hab)
  simp only [edge_ofTriples, tangle, chainAndMore, OrderTriple.edge, List.map_cons, List.map_nil,
    List.mem_cons, List.not_mem_nil, or_false, Prod.mk.injEq] at hedge
  rcases hedge with ⟨rfl, rfl⟩ | ⟨rfl, rfl⟩ | ⟨rfl, rfl⟩ | ⟨rfl, rfl⟩
  · exact ⟨2, 2, rfl, rfl, by decide⟩
  · exact ⟨3, 2, rfl, rfl, by decide⟩
  · exact ⟨2, 2, rfl, rfl, by decide⟩
  · exact ⟨3, 2, rfl, rfl, by decide⟩

end DesignTokens
