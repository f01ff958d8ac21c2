import DesignTokens.Proofs.Dependency.Counters
import DesignTokens.Proofs.Dependency.Cycle

/-!
# What an order leaves over

* `Within scope r` : the relation `r` between tokens of the scope;
* `Split.mem_order_of_way` : what leads to a token of the order within the scope is in the order, and
  earlier;
* `Split.mem_stuck_iff` : the tokens left are those to which a cycle within the scope leads;
* `orderWithin_build` : the order of any scope, in the graph of a list of pairs.
-/

namespace DesignTokens.DependencyGraph

open Relation

variable {g : DependencyGraph} {scope : String → Bool} {done order stuck before after : List String}
  {a b c r x : String}

def Within (scope : String → Bool) (r : String → String → Prop) (a b : String) : Prop :=
  r a b ∧ scope a = true ∧ scope b = true

theorem InOrder.mem_before (h : g.InOrder scope done (before ++ x :: after)) (hr : r ∈ g.references x)
    (hs : scope r) : r ∈ before ∨ r ∈ done := by
  induction before generalizing done with
  | nil => exact .inr (h.2.1 r hr hs)
  | cons id ids ih =>
    rcases ih h.2.2 with hmem | hmem
    · exact .inl (List.mem_cons_of_mem id hmem)
    · rcases List.mem_cons.1 hmem with rfl | hdone
      · exact .inl List.mem_cons_self
      · exact .inr hdone

namespace Split

theorem mem_order_of_step (h : g.Split scope order stuck) (hg : g.WellFormed)
    (hab : Within scope g.Feeds a b) (hb : b ∈ order) :
    a ∈ order ∧ order.idxOf a < order.idxOf b := by
  have hlt := h.inOrder.idxOf_lt hb (hg.converse.1 hab.1) hab.2.1 List.not_mem_nil
  exact ⟨List.idxOf_lt_length_iff.1 (hlt.trans (List.idxOf_lt_length_iff.2 hb)), hlt⟩

theorem mem_order_of_way (h : g.Split scope order stuck) (hg : g.WellFormed)
    (hab : TransGen (Within scope g.Feeds) a b) (hb : b ∈ order) :
    a ∈ order ∧ order.idxOf a < order.idxOf b := by
  induction hab with
  | single hstep => exact h.mem_order_of_step hg hstep hb
  | tail _ hstep ih =>
    obtain ⟨hmid, hlt⟩ := h.mem_order_of_step hg hstep hb
    obtain ⟨ha, hlt'⟩ := ih hmid
    exact ⟨ha, hlt'.trans hlt⟩

/-- A token of the order would have the cycle before it, and the cycle itself. -/
theorem not_mem_order_of_cycle (h : g.Split scope order stuck) (hg : g.WellFormed)
    (hc : TransGen (Within scope g.Feeds) c c) (hx : ReflTransGen (Within scope g.Feeds) c x) :
    x ∉ order := by
  intro hmem
  have hcorder : c ∈ order := by
    rcases reflTransGen_iff_eq_or_transGen.1 hx with rfl | hway
    · exact hmem
    · exact (h.mem_order_of_way hg hway hmem).1
  exact Nat.lt_irrefl _ (h.mem_order_of_way hg hc hcorder).2

theorem within_of_mem_stuck (h : g.Split scope order stuck) (hg : g.WellFormed) (ha : a ∈ stuck)
    (hb : b ∈ stuck) (hcites : g.Cites b a) : Within scope g.Feeds a b :=
  ⟨hg.converse.2 hcites, ((h.covers a).1 (.inr ha)).2, ((h.covers b).1 (.inr hb)).2⟩

/-- Among the tokens left that lead to one of them each cites another one. -/
theorem exists_cycle_of_mem_stuck (h : g.Split scope order stuck) (hg : g.WellFormed)
    (hx : x ∈ stuck) : ∃ c, TransGen (Within scope g.Feeds) c c ∧
      ReflTransGen (Within scope g.Feeds) c x := by
  classical
  let behind := stuck.filter fun y => ReflTransGen (Within scope g.Feeds) y x
  have hbehind (y : String) : y ∈ behind ↔ y ∈ stuck ∧ ReflTransGen (Within scope g.Feeds) y x := by
    rw [List.mem_filter, decide_eq_true_eq]
  have hblocked : ∀ y ∈ behind, ∃ r ∈ g.references y, r ∈ behind := by
    intro y hy
    obtain ⟨hstuck, hway⟩ := (hbehind y).1 hy
    obtain ⟨r, hr, hrstuck⟩ := h.blocked y hstuck
    exact ⟨r, hr, (hbehind r).2 ⟨hrstuck, hway.head (h.within_of_mem_stuck hg hrstuck hstuck hr)⟩⟩
  have hne : behind ≠ [] := List.ne_nil_of_mem ((hbehind x).2 ⟨hx, .refl⟩)
  obtain ⟨cycle, hcycle⟩ := Option.isSome_iff_exists.1 (isSome_cycleIn? hne hblocked)
  obtain ⟨hsound, hinside⟩ := cycleIn?_sound hcycle
  have hback : IsCycle (fun a b => Within scope g.Feeds b a) cycle :=
    hsound.imp_of_mem fun a ha b hb hcites =>
      h.within_of_mem_stuck hg ((hbehind b).1 (hinside hb)).1 ((hbehind a).1 (hinside ha)).1 hcites
  obtain ⟨c, hc, hround⟩ := hback.exists_transGen
  exact ⟨c, transGen_swap.1 hround, ((hbehind c).1 (hinside hc)).2⟩

theorem mem_stuck_iff (h : g.Split scope order stuck) (hg : g.WellFormed) :
    x ∈ stuck ↔ ∃ c, TransGen (Within scope g.Feeds) c c ∧
      ReflTransGen (Within scope g.Feeds) c x := by
  refine ⟨h.exists_cycle_of_mem_stuck hg, ?_⟩
  rintro ⟨c, hc, hx⟩
  have hscope : x ∈ g.nodes ∧ scope x := by
    obtain ⟨b, -, hstep⟩ := TransGen.tail'_iff.1 (hc.trans_left hx)
    exact ⟨hg.node_right hstep.1, hstep.2.2⟩
  exact ((h.covers x).2 hscope).resolve_left (h.not_mem_order_of_cycle hg hc hx)

end Split

/-- The order with counters exists, so none of them is lowered below zero. -/
theorem orderWithin_build (nodes : List String) (edges : List (String × String))
    (scope : String → Bool) :
    let g := build nodes edges
    let order := (g.orderWithin scope).1
    let stuck := (g.orderWithin scope).2
    let cited := Within scope fun a b => (a, b) ∈ edges
    (order ++ stuck).Perm (g.nodes.filter scope) ∧
      (∀ before id after, order = before ++ id :: after →
        ∀ r, (r, id) ∈ edges → scope r → r ∈ before) ∧
      (∀ x, x ∈ stuck ↔ ∃ c, TransGen cited c c ∧ ReflTransGen cited c x) ∧
      g.orderCounted? scope = some (order, stuck) := by
  intro g order stuck cited
  have hg : g.WellFormed := build_wellFormed nodes edges
  have hsplit : g.Split scope order stuck := orderWithin_split hg scope
  have hcited : cited = Within scope g.Feeds := by rw [feeds_build]
  refine ⟨?_, ?_, fun x => hcited ▸ hsplit.mem_stuck_iff hg, orderCounted?_eq_orderWithin hg scope⟩
  · refine (List.perm_ext_iff_of_nodup hsplit.nodup (g.nodup_nodes.filter scope)).2 fun x => ?_
    rw [List.mem_append, hsplit.covers, List.mem_filter]
  · intro before id after heq r hr hs
    have hinOrder := hsplit.inOrder
    rw [heq] at hinOrder
    exact (hinOrder.mem_before (mem_references_build.2 hr) hs).resolve_right List.not_mem_nil

/-- Two tokens that cite each other, one that cites one of them, and one that cites a plain one. -/
def tangled : List (String × String) := [("a", "f"), ("b", "c"), ("c", "b"), ("c", "d")]

theorem orderWithin_build_tangled :
    ((build ["e"] tangled).orderWithin fun _ => true).1 = ["a", "e"] ++ "f" :: [] ∧
      ("a", "f") ∈ tangled ∧ "a" ∈ ["a", "e"] ∧
      "d" ∈ ((build ["e"] tangled).orderWithin fun _ => true).2 ∧
      ∃ c, TransGen (Within (fun _ => true) fun a b => (a, b) ∈ tangled) c c ∧
        ReflTransGen (Within (fun _ => true) fun a b => (a, b) ∈ tangled) c "d" := by
  obtain ⟨-, hbefore, hstuck, -⟩ := orderWithin_build ["e"] tangled fun _ => true
  have horder : ((build ["e"] tangled).orderWithin fun _ => true).1 = ["a", "e"] ++ "f" :: [] := by
    decide +kernel
  have hleft : "d" ∈ ((build ["e"] tangled).orderWithin fun _ => true).2 := by decide +kernel
  have hcites : ("a", "f") ∈ tangled := by decide
  exact ⟨horder, hcites, hbefore ["a", "e"] "f" [] horder "a" hcites rfl, hleft, (hstuck "d").1 hleft⟩

end DesignTokens.DependencyGraph
