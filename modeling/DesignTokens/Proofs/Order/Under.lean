import DesignTokens.Proofs.Order.Closed
import DesignTokens.Proofs.Text.Blank
import DesignTokens.Proofs.Text.Pieces

/-!
# The parts of a graph under some starts, and the rest of it

* `BeginsWith id start` : the dotted segments of the id begin with those of the start, whose dots at the
  end do not count; `isUnder_iff` : this is what comparing characters finds out;
* `induced_induced`, `induced_comm` : a part of a part, and parts that are taken one after the other;
* `under_outside_partition` : what is under the starts and what is outside of them make up the graph but for
  the edges across, and it does not matter which of two such parts is taken first.
-/

namespace DesignTokens.OrderGraph

variable {g : OrderGraph} {id start x : String} {starts : List String}

/-! ## Segments -/

/-- The dotted segments of the id begin with those of the start without the dots at its end, and
something is left of the start without these. -/
def BeginsWith (id start : String) : Prop :=
  ∃ kept : String, (∃ n, start.toList = kept.toList ++ List.replicate n '.') ∧
    kept.toList.getLast? ≠ some '.' ∧ kept ≠ "" ∧ Text.splitString '.' kept <+: Text.splitString '.' id

/-- Comparing characters, the id is the start, or goes on from it with a dot. -/
theorem isUnder_iff_toList : isUnder id start = true ↔
    Text.dropEndWhile (· == '.') start.toList ≠ [] ∧
      (id.toList = Text.dropEndWhile (· == '.') start.toList ∨
        ∃ rest, id.toList = Text.dropEndWhile (· == '.') start.toList ++ '.' :: rest) := by
  unfold isUnder
  cases Text.dropEndWhile (· == '.') start.toList with
  | nil => simp
  | cons c cs =>
    dsimp only
    cases hstrip : Text.stripStart? (c :: cs) id.toList with
    | none =>
      have hno (rest : List Char) : id.toList ≠ c :: cs ++ rest := fun h => by
        rw [Text.stripStart?_eq_some.2 h] at hstrip
        cases hstrip
      refine iff_of_false Bool.false_ne_true ?_
      rintro ⟨-, h | ⟨rest, h⟩⟩
      · exact hno [] (by rw [h, List.append_nil])
      · exact hno ('.' :: rest) h
    | some rest =>
      rw [Text.stripStart?_eq_some.1 hstrip]
      cases rest with
      | nil => simp
      | cons d rest => simp

theorem isUnder_iff : isUnder id start = true ↔ BeginsWith id start := by
  rw [isUnder_iff_toList]
  constructor
  · rintro ⟨hne, hid⟩
    obtain ⟨dots, hdots, hstart, hlast⟩ := Text.exists_dropEndWhile (· == '.') start.toList
    refine ⟨String.ofList (Text.dropEndWhile (· == '.') start.toList), ⟨dots.length, ?_⟩, ?_, ?_, ?_⟩
    · have hreplicate : dots = List.replicate dots.length '.' :=
        List.eq_replicate_iff.2 ⟨rfl, fun c hc => by simpa using hdots c hc⟩
      rwa [String.toList_ofList, ← hreplicate]
    · rw [String.toList_ofList]
      intro hdot
      simpa using hlast '.' hdot
    · rwa [ne_eq, String.ofList_eq_empty_iff]
    · rw [Text.splitString_isPrefix_iff, String.toList_ofList]
      exact hid.imp_left fun h => by rw [← h, String.ofList_toList]
  · rintro ⟨kept, ⟨n, hstart⟩, hlast, hne, hsegments⟩
    have hdrop : Text.dropEndWhile (· == '.') start.toList = kept.toList := by
      rw [hstart]
      refine Text.dropEndWhile_append (fun c hc => ?_) (fun c hc => ?_)
      · simp [List.eq_of_mem_replicate hc]
      · rw [beq_eq_false_iff_ne]
        rintro rfl
        exact hlast hc
    rw [hdrop]
    refine ⟨by simpa using hne, ?_⟩
    exact (Text.splitString_isPrefix_iff.1 hsegments).imp_left fun h => by rw [h]

/-- An id is not under a start that ends within one of its segments. -/
example : isUnder "size.lg" "size." = true ∧ isUnder "sizes.x" "size" = false ∧
    isUnder "size..lg" "size." = true ∧ isUnder ".size" "." = false := by decide

/-! ## Parts of parts -/

theorem induced_induced (g : OrderGraph) (keep also : String → Bool) :
    (g.induced keep).induced also = g.induced fun id => keep id && also id := by
  refine ext_edge (SortedMap.keys_eq_of_mem fun x => ?_) fun a b => ?_
  · show x ∈ ((g.induced keep).induced also).nodes ↔ x ∈ (g.induced fun id => keep id && also id).nodes
    rw [mem_nodes_induced, mem_nodes_induced, mem_nodes_induced, and_assoc, Bool.and_eq_true]
  · rw [edge_induced, edge_induced, edge_induced, Bool.and_eq_true, Bool.and_eq_true]
    tauto

theorem induced_comm (g : OrderGraph) (keep also : String → Bool) :
    (g.induced keep).induced also = (g.induced also).induced keep := by
  rw [induced_induced, induced_induced]
  exact congrArg g.induced (funext fun id => Bool.and_comm _ _)

theorem mem_nodes_under : x ∈ (g.under starts).nodes ↔ x ∈ g.nodes ∧ ∃ s ∈ starts, BeginsWith x s := by
  unfold under
  rw [mem_nodes_induced, List.any_eq_true]
  simp only [isUnder_iff]

theorem mem_nodes_outside : x ∈ (g.outside starts).nodes ↔ x ∈ g.nodes ∧ x ∉ (g.under starts).nodes := by
  unfold outside under
  rw [mem_nodes_induced, mem_nodes_induced, Bool.not_eq_true', ← Bool.not_eq_true]
  tauto

/-! ## The partition -/

theorem under_outside_partition (hg : g.Closed) (starts : List String) :
    (∀ x, x ∈ (g.under starts).nodes ↔ x ∈ g.nodes ∧ ∃ s ∈ starts, BeginsWith x s) ∧
    (∀ x, x ∈ (g.outside starts).nodes ↔ x ∈ g.nodes ∧ ¬ ∃ s ∈ starts, BeginsWith x s) ∧
    (∀ a b, (a, b) ∈ (g.under starts).edges ↔
      (a, b) ∈ g.edges ∧ a ∈ (g.under starts).nodes ∧ b ∈ (g.under starts).nodes) ∧
    (∀ a b, (a, b) ∈ (g.outside starts).edges ↔
      (a, b) ∈ g.edges ∧ a ∈ (g.outside starts).nodes ∧ b ∈ (g.outside starts).nodes) ∧
    (∀ a b, (a, b) ∈ g.edges →
      ((a, b) ∉ (g.under starts).edges ∧ (a, b) ∉ (g.outside starts).edges ↔
        (a ∈ (g.under starts).nodes ∧ b ∈ (g.outside starts).nodes) ∨
          (a ∈ (g.outside starts).nodes ∧ b ∈ (g.under starts).nodes))) ∧
    ∀ others, (g.under starts).outside others = (g.outside others).under starts := by
  have hunder (a b : String) : (a, b) ∈ (g.under starts).edges ↔
      (a, b) ∈ g.edges ∧ a ∈ (g.under starts).nodes ∧ b ∈ (g.under starts).nodes := by
    rw [mem_edges, mem_edges]
    exact hg.edge_induced
  have houtside (a b : String) : (a, b) ∈ (g.outside starts).edges ↔
      (a, b) ∈ g.edges ∧ a ∈ (g.outside starts).nodes ∧ b ∈ (g.outside starts).nodes := by
    rw [mem_edges, mem_edges]
    exact hg.edge_induced
  refine ⟨fun x => mem_nodes_under, fun x => ?_, hunder, houtside, fun a b hab => ?_,
    fun others => induced_comm g _ _⟩
  · rw [mem_nodes_outside, mem_nodes_under]
    exact and_congr_right fun hx => not_congr (and_iff_right hx)
  · -- both ends are nodes, so each of them is on one side
    have hedge : g.Edge a b := mem_edges.1 hab
    have ha : a ∈ g.nodes := hedge.mem_nodes
    have hb : b ∈ g.nodes := hg hedge
    rw [hunder, houtside, mem_nodes_outside, mem_nodes_outside]
    tauto

/-- Two sizes with an edge between them, one to a third id that only begins with the same letters, and an
edge elsewhere. -/
def sizesAndSpaces : OrderGraph :=
  ofTriples [⟨"size.lg", .atLeast, "size.md"⟩, ⟨"sizes.x", .atLeast, "size.md"⟩,
    ⟨"space.lg", .atLeast, "space.md"⟩]

theorem under_outside_partition_sizes : sizesAndSpaces.Closed ∧
    "size.md" ∈ (sizesAndSpaces.under ["size."]).nodes ∧ "sizes.x" ∉ (sizesAndSpaces.under ["size."]).nodes ∧
    ("sizes.x", "size.md") ∉ (sizesAndSpaces.under ["size."]).edges ∧
    ("sizes.x", "size.md") ∉ (sizesAndSpaces.outside ["size."]).edges ∧
    (sizesAndSpaces.under ["size."]).outside ["size.lg"] =
      (sizesAndSpaces.outside ["size.lg"]).under ["size."] := by
  have hclosed : sizesAndSpaces.Closed := closed_ofTriples _
  obtain ⟨hunder, houtside, -, -, hcross, hcomm⟩ := under_outside_partition hclosed ["size."]
  have hmd : "size.md" ∈ (sizesAndSpaces.under ["size."]).nodes :=
    (hunder _).2 ⟨by decide, "size.", by decide, isUnder_iff.1 (by decide)⟩
  have hx : ¬ ∃ s ∈ ["size."], BeginsWith "sizes.x" s := by
    simp only [List.mem_singleton, exists_eq_left, ← isUnder_iff]
    decide
  have hedge : ("sizes.x", "size.md") ∈ sizesAndSpaces.edges := by decide
  have hout : "sizes.x" ∈ (sizesAndSpaces.outside ["size."]).nodes := (houtside _).2 ⟨by decide, hx⟩
  obtain ⟨hnot, hnot'⟩ := (hcross _ _ hedge).2 (.inr ⟨hout, hmd⟩)
  exact ⟨hclosed, hmd, fun h => hx ((hunder _).1 h).2, hnot, hnot', hcomm ["size.lg"]⟩

end DesignTokens.OrderGraph
