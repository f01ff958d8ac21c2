import DesignTokens.Proofs.Order.Identifiers
import DesignTokens.Proofs.Order.Lines

/-!
# The lines of a flowchart

* `oneLine_of_mem_mermaidLines` : no line of a flowchart has a line end in it, whatever ids, labels and
  title have;
* `mem_markedLinks`, `pairwise_markedLinks` : the numbers of the styled links are the positions of the
  marked edges;
* `mermaid_lines` : so the lines of its text are those of the title, the cycles, the nodes, the edges and
  the styles, in this order.
-/

namespace DesignTokens.OrderGraph

variable {g : OrderGraph} {marks : Marks} {x l : String} {e : String × String} {k : Nat}

/-! ## Marked nodes and edges -/

theorem markedIdentifiers_eq (marks : Marks) (g : OrderGraph) : markedIdentifiers marks g.identifiers =
    (g.nodes.filter fun x => x ∈ marks.nodes).map (identifierIn g.identifiers) := by
  conv_lhs => rw [identifiers_eq]
  rw [markedIdentifiers, List.filter_map, List.map_map]
  simp [Function.comp_def]

theorem mem_markedLinks : k ∈ markedLinks marks g ↔ ∃ e ∈ marks.edges, g.edges[k]? = some e := by
  rw [markedLinks, List.mem_map]
  constructor
  · rintro ⟨⟨e, k⟩, hmem, rfl⟩
    obtain ⟨hplace, hmarked⟩ := List.mem_filter.1 hmem
    exact ⟨e, List.contains_iff_mem.1 hmarked, List.mem_zipIdx_iff_getElem?.1 hplace⟩
  · rintro ⟨e, hmarked, hplace⟩
    have hmem : (e, k) ∈ g.edges.zipIdx := List.mem_zipIdx_iff_getElem?.2 hplace
    exact ⟨(e, k), List.mem_filter.2 ⟨hmem, List.contains_iff_mem.2 hmarked⟩, rfl⟩

theorem pairwise_markedLinks (marks : Marks) (g : OrderGraph) : (markedLinks marks g).Pairwise (· < ·) := by
  have hsub : (markedLinks marks g).Sublist (g.edges.zipIdx.map Prod.snd) := List.filter_sublist.map _
  refine List.Pairwise.sublist hsub ?_
  rw [List.zipIdx_map_snd]
  exact List.pairwise_lt_range'

theorem map_mermaidNode (g : OrderGraph) : g.identifiers.map mermaidNode =
    g.nodes.map fun x => "  " ++ identifierIn g.identifiers x ++ "[\"" ++ mermaidText x ++ "\"]" := by
  conv_lhs => rw [identifiers_eq]
  rw [List.map_map]
  rfl

theorem mermaidStyles_eq (marks : Marks) (g : OrderGraph) : mermaidStyles marks g =
    (if markedIdentifiers marks g.identifiers = [] ∧ markedLinks marks g = [] then []
      else ["  classDef violation stroke:#d33,stroke-width:2px;"]) ++
    (if markedIdentifiers marks g.identifiers = [] then []
      else ["  class " ++ String.intercalate "," (markedIdentifiers marks g.identifiers) ++ " violation;"]) ++
    (if markedLinks marks g = [] then []
      else ["  linkStyle " ++ String.intercalate "," ((markedLinks marks g).map toString) ++
        " stroke:#d33,stroke-width:2px;"]) := by
  have hclass : "  classDef violation " ++ markedStyle = "  classDef violation stroke:#d33,stroke-width:2px;" := by
    decide
  have hlink : " " ++ markedStyle = " stroke:#d33,stroke-width:2px;" := by decide
  simp only [mermaidStyles, hclass, String.append_assoc, hlink, Bool.and_eq_true, List.isEmpty_iff]

/-! ## One line each -/

theorem oneLine_identifierIn (g : OrderGraph) (x : String) : OneLine (identifierIn g.identifiers x) := by
  by_cases hx : x ∈ g.nodes
  · intro h
    rcases (isIdentifier_identifierIn hx).2 _ h with h | h <;> revert h <;> decide
  · have hnone : g.identifiers.lookup x = none := by
      rw [List.lookup_eq_none_iff]
      intro e he
      rw [← map_fst_identifiers] at hx
      simpa using fun heq : x = e.1 => hx (heq ▸ List.mem_map_of_mem he)
    rw [identifierIn, hnone]
    decide

theorem oneLine_mermaidEdge (marks : Marks) (g : OrderGraph) (e : String × String) :
    OneLine (mermaidEdge marks g.identifiers e) := by
  have harrow (label : String) : OneLine (" -->|\"" ++ mermaidText label ++ "\"| ") :=
    .between (by decide) (oneLine_mermaidText label) (by decide)
  unfold mermaidEdge
  simp only [oneLine_append]
  refine ⟨⟨⟨by decide, oneLine_identifierIn g e.1⟩, ?_⟩, oneLine_identifierIn g e.2⟩
  split
  · exact harrow _
  · decide

theorem oneLine_of_mem_mermaidStyles (h : l ∈ mermaidStyles marks g) : OneLine l := by
  have hids : ∀ name ∈ markedIdentifiers marks g.identifiers, OneLine name := by
    rw [markedIdentifiers_eq]
    exact List.forall_mem_map.2 fun x _ => oneLine_identifierIn g x
  have hlinks : ∀ s ∈ (markedLinks marks g).map toString, OneLine s :=
    List.forall_mem_map.2 fun k _ => oneLine_toString k
  unfold mermaidStyles at h
  simp only [List.mem_append] at h
  rcases h with (h | h) | h <;> split at h
  case inl.inl.isFalse =>
    rw [List.mem_singleton.1 h]
    decide
  case inl.inr.isFalse =>
    rw [List.mem_singleton.1 h]
    exact .between (by decide) (oneLine_intercalate (by decide) hids) (by decide)
  case inr.isFalse =>
    rw [List.mem_singleton.1 h, String.append_assoc]
    exact .between (by decide) (oneLine_intercalate (by decide) hlinks) (by decide)
  all_goals cases h

theorem oneLine_of_mem_mermaidTitle (h : l ∈ mermaidTitle marks) : OneLine l := by
  unfold mermaidTitle at h
  split at h
  · simp only [List.mem_cons, List.not_mem_nil, or_false] at h
    rcases h with rfl | rfl | rfl
    · decide
    · exact oneLine_append.2 ⟨by decide, oneLine_mermaidText _⟩
    · decide
  · cases h

theorem oneLine_of_mem_mermaidLines (h : l ∈ mermaidLines marks g) : OneLine l := by
  unfold mermaidLines at h
  simp only [List.mem_append, List.mem_map, List.mem_singleton] at h
  rcases h with ((((h | rfl) | ⟨c, -, rfl⟩) | ⟨n, hn, rfl⟩) | ⟨e, -, rfl⟩) | h
  · exact oneLine_of_mem_mermaidTitle h
  · decide
  · exact oneLine_append.2 ⟨by decide, oneLine_mermaidText _⟩
  · rw [identifiers_eq] at hn
    obtain ⟨x, -, rfl⟩ := List.mem_map.1 hn
    simp only [mermaidNode, oneLine_append]
    exact ⟨⟨⟨⟨by decide, oneLine_identifierIn g x⟩, by decide⟩, oneLine_mermaidText x⟩, by decide⟩
  · exact oneLine_mermaidEdge marks g e
  · exact oneLine_of_mem_mermaidStyles h

/-! ## All lines -/

/-- Each node has an identifier of its own, the first of `n_…`, `n_…_2`, `n_…_3`, … that no node before it
has; and the lines of a flowchart are those of the title, one for each cycle, one for each node, one for each
edge with the identifiers of its ends, and those of the styles of the marked nodes and of the marked edges by
their positions. Neither a quote nor a line end comes from an id, a label or a title. -/
theorem mermaid_lines (h : g.Closed) (marks : Marks) :
    (g.nodes.map (identifierIn g.identifiers)).Nodup ∧
    (∀ x ∈ g.nodes, IsIdentifier (identifierIn g.identifiers x)) ∧
    (∀ before x after, g.nodes = before ++ x :: after → ∃ n, identifierIn g.identifiers x = tried (plainId x) n ∧
      tried (plainId x) n ∉ before.map (identifierIn g.identifiers) ∧
      ∀ m < n, tried (plainId x) m ∈ before.map (identifierIn g.identifiers)) ∧
    (∀ e ∈ g.edges, e.1 ∈ g.nodes ∧ e.2 ∈ g.nodes) ∧
    (∀ s, '"' ∉ (mermaidText s).toList ∧ '\n' ∉ (mermaidText s).toList) ∧
    ∃ (ids : List String) (links : List Nat),
      ids = (g.nodes.filter fun x => x ∈ marks.nodes).map (identifierIn g.identifiers) ∧
      links.Pairwise (· < ·) ∧ (∀ k, k ∈ links ↔ ∃ e ∈ marks.edges, g.edges[k]? = some e) ∧
      Text.splitString '\n' (g.mermaid marks) =
        (match marks.title with
          | some title => ["---", "title: " ++ mermaidText title, "---"]
          | none => []) ++
        ["flowchart TD"] ++
        g.cycles.map (fun c => "  %% cycle: " ++ mermaidText (cycleText c)) ++
        g.nodes.map (fun x => "  " ++ identifierIn g.identifiers x ++ "[\"" ++ mermaidText x ++ "\"]") ++
        g.edges.map (fun e => "  " ++ identifierIn g.identifiers e.1 ++
          (match marks.labels.lookup e with
            | some label => " -->|\"" ++ mermaidText label ++ "\"| "
            | none => " --> ") ++ identifierIn g.identifiers e.2) ++
        (if ids = [] ∧ links = [] then [] else ["  classDef violation stroke:#d33,stroke-width:2px;"]) ++
        (if ids = [] then [] else ["  class " ++ String.intercalate "," ids ++ " violation;"]) ++
        (if links = [] then []
          else ["  linkStyle " ++ String.intercalate "," (links.map toString) ++
            " stroke:#d33,stroke-width:2px;"]) ++ [""] := by
  refine ⟨nodup_identifiers g, fun x hx => isIdentifier_identifierIn hx, fun before x after hnodes =>
    exists_identifierIn hnodes, fun e he => ?_, fun s => ⟨quote_not_mem_mermaidText s, oneLine_mermaidText s⟩,
    markedIdentifiers marks g.identifiers, markedLinks marks g, markedIdentifiers_eq marks g,
    pairwise_markedLinks marks g, fun k => mem_markedLinks, ?_⟩
  · have hedge : g.Edge e.1 e.2 := mem_edges.1 he
    exact ⟨hedge.mem_nodes, h hedge⟩
  · rw [mermaid, splitString_unlines fun l hl => oneLine_of_mem_mermaidLines hl, mermaidLines, map_mermaidNode,
      mermaidStyles_eq]
    simp only [List.append_assoc]
    rfl

/-- Two ids with one plain form, one whose plain form is the next tried for it, and one with a line end and
quotes. -/
def alike : OrderGraph :=
  ofTriples [⟨"a.b", .atLeast, "a_b"⟩, ⟨"a_b", .atLeast, "a.b"⟩, ⟨"a_b_2", .atMost, "a_b"⟩,
    ⟨"a_b_2", .atLeast, "a\n\"b\""⟩]

/-- Marks with a node that the graph does not have. -/
def alikeMarks : Marks :=
  ⟨some "one\ntwo", ["a_b", "none"], [("a_b", "a_b_2")], [(("a.b", "a_b"), "1\n> 2")]⟩

theorem mermaid_lines_alike : alike.Closed ∧ (alike.nodes.map (identifierIn alike.identifiers)).Nodup ∧
    Text.splitString '\n' (alike.mermaid alikeMarks) = [
      "---",
      "title: one two",
      "---",
      "flowchart TD",
      "  %% cycle: a.b -> a_b -> a.b",
      "  n_a__b_[\"a #quot;b#quot;\"]",
      "  n_a_b[\"a.b\"]",
      "  n_a_b_2[\"a_b\"]",
      "  n_a_b_2_2[\"a_b_2\"]",
      "  n_a_b -->|\"1 > 2\"| n_a_b_2",
      "  n_a_b_2 --> n_a_b",
      "  n_a_b_2 --> n_a_b_2_2",
      "  n_a_b_2_2 --> n_a__b_",
      "  classDef violation stroke:#d33,stroke-width:2px;",
      "  class n_a_b_2 violation;",
      "  linkStyle 2 stroke:#d33,stroke-width:2px;",
      ""] := by
  have hclosed : alike.Closed := closed_ofTriples _
  obtain ⟨hnodup, -⟩ := mermaid_lines hclosed alikeMarks
  have hcycles : alike.cycles = [["a.b", "a_b", "a.b"]] := by
    have hnodes : alike.nodes = ["a\n\"b\"", "a.b", "a_b", "a_b_2"] := by decide
    have hfirst : alike.successors "a\n\"b\"" = [] := by decide
    have hpoint : alike.successors "a.b" = ["a_b"] := by decide
    have hplain : alike.successors "a_b" = ["a.b", "a_b_2"] := by decide
    have hlast : alike.successors "a_b_2" = ["a\n\"b\""] := by decide
    simp [cycles, walk, way, closed, hnodes, hfirst, hpoint, hplain, hlast]
  refine ⟨hclosed, hnodup, ?_⟩
  rw [mermaid, splitString_unlines fun l hl => oneLine_of_mem_mermaidLines hl, mermaidLines, hcycles]
  decide +kernel

end DesignTokens.OrderGraph
