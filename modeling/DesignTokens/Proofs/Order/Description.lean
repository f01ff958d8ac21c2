import DesignTokens.Proofs.Order.Graph
import DesignTokens.Proofs.Order.Lines

/-!
# Reading a graph description back

* `readQuoted?` : undoes the escapes up to the quote that closes a text; `readQuoted?_dotText` : it finds
  the text that was escaped and what is behind the quote;
* `readLine?` : what a line says, a node or an edge, whatever its attributes are;
* `filterMap_readLine?_dotLines`, `readGraph_dot` : a description says the nodes and then the edges, in order;
* `dot_eq_iff` : so graphs with the same description have the same nodes and edges.

Only the lines of nodes and edges begin with two blanks and a quote, and only in those of edges an arrow
follows the quote that closes the first id.
-/

namespace DesignTokens.OrderGraph

variable {g h : OrderGraph} {marks : Marks} {s start : String} {rest : List Char}

/-! ## Escapes -/

/-- A character as it stands in quotes. -/
def escaped (c : Char) : List Char :=
  if c = '\\' then ['\\', '\\'] else if c = '"' then ['\\', '"'] else if c = '\n' then ['\\', 'n'] else [c]

/-- As backslashes are escaped first, no escape is escaped again. -/
theorem toList_dotText (s : String) : (dotText s).toList = s.toList.flatMap escaped := by
  simp only [dotText, Text.replaceChar, String.toList_ofList, List.flatMap_assoc]
  refine List.flatMap_congr fun c _ => ?_
  unfold escaped
  split_ifs <;> simp_all

/-- A text in quotes, without the first quote: the characters that were escaped, and those behind the
closing quote. -/
def readQuoted? : List Char → Option (List Char × List Char)
  | [] => none
  | '"' :: cs => some ([], cs)
  | '\\' :: c :: cs => (readQuoted? cs).map fun (s, rest) => ((if c = 'n' then '\n' else c) :: s, rest)
  | c :: cs => (readQuoted? cs).map fun (s, rest) => (c :: s, rest)

theorem readQuoted?_flatMap_escaped (cs rest : List Char) :
    readQuoted? (cs.flatMap escaped ++ '"' :: rest) = some (cs, rest) := by
  induction cs with
  | nil => rfl
  | cons c cs ih =>
    rw [List.flatMap_cons, List.append_assoc, escaped]
    split_ifs with hslash hquote hend
    · simp [readQuoted?, ih, hslash]
    · rw [hquote]
      simp [readQuoted?, ih]
    · simp [readQuoted?, ih, hend]
    · simp [readQuoted?, ih, hslash]

/-! ## Lines -/

/-- The id in quotes behind a given start that ends with the first quote, and what is behind the other. -/
def readId? (start : String) (cs : List Char) : Option (String × List Char) :=
  ((Text.stripStart? start.toList cs).bind readQuoted?).map fun (id, rest) => (String.ofList id, rest)

/-- The node or the edge that a line is about. -/
def readLine? (line : String) : Option (String ⊕ String × String) :=
  (readId? "  \"" line.toList).map fun (a, rest) =>
    match readId? " -> \"" rest with
    | some (b, _) => .inr (a, b)
    | none => .inl a

theorem readId?_append (start s : String) (rest : List Char) :
    readId? start (start.toList ++ ((dotText s).toList ++ '"' :: rest)) = some (s, rest) := by
  rw [readId?, Text.stripStart?, if_pos (by simp), List.drop_left, toList_dotText, Option.bind_some,
    readQuoted?_flatMap_escaped]
  simp

theorem readLine?_append_eq_none (hlength : 3 ≤ start.toList.length)
    (hstart : ¬ ("  \"".toList <+: start.toList)) (s : String) : readLine? (start ++ s) = none := by
  have hno : ¬ ("  \"".toList <+: start.toList ++ s.toList) := fun h =>
    hstart (List.prefix_of_prefix_length_le h (List.prefix_append _ _) hlength)
  rw [readLine?, readId?, Text.stripStart?, String.toList_append, if_neg (by simpa using hno)]
  rfl

theorem readLine?_dotNode (marks : Marks) (id : String) : readLine? (dotNode marks id) = some (.inl id) := by
  have hread (rest : String) (h : readId? " -> \"" rest.toList = none) :
      readLine? ("  " ++ dotQuote id ++ rest) = some (.inl id) := by
    have hchars : ("  " ++ dotQuote id ++ rest).toList =
        "  \"".toList ++ ((dotText id).toList ++ '"' :: rest.toList) := by simp [dotQuote]
    simp only [readLine?, hchars, readId?_append, Option.map_some, h]
  rw [dotNode]
  split
  · exact hread _ (by decide)
  · exact hread _ (by decide)

/-- An id that looks like the ends of an edge. -/
example : dotNode Marks.none "a\" -> \"b" = "  \"a\\\" -> \\\"b\";" ∧
    readLine? (dotNode Marks.none "a\" -> \"b") = some (.inl "a\" -> \"b") := by decide

theorem readLine?_dotEdge (marks : Marks) (e : String × String) :
    readLine? (dotEdge marks e) = some (.inr e) := by
  obtain ⟨rest, hchars⟩ : ∃ rest : List Char, (dotEdge marks e).toList = "  \"".toList ++
      ((dotText e.1).toList ++ '"' :: (" -> \"".toList ++ ((dotText e.2).toList ++ '"' :: rest))) := by
    rw [dotEdge]
    simp [dotQuote]
  simp only [readLine?, hchars, readId?_append, Option.map_some]

theorem readLine?_of_mem_dotHead (h : s ∈ dotHead marks) : readLine? s = none := by
  unfold dotHead at h
  split at h
  · simp only [List.mem_cons, List.not_mem_nil, or_false] at h
    rcases h with rfl | rfl | rfl
    · rw [String.append_assoc]
      exact readLine?_append_eq_none (by decide) (by decide) _
    · rw [String.append_assoc]
      exact readLine?_append_eq_none (by decide) (by decide) _
    · decide
  · rw [List.mem_singleton.1 h]
    decide

theorem filterMap_readLine?_dotLines (marks : Marks) (g : OrderGraph) :
    (dotLines marks g).filterMap readLine? = g.nodes.map .inl ++ g.edges.map .inr := by
  have hhead : (dotHead marks).filterMap readLine? = [] :=
    List.filterMap_eq_nil_iff.2 fun l hl => readLine?_of_mem_dotHead hl
  have hcycles : (g.cycles.map fun c => "  // cycle: " ++ dotText (cycleText c)).filterMap readLine? = [] := by
    refine List.filterMap_eq_nil_iff.2 (List.forall_mem_map.2 fun c _ => ?_)
    exact readLine?_append_eq_none (by decide) (by decide) _
  have hnode : readLine? ∘ dotNode marks = some ∘ Sum.inl := by
    funext x
    rw [Function.comp_apply, Function.comp_apply, readLine?_dotNode]
  have hedge : readLine? ∘ dotEdge marks = some ∘ Sum.inr := by
    funext e
    rw [Function.comp_apply, Function.comp_apply, readLine?_dotEdge]
  have hopen : ["  rankdir=TB;", "  node [shape=box];"].filterMap readLine? = [] := by decide
  have hclose : ["\x7d"].filterMap readLine? = [] := by decide
  rw [dotLines, List.filterMap_append, List.filterMap_append, List.filterMap_append, List.filterMap_append,
    List.filterMap_append, hhead, hopen, hcycles, List.filterMap_map, hnode, List.filterMap_eq_map,
    List.filterMap_map, hedge, List.filterMap_eq_map, hclose]
  simp

/-! ## The text -/

theorem oneLine_dotQuote (s : String) : OneLine (dotQuote s) :=
  .between (by decide) (oneLine_dotText s) (by decide)

theorem oneLine_dotEdge (marks : Marks) (e : String × String) : OneLine (dotEdge marks e) := by
  have hattributes : ∀ s ∈ dotAttributes marks e, OneLine s := by
    unfold dotAttributes
    refine List.forall_mem_append.2 ⟨?_, ?_⟩
    · split
      · exact List.forall_mem_singleton.2 (oneLine_append.2 ⟨by decide, oneLine_dotQuote _⟩)
      · exact fun _ h => absurd h List.not_mem_nil
    · split <;> decide
  have hlist : OneLine (" [" ++ String.intercalate ", " (dotAttributes marks e) ++ "]") :=
    .between (by decide) (oneLine_intercalate (by decide) hattributes) (by decide)
  rw [dotEdge]
  simp only [oneLine_append]
  refine ⟨⟨⟨⟨⟨by decide, oneLine_dotQuote _⟩, by decide⟩, oneLine_dotQuote _⟩, ?_⟩, by decide⟩
  split
  · decide
  · exact hlist

theorem oneLine_of_mem_dotHead (h : s ∈ dotHead marks) : OneLine s := by
  unfold dotHead at h
  split at h
  · simp only [List.mem_cons, List.not_mem_nil, or_false] at h
    rcases h with rfl | rfl | rfl
    · exact .between (by decide) (oneLine_dotQuote _) (by decide)
    · exact .between (by decide) (oneLine_dotQuote _) (by decide)
    · decide
  · rw [List.mem_singleton.1 h]
    decide

theorem oneLine_of_mem_dotLines (h : s ∈ dotLines marks g) : OneLine s := by
  unfold dotLines at h
  simp only [List.mem_append, List.mem_map] at h
  rcases h with ((((h | h) | ⟨c, -, rfl⟩) | ⟨x, -, rfl⟩) | ⟨e, -, rfl⟩) | h
  · exact oneLine_of_mem_dotHead h
  · revert s
    decide
  · exact oneLine_append.2 ⟨by decide, oneLine_dotText _⟩
  · refine .between (by decide) (oneLine_dotQuote _) ?_
    split <;> decide
  · exact oneLine_dotEdge marks e
  · rw [List.mem_singleton.1 h]
    decide

/-- The nodes and edges that the lines of a text are about. -/
def readGraph (text : String) : List (String ⊕ String × String) :=
  (Text.splitString '\n' text).filterMap readLine?

theorem readGraph_dot (marks : Marks) (g : OrderGraph) :
    readGraph (g.dot marks) = g.nodes.map .inl ++ g.edges.map .inr := by
  have hempty : [""].filterMap readLine? = [] := by decide
  rw [readGraph, dot, splitString_unlines fun l hl => oneLine_of_mem_dotLines hl, List.filterMap_append, hempty,
    List.append_nil, filterMap_readLine?_dotLines]

/-- The description of a graph, with any marks, is that of no graph with other nodes or other edges. -/
theorem dot_eq_iff (marks : Marks) (g h : OrderGraph) :
    g.dot marks = h.dot marks ↔ g.nodes = h.nodes ∧ g.edges = h.edges := by
  constructor
  · intro hdot
    have hread : g.nodes.map Sum.inl ++ g.edges.map Sum.inr = h.nodes.map Sum.inl ++ h.edges.map Sum.inr := by
      rw [← readGraph_dot marks g, ← readGraph_dot marks h, hdot]
    have hnodes := congrArg (List.filterMap Sum.getLeft?) hread
    have hedges := congrArg (List.filterMap Sum.getRight?) hread
    simp only [List.filterMap_append, List.filterMap_map] at hnodes hedges
    exact ⟨by simpa [Function.comp_def] using hnodes, by simpa [Function.comp_def] using hedges⟩
  · rintro ⟨hnodes, hedges⟩
    have hgraph : g = h := ext_edge hnodes fun a b => by rw [← mem_edges, ← mem_edges, hedges]
    rw [hgraph]

end DesignTokens.OrderGraph
