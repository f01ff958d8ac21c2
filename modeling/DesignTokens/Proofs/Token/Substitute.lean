import DesignTokens.Token.Substitute

/-!
# What substitution reads and what it keeps

* `Json.mem_leaves_mapLeaves` : the texts of a document whose texts are replaced are those of the images;
* `substitute_congr` : only the values of the ids that a value cites count;
* `composite?_eq_some` : which texts are those of an array or object;
* `written_segments` : the parts of a text as they are written make up the text;
* `v.Printed` : the text of an array or object is as it is printed; `substitute_of_refs_eq_nil` : such
  a value stays as it is if it cites nothing, while any other text of an array or object is written
  anew;
* `substitute_placeholder` : a text that is exactly one placeholder becomes the value cited.
-/

namespace DesignTokens

namespace Json

mutual

theorem mapLeaves_congr {f g : String → Json} : ∀ {j : Json}, (∀ s ∈ j.leaves, f s = g s) →
    j.mapLeaves f = j.mapLeaves g
  | str s, h => by
    rw [mapLeaves, mapLeaves]
    exact h s (by simp [leaves])
  | arr xs, h => by
    rw [mapLeaves, mapLeaves, mapItemLeaves_congr fun s hs => h s (by simpa [leaves] using hs)]
  | obj ms, h => by
    rw [mapLeaves, mapLeaves, mapMemberLeaves_congr fun s hs => h s (by simpa [leaves] using hs)]
  | null, _ => by rw [mapLeaves, mapLeaves]
  | bool b, _ => by rw [mapLeaves, mapLeaves]
  | num n, _ => by rw [mapLeaves, mapLeaves]

theorem mapItemLeaves_congr {f g : String → Json} : ∀ {js : List Json},
    (∀ s ∈ itemLeaves js, f s = g s) → mapItemLeaves f js = mapItemLeaves g js
  | [], _ => by rw [mapItemLeaves, mapItemLeaves]
  | j :: js, h => by
    rw [mapItemLeaves, mapItemLeaves, mapLeaves_congr fun s hs => h s (by simp [itemLeaves, hs]),
      mapItemLeaves_congr fun s hs => h s (by simp [itemLeaves, hs])]

theorem mapMemberLeaves_congr {f g : String → Json} : ∀ {ms : List (String × Json)},
    (∀ s ∈ memberLeaves ms, f s = g s) → mapMemberLeaves f ms = mapMemberLeaves g ms
  | [], _ => by rw [mapMemberLeaves, mapMemberLeaves]
  | (k, j) :: ms, h => by
    rw [mapMemberLeaves, mapMemberLeaves,
      mapLeaves_congr fun s hs => h s (by simp [memberLeaves, hs]),
      mapMemberLeaves_congr fun s hs => h s (by simp [memberLeaves, hs])]

end

mutual

theorem mapLeaves_str : ∀ j : Json, j.mapLeaves str = j
  | str s => by rw [mapLeaves]
  | arr xs => by rw [mapLeaves, mapItemLeaves_str xs]
  | obj ms => by rw [mapLeaves, mapMemberLeaves_str ms]
  | null => by rw [mapLeaves]
  | bool b => by rw [mapLeaves]
  | num n => by rw [mapLeaves]

theorem mapItemLeaves_str : ∀ js : List Json, mapItemLeaves str js = js
  | [] => by rw [mapItemLeaves]
  | j :: js => by rw [mapItemLeaves, mapLeaves_str j, mapItemLeaves_str js]

theorem mapMemberLeaves_str : ∀ ms : List (String × Json), mapMemberLeaves str ms = ms
  | [] => by rw [mapMemberLeaves]
  | (k, j) :: ms => by rw [mapMemberLeaves, mapLeaves_str j, mapMemberLeaves_str ms]

end

mutual

theorem mem_leaves_mapLeaves {f : String → Json} {t : String} : ∀ {j : Json},
    t ∈ (j.mapLeaves f).leaves → ∃ s ∈ j.leaves, t ∈ (f s).leaves
  | null, h => by simp [mapLeaves, leaves] at h
  | bool b, h => by simp [mapLeaves, leaves] at h
  | num n, h => by simp [mapLeaves, leaves] at h
  | str s, h => by
    rw [mapLeaves] at h
    exact ⟨s, by simp [leaves], h⟩
  | arr js, h => by
    rw [mapLeaves, leaves] at h
    rw [leaves]
    exact mem_itemLeaves_mapItemLeaves h
  | obj ms, h => by
    rw [mapLeaves, leaves] at h
    rw [leaves]
    exact mem_memberLeaves_mapMemberLeaves h

theorem mem_itemLeaves_mapItemLeaves {f : String → Json} {t : String} : ∀ {js : List Json},
    t ∈ itemLeaves (mapItemLeaves f js) → ∃ s ∈ itemLeaves js, t ∈ (f s).leaves
  | [], h => by simp [mapItemLeaves, itemLeaves] at h
  | j :: js, h => by
    rw [mapItemLeaves, itemLeaves, List.mem_append] at h
    simp only [itemLeaves, List.mem_append]
    rcases h with h | h
    · obtain ⟨s, hs, ht⟩ := mem_leaves_mapLeaves h
      exact ⟨s, .inl hs, ht⟩
    · obtain ⟨s, hs, ht⟩ := mem_itemLeaves_mapItemLeaves h
      exact ⟨s, .inr hs, ht⟩

theorem mem_memberLeaves_mapMemberLeaves {f : String → Json} {t : String} :
    ∀ {ms : List (String × Json)}, t ∈ memberLeaves (mapMemberLeaves f ms) →
      ∃ s ∈ memberLeaves ms, t ∈ (f s).leaves
  | [], h => by simp [mapMemberLeaves, memberLeaves] at h
  | (k, j) :: ms, h => by
    rw [mapMemberLeaves, memberLeaves, List.mem_append] at h
    simp only [memberLeaves, List.mem_append]
    rcases h with h | h
    · obtain ⟨s, hs, ht⟩ := mem_leaves_mapLeaves h
      exact ⟨s, .inl hs, ht⟩
    · obtain ⟨s, hs, ht⟩ := mem_memberLeaves_mapMemberLeaves h
      exact ⟨s, .inr hs, ht⟩

end

end Json

/-! ## Substitution reads only the cited ids -/

variable {f g : String → Option TokenValue} {s : String}

theorem mem_placeholderIds {id : String} :
    id ∈ placeholderIds s ↔ ∃ inner, .placeholder inner ∈ segments s.toList ∧ Segment.idOf inner = id := by
  rw [placeholderIds, List.mem_eraseDups, List.mem_filterMap]
  constructor
  · rintro ⟨part, hpart, hid⟩
    cases part with
    | literal c => cases hid
    | placeholder inner => exact ⟨inner, hpart, Option.some.inj hid⟩
  · rintro ⟨inner, hpart, rfl⟩
    exact ⟨.placeholder inner, hpart, rfl⟩

theorem Segment.expand_congr {part : Segment} (h : ∀ id, part.id? = some id → f id = g id) :
    part.expand f = part.expand g := by
  cases part with
  | literal c => rfl
  | placeholder inner => rw [expand, expand, h _ rfl]

theorem substituteText_congr (h : ∀ id ∈ placeholderIds s, f id = g id) :
    substituteText f s = substituteText g s := by
  have parts : ∀ part ∈ segments s.toList, part.expand f = part.expand g := by
    intro part hpart
    refine Segment.expand_congr fun id hid => h id ?_
    rw [placeholderIds, List.mem_eraseDups]
    exact List.mem_filterMap.2 ⟨part, hpart, hid⟩
  unfold substituteText
  split
  · rename_i inner hs
    rw [h _ (mem_placeholderIds.2 ⟨inner, by simp [hs], rfl⟩)]
  · rw [expandAll, expandAll, List.flatMap_def, List.flatMap_def, List.map_congr_left parts]

theorem substitute_congr {v : TokenValue} (h : ∀ id ∈ v.refs, f id = g id) :
    substitute f v = substitute g v := by
  cases v with
  | number x => rfl
  | text s =>
    rw [substitute, substitute]
    rw [TokenValue.refs] at h
    cases hs : composite? s with
    | none =>
      simp only [hs] at h ⊢
      exact substituteText_congr h
    | some doc =>
      simp only [hs, List.mem_eraseDups, List.mem_flatMap] at h ⊢
      rw [Json.mapLeaves_congr fun leaf hleaf => ?_]
      rw [substituteText_congr fun id hid => h id ⟨leaf, hleaf, hid⟩]

/-! ## The texts of arrays and objects -/

theorem composite?_eq_some {doc : Json} : composite? s = some doc ↔
    (s.toList.head? = some '{' ∨ s.toList.head? = some '[') ∧ Json.parse? s = some doc ∧
      doc.isComposite = true := by
  unfold composite?
  split
  · rename_i c cs hs
    by_cases hc : c = '{' ∨ c = '['
    · rw [if_pos (by simpa using hc), Option.filter_eq_some_iff, hs]
      simp [hc]
    · rw [if_neg (by simpa using hc), hs]
      simp [hc]
  · rename_i hs
    simp [hs]

/-! ## Texts without placeholders -/

theorem flatMap_written_literals (cs : List Char) : (literals cs).flatMap Segment.written = cs := by
  induction cs with
  | nil => rfl
  | cons c cs ih =>
    rw [literals, List.map_cons, List.flatMap_cons, ← literals, ih]
    rfl

theorem written_segmentsFrom (pending : Option (List Char)) (cs : List Char) :
    (segmentsFrom pending cs).flatMap Segment.written =
      (pending.elim [] fun p => '{' :: p.reverse) ++ cs := by
  induction pending, cs using segmentsFrom.induct with
  | case1 => rfl
  | case2 p => simp [segmentsFrom, flatMap_written_literals]
  | case3 cs ih => simp [segmentsFrom, ih]
  | case4 c cs h ih => simp [segmentsFrom, h, ih, Segment.written]
  | case5 p cs ih => simp [segmentsFrom, ih, flatMap_written_literals]
  | case6 p cs h ih =>
    by_cases hp : p.isEmpty
    · obtain rfl := List.isEmpty_iff.1 hp
      simp [segmentsFrom, ih, flatMap_written_literals]
    · simp [segmentsFrom, ih, hp, Segment.written]
  | case7 p c cs h h' ih => simp [segmentsFrom, h, h', ih]

theorem written_segments (cs : List Char) : (segments cs).flatMap Segment.written = cs := by
  rw [segments, written_segmentsFrom]
  rfl

theorem Segment.expand_none (part : Segment) : part.expand (fun _ => none) = part.written := by
  cases part <;> rfl

theorem substituteText_none (s : String) : substituteText (fun _ => none) s = .text s := by
  have whole : expandAll (fun _ => none) (segments s.toList) = s := by
    rw [expandAll, funext Segment.expand_none, written_segments, String.ofList_toList]
  rw [substituteText]
  split
  · rfl
  · rw [whole]

/-- The array or object that a value writes. -/
def TokenValue.document? : TokenValue → Option Json
  | number _ => none
  | text s => composite? s

/-- The text of an array or object is the one that is printed for it. -/
def TokenValue.Printed (v : TokenValue) : Prop := ∀ doc, v.document? = some doc → v = .text doc.compress

theorem TokenValue.printed_of_document?_eq_none {v : TokenValue} (h : v.document? = none) : v.Printed := by
  intro doc hdoc
  rw [h] at hdoc
  cases hdoc

theorem substitute_none {v : TokenValue} (h : v.Printed) : substitute (fun _ => none) v = v := by
  cases v with
  | number x => rfl
  | text s =>
    rw [substitute]
    cases hdoc : composite? s with
    | none => exact substituteText_none s
    | some doc =>
      have hleaf : ∀ leaf, (substituteText (fun _ => none) leaf).toJson = .str leaf := by
        intro leaf
        rw [substituteText_none, TokenValue.toJson]
      dsimp only
      rw [funext hleaf, Json.mapLeaves_str]
      exact (h doc hdoc).symm

theorem substitute_of_refs_eq_nil {v : TokenValue} (hrefs : v.refs = []) (h : v.Printed) :
    substitute f v = v := by
  have hnone : substitute f v = substitute (fun _ => none) v := by
    refine substitute_congr fun id hid => ?_
    rw [hrefs] at hid
    cases hid
  rw [hnone, substitute_none h]

/-! ## Aliases -/

theorem segmentsFrom_placeholder {inner pending : List Char} (hne : pending ≠ [] ∨ inner ≠ [])
    (hbraces : ∀ c ∈ inner, c ≠ '{' ∧ c ≠ '}') (rest : List Char) :
    segmentsFrom (some pending) (inner ++ '}' :: rest) =
      .placeholder (pending.reverse ++ inner) :: segmentsFrom none rest := by
  induction inner generalizing pending with
  | nil =>
    have hp : pending ≠ [] := hne.resolve_right (by simp)
    simp [segmentsFrom, hp]
  | cons c inner ih =>
    obtain ⟨hopen, hclose⟩ := hbraces c List.mem_cons_self
    rw [List.cons_append, segmentsFrom, if_neg hopen, if_neg hclose,
      ih (.inl (List.cons_ne_nil _ _)) fun d hd => hbraces d (List.mem_cons_of_mem c hd)]
    simp

/-- The text is exactly one placeholder, which cites the id. -/
def CitesOnly (s id : String) : Prop :=
  ∃ inner : List Char, s.toList = '{' :: inner ++ ['}'] ∧ inner ≠ [] ∧
    (∀ c ∈ inner, c ≠ '{' ∧ c ≠ '}') ∧ String.ofList (Text.trim inner) = id

theorem CitesOnly.segments_eq {id : String} (h : CitesOnly s id) :
    ∃ inner, segments s.toList = [.placeholder inner] ∧ Segment.idOf inner = id := by
  obtain ⟨inner, hs, hne, hbraces, hid⟩ := h
  refine ⟨inner, ?_, hid⟩
  rw [hs, segments, List.cons_append, segmentsFrom, if_pos rfl,
    segmentsFrom_placeholder (.inr hne) hbraces]
  rfl

theorem refs_of_citesOnly {id : String} (h : CitesOnly s id) (hdoc : composite? s = none) :
    (TokenValue.text s).refs = [id] := by
  obtain ⟨inner, hs, rfl⟩ := h.segments_eq
  rw [TokenValue.refs, hdoc]
  simp [placeholderIds, hs, Segment.id?, List.eraseDups_cons]

theorem substitute_placeholder {id : String} {v : TokenValue} (h : CitesOnly s id)
    (hdoc : composite? s = none) (hv : f id = some v) : substitute f (.text s) = v := by
  obtain ⟨inner, hs, rfl⟩ := h.segments_eq
  rw [substitute, hdoc]
  simp only [substituteText, hs, hv, Option.getD_some]

end DesignTokens
