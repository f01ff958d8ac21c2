import DesignTokens.Proofs.Alias.Outcome
import DesignTokens.Proofs.Json.Reread

/-!
# When resolved values cite nothing

Filling in values can put braces together that cite something again: braces around a citation, braces
of a value, or braces that were not read as such because the text was, or was not, that of an array or
object.

* `d.texts` : the texts in which a value cites ids;
* `d.Seamless lookup` : none of the three can happen when `d` is filled in;
* `refs_substitute_eq_nil` : then the result cites nothing;
* `values_cite_nothing` : if the values of a tree that cite anything are seamless or stand for a token,
  then no resolved value cites anything, and resolving them again changes nothing;
* `exists_resolved_cites` : in general resolved values may cite ids.
-/

namespace DesignTokens

/-! ## Texts without an opening brace -/

theorem segmentsFrom_none_of_not_mem {cs : List Char} (h : '{' ∉ cs) :
    segmentsFrom none cs = literals cs := by
  induction cs with
  | nil => rfl
  | cons c cs ih =>
    obtain ⟨hc, hcs⟩ := not_or.1 (mt List.mem_cons.2 h)
    rw [segmentsFrom, if_neg (Ne.symm hc), ih hcs]
    rfl

theorem placeholderIds_eq_nil_of_not_mem {s : String} (h : '{' ∉ s.toList) : placeholderIds s = [] := by
  rw [List.eq_nil_iff_forall_not_mem]
  intro id hid
  obtain ⟨inner, hinner, -⟩ := mem_placeholderIds.1 hid
  rw [segments, segmentsFrom_none_of_not_mem h] at hinner
  obtain ⟨c, -, hc⟩ := List.mem_map.1 hinner
  cases hc

namespace TokenValue

/-- The texts in which a value cites ids. -/
def texts : TokenValue → List String
  | number _ => []
  | text s =>
    match composite? s with
    | some doc => doc.leaves
    | none => [s]

theorem mem_refs {d : TokenValue} {id : String} : id ∈ d.refs ↔ ∃ s ∈ d.texts, id ∈ placeholderIds s := by
  cases d with
  | number x => simp [refs, texts]
  | text s =>
    cases hdoc : composite? s with
    | some doc => simp [refs, texts, hdoc]
    | none => simp [refs, texts, hdoc]

/-- The braces of the value cite just what they cite before values are filled in. -/
structure Seamless (lookup : String → Option TokenValue) (d : TokenValue) : Prop where
  between : ∀ s ∈ d.texts, placeholderIds s ≠ [] → .literal '{' ∉ segments s.toList
  within : ∀ id ∈ d.refs, ∃ v ∈ lookup id, '{' ∉ v.asText.toList
  kind : (substitute lookup d).document?.isSome = d.document?.isSome

instance {lookup : String → Option TokenValue} {d : TokenValue} : Decidable (d.Seamless lookup) :=
  decidable_of_iff
    ((∀ s ∈ d.texts, placeholderIds s ≠ [] → .literal '{' ∉ segments s.toList) ∧
      (∀ id ∈ d.refs, ∃ v ∈ lookup id, '{' ∉ v.asText.toList) ∧
      (substitute lookup d).document?.isSome = d.document?.isSome)
    ⟨fun h => ⟨h.1, h.2.1, h.2.2⟩, fun h => ⟨h.between, h.within, h.kind⟩⟩

end TokenValue

/-! ## Values filled into a text -/

section Filling

variable {lookup : String → Option TokenValue} {s : String} {d : TokenValue}

theorem substituteText_of_placeholderIds_eq_nil (h : placeholderIds s = []) :
    substituteText lookup s = .text s := by
  rw [← substituteText_none s]
  refine substituteText_congr fun id hid => ?_
  rw [h] at hid
  cases hid

theorem not_mem_asText_substituteText (hbetween : .literal '{' ∉ segments s.toList)
    (hwithin : ∀ id ∈ placeholderIds s, ∃ v ∈ lookup id, '{' ∉ v.asText.toList) :
    '{' ∉ (substituteText lookup s).asText.toList := by
  have hexpand : ∀ part ∈ segments s.toList, '{' ∉ part.expand lookup := by
    intro part hpart
    cases part with
    | literal c =>
      rw [Segment.expand, List.mem_singleton]
      rintro rfl
      exact hbetween hpart
    | placeholder inner =>
      obtain ⟨v, hv, hbrace⟩ := hwithin _ (mem_placeholderIds.2 ⟨inner, hpart, rfl⟩)
      rwa [Segment.expand, hv]
  unfold substituteText
  split
  · rename_i inner hs
    obtain ⟨v, hv, hbrace⟩ := hwithin _ (mem_placeholderIds.2 ⟨inner, by simp [hs], rfl⟩)
    rwa [hv, Option.getD_some]
  · rw [TokenValue.asText, expandAll, String.toList_ofList, List.mem_flatMap]
    rintro ⟨part, hpart, hbrace⟩
    exact hexpand part hpart hbrace

theorem leaves_toJson {v : TokenValue} {t : String} (h : t ∈ v.toJson.leaves) : v = .text t := by
  cases v with
  | number x =>
    rw [TokenValue.toJson] at h
    split at h <;> simp [Json.ofFloat, Json.leaves] at h
  | text s =>
    rw [TokenValue.toJson, Json.leaves, List.mem_singleton] at h
    rw [h]

/-- Each text of the value comes out without citations. -/
theorem TokenValue.Seamless.placeholderIds_filled (h : d.Seamless lookup) {s t : String}
    (hs : s ∈ d.texts) (ht : substituteText lookup s = .text t) : placeholderIds t = [] := by
  by_cases hcites : placeholderIds s = []
  · rw [substituteText_of_placeholderIds_eq_nil hcites] at ht
    cases ht
    exact hcites
  · have hbrace : '{' ∉ (substituteText lookup s).asText.toList := by
      refine not_mem_asText_substituteText (h.between s hs hcites) fun id hid => ?_
      exact h.within id (mem_refs.2 ⟨s, hs, hid⟩)
    rw [ht] at hbrace
    exact placeholderIds_eq_nil_of_not_mem hbrace

theorem refs_substitute_of_plain (h : (TokenValue.text s).Seamless lookup) (hdoc : composite? s = none) :
    (substitute lookup (.text s)).refs = [] := by
  have hs : s ∈ (TokenValue.text s).texts := by simp [TokenValue.texts, hdoc]
  have heq : substitute lookup (.text s) = substituteText lookup s := by rw [substitute, hdoc]
  have hkind := h.kind
  rw [heq, TokenValue.document?, hdoc, Option.isSome_none, Option.isSome_eq_false_iff,
    Option.isNone_iff_eq_none] at hkind
  rw [heq]
  cases hv : substituteText lookup s with
  | number x => rfl
  | text t =>
    rw [hv, TokenValue.document?] at hkind
    rw [TokenValue.refs, hkind]
    exact h.placeholderIds_filled hs hv

/-- The texts of the document that is read back are among those that were filled in. -/
theorem refs_substitute_of_composite {doc : Json} (h : (TokenValue.text s).Seamless lookup)
    (hdoc : composite? s = some doc) : (substitute lookup (.text s)).refs = [] := by
  have htexts : (TokenValue.text s).texts = doc.leaves := by rw [TokenValue.texts, hdoc]
  have heq : substitute lookup (.text s) =
      .text (doc.mapLeaves fun leaf => (substituteText lookup leaf).toJson).compress := by
    rw [substitute, hdoc]
  have hkind := h.kind
  rw [heq, TokenValue.document?, TokenValue.document?, hdoc, Option.isSome_some] at hkind
  obtain ⟨read, hread⟩ := Option.isSome_iff_exists.1 hkind
  have hsubset := Json.leaves_subset_of_parse?_compress (composite?_eq_some.1 hread).2.1
  rw [heq, List.eq_nil_iff_forall_not_mem]
  intro id hid
  obtain ⟨t, ht, hcites⟩ := TokenValue.mem_refs.1 hid
  rw [TokenValue.texts, hread] at ht
  obtain ⟨leaf, hleaf, hmem⟩ := Json.mem_leaves_mapLeaves (hsubset ht)
  rw [h.placeholderIds_filled (htexts ▸ hleaf) (leaves_toJson hmem)] at hcites
  cases hcites

theorem refs_substitute_eq_nil (h : d.Seamless lookup) : (substitute lookup d).refs = [] := by
  cases d with
  | number x => rfl
  | text s =>
    cases hdoc : composite? s with
    | none => exact refs_substitute_of_plain h hdoc
    | some doc => exact refs_substitute_of_composite h hdoc

end Filling

/-! ## Resolved values -/

variable {raws values : Values} {rank : String → Nat} {tree tree' : Json} {r : Resolution} {id : String}
  {v : TokenValue}

/-- By induction on the rank: a token that stands for another one has its value. -/
theorem Solves.refs_eq_nil (h : Solves raws values) (hclosed : raws.Closed) (hrank : Layered raws rank)
    (hraws : ∀ id d, raws.get? id = some d → d.refs ≠ [] →
      (∃ b, raws.Stands id b) ∨ d.Seamless values.get?) (hv : values.get? id = some v) : v.refs = [] := by
  induction hn : rank id using Nat.strongRecOn generalizing id v with
  | _ n ih =>
    subst hn
    have hid : id ∈ raws.keys := h.keys ▸ values.mem_keys.2 (hv ▸ rfl)
    obtain ⟨d, hd⟩ := Option.isSome_iff_exists.1 (raws.mem_keys.1 hid)
    have hequation := h.equation hd
    rw [hv, Option.some.injEq, TokenValue.resolvedBy] at hequation
    by_cases hrefs : d.refs = []
    · rw [hequation, if_pos hrefs, hrefs]
    · rcases hraws id d hd hrefs with ⟨b, hstands⟩ | hseamless
      · obtain ⟨w, hb, hw⟩ := h.get?_eq_of_stands hclosed (.single hstands)
        obtain rfl : v = w := Option.some.inj (hv.symm.trans hw)
        obtain ⟨s, hs, hdoc, hcites⟩ := hstands
        have hlt : rank b < rank id := hrank hs (by simp [refs_of_citesOnly hcites hdoc])
        exact ih (rank b) hlt hb rfl
      · rw [hequation, if_neg hrefs, refs_substitute_eq_nil hseamless]

/-- Values that cite nothing are resolved to themselves. -/
theorem resolve_of_refs_eq_nil (hvalues : ∀ id v, values.get? id = some v → v.refs = [])
    (htree : declaredValues tree = values) :
    ∃ r, resolve tree = .ok r ∧ r.values = values ∧ r.edges = [] := by
  subst htree
  have hclosed : (declaredValues tree).Closed := by
    intro id d c hd hc
    rw [hvalues id d hd] at hc
    cases hc
  have hrank : Layered (declaredValues tree) fun _ => 0 := by
    intro id d c hd hc
    rw [hvalues id d hd] at hc
    cases hc
  obtain ⟨r, hr⟩ := exists_resolve_eq_ok.2 ⟨hclosed, _, hrank⟩
  have hself : Solves (declaredValues tree) (declaredValues tree) := by
    refine ⟨rfl, fun id d hd => ?_⟩
    rw [TokenValue.resolvedBy, if_pos (hvalues id d hd), hd]
  have hsolves : Solves (declaredValues tree) r.values := by
    have := resolve_solves hr
    rwa [resolve_raw hr] at this
  refine ⟨r, hr, hsolves.unique hrank hself, ?_⟩
  obtain ⟨-, order, -, rfl⟩ := resolve_eq_ok.1 hr
  rw [Resolution.citationEdges, List.map_eq_nil_iff, List.eq_nil_iff_forall_not_mem]
  rintro ⟨x, c⟩ hc
  obtain ⟨d, hd, hmem⟩ := (Resolution.mem_citations (Resolution.declarationMap_keyed tree)).1 hc
  rw [hvalues x d hd] at hmem
  cases hmem

theorem values_cite_nothing (h : resolve tree = .ok r)
    (hraws : ∀ id d, r.raw.get? id = some d → d.refs ≠ [] →
      (∃ b, r.raw.Stands id b) ∨ d.Seamless r.values.get?) :
    (∀ id v, r.values.get? id = some v → v.hasPlaceholder = false) ∧
      ∀ tree', declaredValues tree' = r.values →
        ∃ r', resolve tree' = .ok r' ∧ r'.values = r.values ∧ r'.edges = [] := by
  obtain ⟨rank, hrank⟩ := resolve_layered h
  have hclosed : r.raw.Closed := resolve_raw h ▸ (resolve_eq_ok.1 h).1
  have hrefs : ∀ id v, r.values.get? id = some v → v.refs = [] := by
    intro id v hv
    exact (resolve_solves h).refs_eq_nil hclosed hrank hraws hv
  refine ⟨fun id v hv => ?_, fun tree' htree => resolve_of_refs_eq_nil hrefs htree⟩
  rw [TokenValue.hasPlaceholder, hrefs id v hv]
  rfl

/-- A size, a text and an array that cite it, and an alias of the array. -/
def citingTokens : Json :=
  .obj [("a", .obj [("$value", .str "4px")]), ("b", .obj [("$value", .str "{a} solid")]),
    ("c", .obj [("$value", .arr [.str "{a}", .num (.int 1)])]), ("d", .obj [("$value", .str "{c}")])]

/-- The same tokens with the citations filled in. -/
def filledTokens : Json :=
  .obj [("a", .obj [("$value", .str "4px")]), ("b", .obj [("$value", .str "4px solid")]),
    ("c", .obj [("$value", .arr [.str "4px", .num (.int 1)])]),
    ("d", .obj [("$value", .str "[\"4px\",1]")])]

theorem values_cite_nothing_citingTokens : ∃ r, resolve citingTokens = .ok r ∧
    (∀ id v, r.values.get? id = some v → v.hasPlaceholder = false) ∧
      ∃ r', resolve filledTokens = .ok r' ∧ r'.values = r.values ∧ r'.edges = [] := by
  obtain ⟨r, h, hseamless, halias, hfilled⟩ : ∃ r, resolve citingTokens = .ok r ∧
      (∀ e ∈ r.raw.entries, e.2.refs ≠ [] → e.1 = "d" ∨ e.2.Seamless r.values.get?) ∧
      r.raw.get? "d" = some (.text "{c}") ∧ (declaredValues filledTokens).entries = r.values.entries :=
    exists_eq_ok_and (by decide +kernel)
  have hstands : r.raw.Stands "d" "c" :=
    ⟨"{c}", halias, by decide +kernel, ['c'], rfl, by simp, by simp, by decide +kernel⟩
  obtain ⟨hnone, hagain⟩ := values_cite_nothing h fun id d hd hrefs => by
    rcases hseamless (id, d) (r.raw.get?_eq_some.1 hd) hrefs with rfl | hseamless
    · exact .inl ⟨"c", hstands⟩
    · exact .inr hseamless
  exact ⟨r, h, hnone, hagain filledTokens (SortedMap.ext hfilled)⟩

/-- Braces around a citation, a value that is an object, and a text that becomes an array. -/
def looseBraces : Json :=
  .obj [("around", .obj [("$value", .str "\x7b{size}\x7d")]),
    ("kind", .obj [("$value", .str "[{one}, \"\\u007bx\\u007d\"]")]),
    ("object", .obj [("$value", .obj [("x", .num (.int 1))])]),
    ("one", .obj [("$value", .str "1")]), ("size", .obj [("$value", .str "4px")]),
    ("within", .obj [("$value", .str "0 1px {object}")])]

theorem exists_resolved_cites : ∃ r, resolve looseBraces = .ok r ∧
    (∃ v, r.values.get? "around" = some v ∧ v.refs = ["4px"]) ∧
    (∃ v, r.values.get? "within" = some v ∧ v.refs = ["\"x\":1"]) ∧
    (∃ v, r.values.get? "kind" = some v ∧ v.refs = ["x"]) ∧
    ∀ tree', declaredValues tree' = r.values → ∀ r', resolve tree' ≠ .ok r' := by
  obtain ⟨r, h, ⟨v, hv, hrefs⟩, hwithin, hkind, hmissing⟩ : ∃ r, resolve looseBraces = .ok r ∧
      (∃ v ∈ r.values.get? "around", v.refs = ["4px"]) ∧
      (∃ v ∈ r.values.get? "within", v.refs = ["\"x\":1"]) ∧
      (∃ v ∈ r.values.get? "kind", v.refs = ["x"]) ∧ "4px" ∉ r.values.keys :=
    exists_eq_ok_and (by decide +kernel)
  refine ⟨r, h, ⟨v, hv, hrefs⟩, hwithin, hkind, fun tree' htree r' h' => ?_⟩
  have hclosed : (declaredValues tree').Closed := (resolve_eq_ok.1 h').1
  rw [htree] at hclosed
  exact hmissing (hclosed hv (by simp [hrefs]))

end DesignTokens
