import DesignTokens.Proofs.Json.Depth
import DesignTokens.Proofs.Json.Pretty
import DesignTokens.Proofs.Token.Placed
import DesignTokens.Proofs.Token.Placeholder

/-!
# Substitution in arrays and objects

* `doc.Filled fill out` : `out` is `doc` with each text replaced by something that `fill` allows; names,
  numbers of items and all other leaves are the same;
* `StandsFor lookup s j` : a text, or the number that a text of one placeholder cites;
* `substitute_keeps_structure` : the text of an array or object is replaced by one that is read as such a
  document, whatever stands in the values;
* `tornArray_not_parsed` : this needs a text that starts with its brace or bracket.
-/

namespace DesignTokens

namespace Json

mutual

/-- The second document is the first one with each text replaced by something that `fill` allows. -/
inductive Filled (fill : String → Json → Prop) : Json → Json → Prop
  | null : Filled fill .null .null
  | bool (b : Bool) : Filled fill (.bool b) (.bool b)
  | num (n : Number) : Filled fill (.num n) (.num n)
  | str {s : String} {j : Json} (h : fill s j) : Filled fill (.str s) j
  | arr {js ks : List Json} (h : ItemsFilled fill js ks) : Filled fill (.arr js) (.arr ks)
  | obj {ms ns : List (String × Json)} (h : MembersFilled fill ms ns) : Filled fill (.obj ms) (.obj ns)

inductive ItemsFilled (fill : String → Json → Prop) : List Json → List Json → Prop
  | nil : ItemsFilled fill [] []
  | cons {j k : Json} {js ks : List Json} (h : Filled fill j k) (hs : ItemsFilled fill js ks) :
    ItemsFilled fill (j :: js) (k :: ks)

inductive MembersFilled (fill : String → Json → Prop) : List (String × Json) → List (String × Json) → Prop
  | nil : MembersFilled fill [] []
  | cons {name : String} {j k : Json} {ms ns : List (String × Json)} (h : Filled fill j k)
    (hs : MembersFilled fill ms ns) : MembersFilled fill ((name, j) :: ms) ((name, k) :: ns)

end

section Filled

variable {fill : String → Json → Prop} {f : String → Json}

mutual

theorem filled_mapLeaves (hf : ∀ s, fill s (f s)) : ∀ j : Json, Filled fill j (j.mapLeaves f)
  | str s => by
    rw [mapLeaves]
    exact .str (hf s)
  | arr js => .arr (itemsFilled_mapItemLeaves hf js)
  | obj ms => .obj (membersFilled_mapMemberLeaves hf ms)
  | null => .null
  | bool b => .bool b
  | num n => .num n

theorem itemsFilled_mapItemLeaves (hf : ∀ s, fill s (f s)) :
    ∀ js : List Json, ItemsFilled fill js (mapItemLeaves f js)
  | [] => .nil
  | j :: js => .cons (filled_mapLeaves hf j) (itemsFilled_mapItemLeaves hf js)

theorem membersFilled_mapMemberLeaves (hf : ∀ s, fill s (f s)) :
    ∀ ms : List (String × Json), MembersFilled fill ms (mapMemberLeaves f ms)
  | [] => .nil
  | (_, j) :: ms => .cons (filled_mapLeaves hf j) (membersFilled_mapMemberLeaves hf ms)

end

end Filled

end Json

variable {lookup : String → Option TokenValue} {s : String} {x : Float} {doc : Json}

/-! ## What stands in the place of a text -/

/-- What may stand in the place of a text: a text, or a number if the text is exactly one placeholder and
this number is the value of its id. -/
inductive StandsFor (lookup : String → Option TokenValue) (s : String) : Json → Prop
  | text {t : String} (h : substituteText lookup s = .text t) : StandsFor lookup s (.str t)
  | number {id : String} {x : Float} (honly : CitesOnly s id) (hx : lookup id = some (.number x)) :
    StandsFor lookup s (.num (.float x))

theorem exists_citesOnly_of_number (h : substituteText lookup s = .number x) :
    ∃ id, CitesOnly s id ∧ lookup id = some (.number x) := by
  unfold substituteText at h
  split at h
  · rename_i inner hs
    refine ⟨_, citesOnly_of_segments_eq hs, ?_⟩
    cases hv : lookup (Segment.idOf inner) with
    | none => simp [hv] at h
    | some v =>
      rw [hv, Option.getD_some] at h
      rw [h]
  · cases h

theorem standsFor_toJson (hfinite : ∀ id v, lookup id = some v → v.Finite) (s : String) :
    StandsFor lookup s (substituteText lookup s).toJson := by
  cases hv : substituteText lookup s with
  | text t => exact .text hv
  | number x =>
    obtain ⟨id, honly, hx⟩ := exists_citesOnly_of_number hv
    have hfinite : x.isFinite = true := hfinite id _ hx
    rw [TokenValue.toJson, if_pos hfinite]
    exact .number honly hx

theorem TokenValue.depth_toJson (v : TokenValue) : v.toJson.depth = 0 := by
  cases v with
  | number x =>
    rw [toJson]
    split <;> rfl
  | text s => rfl

/-! ## The whole document -/

/-- A document with the placeholders in each of its texts replaced. -/
def filled (lookup : String → Option TokenValue) (doc : Json) : Json :=
  doc.mapLeaves fun leaf => (substituteText lookup leaf).toJson

/-- The printed text of a filled document is read as that document. -/
theorem parse?_compress_filled (hparse : Json.parse? s = some doc)
    (hnumbers : ∀ n ∈ (filled lookup doc).numbers, n.ReadsBack) :
    Json.parse? (filled lookup doc).compress = some (filled lookup doc) := by
  have hdepth : (filled lookup doc).depth = doc.depth :=
    Json.depth_mapLeaves (fun leaf => (substituteText lookup leaf).depth_toJson) doc
  have hnormal : (filled lookup doc).Normal :=
    Json.normal_mapLeaves (fun leaf => (substituteText lookup leaf).normal_toJson)
      (Json.normal_of_parse? hparse)
  refine Json.parse?_compress (Json.readsBack_iff_depth.2 ⟨?_, hnumbers⟩) hnormal
  rw [hdepth]
  exact Json.depth_le_of_parse? hparse

/-- The text of an array or object is replaced by one of the same structure, whatever stands in the values:
each text in it becomes a text, or a number if it is exactly one placeholder for that number. -/
theorem substitute_keeps_structure (hstart : s.toList.head? = some '{' ∨ s.toList.head? = some '[')
    (hparse : Json.parse? s = some doc) (hcomposite : doc.isComposite = true)
    (hfinite : ∀ id v, lookup id = some v → v.Finite)
    (hnumbers : ∀ n ∈ (filled lookup doc).numbers, n.ReadsBack) :
    ∃ t out, substitute lookup (.text s) = .text t ∧ Json.parse? t = some out ∧
      doc.Filled (StandsFor lookup) out := by
  have hdoc : composite? s = some doc := composite?_eq_some.2 ⟨hstart, hparse, hcomposite⟩
  refine ⟨(filled lookup doc).compress, filled lookup doc, ?_, parse?_compress_filled hparse hnumbers, ?_⟩
  · rw [substitute, hdoc]
    rfl
  · exact Json.filled_mapLeaves (standsFor_toJson hfinite) doc

/-- An array and an object in it, with placeholders in a name, alone and beside other text. -/
def nestedText : String := "[\"{n}\", \x7b\"{n}\": \"{ q }{n}\", \"b\": [1.5, null, \"\x7b{q}\x7d\"]\x7d]"

/-- The same with the values of `quoting`. -/
def nestedFilled : String :=
  "[4.0,\x7b\"b\":[1.5,null,\"\x7b\\\"]\x7d,[\x7b\\\"\\\\\x7d\"],\"{n}\":\"\\\"]\x7d,[\x7b\\\"\\\\4\"\x7d]"

/-- A number, and a text that would end an array and an object and begin others. -/
def quoting (id : String) : Option TokenValue :=
  if id = "n" then some (.number 4) else if id = "q" then some (.text "\"]\x7d,[\x7b\"\\") else none

theorem finite_of_quoting : ∀ id v, quoting id = some v → v.Finite := by
  intro id v hv
  unfold quoting at hv
  split_ifs at hv
  · cases hv
    decide +kernel
  · cases hv
    trivial

theorem substitute_keeps_structure_nestedText : ∃ doc out, Json.parse? nestedText = some doc ∧
    substitute quoting (.text nestedText) = .text nestedFilled ∧ Json.parse? nestedFilled = some out ∧
    doc.Filled (StandsFor quoting) out := by
  have hread : (Json.parse? nestedText).map (fun doc => (doc.isComposite, (filled quoting doc).numbers)) =
      some (true, [.float 4, .float 1.5]) := by decide +kernel
  obtain ⟨doc, hparse, heq⟩ := Option.map_eq_some_iff.1 hread
  obtain ⟨hcomposite, hlist⟩ := Prod.mk.inj heq
  have hnumbers : ∀ n ∈ (filled quoting doc).numbers, n.ReadsBack := by
    simp only [hlist, List.mem_cons, List.not_mem_nil, or_false, forall_eq_or_imp, forall_eq]
    exact ⟨⟨⟨false, ['4'], ['0'], none⟩, by decide +kernel, by decide +kernel⟩,
      ⟨⟨false, ['1'], ['5'], none⟩, by decide +kernel, by decide +kernel⟩⟩
  obtain ⟨t, out, ht, hout, hfilled⟩ :=
    substitute_keeps_structure (.inr (by decide +kernel)) hparse hcomposite finite_of_quoting hnumbers
  have htext : substitute quoting (.text nestedText) = .text nestedFilled := by decide +kernel
  obtain rfl : t = nestedFilled := TokenValue.text.inj (ht.symm.trans htext)
  exact ⟨doc, out, hparse, htext, hout, hfilled⟩

/-- An array behind a blank. -/
def blankArray : String := " [\"{q}\"]"

/-- The same with the value of `quoting` between the quotes. -/
def tornArray : String := " [\"\"]\x7d,[\x7b\"\\\"]"

/-- What stands behind a blank is filled as any other text is, so a quote in a value ends the text in it. -/
theorem tornArray_not_parsed : ∃ doc, Json.parse? blankArray = some doc ∧ doc.isComposite = true ∧
    doc.numbers = [] ∧ (∀ id v, quoting id = some v → v.Finite) ∧
    substitute quoting (.text blankArray) = .text tornArray ∧ Json.parse? tornArray = none := by
  have hread : (Json.parse? blankArray).map (fun doc => (doc.isComposite, doc.numbers)) =
      some (true, []) := by decide +kernel
  obtain ⟨doc, hparse, heq⟩ := Option.map_eq_some_iff.1 hread
  obtain ⟨hcomposite, hnumbers⟩ := Prod.mk.inj heq
  refine ⟨doc, hparse, hcomposite, hnumbers, finite_of_quoting, by decide +kernel, ?_⟩
  rw [← Option.isNone_iff_eq_none]
  decide +kernel

end DesignTokens
