import DesignTokens.Proofs.Json.Injective
import DesignTokens.Proofs.Load
import DesignTokens.Proofs.Token.Overridden
import DesignTokens.Snapshot

/-!
# What the text of a snapshot tells

* `canonicalText_toJson` : the values in ascending order of id are in normal form already;
* `canonicalText_values_inj` : finite values are determined by the text that is digested for their
  snapshot: the ids, which of them have numbers, and the values. No id or text can run on into
  what stands behind it.
-/

namespace DesignTokens

variable {values values' : Values}

theorem TokenValue.finite_toJson (v : TokenValue) (hv : v.Finite) : v.toJson.Finite := by
  cases v with
  | number x =>
    have hx : x.isFinite = true := hv
    rw [toJson, if_pos hx]
    exact hx
  | text s => trivial

namespace Values

theorem finite_toJson (hvalues : AllFinite values) : (toJson values).Finite := by
  refine Json.membersFinite_iff.2 fun m hm => ?_
  obtain ⟨e, he, rfl⟩ := List.mem_map.1 hm
  exact e.2.finite_toJson (hvalues e.2 (List.mem_map_of_mem he))

/-- The values of the tokens that the document declares. -/
theorem map_declared?_toJson (hvalues : AllFinite values) :
    (values.mapValues TokenValue.toJson).entries.map (fun m => (m.1, TokenValue.declared? m.2)) =
      values.entries.map fun e => (e.1, some e.2) := by
  rw [SortedMap.mapValues, List.map_map]
  refine List.map_congr_left fun e he => ?_
  have hvalue : e.2.Finite := hvalues e.2 (List.mem_map_of_mem he)
  simp [TokenValue.declared?_toJson hvalue]

theorem toJson_injective (hvalues : AllFinite values) (hvalues' : AllFinite values')
    (h : toJson values = toJson values') : values = values' := by
  have hentries := map_declared?_toJson hvalues
  rw [Json.obj.inj h, map_declared?_toJson hvalues'] at hentries
  have hinjective : Function.Injective fun e : String × TokenValue => (e.1, some e.2) := by
    rintro ⟨k, v⟩ ⟨k', v'⟩ h
    simpa using h
  exact SortedMap.ext (List.map_injective_iff.2 hinjective hentries).symm

end Values

theorem canonicalText_toJson (values : Values) : canonicalText values.toJson = values.toJson.compress := by
  rw [canonicalText, Json.normal_eq_self values.normal_toJson]

theorem canonicalText_values_inj (hvalues : AllFinite values) (hvalues' : AllFinite values') :
    canonicalText values.toJson = canonicalText values'.toJson ↔ values = values' := by
  constructor
  · intro h
    rw [canonicalText_toJson, canonicalText_toJson] at h
    exact Values.toJson_injective hvalues hvalues'
      (Json.compress_injective (Values.finite_toJson hvalues) (Values.finite_toJson hvalues') h)
  · rintro rfl
    rfl

/-- A text that goes on like the end of its member and the start of another. -/
def runOnValues : Values := SortedMap.ofList [("a", .number 1), ("b", .text "2.0\",\"c\":\"\n\\")]

/-- The members that the text imitates, and a text like a number. -/
def imitatedValues : Values := SortedMap.ofList [("a", .text "1.0"), ("b", .number 2), ("c", .text "\n\\")]

theorem canonicalText_runOnValues_ne : AllFinite runOnValues ∧ AllFinite imitatedValues ∧
    canonicalText runOnValues.toJson ≠ canonicalText imitatedValues.toJson := by
  have hrunOn : AllFinite runOnValues := by decide +kernel
  have himitated : AllFinite imitatedValues := by decide +kernel
  refine ⟨hrunOn, himitated, fun h => ?_⟩
  have hsize := congrArg SortedMap.size ((canonicalText_values_inj hrunOn himitated).1 h)
  exact absurd hsize (by decide +kernel)

end DesignTokens
