import DesignTokens.Load
import DesignTokens.Proofs.Json.Pretty
import DesignTokens.Proofs.Token.Placed

/-!
# Values in a file

* `Values.NumbersReadBack values` : the text of every number among the values is read as the number
  again;
* `Values.ofJson?_toJson` : the document of such values has them;
* `loadOverrides_of_read` : if a file has the indented document of such values, then these are loaded
  from it.
-/

namespace DesignTokens

/-- What is not finite has no numeral. -/
theorem Number.ReadsBack.isFinite {x : Float} (h : (Number.float x).ReadsBack) :
    x.isFinite = true := by
  obtain ⟨m, htake, -⟩ := h
  by_contra hfinite
  rw [chars, floatChars, if_neg hfinite] at htake
  cases htake

namespace TokenValue

/-- The value is no number, or one whose text is read as the number again. -/
def ReadsBack : TokenValue → Prop
  | number x => (Number.float x).ReadsBack
  | text _ => True

variable {v : TokenValue}

theorem ofJson?_toJson (h : v.ReadsBack) : ofJson? v.toJson = some v := by
  cases v with
  | number x =>
    have hfinite : x.isFinite = true := Number.ReadsBack.isFinite h
    rw [toJson, if_pos hfinite]
    rfl
  | text s => rfl

theorem readsBack_toJson (h : v.ReadsBack) (depth : Nat) : v.toJson.ReadsBack depth := by
  cases v with
  | number x =>
    have hfinite : x.isFinite = true := Number.ReadsBack.isFinite h
    rw [toJson, if_pos hfinite]
    exact h
  | text s => trivial

end TokenValue

namespace Values

variable {values : Values}

/-- The text of every number among the values is read as the number again. -/
def NumbersReadBack (values : Values) : Prop := ∀ e ∈ values.entries, e.2.ReadsBack

theorem normal_toJson (values : Values) : (toJson values).Normal := by
  refine ⟨(values.mapValues TokenValue.toJson).ascending, Json.normalMembers_iff.2 fun m hm => ?_⟩
  obtain ⟨e, -, rfl⟩ := List.mem_map.1 hm
  exact e.2.normal_toJson

theorem readsBack_toJson (h : values.NumbersReadBack) : (toJson values).ReadsBack Json.maxDepth := by
  refine ⟨by decide, Json.membersReadBack_iff.2 fun m hm => ?_⟩
  obtain ⟨e, he, rfl⟩ := List.mem_map.1 hm
  exact TokenValue.readsBack_toJson (h e he) _

theorem mapM_ofJson? {es : List (String × TokenValue)} (h : ∀ e ∈ es, e.2.ReadsBack) :
    ((es.map fun e => (e.1, e.2.toJson)).mapM fun (k, v) =>
      (TokenValue.ofJson? v).map fun a => (k, a)) = some es := by
  induction es with
  | nil => rfl
  | cons e es ih =>
    obtain ⟨he, hes⟩ := List.forall_mem_cons.1 h
    simp [TokenValue.ofJson?_toJson he, ih hes]

/-- The document of values has them. -/
theorem ofJson?_toJson (h : values.NumbersReadBack) : ofJson? (toJson values) = some values := by
  have hes := mapM_ofJson? h
  simp only [ofJson?, Json.map?, toJson, Json.obj?, SortedMap.mapValues, Option.bind_eq_bind,
    Option.bind_some, hes, SortedMap.ofList_entries]

end Values

variable {disk : Disk} {path : String} {values : Values}

theorem loadOverrides_eq_ok : loadOverrides disk path = .ok values ↔
    ∃ text, disk.read path = .ok text ∧ (Json.parse? text).bind Values.ofJson? = some values := by
  unfold loadOverrides loadWith loadText
  cases disk.read path with
  | error e => simp [bind, Except.bind]
  | ok text =>
    cases hvalues : (Json.parse? text).bind Values.ofJson? <;>
      simp [bind, Except.bind, pure, Except.pure, throw, throwThe, MonadExceptOf.throw, hvalues]

/-- The values of a file with their indented document are loaded from it. -/
theorem loadOverrides_of_read (hread : disk.read path = .ok ((Values.toJson values).pretty ++ "\n"))
    (hnumbers : values.NumbersReadBack) : loadOverrides disk path = .ok values := by
  have hparse : Json.parse? ((Values.toJson values).pretty ++ "\n") = some (Values.toJson values) :=
    Json.parse?_pretty (Values.readsBack_toJson hnumbers) values.normal_toJson
      (by simp [Written.isSpacing])
  refine loadOverrides_eq_ok.2 ⟨_, hread, ?_⟩
  rw [hparse, Option.bind_some, Values.ofJson?_toJson hnumbers]

end DesignTokens
