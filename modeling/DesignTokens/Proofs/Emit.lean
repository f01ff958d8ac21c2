import DesignTokens.Emit
import DesignTokens.Proofs.Alias.Resolution
import DesignTokens.Proofs.Emit.Block
import Mathlib.Data.List.Forall2
import Mathlib.Data.List.Nodup

/-!
# Custom properties of resolved values

* `Alike a b` : the ids differ at most in where they have a dot and where a dash;
* `propertyName_eq_iff` : just then they have the same custom property. The properties of values are
  distinct just if no two of their ids are alike (`nodup_propertyNames_iff`);
* `Declarable values` : ids of characters for names, and values that end no declaration and leave nothing
  open; the block of such values has one declaration for each token (`declarations?_block`);
* `property?_block_eq_some` : a property has the value of the last one of the ids that are alike;
* `css_properties` : all this of the text that is written;
* `exists_resolved_overridden` : trees with a token that has another value in the block: of an id that is
  alike, or of a declaration that a value or an id brings along.
-/

namespace DesignTokens.Emit

variable {a b t id : String} {v : TokenValue} {values : Values}

/-! ## Names -/

/-- The characters are the same, or each of them is a dot or a dash. -/
def AlikeChar (c d : Char) : Prop := c = d ∨ (c = '.' ∨ c = '-') ∧ (d = '.' ∨ d = '-')

/-- The ids differ at most in where they have a dot and where a dash. -/
def Alike (a b : String) : Prop := a.toList.Forall₂ AlikeChar b.toList

def dashed (c : Char) : Char := if c = '.' then '-' else c

theorem toList_propertyName (id : String) : (propertyName id).toList = '-' :: '-' :: id.toList.map dashed := by
  have hreplace : (Text.replaceChar '.' "-" id).toList = id.toList.map dashed := by
    rw [Text.replaceChar, String.toList_ofList, List.map_eq_flatMap]
    congr 1
    funext c
    unfold dashed
    split <;> rfl
  rw [propertyName, String.toList_append, hreplace]
  rfl

theorem dashed_eq_iff {c d : Char} : dashed c = dashed d ↔ AlikeChar c d := by
  unfold dashed AlikeChar
  split_ifs <;> grind

theorem propertyName_eq_iff : propertyName a = propertyName b ↔ Alike a b := by
  rw [← String.toList_inj, toList_propertyName, toList_propertyName, List.cons_inj_right, List.cons_inj_right,
    ← List.forall₂_eq_eq_eq, List.forall₂_map_left_iff, List.forall₂_map_right_iff]
  simp only [dashed_eq_iff]
  rfl

theorem nodup_propertyNames_iff : (values.keys.map propertyName).Nodup ↔
    ∀ a ∈ values.keys, ∀ b ∈ values.keys, Alike a b → a = b := by
  rw [List.nodup_map_iff_inj_on values.nodup_keys]
  simp only [propertyName_eq_iff]

theorem isNameChar_propertyName (h : ∀ c ∈ id.toList, isNameChar c = true ∨ c = '.') :
    ∀ c ∈ (propertyName id).toList, isNameChar c = true := by
  intro c hc
  rw [toList_propertyName, List.mem_cons, List.mem_cons, List.mem_map] at hc
  rcases hc with rfl | rfl | ⟨d, hd, rfl⟩
  · decide
  · decide
  · unfold dashed
    split
    · decide
    · rename_i hdot
      exact (h d hd).resolve_right hdot

/-! ## The block -/

/-- The text of a value without the blanks around it. -/
def valueText (v : TokenValue) : String := String.ofList (Text.trim v.asText.toList)

/-- The property of a token with its value. -/
def declaration (e : String × TokenValue) : String × String := (propertyName e.1, valueText e.2)

/-- What stands behind the selector. -/
def block (values : Values) : String :=
  "\x7b\n" ++ String.join (values.entries.map fun e => propertyLine e.1 e.2) ++ "\x7d\n"

/-- The ids have only characters for names, and dots, and the values end no declaration and leave nothing
open. -/
structure Declarable (values : Values) : Prop where
  name : ∀ id ∈ values.keys, ∀ c ∈ id.toList, isNameChar c = true ∨ c = '.'
  value : ∀ id v, values.get? id = some v → SelfContained v.asText.toList

theorem css_eq (selector : String) (values : Values) : css selector values = selector ++ " " ++ block values := by
  have hopen : " \x7b\n" = " " ++ "\x7b\n" := rfl
  unfold css block
  rw [hopen]
  simp only [String.append_assoc]

/-- The end of a line goes to the declaration behind it. -/
theorem newline_cons_propertyLine (id : String) (v : TokenValue) (rest : List Char) :
    '\n' :: ((propertyLine id v).toList ++ rest) =
      line (propertyName id).toList v.asText.toList ++ ';' :: '\n' :: rest := by
  simp [propertyLine, line]

theorem pieces?_lines (es : List (String × TokenValue))
    (h : ∀ e ∈ es, (∀ c ∈ e.1.toList, isNameChar c = true ∨ c = '.') ∧ SelfContained e.2.asText.toList) :
    pieces? .start ('\n' :: (es.flatMap (fun e => (propertyLine e.1 e.2).toList) ++ ['}', '\n'])) =
      some (es.map (fun e => line (propertyName e.1).toList e.2.asText.toList) ++ [['\n']]) := by
  induction es with
  | nil => rfl
  | cons e es ih =>
    obtain ⟨⟨hname, hvalue⟩, hes⟩ := List.forall_mem_cons.1 h
    have hline := selfContained_line (isNameChar_propertyName hname) hvalue
    rw [List.flatMap_cons, List.append_assoc, newline_cons_propertyLine, hline.pieces?_append, ih hes]
    rfl

theorem declarations?_block (h : Declarable values) :
    declarations? (block values) = some (values.entries.map declaration) := by
  have hentries : ∀ e ∈ values.entries,
      (∀ c ∈ e.1.toList, isNameChar c = true ∨ c = '.') ∧ SelfContained e.2.asText.toList := fun e he =>
    ⟨h.name e.1 (List.mem_map_of_mem he), h.value e.1 e.2 (values.get?_eq_some.2 he)⟩
  have hbody : Text.stripStart? ['{'] (block values).toList = some ('\n' ::
      (values.entries.flatMap (fun e => (propertyLine e.1 e.2).toList) ++ ['}', '\n'])) := by
    refine Text.stripStart?_eq_some.2 ?_
    simp [block, String.toList_join, List.flatMap_map]
  have hread : (values.entries.map fun e => line (propertyName e.1).toList e.2.asText.toList).filterMap
      declaration? = values.entries.map declaration := by
    rw [List.filterMap_map, ← List.filterMap_eq_map]
    refine List.filterMap_congr fun e he => ?_
    have hname := isNameChar_propertyName (hentries e he).1
    rw [Function.comp_apply, declaration?_line hname, String.ofList_toList]
    rfl
  have hlast : [['\n']].filterMap declaration? = [] := rfl
  unfold declarations?
  simp only [Option.bind_eq_bind, hbody, Option.bind_some, pieces?_lines values.entries hentries,
    List.filterMap_append, hread, hlast, List.append_nil]

/-- A property has the value of the last one of the ids that are alike. -/
theorem property?_block_eq_some (h : Declarable values) :
    property? (block values) (propertyName a) = some t ↔
      ∃ id v, values.get? id = some v ∧ Alike a id ∧ valueText v = t ∧
        ∀ c ∈ values.keys, Alike a c → c = id ∨ compare c id = .lt := by
  have hmap : property? (block values) (propertyName a) =
      (SortedMap.ofList (values.entries.map fun e => (propertyName e.1, valueText e.2))).get? (propertyName a) := by
    rw [property?, declarations?_block h]
    rfl
  have halike (c : String) : propertyName c = propertyName a ↔ Alike a c := eq_comm.trans propertyName_eq_iff
  rw [hmap, SortedMap.get?_ofList_map_entries]
  simp only [halike]

theorem property?_block_of_nodup (h : Declarable values) (hnodup : (values.keys.map propertyName).Nodup)
    (hv : values.get? id = some v) : property? (block values) (propertyName id) = some (valueText v) := by
  have hkey : id ∈ values.keys := List.mem_map_of_mem (values.get?_eq_some.1 hv)
  refine (property?_block_eq_some h).2 ⟨id, v, hv, propertyName_eq_iff.1 rfl, rfl, fun c hc halike => .inl ?_⟩
  exact (nodup_propertyNames_iff.1 hnodup id hkey c hc halike).symm

/-- The block has a line for each token, and the names on these lines are distinct just if no two ids are
alike. Where the ids and values are declarable, these lines are the declarations that are read from the
block, and so with distinct names no declaration overrides another one and each token's property has its
value; of ids that are alike the last one gives the value for all of them. -/
theorem css_properties (selector : String) (values : Values) :
    css selector values = selector ++ " " ++ block values ∧
    ((values.keys.map propertyName).Nodup ↔ ∀ a ∈ values.keys, ∀ b ∈ values.keys, Alike a b → a = b) ∧
    (Declarable values →
      declarations? (block values) = some (values.entries.map declaration) ∧
      ((values.keys.map propertyName).Nodup → ∀ id v, values.get? id = some v →
        property? (block values) (propertyName id) = some (valueText v)) ∧
      ∀ a t, property? (block values) (propertyName a) = some t ↔
        ∃ id v, values.get? id = some v ∧ Alike a id ∧ valueText v = t ∧
          ∀ c ∈ values.keys, Alike a c → c = id ∨ compare c id = .lt) :=
  ⟨css_eq selector values, nodup_propertyNames_iff, fun h =>
    ⟨declarations?_block h, fun hnodup _ _ hv => property?_block_of_nodup h hnodup hv,
      fun _ _ => property?_block_eq_some h⟩⟩

/-- A semicolon in quotes, and a bracketed text. -/
def quotedValues : Values :=
  SortedMap.ofList [("font.body", .text "\"Inter; Text\", serif"), ("size", .text "calc(1px + 2px)")]

theorem css_properties_quotedValues : Declarable quotedValues ∧
    (quotedValues.keys.map propertyName).Nodup ∧
    property? (block quotedValues) "--font-body" = some "\"Inter; Text\", serif" := by
  have hdeclarable : Declarable quotedValues := by
    have hnames : (quotedValues.keys.all fun id => id.toList.all fun c => isNameChar c || c == '.') = true := rfl
    have hvalues : ∀ e ∈ quotedValues.entries, SelfContained e.2.asText.toList := by decide +kernel
    simp only [List.all_eq_true, Bool.or_eq_true, beq_iff_eq] at hnames
    exact ⟨hnames, fun id v hv => hvalues (id, v) (quotedValues.get?_eq_some.1 hv)⟩
  have hnodup : (quotedValues.keys.map propertyName).Nodup := by decide
  obtain ⟨-, -, hread⟩ := css_properties ":root" quotedValues
  exact ⟨hdeclarable, hnodup, (hread hdeclarable).2.1 hnodup "font.body" (.text "\"Inter; Text\", serif") (by decide)⟩

/-- A path and a name that spell the same property. -/
def crossedNames : Json :=
  .obj [("a", .obj [("b", .obj [("$value", .str "1px")])]), ("a-b", .obj [("$value", .str "2px")])]

/-- A value with a semicolon and a further declaration behind it. -/
def pastedValue : Json :=
  .obj [("a", .obj [("$value", .str "1px")]), ("z", .obj [("$value", .str "0;\n  --a: 9px")])]

/-- A name with a value, a semicolon and a further name behind it. -/
def pastedName : Json :=
  .obj [("a", .obj [("$value", .str "1px")]), ("z: 0; --a", .obj [("$value", .str "9px")])]

theorem exists_resolved_overridden :
    (∃ r, resolve crossedNames = .ok r ∧ ¬ (r.values.keys.map propertyName).Nodup ∧
      r.values.get? "a-b" = some (.text "2px") ∧ property? (block r.values) "--a-b" = some "1px") ∧
    (∃ r, resolve pastedValue = .ok r ∧ (r.values.keys.map propertyName).Nodup ∧
      r.values.get? "a" = some (.text "1px") ∧ property? (block r.values) "--a" = some "9px") ∧
    ∃ r, resolve pastedName = .ok r ∧ (r.values.keys.map propertyName).Nodup ∧
      r.values.get? "a" = some (.text "1px") ∧ property? (block r.values) "--a" = some "9px" :=
  ⟨exists_eq_ok_and (by decide +kernel), exists_eq_ok_and (by decide +kernel),
    exists_eq_ok_and (by decide +kernel)⟩

end DesignTokens.Emit
