import DesignTokens.Json.Basic

/-!
# Reading records

* `Record.ofJson? names j` : the fields that `j` gives: the members of an object with one of the
  `names`, or the items of an array in the order of `names`;
* `Record.field?`, `Record.option?`, `Record.default?` : a field that must be given, one that may be
  absent or `null`, and one that has a value when it is absent;
* `Json.variant?` : the word for one of several cases;
* `Json.list?`, `Json.map?` : arrays of things of one kind, and maps to them;
* `Shape` : which parts of a document are looked at when it is read as records.

A name that an object gives twice is refused, other members are ignored, and an array may not be
longer than the list of names.
-/

namespace DesignTokens

/-! ## Shapes -/

/-- Which parts of a document are looked at: all of them, those of the items of an array, or those
of the members with the names of a record, which may also be given as an array. -/
inductive Shape where
  | whole
  | list (item : Shape)
  | record (fields : List (String × Shape))
  deriving Inhabited, Repr

namespace Shape

/-- A record whose fields are looked at in every part. -/
def flat (names : List String) : Shape := .record (names.map fun name => (name, .whole))

def item (index : Nat) : Shape → Shape
  | whole => whole
  | list shape => shape
  | record fields => (fields[index]?.map (·.2)).getD whole

/-- How the member of a name is looked at, if it is. -/
def member? (name : String) : Shape → Option Shape
  | whole => some whole
  | list _ => some whole
  | record fields => fields.lookup name

end Shape

/-! ## Records -/

abbrev Record (α : Type) := List (String × α)

namespace Record

variable {α β : Type}

/-- No name stands twice. -/
def distinct : List String → Bool
  | [] => true
  | n :: ns => !ns.contains n && distinct ns

/-- The members of an object with one of the names, if none of them stands twice. -/
def ofMembers? (names : List String) (ms : List (String × α)) : Option (Record α) :=
  let known := ms.filter fun m => names.contains m.1
  if distinct (known.map (·.1)) then some known else none

/-- The items of an array under the names, in their order, if there are not too many. -/
def ofItems? (names : List String) (items : List α) : Option (Record α) :=
  if items.length ≤ names.length then some (names.zip items) else none

/-- The fields with the given names that a document gives. -/
def ofJson? (names : List String) : Json → Option (Record Json)
  | .obj ms => ofMembers? names ms
  | .arr items => ofItems? names items
  | _ => none

def field? (r : Record α) (name : String) (read : α → Option β) : Option β :=
  (r.lookup name).bind read

/-- A field that may be absent or `null`. -/
def option? (r : Record Json) (name : String) (read : Json → Option β) : Option (Option β) :=
  match r.lookup name with
  | none => some none
  | some .null => some none
  | some j => (read j).map some

/-- A field that has the value `d` when it is absent. -/
def default? (r : Record Json) (name : String) (d : β) (read : Json → Option β) : Option β :=
  match r.lookup name with
  | none => some d
  | some j => read j

end Record

namespace Json

variable {α : Type}

/-- The word that a document gives for one of several cases: a text, or the only name in an object
whose value is `null`. -/
def variant? : Json → Option String
  | str s => some s
  | obj [(name, null)] => some name
  | _ => none

def list? (read : Json → Option α) (j : Json) : Option (List α) :=
  j.arr?.bind fun items => items.mapM read

/-- A map from names to things; of a name that is given twice the last one counts. -/
def map? (read : Json → Option α) (j : Json) : Option (SortedMap String α) := do
  let ms ← j.obj?
  let es ← ms.mapM fun (k, v) => (read v).map fun a => (k, a)
  some (SortedMap.ofList es)

end Json

end DesignTokens
