import DesignTokens.Json.Number
import DesignTokens.Json.Record

/-!
# Written documents

* `Written` : a document as it is written. A numeral may be too large for a float, and a text may
  have an escape of half a surrogate pair; such a one has no value, and `str none` stands for the
  text;
* `Written.read? depth shape w` : the document of the parts of `w` that a shape looks at. It exists
  if each of them has a value and they are nested at most `depth` deep; nothing is asked of the
  parts that are passed over.
-/

namespace DesignTokens

inductive Written where
  | null
  | bool (b : Bool)
  | num (n : Numeral)
  | str (s : Option String)
  | arr (items : List Written)
  | obj (members : List (Option String × Written))
  deriving Inhabited, Repr

namespace Written

mutual

/-- The document of the parts that a shape looks at, nested at most `depth` deep. -/
def read? (depth : Nat) (shape : Shape) : Written → Option Json
  | null => some .null
  | bool b => some (.bool b)
  | num n => n.value?.map .num
  | str s => s.map .str
  | arr items => if depth = 0 then none else (readItems? (depth - 1) shape 0 items).map .arr
  | obj ms => if depth = 0 then none else (readMembers? (depth - 1) shape ms).map .obj

/-- The items of an array from the one with an index on. -/
def readItems? (depth : Nat) (shape : Shape) (index : Nat) : List Written → Option (List Json)
  | [] => some []
  | w :: ws => do
    some ((← read? depth (shape.item index) w) :: (← readItems? depth shape (index + 1) ws))

/-- The members of an object that are looked at; every name must have a value. -/
def readMembers? (depth : Nat) (shape : Shape) :
    List (Option String × Written) → Option (List (String × Json))
  | [] => some []
  | (none, _) :: _ => none
  | (some name, w) :: ms =>
    match shape.member? name with
    | none => readMembers? depth shape ms
    | some inner => do some ((name, ← read? depth inner w) :: (← readMembers? depth shape ms))

end

end Written

end DesignTokens
