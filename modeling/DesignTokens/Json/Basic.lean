import DesignTokens.Decimal.Nearest
import DesignTokens.SortedMap

/-!
# Documents

* `Number` : a whole number, or a float; `toFloat` is the float nearest to it;
* `Json` : a document, with the members of an object as they are written;
* `Json.normal` : the document in which the members of each object stand in ascending order of name
  and a name that is given twice has its last value; `Json.Normal` says that a document is such;
* `Json.get?`, `Json.leaves`, `Json.mapLeaves` : the member of a name, the texts of a document in
  order, a document with each text replaced.
-/

namespace DesignTokens

inductive Number where
  | int (n : Int)
  | float (x : Float)
  deriving BEq, DecidableEq, Inhabited, Repr

namespace Number

def floatOfInt (n : Int) : Float :=
  let x := Decimal.ofRatio n.natAbs 1
  if n < 0 then -x else x

def toFloat : Number → Float
  | int n => floatOfInt n
  | float x => x

end Number

inductive Json where
  | null
  | bool (b : Bool)
  | num (n : Number)
  | str (s : String)
  | arr (items : List Json)
  | obj (members : List (String × Json))
  deriving BEq, Inhabited, Repr

namespace Json

def ofFloat (x : Float) : Json := .num (.float x)

def ofNat (n : Nat) : Json := .num (.int n)

def ofStrings (ss : List String) : Json := .arr (ss.map .str)

/-- The member for a value that may be missing. -/
def optionMember {α : Type} (name : String) (write : α → Json) : Option α → List (String × Json)
  | some a => [(name, write a)]
  | none => []

/-- The member of a name, if the document is an object that has one. -/
def get? (j : Json) (name : String) : Option Json :=
  match j with
  | obj ms => ms.lookup name
  | _ => none

def str? : Json → Option String
  | str s => some s
  | _ => none

def float? : Json → Option Float
  | num n => some n.toFloat
  | _ => none

/-- The whole number, if the document is one that is not negative. -/
def nat? : Json → Option Nat
  | num (.int n) => if 0 ≤ n then some n.toNat else none
  | _ => none

def arr? : Json → Option (List Json)
  | arr xs => some xs
  | _ => none

def obj? : Json → Option (List (String × Json))
  | obj ms => some ms
  | _ => none

def isObj : Json → Bool
  | obj _ => true
  | _ => false

def isComposite : Json → Bool
  | arr _ => true
  | obj _ => true
  | _ => false

/-! ## The normal form -/

mutual

/-- Members of objects in ascending order of name, the last one of each name, at every depth. -/
def normal : Json → Json
  | arr xs => arr (normalItems xs)
  | obj ms => obj (normalMembers [] ms)
  | null => null
  | bool b => bool b
  | num n => num n
  | str s => str s

def normalItems : List Json → List Json
  | [] => []
  | j :: js => normal j :: normalItems js

/-- Enters the normal forms of the members into ascending `done`. -/
def normalMembers (done : List (String × Json)) : List (String × Json) → List (String × Json)
  | [] => done
  | (k, j) :: ms => normalMembers (insertEntry k (normal j) done) ms

end

mutual

/-- The members of every object stand in strictly ascending order of name. -/
def Normal : Json → Prop
  | arr xs => NormalItems xs
  | obj ms => Ascending ms ∧ NormalMembers ms
  | null => True
  | bool _ => True
  | num _ => True
  | str _ => True

def NormalItems : List Json → Prop
  | [] => True
  | j :: js => Normal j ∧ NormalItems js

def NormalMembers : List (String × Json) → Prop
  | [] => True
  | (_, j) :: ms => Normal j ∧ NormalMembers ms

end

theorem normalMembers_iff {ms : List (String × Json)} :
    NormalMembers ms ↔ ∀ m ∈ ms, Normal m.2 := by
  induction ms with
  | nil => simp [NormalMembers]
  | cons m ms ih => simp [NormalMembers, ih]

mutual

theorem normal_normal : ∀ j : Json, Normal (normal j)
  | arr xs => by simpa [normal, Normal] using normalItems_normal xs
  | obj ms => by
    simpa [normal, Normal] using
      normalMembers_normal ms [] List.Pairwise.nil (by simp [NormalMembers])
  | null => by simp [normal, Normal]
  | bool b => by simp [normal, Normal]
  | num n => by simp [normal, Normal]
  | str s => by simp [normal, Normal]

theorem normalItems_normal : ∀ js : List Json, NormalItems (normalItems js)
  | [] => by simp [normalItems, NormalItems]
  | j :: js => by simpa [normalItems, NormalItems] using ⟨normal_normal j, normalItems_normal js⟩

theorem normalMembers_normal : ∀ (ms done : List (String × Json)),
    Ascending done → NormalMembers done →
      Ascending (normalMembers done ms) ∧ NormalMembers (normalMembers done ms)
  | [], _, ha, hn => by simpa [normalMembers] using ⟨ha, hn⟩
  | (k, j) :: ms, done, ha, hn => by
    rw [normalMembers]
    refine normalMembers_normal ms _ (insertEntry_sorted k _ ha) (normalMembers_iff.2 ?_)
    intro m hm
    rcases mem_insertEntry hm with rfl | hm
    · exact normal_normal j
    · exact normalMembers_iff.1 hn m hm

end

/-! ## The texts of a document -/

mutual

/-- The texts of a document, in the order of its items and members; names are not among them. -/
def leaves : Json → List String
  | str s => [s]
  | arr xs => itemLeaves xs
  | obj ms => memberLeaves ms
  | null => []
  | bool _ => []
  | num _ => []

def itemLeaves : List Json → List String
  | [] => []
  | j :: js => leaves j ++ itemLeaves js

def memberLeaves : List (String × Json) → List String
  | [] => []
  | (_, j) :: ms => leaves j ++ memberLeaves ms

end

mutual

/-- A document with every text replaced by its image under `f`. -/
def mapLeaves (f : String → Json) : Json → Json
  | str s => f s
  | arr xs => arr (mapItemLeaves f xs)
  | obj ms => obj (mapMemberLeaves f ms)
  | null => null
  | bool b => bool b
  | num n => num n

def mapItemLeaves (f : String → Json) : List Json → List Json
  | [] => []
  | j :: js => mapLeaves f j :: mapItemLeaves f js

def mapMemberLeaves (f : String → Json) : List (String × Json) → List (String × Json)
  | [] => []
  | (k, j) :: ms => (k, mapLeaves f j) :: mapMemberLeaves f ms

end

end Json

end DesignTokens
