import DesignTokens.Decimal.Reader
import DesignTokens.Text.Pieces

/-!
# Versions

* `Version` : three numbers, the identifiers of a pre-release, and those of a build;
* `Version.parse? s` : the version that a text writes. Numbers have no needless zeros, except in a
  build, and the first three fit 64 bits;
* `Version.order` : the three numbers first; then a pre-release comes before the release; then the
  build, of which none comes first.
-/

namespace DesignTokens

/-- Three numbers, the identifiers of a pre-release, and those of a build. -/
structure Version where
  major : Nat
  minor : Nat
  patch : Nat
  preRelease : List (List Char)
  build : List (List Char)
  deriving DecidableEq, Repr

namespace Version

/-! ## Reading -/

def isNumeric (cs : List Char) : Bool := cs.all Char.isDigit

/-- The first of several digits is zero. -/
def zeroPadded (cs : List Char) : Bool := 1 < cs.length && cs.head? == some '0'

def number? (cs : List Char) : Option Nat :=
  if cs.isEmpty || !isNumeric cs || zeroPadded cs then none
  else
    let n := Decimal.natOfDigits cs
    if n < Decimal.wordLimit then some n else none

/-- Letters, digits and hyphens, at least one. -/
def isIdentifier (cs : List Char) : Bool :=
  !cs.isEmpty && cs.all fun c => c.isAlphanum || c == '-'

/-- The identifiers between dots, each of which satisfies `allowed`. -/
def identifiers? (allowed : List Char → Bool) (cs : List Char) : Option (List (List Char)) :=
  let ids := Text.pieces (· == '.') cs
  if ids.all fun id => isIdentifier id && allowed id then some ids else none

/-- The identifiers of an optional part. -/
def optional? (allowed : List Char → Bool) : Option (List Char) → Option (List (List Char))
  | none => some []
  | some cs => identifiers? allowed cs

/-- The part before the first character equal to `sep`, and the part after it if there is one. -/
def cutOptional (sep : Char) (cs : List Char) : List Char × Option (List Char) :=
  match Text.cutAt (· == sep) cs with
  | some (before, after) => (before, some after)
  | none => (cs, none)

def parse? (s : String) : Option Version := do
  let (beforeBuild, build) := cutOptional '+' s.toList
  let (core, preRelease) := cutOptional '-' beforeBuild
  match Text.pieces (· == '.') core with
  | [a, b, c] =>
    some ⟨← number? a, ← number? b, ← number? c,
      ← optional? (fun id => !(isNumeric id && zeroPadded id)) preRelease,
      ← optional? (fun _ => true) build⟩
  | _ => none

/-! ## Order -/

/-- Digits without the zeros in front. -/
def significant (cs : List Char) : List Char := cs.dropWhile (· == '0')

/-- Numeric identifiers by their numbers, and of equal ones the shorter first; they come before
others, which go by their characters. -/
def identifierOrder (a b : List Char) : Ordering :=
  match isNumeric a, isNumeric b with
  | true, true =>
    (compare (significant a).length (significant b).length).then
      ((compare (String.ofList (significant a)) (String.ofList (significant b))).then
        (compare a.length b.length))
  | true, false => .lt
  | false, true => .gt
  | false, false => compare (String.ofList a) (String.ofList b)

/-- Identifier by identifier; the start of a list comes before the list. -/
def identifiersOrder : List (List Char) → List (List Char) → Ordering
  | [], [] => .eq
  | [], _ :: _ => .lt
  | _ :: _, [] => .gt
  | a :: as, b :: bs => (identifierOrder a b).then (identifiersOrder as bs)

/-- Pre-releases come before the release. -/
def preReleaseOrder : List (List Char) → List (List Char) → Ordering
  | [], [] => .eq
  | [], _ :: _ => .gt
  | _ :: _, [] => .lt
  | as, bs => identifiersOrder as bs

def order (v w : Version) : Ordering :=
  (compare v.major w.major).then ((compare v.minor w.minor).then ((compare v.patch w.patch).then
    ((preReleaseOrder v.preRelease w.preRelease).then (identifiersOrder v.build w.build))))

end Version

end DesignTokens
