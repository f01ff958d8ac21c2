import DesignTokens.Json.Basic

/-!
# Merging trees

`merge base overlay` : groups are merged member by member; anything else, also a token that meets a
group, is replaced by what the overlay has.
-/

namespace DesignTokens

def isTokenObject (ms : List (String × Json)) : Bool := (ms.lookup "$value").isSome

mutual

/-- The base with the overlay laid on it. -/
def merge (base : Json) : Json → Json
  | .obj os =>
    match base with
    | .obj bs => if isTokenObject bs || isTokenObject os then .obj os else .obj (mergeMembers bs os)
    | _ => .obj os
  | .arr xs => .arr xs
  | .null => .null
  | .bool b => .bool b
  | .num n => .num n
  | .str s => .str s

def mergeMembers (bs : List (String × Json)) : List (String × Json) → List (String × Json)
  | [] => bs
  | (k, j) :: os =>
    let merged := match bs.lookup k with
      | some b => merge b j
      | none => j
    mergeMembers (insertEntry k merged bs) os

end

end DesignTokens
