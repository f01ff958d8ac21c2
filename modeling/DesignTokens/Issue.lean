import DesignTokens.Json.Record
import DesignTokens.Text.Pieces

/-!
# Issues

* `Issue` : what a rule has to say about some tokens: an error, or a warning that it could not be
  checked. A tag tells where the rule applies;
* `pairId`, `Issue.tokenIds` : several ids are written with a bar between them;
* `summarize issues` : the numbers of errors and warnings for each tag, `*` standing for no tag.
-/

namespace DesignTokens

/-- How grave an issue is; errors come first. -/
inductive Level where
  | error
  | warn
  deriving DecidableEq, Repr

namespace Level

def name : Level → String
  | error => "error"
  | warn => "warn"

def ofName? : String → Option Level
  | "error" => some error
  | "warn" => some warn
  | _ => none

def rank : Level → Nat
  | error => 0
  | warn => 1

def before (a b : Level) : Bool := a.rank < b.rank

end Level

/-- What a rule has to say about some tokens. -/
structure Issue where
  id : String
  rule : String
  level : Level
  message : String
  tag : Option String
  deriving DecidableEq, Repr

def pairId (a b : String) : String := a ++ "|" ++ b

namespace Issue

/-- The issue of a verdict: an error if something is wrong, a warning if that cannot be told. -/
def ofVerdict (id rule : String) (tag : Option String) :
    Except String (Option String) → Option Issue
  | .ok none => none
  | .ok (some message) => some ⟨id, rule, .error, message, tag⟩
  | .error reason => some ⟨id, rule, .warn, reason, tag⟩

def isError (i : Issue) : Bool := i.level == .error

/-- The ids of the tokens that the issue is about. -/
def tokenIds (i : Issue) : List String := Text.splitString '|' i.id

def toJson (i : Issue) : Json :=
  .obj ([("id", .str i.id), ("rule", .str i.rule), ("level", .str i.level.name),
    ("message", .str i.message)] ++ Json.optionMember "where" .str i.tag)

def ofJson? (j : Json) : Option Issue := do
  let r ← Record.ofJson? ["id", "rule", "level", "message", "where"] j
  some ⟨← r.field? "id" Json.str?, ← r.field? "rule" Json.str?,
    ← r.field? "level" fun l => (Json.variant? l).bind Level.ofName?,
    ← r.field? "message" Json.str?, ← r.option? "where" Json.str?⟩

end Issue

/-! ## Summaries -/

structure LevelCounts where
  errors : Nat
  warnings : Nat
  deriving DecidableEq, Repr

namespace LevelCounts

def zero : LevelCounts := ⟨0, 0⟩

def count (c : LevelCounts) : Level → LevelCounts
  | .error => ⟨c.errors + 1, c.warnings⟩
  | .warn => ⟨c.errors, c.warnings + 1⟩

def toJson (c : LevelCounts) : Json :=
  .obj [("errors", .ofNat c.errors), ("warnings", .ofNat c.warnings)]

end LevelCounts

/-- The tag under which an issue is counted. -/
def Issue.summaryTag (i : Issue) : String := i.tag.getD "*"

/-- The numbers of errors and warnings for each tag. -/
def summarize (issues : List Issue) : SortedMap String LevelCounts :=
  issues.foldl (fun m i => m.adjust i.summaryTag .zero (LevelCounts.count · i.level)) ∅

def summaryToJson (s : SortedMap String LevelCounts) : Json :=
  .obj (s.mapValues LevelCounts.toJson).entries

end DesignTokens
