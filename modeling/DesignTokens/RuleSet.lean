import DesignTokens.Rule.Checker
import DesignTokens.Version

/-!
# Rule sets

* `RuleSet` : the rules that a tree is checked against, and the limits of their expressions;
* `OrderEntry` : the triples of one axis, given in place or in a file;
* `RuleSet.checkers` : contrast, thresholds, orders and cross-axis rules, in this order;
* `RuleSet.checkVersion` : the least version of the checker that the rules need;
* `RuleSet.parse?`, `RuleSet.parseOrder?` : the rules, and the triples of an order, that a text
  writes. Members without a meaning are passed over whatever they hold.
-/

namespace DesignTokens

def engineVersion : String := "0.1.0"

/-- The triples of one axis, given in place or in a file. -/
structure OrderEntry where
  axis : String
  measure : Measure
  tag : Option String
  order : Option (List OrderTriple)
  file : Option String
  deriving DecidableEq, Repr

namespace OrderEntry

def inPlace (axis : String) (measure : Measure) (order : List OrderTriple) : OrderEntry :=
  ⟨axis, measure, none, some order, none⟩

def triples (e : OrderEntry) : List OrderTriple := e.order.getD []

def checker (e : OrderEntry) : Checker := .monotonic e.axis e.measure e.tag e.triples

def rules (e : OrderEntry) : List OrderRule := e.triples.map fun t => ⟨t, e.measure, e.tag⟩

def toJson (e : OrderEntry) : Json :=
  .obj ([("axis", .str e.axis), ("parser", .str e.measure.name)] ++
    Json.optionMember "where" .str e.tag ++
    Json.optionMember "order" (fun ts => .arr (ts.map OrderTriple.toJson)) e.order ++
    Json.optionMember "file" .str e.file)

/-- The names of the fields. -/
def fields : List String := ["axis", "parser", "where", "order", "file"]

def ofJson? (j : Json) : Option OrderEntry := do
  let r ← Record.ofJson? fields j
  some ⟨← r.field? "axis" Json.str?, ← r.default? "parser" .size Measure.ofJson?,
    ← r.option? "where" Json.str?, ← r.option? "order" (Json.list? OrderTriple.ofJson?),
    ← r.option? "file" Json.str?⟩

end OrderEntry

/-- The rules that a tree is checked against. -/
structure RuleSet where
  minVersion : Option String
  contrast : List ContrastPair
  thresholds : List ThresholdRule
  orders : List OrderEntry
  crossAxis : List CrossAxisRule
  limits : Limits
  deriving BEq, Repr

inductive VersionError where
  | invalid (text : String)
  | mismatch (required : String)
  deriving DecidableEq, Repr

def VersionError.message : VersionError → String
  | invalid text => "Invalid version '" ++ text ++ "': not three numbers with optional parts"
  | mismatch required =>
    "Rule set requires engine >= " ++ required ++ ", current is " ++ engineVersion

namespace RuleSet

def empty : RuleSet := ⟨none, [], [], [], [], Limits.default⟩

/-- The version of this checker is earlier than another one. -/
def laterThanEngine (required : Version) : Bool :=
  match Version.parse? engineVersion with
  | some current => current.order required == .lt
  | none => false

/-- The version that the rules need, if any, is one, and not later than that of this checker. -/
def checkVersion (rs : RuleSet) : Except VersionError Unit :=
  match rs.minVersion with
  | none => .ok ()
  | some text =>
    match Version.parse? text with
    | none => .error (.invalid text)
    | some required => if laterThanEngine required then .error (.mismatch text) else .ok ()

/-- The first entry of an axis. -/
def order? (rs : RuleSet) (axis : String) : Option OrderEntry := rs.orders.find? (·.axis == axis)

/-- The checkers of the rules: contrast, thresholds, orders and cross-axis rules. -/
def checkers (rs : RuleSet) : List Checker :=
  (if rs.contrast.isEmpty then [] else [.contrast rs.contrast]) ++
  (if rs.thresholds.isEmpty then [] else [.threshold rs.limits rs.thresholds]) ++
  rs.orders.map OrderEntry.checker ++
  (if rs.crossAxis.isEmpty then [] else [.crossAxis rs.crossAxis])

def toJson (rs : RuleSet) : Json :=
  .obj (Json.optionMember "engineMinVersion" .str rs.minVersion ++
    [("contrast", .arr (rs.contrast.map ContrastPair.toJson)),
     ("thresholds", .arr (rs.thresholds.map ThresholdRule.toJson)),
     ("orders", .arr (rs.orders.map OrderEntry.toJson)),
     ("crossAxis", .arr (rs.crossAxis.map CrossAxisRule.toJson)),
     ("limits", rs.limits.toJson)])

/-- The fields, with what is looked at in each. A cross-axis rule may have either of two forms, and
all of it is looked at to find out which. -/
def fields : List (String × Shape) :=
  [("engineMinVersion", .whole), ("contrast", .list (.flat ContrastPair.fields)),
   ("thresholds", .list (.flat ThresholdRule.fields)),
   ("orders", .list (.flat OrderEntry.fields)), ("crossAxis", .whole),
   ("limits", .flat Limits.fields)]

def ofJson? (j : Json) : Option RuleSet := do
  let r ← Record.ofJson? (fields.map (·.1)) j
  some ⟨← r.option? "engineMinVersion" Json.str?,
    ← r.default? "contrast" [] (Json.list? ContrastPair.ofJson?),
    ← r.default? "thresholds" [] (Json.list? ThresholdRule.ofJson?),
    ← r.default? "orders" [] (Json.list? OrderEntry.ofJson?),
    ← r.default? "crossAxis" [] (Json.list? CrossAxisRule.ofJson?),
    ← r.default? "limits" Limits.default Limits.ofJson?⟩

def parse? (s : String) : Option RuleSet := (Json.parseAs? (.record fields) s).bind ofJson?

def orderOfJson? (j : Json) : Option (List OrderTriple) := do
  let r ← Record.ofJson? ["order"] j
  r.default? "order" [] (Json.list? OrderTriple.ofJson?)

def parseOrder? (s : String) : Option (List OrderTriple) :=
  (Json.parseAs? (.flat ["order"]) s).bind orderOfJson?

end RuleSet

end DesignTokens
