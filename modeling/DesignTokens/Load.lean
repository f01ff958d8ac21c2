import DesignTokens.Files
import DesignTokens.RuleSet
import DesignTokens.Token.Override

/-!
# Loading documents

* `loadTree disk paths` : the token files, merged from left to right;
* `loadOverrides disk path` : the values of a file;
* `loadRules disk path` : the rules of a file, with the orders that it names as files. These are
  looked for from the directory of the rules.
-/

namespace DesignTokens

inductive LoadError where
  | unreadable (path : String) (e : FileError)
  | malformed (path : String)
  | notAnObject (path : String)
  | override (e : OverrideError)
  | version (e : VersionError)
  deriving DecidableEq, Repr

def LoadError.message : LoadError → String
  | unreadable path e => "Cannot read " ++ path ++ ": " ++ e.message
  | malformed path => "Invalid JSON in " ++ path ++ ": not a document of the expected form"
  | notAnObject path => path ++ ": token tree root must be an object"
  | override e => e.message
  | version e => e.message

def loadText (disk : Disk) (path : String) : Except LoadError String :=
  match disk.read path with
  | .ok s => .ok s
  | .error e => .error (.unreadable path e)

/-- What a file holds, as far as it can be read. -/
def loadWith {α : Type} (read? : String → Option α) (disk : Disk) (path : String) :
    Except LoadError α := do
  match read? (← loadText disk path) with
  | some a => pure a
  | none => throw (.malformed path)

/-! ## Trees and overrides -/

def loadObject (disk : Disk) (path : String) : Except LoadError Json := do
  let j ← loadWith Json.parse? disk path
  if j.isObj then pure j else throw (.notAnObject path)

/-- The token files, merged from left to right. -/
def loadTree (disk : Disk) (paths : List String) : Except LoadError Json :=
  paths.foldlM (fun tree path => do pure (merge tree (← loadObject disk path))) (.obj [])

def Values.ofJson? (j : Json) : Option Values := Json.map? TokenValue.ofJson? j

def loadOverrides (disk : Disk) (path : String) : Except LoadError Values :=
  loadWith (fun s => (Json.parse? s).bind Values.ofJson?) disk path

/-! ## Rules -/

/-- The entry with the triples of the file that it names, if it has none in place. -/
def OrderEntry.load (disk : Disk) (directory : String) (e : OrderEntry) :
    Except LoadError OrderEntry :=
  match e.order, e.file with
  | none, some file => do
    let order ← loadWith RuleSet.parseOrder? disk (joinPaths directory file)
    pure { e with order := some order }
  | _, _ => .ok e

/-- The rules of a file, with the orders that it names as files. -/
def loadRules (disk : Disk) (path : String) : Except LoadError RuleSet := do
  let rs ← loadWith RuleSet.parse? disk path
  match rs.checkVersion with
  | .error e => throw (.version e)
  | .ok () => pure { rs with orders := ← rs.orders.mapM (OrderEntry.load disk (directoryOf path)) }

end DesignTokens
