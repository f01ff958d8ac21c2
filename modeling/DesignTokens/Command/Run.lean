import DesignTokens.Command.Arguments
import DesignTokens.Emit
import DesignTokens.Load
import DesignTokens.Order.View
import DesignTokens.Report

/-!
# Running commands

* `Output` : an exit code and what is printed: 0 if all is well, 1 for a failure, and 2 for a wrong
  usage or for errors among the issues;
* `Run` : a run is either finished, or it writes one file and then ends according to how that went;
* `runCommand disk time i` : the run of an invocation at a time. Only a commit that is to write its
  overrides writes a file;
* `Files.perform` : the output of a run and the files afterwards.
-/

namespace DesignTokens

/-- An exit code and what is printed. -/
structure Output where
  exit : Nat
  text : String
  deriving DecidableEq, Repr

/-- A run is finished, or it writes one file and ends according to how that went. -/
inductive Run where
  | finished (output : Output)
  | write (path text : String) (ending : Option FileError → Output)

inductive CommandError where
  | load (e : LoadError)
  | report (e : ReportError)
  | malformedExpr
  | noOverridesPath
  | unwritable (path : String) (e : FileError)
  deriving DecidableEq, Repr

def CommandError.message : CommandError → String
  | load e => e.message
  | report e => e.message
  | malformedExpr => "Invalid --expr: not an expression"
  | noOverridesPath => "--write-overrides needs --overrides PATH"
  | unwritable path e => "Cannot write " ++ path ++ ": " ++ e.message

namespace Output

def exitOf (clean : Bool) : Nat := if clean then 0 else 2

/-- A document on lines of its own. -/
def document (exit : Nat) (j : Json) : Output := ⟨exit, j.pretty ++ "\n"⟩

/-- What is printed of an error; errors of expressions have their code. -/
def ofError : CommandError → Output
  | .report (.eval e) =>
    ⟨1, (Json.obj [("code", .str e.code), ("error", .str e.message)]).compress ++ "\n"⟩
  | e => ⟨1, (Json.obj [("error", .str e.message)]).compress ++ "\n"⟩

end Output

def rulesOf (disk : Disk) : Option String → Except CommandError RuleSet
  | none => .ok RuleSet.empty
  | some path => (loadRules disk path).mapError .load

/-- The overrides of a file, or none if there is no file. -/
def overridesOf (disk : Disk) : Option String → Except CommandError Values
  | none => .ok ∅
  | some path =>
    if disk.leadsTo path then (loadOverrides disk path).mapError .load else .ok ∅

/-- The token files with the overrides applied. -/
def treeOf (disk : Disk) (s : Sources) : Except CommandError Json := do
  let tree ← (loadTree disk s.tokens).mapError .load
  let patch ← overridesOf disk s.overrides
  match overrideAll patch tree with
  | (tree, none) => pure tree
  | (_, some e) => throw (.load (.override e))

/-- A number stays a number, and anything else is a text. -/
def valueOfArgument (s : String) : TokenValue :=
  match Decimal.readFinite? (Text.trim s.toList) with
  | some x => .number x
  | none => .text s

/-- The part of a diagram that is asked for. -/
def shownPart (r : GraphRequest) (g : OrderGraph) : OrderGraph :=
  let g := if r.only.isEmpty then g else g.under r.only
  let g := if r.exclude.isEmpty then g else g.outside r.exclude
  if r.around.isEmpty then g else g.around (g.seeds r.around) r.hops

def diagramText (r : GraphRequest) (v : HasseView) : String :=
  let marks := v.marks r.title
  let g := shownPart r v.graph
  match r.format with
  | .mermaid => g.mermaid marks
  | .dot => g.dot marks

def validationOutput (time : String) (format : ReportFormat) (v : Validation) : Output :=
  match format with
  | .json => .document (Output.exitOf v.valid) (v.toJson time)
  | .text => ⟨Output.exitOf v.valid, OrderGraph.unlines v.lines⟩

def commitOutput (r : CommitReport) : Output :=
  .document (Output.exitOf (!r.commit.issues.any Issue.isError)) r.toJson

/-- The run that writes the values of a commit into the overrides. -/
def writeRun (disk : Disk) (path : String) (r : CommitReport) : Except CommandError Run := do
  let merged := (← overridesOf disk (some path)).insertAll r.commit.patch.entries
  pure (.write path ((Values.toJson merged).pretty ++ "\n") fun
    | none => commitOutput r
    | some e => .ofError (.unwritable path e))

def commitRun (disk : Disk) (overrides : Option String) (writes : Bool) (r : CommitReport) :
    Except CommandError Run :=
  if writes then
    match overrides with
    | some path => writeRun disk path r
    | none => .error .noOverridesPath
  else .ok (.finished (commitOutput r))

def emitText (format : EmitFormat) (selector : String) (values : Values) : String :=
  match format with
  | .css => Emit.css selector values
  | .json => Emit.jsonText values ++ "\n"
  | .js => Emit.script values

def runOn (disk : Disk) (time : String) (overrides : Option String) (rs : RuleSet) (tree : Json) :
    Command → Except CommandError Run
  | .validate format => do
    let v ← (validate rs tree).mapError .report
    pure (.finished (validationOutput time format v))
  | .commit id value writes => do
    let r ← (commitValue rs tree id (valueOfArgument value)).mapError .report
    commitRun disk overrides writes r
  | .graph request => do
    let v ← (hasse rs tree request.axis).mapError .report
    pure (.finished ⟨0, diagramText request v⟩)
  | .eval expr trace => do
    match Expr.parse? expr with
    | none => throw .malformedExpr
    | some e => do
      let evaluation ← (evaluateIn rs tree e trace).mapError .report
      pure (.finished (.document 0 evaluation.toJson))
  | .emit format selector => do
    let r ← (resolve tree).mapError fun e => .report (.resolve e)
    pure (.finished ⟨0, emitText format selector r.values⟩)

def runCommand (disk : Disk) (time : String) (i : Invocation) : Run :=
  let run := do
    let rs ← rulesOf disk i.sources.config
    let tree ← treeOf disk i.sources
    runOn disk time i.sources.overrides rs tree i.command
  match run with
  | .ok run => run
  | .error e => .finished (.ofError e)

def runRequest (disk : Disk) (time : String) : Request → Run
  | .run i => runCommand disk time i
  | .version => .finished ⟨0, "tokenguard-cli " ++ engineVersion ++ "\n"⟩
  | .help => .finished ⟨0, "Usage: tokenguard-cli [OPTIONS] <COMMAND>\n"⟩
  | .usage => .finished ⟨2, ""⟩

/-- The output of a run and the files afterwards. -/
def Files.perform (fs : Files) : Run → Output × Files
  | .finished output => (output, fs)
  | .write path text ending =>
    match fs.write? path text with
    | .ok fs => (ending none, fs)
    | .error e => (ending (some e), fs)

end DesignTokens
