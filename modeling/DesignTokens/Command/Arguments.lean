import DesignTokens.Decimal.Reader
import DesignTokens.Text.Pieces

/-!
# Command lines

* `Invocation` : the files that a command works on and what it does;
* `parseArguments args` : the invocation, a question for the version or for help, or a wrong usage.

Options for files stand before or after the name of the command; those after it count if both are
given. `--name=value` and `--name value` are the same, short options may stand together, and a value
that starts with `-` is only taken after `=` or directly after a short option. An option that takes
one value or is a flag may stand once on either side of the command.
-/

namespace DesignTokens

inductive ReportFormat where
  | json
  | text
  deriving DecidableEq, Repr

inductive GraphFormat where
  | mermaid
  | dot
  deriving DecidableEq, Repr

inductive EmitFormat where
  | css
  | json
  | js
  deriving DecidableEq, Repr

/-- Which part of a diagram is shown, and how. -/
structure GraphRequest where
  axis : String
  format : GraphFormat
  only : List String
  exclude : List String
  around : List String
  hops : Nat
  title : Option String
  deriving DecidableEq, Repr

inductive Command where
  | validate (format : ReportFormat)
  | commit (id value : String) (writeOverrides : Bool)
  | graph (request : GraphRequest)
  | eval (expr : String) (trace : Bool)
  | emit (format : EmitFormat) (selector : String)
  deriving DecidableEq, Repr

structure Sources where
  config : Option String
  tokens : List String
  overrides : Option String
  deriving DecidableEq, Repr

structure Invocation where
  sources : Sources
  command : Command
  deriving DecidableEq, Repr

inductive Request where
  | run (invocation : Invocation)
  | version
  | help
  | usage
  deriving DecidableEq, Repr

/-! ## Options -/

inductive OptionKind where
  | flag
  | once
  | many
  | version
  | help
  deriving DecidableEq, Repr

/-- An option of a command line, with the values that it takes. -/
structure OptionSpec where
  name : String
  short : Option Char
  kind : OptionKind
  allowed : String → Bool

/-- Options that were given, with their values; a flag has an empty one. -/
abbrev Given := List (String × String)

namespace Given

def has (g : Given) (name : String) : Bool := g.any (·.1 == name)

def value? (g : Given) (name : String) : Option String := g.lookup name

def all (g : Given) (name : String) : List String := (g.filter (·.1 == name)).map (·.2)

end Given

/-- Why the reading of options ended early. -/
inductive Interruption where
  | version
  | help
  | usage
  deriving DecidableEq, Repr

def anyText (_ : String) : Bool := true

def nonempty (s : String) : Bool := s ≠ ""

def helpOption : OptionSpec := ⟨"help", some 'h', .help, anyText⟩

def sharedOptions : List OptionSpec :=
  [⟨"config", some 'c', .once, nonempty⟩, ⟨"tokens", some 't', .many, nonempty⟩,
   ⟨"overrides", some 'o', .once, nonempty⟩, ⟨"verbose", some 'v', .flag, anyText⟩, helpOption]

def topOptions : List OptionSpec := ⟨"version", some 'V', .version, anyText⟩ :: sharedOptions

/-- Adds an option with its value, if it may be given and has an allowed value. -/
def give (g : Given) (spec : OptionSpec) (value : String) : Except Interruption Given :=
  match spec.kind with
  | .version => .error .version
  | .help => .error .help
  | .many => if spec.allowed value then .ok (g ++ [(spec.name, value)]) else .error .usage
  | _ =>
    if g.has spec.name || !spec.allowed value then .error .usage
    else .ok (g ++ [(spec.name, value)])

def OptionSpec.takesValue (s : OptionSpec) : Bool := s.kind == .once || s.kind == .many

/-- What the short options in a word leave to be done. -/
inductive ShortOutcome where
  | finished (g : Given)
  | needsValue (g : Given) (spec : OptionSpec)

/-- Reads the short options of a word. The rest of the word after one that takes a value is its
value, without an equals sign at its start. -/
def readShorts (specs : List OptionSpec) (g : Given) :
    List Char → Except Interruption ShortOutcome
  | [] => .ok (.finished g)
  | c :: cs =>
    match specs.find? fun s => s.short == some c with
    | none => .error .usage
    | some spec =>
      if spec.takesValue then
        match cs with
        | [] => .ok (.needsValue g spec)
        | '=' :: value => (give g spec (String.ofList value)).map .finished
        | value => (give g spec (String.ofList value)).map .finished
      else do readShorts specs (← give g spec "") cs

def isValueWord (word : String) : Bool := word.toList.head? != some '-' || word = "-"

/-- The options that words give, and the words from the first one on that is no option. -/
def readOptions (specs : List OptionSpec) (g : Given) :
    List String → Except Interruption (Given × List String)
  | [] => .ok (g, [])
  | word :: words =>
    match word.toList with
    | '-' :: '-' :: [] => if words.isEmpty then .ok (g, []) else .error .usage
    | '-' :: '-' :: cs =>
      let (name, value) := match Text.cutAt (· == '=') cs with
        | some (name, value) => (name, some (String.ofList value))
        | none => (cs, none)
      match specs.find? (·.name == String.ofList name) with
      | none => .error .usage
      | some spec =>
        if spec.takesValue then
          match value, words with
          | some v, words => do readOptions specs (← give g spec v) words
          | none, v :: words =>
            if isValueWord v then do readOptions specs (← give g spec v) words else .error .usage
          | none, [] => .error .usage
        else if value.isSome then .error .usage
        else do readOptions specs (← give g spec "") words
    | '-' :: c :: cs => do
      match ← readShorts specs g (c :: cs), words with
      | .finished g, words => readOptions specs g words
      | .needsValue g spec, v :: words =>
        if isValueWord v then do readOptions specs (← give g spec v) words else .error .usage
      | .needsValue _ _, [] => .error .usage
    | _ => .ok (g, word :: words)

/-! ## Commands -/

def ReportFormat.ofName? : String → Option ReportFormat
  | "json" => some json
  | "text" => some text
  | _ => none

def GraphFormat.ofName? : String → Option GraphFormat
  | "mermaid" => some mermaid
  | "dot" => some dot
  | _ => none

def EmitFormat.ofName? : String → Option EmitFormat
  | "css" => some css
  | "json" => some json
  | "js" => some js
  | _ => none

/-- A whole number that fits 64 bits; a plus may stand before it. -/
def count? (s : String) : Option Nat :=
  let ds := match s.toList with
    | '+' :: ds => ds
    | ds => ds
  if ds.isEmpty || !ds.all Char.isDigit then none
  else
    let n := Decimal.natOfDigits ds
    if n < Decimal.wordLimit then some n else none

def single (name : String) (allowed : String → Bool) : OptionSpec := ⟨name, none, .once, allowed⟩

/-- The options of a command, apart from those for files. -/
def commandOptions? : String → Option (List OptionSpec)
  | "validate" => some [single "format" fun s => (ReportFormat.ofName? s).isSome]
  | "commit" =>
    some [single "id" anyText, single "value" anyText, ⟨"write-overrides", none, .flag, anyText⟩]
  | "graph" =>
    some [single "axis" anyText, single "format" fun s => (GraphFormat.ofName? s).isSome,
      ⟨"only", none, .many, anyText⟩, ⟨"exclude", none, .many, anyText⟩,
      ⟨"around", none, .many, anyText⟩, single "hops" fun s => (count? s).isSome,
      single "title" anyText]
  | "eval" => some [single "expr" anyText, ⟨"trace", none, .flag, anyText⟩]
  | "emit" =>
    some [single "format" fun s => (EmitFormat.ofName? s).isSome, single "selector" anyText]
  | _ => none

def orDefault {α : Type} (g : Given) (name : String) (d : α) (read? : String → Option α) :
    Option α :=
  match g.value? name with
  | some s => read? s
  | none => some d

def commandOf? (g : Given) : String → Option Command
  | "validate" => do some (.validate (← orDefault g "format" .json ReportFormat.ofName?))
  | "commit" => do
    some (.commit (← g.value? "id") (← g.value? "value") (g.has "write-overrides"))
  | "graph" => do
    some (.graph ⟨← g.value? "axis", ← orDefault g "format" .mermaid GraphFormat.ofName?,
      g.all "only", g.all "exclude", g.all "around", ← orDefault g "hops" 1 count?,
      g.value? "title"⟩)
  | "eval" => do some (.eval (← g.value? "expr") (g.has "trace"))
  | "emit" => do
    some (.emit (← (g.value? "format").bind EmitFormat.ofName?)
      ((g.value? "selector").getD ":root"))
  | _ => none

/-- The files of the options before and after the command. -/
def sourcesOf (before after : Given) : Sources :=
  let tokens := if after.has "tokens" then after.all "tokens" else before.all "tokens"
  ⟨(after.value? "config").or (before.value? "config"),
    if tokens.isEmpty then ["tokens.json"] else tokens,
    (after.value? "overrides").or (before.value? "overrides")⟩

/-- The request of the words after `help`: at most the name of one command. -/
def parseHelp : List String → Request
  | [] => .help
  | [name] => if name = "help" || (commandOptions? name).isSome then .help else .usage
  | _ => .usage

/-- The request of words from the name of a command on. -/
def parseCommand (before : Given) (name : String) (words : List String) : Request :=
  match commandOptions? name with
  | none => if name = "help" then parseHelp words else .usage
  | some specs =>
    match readOptions (specs ++ sharedOptions) [] words with
    | .error .version => .version
    | .error .help => .help
    | .error .usage => .usage
    | .ok (_, _ :: _) => .usage
    | .ok (after, []) =>
      match commandOf? after name with
      | some command => .run ⟨sourcesOf before after, command⟩
      | none => .usage

def parseArguments (args : List String) : Request :=
  match readOptions topOptions [] args with
  | .error .version => .version
  | .error .help => .help
  | .error .usage => .usage
  | .ok (_, []) => .usage
  | .ok (before, name :: words) => parseCommand before name words

end DesignTokens
