import Std.Time.Format
import DesignTokens.Command.Run

/-!
# The program

`main` reads the files that a command line names, runs the command on what was read, and writes the
one file that the run may write.
-/

namespace DesignTokens

abbrev Found := List (String × Except FileError String)

/-- The files as a run sees them, as far as they were read. -/
def Found.disk (f : Found) : Disk where
  read path := (f.lookup path).getD (.error .notFound)
  leadsTo path :=
    match f.lookup path with
    | some (.error .notFound) => false
    | some (.error .notDirectory) => false
    | some _ => true
    | none => false

/-- The code with which the system refuses to read a directory. -/
def isDirectoryCode : UInt32 := 21

def readFound (path : String) : IO (String × Except FileError String) := do
  try
    let bytes ← IO.FS.readBinFile path
    match String.fromUTF8? bytes with
    | some s => pure (path, .ok s)
    | none => pure (path, .error .notText)
  catch
    | .noFileOrDirectory .. => pure (path, .error .notFound)
    | .inappropriateType _ code _ =>
      pure (path, .error (if code = isDirectoryCode then .isDirectory else .notDirectory))
    | e => pure (path, .error (.other (toString e)))

/-- The paths of the order files that rules name. -/
def orderFiles (found : Found) (config : String) : List String :=
  match loadText found.disk config with
  | .error _ => []
  | .ok s =>
    match RuleSet.parse? s with
    | none => []
    | some rs => rs.orders.filterMap fun e => e.file.map (joinPaths (directoryOf config))

/-- Reads what an invocation may need. -/
def readAll (i : Invocation) : IO Found := do
  let s := i.sources
  let found ← (s.config.toList ++ s.tokens ++ s.overrides.toList).mapM readFound
  let orders ← (s.config.toList.flatMap (orderFiles found)).mapM readFound
  pure (found ++ orders)

/-- Ends a run: writes the file that it writes, if any. -/
def finish : Run → IO Output
  | .finished output => pure output
  | .write path text ending => do
    try
      IO.FS.writeFile path text
      pure (ending none)
    catch e => pure (ending (some (.other (toString e))))

def timeNow : IO String := do
  let now ← Std.Time.Timestamp.now
  let now := Std.Time.DateTime.ofTimestamp now Std.Time.TimeZone.ZoneRules.UTC
  pure (now.format "uuuu-MM-dd'T'HH:mm:ss.SSSSSSSSSXXX")

end DesignTokens

/-- Runs a command line and exits with its code. -/
def main (args : List String) : IO UInt32 := do
  let request := DesignTokens.parseArguments args
  let found ← match request with
    | .run i => DesignTokens.readAll i
    | _ => pure []
  let time ← DesignTokens.timeNow
  let output ← DesignTokens.finish (DesignTokens.runRequest found.disk time request)
  IO.print output.text
  pure output.exit.toUInt32
