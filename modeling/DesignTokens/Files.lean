import DesignTokens.SortedMap
import DesignTokens.Text.Pieces

/-!
# Files

* `Disk` : what a run can see of the files: the text of a file and whether a path leads anywhere;
* `FileError` : why a file cannot be read or written;
* `Place` : where a path leads: some names below a directory that is always there. This is the
  working directory, one above it, or the root;
* `Files` : the contents of files by path, where a directory is there if some file is in it;
* `Files.disk`, `Files.write?` : the files as a run sees them, and after one of them is written.

A path is walked name by name from the working directory, or from the root if it starts with a
slash: `.` and empty names stay, `..` goes up, and a name leads on from a directory only. The root
is above itself. Of what is outside the working directory the directories above it are there, those
that every system has in its root, and the empty device `/dev/null`.
-/

namespace DesignTokens

/-- Why a file cannot be read or written. -/
inductive FileError where
  | notFound
  | notDirectory
  | isDirectory
  | nameTooLong
  | notText
  | other (reason : String)
  deriving DecidableEq, Repr

def FileError.message : FileError → String
  | notFound => "No such file or directory (os error 2)"
  | notDirectory => "Not a directory (os error 20)"
  | isDirectory => "Is a directory (os error 21)"
  | nameTooLong => "File name too long (os error 36)"
  | notText => "stream did not contain valid UTF-8"
  | other reason => reason

/-- What a run can see of the files. -/
structure Disk where
  read : String → Except FileError String
  leadsTo : String → Bool

/-! ## Places -/

/-- A directory that is always there: the root, or the one so many levels above the working
directory. -/
inductive Origin where
  | root
  | above (levels : Nat)
  deriving DecidableEq, Repr

/-- Where a path leads: some names below a directory that is always there. -/
structure Place where
  origin : Origin
  names : List String
  deriving DecidableEq, Repr

namespace Place

def working : Place := ⟨.above 0, []⟩

def root : Place := ⟨.root, []⟩

def emptyDevice : Place := ⟨.root, ["dev", "null"]⟩

def path (p : Place) : String :=
  let start := match p.origin with
    | .root => [""]
    | .above levels => List.replicate levels ".."
  String.intercalate "/" (start ++ p.names)

/-- The directory that holds the place; the root is above itself. -/
def parent (p : Place) : Place :=
  match p.names, p.origin with
  | [], .root => p
  | [], .above levels => ⟨.above (levels + 1), []⟩
  | names, _ => { p with names := names.dropLast }

def step (p : Place) (name : String) : Place :=
  if name = "" || name = "." then p
  else if name = ".." then p.parent
  else { p with names := p.names ++ [name] }

/-- Where the walk of a path starts. -/
def start (path : String) : Place := if path.toList.head? == some '/' then root else working

/-- The place to which a path leads if all directories on the way are there. -/
def ofPath (path : String) : Place := (Text.splitString '/' path).foldl step (start path)

/-- The directories that every system has in its root. -/
def standardNames : List String :=
  ["bin", "boot", "dev", "etc", "lib", "media", "mnt", "opt", "run", "sbin", "srv", "tmp", "usr",
   "var"]

def isStandard (p : Place) : Bool :=
  match p.origin, p.names with
  | _, [] => true
  | .root, [name] => standardNames.contains name
  | _, _ => false

end Place

/-! ## Contents -/

/-- The contents of files by path. -/
abbrev Files := SortedMap String ByteArray

namespace Files

def longestName : Nat := 255

def longestPath : Nat := 4095

/-- The place is a directory: every system has it, or some file is in it. -/
def isDirectory (fs : Files) (p : Place) : Bool :=
  p.isStandard || fs.keys.any fun key =>
    (Text.stripStart? (p.path.toList ++ ['/']) key.toList).isSome

def bytes? (fs : Files) (p : Place) : Option ByteArray :=
  if p = Place.emptyDevice then some ByteArray.empty else fs.get? p.path

def isFile (fs : Files) (p : Place) : Bool := (fs.bytes? p).isSome

/-- Walks on from a place: the place to which the names lead. All but the last must be there. -/
def walk (fs : Files) (p : Place) : List String → Except FileError Place
  | [] => .ok p
  | name :: names =>
    if fs.isDirectory p then
      if longestName < name.utf8ByteSize then .error .nameTooLong else walk fs (p.step name) names
    else if fs.isFile p then .error .notDirectory
    else .error .notFound

/-- The place to which a path leads; it may not be there yet. -/
def locate (fs : Files) (path : String) : Except FileError Place :=
  if path = "" then .error .notFound
  else if longestPath < path.utf8ByteSize then .error .nameTooLong
  else walk fs (Place.start path) (Text.splitString '/' path)

/-- The text of the file to which a path leads. -/
def read (fs : Files) (path : String) : Except FileError String := do
  let p ← fs.locate path
  if fs.isDirectory p then throw .isDirectory
  match fs.bytes? p with
  | none => throw .notFound
  | some bytes =>
    match String.fromUTF8? bytes with
    | some s => pure s
    | none => throw .notText

/-- The files with a file at a path, whose directories are made. -/
def add (fs : Files) (path : String) (bytes : ByteArray) : Files :=
  fs.insert (Place.ofPath path).path bytes

def leadsTo (fs : Files) (path : String) : Bool :=
  match fs.locate path with
  | .ok p => fs.isDirectory p || fs.isFile p
  | .error _ => false

/-- The files as a run sees them. -/
def disk (fs : Files) : Disk := ⟨fs.read, fs.leadsTo⟩

/-- The files after a text is written to a path; the empty device stays empty. -/
def write? (fs : Files) (path text : String) : Except FileError Files := do
  let p ← fs.locate path
  if fs.isDirectory p then throw .isDirectory
  pure (if p = Place.emptyDevice then fs else fs.insert p.path text.toUTF8)

end Files

/-! ## Paths -/

/-- A path seen from a directory: an absolute one stays, and nothing comes before an empty
directory. -/
def joinPaths (directory path : String) : String :=
  if path.toList.head? == some '/' || directory = "" then path
  else if directory.toList.getLast? == some '/' then directory ++ path
  else directory ++ "/" ++ path

/-- The names of a path from its end on, without empty names and dots at the end, of which a leading
one stays. -/
def trimNames : List String → List String
  | [] => []
  | [name] => [name]
  | name :: names => if name = "" || name = "." then trimNames names else name :: names

/-- The directory of a path: the path without its last name. -/
def directoryOf (path : String) : String :=
  match trimNames ((trimNames (Text.splitString '/' path).reverse).drop 1) with
  | [""] => "/"
  | names => String.intercalate "/" names.reverse

end DesignTokens
