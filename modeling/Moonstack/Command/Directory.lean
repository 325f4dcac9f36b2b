import Moonstack.Command.Run

/-!
# Directories

A directory kept in memory, on which the command can be run (`Directory.storage`). Paths are
followed as a file system does: `.` stays, `..` goes up, and every step but the last has to lead to
a directory.

A place is the list of names on the way to it. One that begins with `..` lies above the directory,
and one that begins with `/` is counted from the root of the file system. Outside there are the
directories above, the root with the directories that every system has, and what is written there.
-/

namespace Moonstack

/-- The files of a directory, with their places. -/
structure Directory where
  files : List (List String × List UInt8)

namespace Directory

/-- What a path leads to. -/
inductive Node where
  | file (contents : List UInt8)
  | directory

/-! ## Paths -/

/-- The names on a path. -/
def steps (path : String) : List String := (path.splitOn "/").filter (· ≠ "")

/-- Names are at most this many bytes long. -/
def nameLimit : Nat := 255

/-- Paths are shorter than this many bytes. -/
def pathLimit : Nat := 4096

/-- A directory of files with the given paths. -/
def ofFiles (files : List (String × List UInt8)) : Directory where
  files := files.map fun (path, contents) => ((steps path).filter (· ≠ "."), contents)

/-! ## Places outside -/

/-- The root of the file system. -/
def root : List String := ["/"]

/-- The directories that every system has. -/
def systemDirectories : List (List String) :=
  root :: ["bin", "dev", "etc", "home", "lib", "opt", "proc", "root", "sbin", "sys", "tmp", "usr",
    "var"].map fun name => root ++ [name]

/-- The file that stays empty. -/
def sink : List String := root ++ ["dev", "null"]

/-- Does a place lie above the directory? -/
def isAbove (place : List String) : Bool := place.all (· = "..")

/-! ## Following a path -/

/-- The place above a place. The root has none above it. -/
def above (place : List String) : List String :=
  if place = root then root else if isAbove place then place ++ [".."] else place.dropLast

/-- Where a path begins. -/
def start (path : String) : List String := if path.startsWith "/" then root else []

/-- Is there a directory at a place? -/
def isDirectory (d : Directory) (place : List String) : Bool :=
  isAbove place || systemDirectories.contains place ||
    d.files.any fun (other, _) => place.isPrefixOf other

/-- What is at a place. -/
def node? (d : Directory) (place : List String) : Option Node :=
  if place = sink then some (.file [])
  else
    match d.files.lookup place with
    | some contents => some (.file contents)
    | none => if d.isDirectory place then some .directory else none

/-- Fails unless there is a directory at the place. -/
def requireDirectory (d : Directory) (place : List String) : Except FileError Unit :=
  match d.node? place with
  | some .directory => .ok ()
  | some (.file _) => .error .notDirectory
  | none => .error .missing

/-- The place that one name of a path leads to. -/
def step (d : Directory) (place : List String) (name : String) :
    Except FileError (List String) := do
  d.requireDirectory place
  if name = "." then return place
  else if name = ".." then return above place
  else if nameLimit < name.utf8ByteSize then throw .nameTooLong
  else return place ++ [name]

/-- The place that steps from the beginning of a path lead to. -/
def follow (d : Directory) (path : String) (names : List String) :
    Except FileError (List String) :=
  if pathLimit ≤ path.utf8ByteSize then .error .nameTooLong else names.foldlM d.step (start path)

/-! ## Reading and writing -/

/-- Reads a file. -/
def read (d : Directory) (path : String) : Except FileError (List UInt8) := do
  let place ← d.follow path (steps path)
  if path.endsWith "/" then d.requireDirectory place
  match d.node? place with
  | some (.file contents) => return contents
  | some .directory => throw .isDirectory
  | none => throw .missing

/-- Puts a file at a place. What is written to the sink is lost. -/
def put (d : Directory) (place : List String) (contents : List UInt8) : Directory where
  files :=
    if place = sink then d.files
    else (place, contents) :: d.files.filter fun (other, _) => other ≠ place

/-- Writes a file, which need not be there before. -/
def write (d : Directory) (path : String) (contents : List UInt8) : Except FileError Directory := do
  let names := steps path
  let parent ← d.follow path names.dropLast
  d.requireDirectory parent
  if path.endsWith "/" then throw .isDirectory
  let place ← (names.getLast?.toList).foldlM d.step parent
  match d.node? place with
  | some .directory => throw .isDirectory
  | _ => return d.put place contents

/-- The directory as a place for files. -/
def storage : Files (StateM Directory) where
  read path := return (← get).read path
  write path text := do
    match (← get).write path text.toUTF8.toList with
    | .ok d =>
      set d
      return .ok ()
    | .error e => return .error e

end Directory

end Moonstack
