import LatencyLog.Source

/-! # Folders

Files and directories, and the directory in which relative paths are looked up.

* `Node`: what opening a file or a directory gives, and whether names are looked up in it.
* `Folder`: nodes by their names from the root on. The directories on the way to a node are there
  too.
* `Folder.walk`: where a path leads, name by name from left to right.
* `Folder.openAt`: what opening the path of a file or a directory gives.

There are no links.
-/

namespace LatencyLog

set_option autoImplicit false

/-! ## Failures -/

def ReadFailure.notFound : ReadFailure := ⟨.notFound, "No such file or directory (os error 2)"⟩

def ReadFailure.notADirectory : ReadFailure := ⟨.notADirectory, "Not a directory (os error 20)"⟩

def ReadFailure.isADirectory : ReadFailure := ⟨.isADirectory, "Is a directory (os error 21)"⟩

def ReadFailure.nameTooLong : ReadFailure :=
  ⟨.invalidFilename, "File name too long (os error 36)"⟩

def ReadFailure.nulInPath : ReadFailure :=
  ⟨.invalidInput, "file name contained an unexpected NUL byte"⟩

/-! ## Entries -/

/-- A file or a directory. Opening it gives a source, which may fail to be read, or a failure; names
are looked up in it, or looking them up is a failure. -/
structure Node where
  opened : Except ReadFailure Source
  searched : Except ReadFailure Unit

def Node.file (opened : Except ReadFailure Source) : Node := ⟨opened, .error .notADirectory⟩

/-- A directory can be opened and cannot be read. -/
def Node.directory : Node := ⟨.ok [.failure .isADirectory], .ok ()⟩

/-- A node, and the names that lead to it from the root. -/
structure Entry where
  names : List String
  node : Node

/-- Entries, and the names that lead from the root to the current directory. -/
structure Folder where
  entries : List Entry
  current : List String

/-! ## Names -/

/-- The texts between the slashes of a path; `name` is the one begun, the last character first. -/
def splitAtSlash (name : List Char) : List Char → List (List Char)
  | [] => [name.reverse]
  | c :: rest =>
    if c = '/' then name.reverse :: splitAtSlash [] rest else splitAtSlash (c :: name) rest

/-- The names that a path consists of. An empty one, as between two slashes or after the last, is
the current directory. -/
def pathNames (path : String) : List String :=
  (splitAtSlash [] path.toList).map fun name => if name.isEmpty then "." else String.ofList name

/-- The greatest count of bytes of a name. -/
def maxNameBytes : Nat := 255

/-- The greatest count of bytes of a path. -/
def maxPathBytes : Nat := 4095

namespace Folder

/-! ## Looking up -/

/-- What stands at the end of some names: the last entry given for it, or a directory on the way to
an entry or to the current directory. -/
def node? (folder : Folder) (names : List String) : Option Node :=
  match folder.entries.reverse.find? fun e => e.names == names with
  | some e => some e.node
  | none =>
    if names.isPrefixOf folder.current || folder.entries.any fun e => names.isPrefixOf e.names then
      some .directory
    else none

/-- Where one name leads to from a directory. The root is its own parent. -/
def descend (folder : Folder) (here : List String) (name : String) :
    Except ReadFailure (List String) :=
  if name = "." then .ok here
  else if name = ".." then .ok here.dropLast
  else if maxNameBytes < name.utf8ByteSize then .error .nameTooLong
  else
    match folder.node? (here ++ [name]) with
    | some _ => .ok (here ++ [name])
    | none => .error .notFound

/-- Where names lead to, each of them looked up in what the names before it lead to. -/
def walk (folder : Folder) (here : List String) : List String → Except ReadFailure (List String)
  | [] => .ok here
  | name :: rest =>
    match folder.node? here with
    | none => .error .notFound
    | some node =>
      match node.searched with
      | .error failure => .error failure
      | .ok () =>
        match folder.descend here name with
        | .ok next => folder.walk next rest
        | .error failure => .error failure

/-- Where a path begins. -/
def start (folder : Folder) (path : String) : List String :=
  if path.toList.head? = some '/' then [] else folder.current

/-- Where a path leads. -/
def locate (folder : Folder) (path : String) : Except ReadFailure (List String) :=
  if path.toList.contains '\x00' then .error .nulInPath
  else if path.isEmpty then .error .notFound
  else if maxPathBytes < path.utf8ByteSize then .error .nameTooLong
  else folder.walk (folder.start path) (pathNames path)

/-- What opening a path gives. -/
def openAt (folder : Folder) (path : String) : Except ReadFailure Source :=
  match folder.locate path with
  | .error failure => .error failure
  | .ok names =>
    match folder.node? names with
    | some node => node.opened
    | none => .error .notFound

/-- Files and directories in an empty current directory, given by their paths, without bytes for a
directory. The current directory has a name that no path spells, so that only relative paths lead
into it. -/
def ofPaths (paths : List (String × Option (List UInt8))) : Folder :=
  let empty : Folder := ⟨[], [""]⟩
  let entry (path : String) (node : Node) : Entry :=
    ⟨empty.start path ++ (pathNames path).filter fun name => name != ".", node⟩
  { empty with
    entries := paths.map fun p =>
      match p.2 with
      | some bytes => entry p.1 (.file (.ok (Source.ofBytes bytes)))
      | none => entry p.1 .directory }

end Folder

end LatencyLog
