import Sidecar.Binary.Word
import Sidecar.Path

/-!
# The file tree

The subsystem reads and writes files, so its behaviour is a function of a file tree, and here that
tree is a value. A tree maps *locations* (the names from the root downwards) to directories and to
files with their bytes; every operation answers with a new tree or with the cause of its failure.

An address is walked step by step (`FileTree.enter`): each step but the last must be a directory,
`.` stays, `..` goes up, and a trailing slash asks for a directory. Which cause wins when an address
is wrong in two ways follows from that order.

A tree has no links, neither symbolic nor hard ones, so `..` undoes a step exactly and one location
names one file. Nor has it owners or permissions: everything in it may be read and written. Whatever is
said of every tree is said of file systems like these. (Where a permission makes a difference,
`GuardedTree` has the bit.)
-/

set_option autoImplicit false

namespace Sidecar

/-- Why a file operation fails. -/
inductive FileError where
  | notFound
  | alreadyExists
  | busy
  | noDevice
  | permissionDenied
  | notDirectory
  | isDirectory
  | invalidArgument
  | nameTooLong
  | directoryNotEmpty
  | nulInPath
  | notRegular
  | notUtf8
  deriving DecidableEq, Repr, Inhabited

/-- The text of a cause. Causes that the operating system numbers show their number. -/
def FileError.message : FileError → String
  | notFound => "No such file or directory (os error 2)"
  | permissionDenied => "Permission denied (os error 13)"
  | busy => "Device or resource busy (os error 16)"
  | alreadyExists => "File exists (os error 17)"
  | noDevice => "No such device (os error 19)"
  | notDirectory => "Not a directory (os error 20)"
  | isDirectory => "Is a directory (os error 21)"
  | invalidArgument => "Invalid argument (os error 22)"
  | nameTooLong => "File name too long (os error 36)"
  | directoryNotEmpty => "Directory not empty (os error 39)"
  | nulInPath => "file name contained an unexpected NUL byte"
  | notRegular => "the source path is neither a regular file nor a symlink to a regular file"
  | notUtf8 => "stream did not contain valid UTF-8"

/-- The names that lead from the root to a place in the tree. -/
abbrev Location := List String

/-- What stands at a location. -/
inductive Node where
  | directory
  | file (content : Bytes)
  deriving DecidableEq, Repr, Inhabited

namespace Node

/-- Whether the node is a directory. -/
def isDirectory : Node → Bool
  | directory => true
  | file _ => false

end Node

/-- A tree of files, with the directory from which relative paths are walked. -/
structure FileTree where
  workingDirectory : Location
  nodes : List (Location × Node)
  deriving DecidableEq, Repr, Inhabited

namespace FileTree

/-- The tree that holds only the working directory and the directories above it. -/
def empty (workingDirectory : Location) : FileTree :=
  { workingDirectory
    nodes := (List.range workingDirectory.length).map fun depth =>
      (workingDirectory.take (depth + 1), .directory) }

/-! ## Locations -/

/-- What stands at a location. The root is always a directory. -/
def node? (t : FileTree) (loc : Location) : Option Node :=
  if loc = [] then some .directory
  else (t.nodes.find? (fun entry => entry.1 == loc)).map (·.2)

/-- Puts a node at a location, in place of what stood there. -/
def put (t : FileTree) (loc : Location) (node : Node) : FileTree :=
  { t with nodes := t.nodes.filter (fun entry => entry.1 != loc) ++ [(loc, node)] }

/-- Takes away what stands at a location. -/
def erase (t : FileTree) (loc : Location) : FileTree :=
  { t with nodes := t.nodes.filter (fun entry => entry.1 != loc) }

/-- Whether a directory holds anything. -/
def hasChildren (t : FileTree) (loc : Location) : Bool :=
  t.nodes.any fun entry => loc.isPrefixOf entry.1 && entry.1 != loc

/-! ## Walking an address -/

/-- A name longer than 255 bytes names nothing. -/
def checkName (name : String) : Except FileError Unit :=
  if 255 < name.utf8ByteSize then .error .nameTooLong else .ok ()

/-- Goes one step from an existing directory to another directory. -/
def enter (t : FileTree) (loc : Location) (step : String) : Except FileError Location := do
  if step = "." then return loc
  if step = ".." then return loc.dropLast
  checkName step
  match t.node? (loc ++ [step]) with
  | none => throw .notFound
  | some (.file _) => throw .notDirectory
  | some .directory => return loc ++ [step]

/-- The end of an address: the directory it leads into and the last step. -/
structure Spot where
  /-- The existing directory that the steps before the last lead to. -/
  parent : Location
  /-- The last step when it is a name, and not a dot step or the root itself. -/
  name : Option String
  /-- The location the whole address stands for, whether or not anything is there. -/
  location : Location
  /-- Whether the address asks for a directory. -/
  slash : Bool
  deriving DecidableEq, Repr

/-- Walks an address up to its last step. -/
def locate (t : FileTree) (path : Path) : Except FileError Spot := do
  if path.text.toList.contains '\x00' then throw .nulInPath
  if path.text.isEmpty then throw .notFound
  if 4096 ≤ path.text.utf8ByteSize then throw .nameTooLong
  let start := if path.isAbsolute then [] else t.workingDirectory
  let parent ← path.steps.dropLast.foldlM t.enter start
  match path.steps.getLast? with
  | none => return ⟨start, none, start, true⟩
  | some "." => return ⟨parent, none, parent, true⟩
  | some ".." => return ⟨parent, none, parent.dropLast, true⟩
  | some name => return ⟨parent, some name, parent ++ [name], path.endsInSlash⟩

/-- The node at a spot, as a look-up finds it. -/
def lookUp (t : FileTree) (spot : Spot) : Except FileError (Option Node) := do
  if let some name := spot.name then checkName name
  return t.node? spot.location

/-! ## Reading -/

/-- What a path leads to. -/
def stat (t : FileTree) (path : Path) : Except FileError Node := do
  let spot ← t.locate path
  match ← t.lookUp spot with
  | none => throw .notFound
  | some (.file content) => if spot.slash then throw .notDirectory else return .file content
  | some .directory => return .directory

/-- Whether a path leads to anything. -/
def isPresent (t : FileTree) (path : Path) : Bool := (t.stat path).isOk

/-- The bytes of a file. -/
def read (t : FileTree) (path : Path) : Except FileError Bytes := do
  match ← t.stat path with
  | .directory => throw .isDirectory
  | .file content => return content

/-- The text of a file, which must be UTF-8. -/
def readText (t : FileTree) (path : Path) : Except FileError String := do
  let content ← t.read path
  match String.fromUTF8? ⟨content.toArray⟩ with
  | none => throw .notUtf8
  | some text => return text

/-- The bytes of a file as a mapping shows them; a directory cannot be mapped. -/
def map (t : FileTree) (path : Path) : Except FileError Bytes := do
  match ← t.stat path with
  | .directory => throw .noDevice
  | .file content => return content

/-! ## Changing -/

/-- Writes a file, creating or truncating it. -/
def write (t : FileTree) (path : Path) (content : Bytes) : Except FileError FileTree := do
  let spot ← t.locate path
  if spot.slash then throw .isDirectory
  match ← t.lookUp spot with
  | some .directory => throw .isDirectory
  | _ => return t.put spot.location (.file content)

/-- Makes an empty file, truncating one that is already there. -/
def create (t : FileTree) (path : Path) : Except FileError FileTree := t.write path []

/-- Removes a file. -/
def remove (t : FileTree) (path : Path) : Except FileError FileTree := do
  let spot ← t.locate path
  if spot.name.isNone then throw .isDirectory
  match ← t.lookUp spot with
  | none => throw .notFound
  | some .directory => throw .isDirectory
  | some (.file _) => if spot.slash then throw .notDirectory else return t.erase spot.location

/-- Removes a file if that is possible, and leaves the tree alone otherwise. -/
def removeIfPossible (t : FileTree) (path : Path) : FileTree :=
  match t.remove path with
  | .ok t => t
  | .error _ => t

/-- Makes a directory. -/
def makeDirectory (t : FileTree) (path : Path) : Except FileError FileTree := do
  let spot ← t.locate path
  if spot.name.isNone then throw .alreadyExists
  match ← t.lookUp spot with
  | some _ => throw .alreadyExists
  | none => return t.put spot.location .directory

/-- Moves everything at and below one location to another. -/
def move (t : FileTree) (source target : Location) : FileTree :=
  { t with nodes := (t.nodes.filter (fun entry => entry.1 != target)).map fun entry =>
      if source.isPrefixOf entry.1 then (target ++ entry.1.drop source.length, entry.2) else entry }

/-- Renames a file or a directory, replacing a file or an empty directory at the target. -/
def rename (t : FileTree) (source target : Path) : Except FileError FileTree := do
  let old ← t.locate source
  let new ← t.locate target
  if old.name.isNone || new.name.isNone then throw .busy
  let some node ← t.lookUp old | throw .notFound
  let existing ← t.lookUp new
  -- Both addresses are good from here on; what they lead to decides.
  if !node.isDirectory && (old.slash || new.slash) then throw .notDirectory
  if old.location = new.location then return t
  if old.location.isPrefixOf new.location then throw .invalidArgument
  if new.location.isPrefixOf old.location then throw .directoryNotEmpty
  match existing with
  | none => return t.move old.location new.location
  | some (.file _) =>
    if node.isDirectory then throw .notDirectory else return t.move old.location new.location
  | some .directory =>
    if !node.isDirectory then throw .isDirectory
    if t.hasChildren new.location then throw .directoryNotEmpty
    return t.move old.location new.location

/-- Copies a file. The target is created or truncated before the source is read, so a copy of a
file onto itself empties it. -/
def copy (t : FileTree) (source target : Path) : Except FileError FileTree := do
  match ← t.stat source with
  | .directory => throw .notRegular
  | .file _ =>
    let opened ← t.create target
    let content ← opened.read source
    opened.write target content

/-! ## Listing -/

/-- Everything below the working directory: files with their size, directories with a slash. -/
def listing (t : FileTree) : List String :=
  let below := t.nodes.filterMap fun (location, node) =>
    if t.workingDirectory.isPrefixOf location && location != t.workingDirectory then
      let shown := "/".intercalate (location.drop t.workingDirectory.length)
      match node with
      | .directory => some (shown ++ "/")
      | .file content => some s!"{shown}:{content.length}"
    else none
  below.mergeSort (fun a b => decide (a ≤ b))

end FileTree

end Sidecar
