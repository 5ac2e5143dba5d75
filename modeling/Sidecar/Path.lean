/-!
# Paths

A path is a text, and everything else is read off that text. Two readings matter and they differ:

* as a **key** (of a cache entry or a watch) a path is its list of components, so that doubled
  slashes, a trailing slash and inner `.` steps do not make a new key (`Path.components`);
* as an **address** a path is walked step by step with its dots and its trailing slash, because a
  trailing slash asks for a directory (`Path.steps`, used by the file tree).

The text itself is never normalised: errors show a path as it was given or joined.
-/

set_option autoImplicit false

namespace Sidecar

/-- A path, as written. -/
structure Path where
  text : String
  deriving DecidableEq, Repr, Inhabited

namespace Path

/-! ## Taking a text apart -/

/-- The pieces of a text between its slashes; there is always at least one. -/
def pieces : List Char → List (List Char)
  | [] => [[]]
  | c :: rest =>
    if c = '/' then [] :: pieces rest
    else match pieces rest with
      | [] => [[c]]
      | piece :: more => (c :: piece) :: more

/-- The non-empty pieces, in order. -/
def steps (p : Path) : List String :=
  ((pieces p.text.toList).filter (fun piece => !piece.isEmpty)).map String.ofList

/-- An absolute path starts at the root of the tree. -/
def isAbsolute (p : Path) : Bool := p.text.toList.head? == some '/'

/-- A path that ends in a slash asks for a directory. -/
def endsInSlash (p : Path) : Bool := p.text.toList.getLast? == some '/'

/-- One component of a path as a key. -/
inductive Component where
  | root
  | here
  | up
  | name (text : String)
  deriving DecidableEq, Repr

/-- The component a step stands for; a `.` that is not the first step stands for none. -/
def Component.ofStep? (step : String) : Option Component :=
  if step = "." then none
  else if step = ".." then some .up
  else some (.name step)

/-- The components of a path. A `.` counts only as the first step of a relative path. -/
def components (p : Path) : List Component :=
  let named := p.steps.filterMap Component.ofStep?
  if p.isAbsolute then .root :: named
  else if p.steps.head? = some "." then .here :: named
  else named

/-- Two paths are the same key when their components agree. -/
def sameKey (p q : Path) : Bool := p.components == q.components

/-- The last component, when it is a name. -/
def fileName (p : Path) : Option String :=
  match p.components.getLast? with
  | some (.name text) => some text
  | _ => none

/-! ## Stem and extension -/

/-- Cuts a file name at its last dot, when something stands before that dot. -/
def cutAtLastDot (name : List Char) : Option (List Char × List Char) :=
  let tail := name.reverse.takeWhile (· ≠ '.')
  let stem := (name.reverse.dropWhile (· ≠ '.')).drop 1
  if tail.length = name.length || stem.isEmpty then none
  else some (stem.reverse, tail.reverse)

/-- The text after the last dot of the file name. A name whose only dot comes first has none. -/
def extension (p : Path) : Option String :=
  p.fileName.bind fun name => (cutAtLastDot name.toList).map (String.ofList ·.2)

/-- Drops the slashes and `/.` steps that follow the file name; the text comes reversed. -/
def dropTrailing : List Char → List Char
  | '/' :: rest => dropTrailing rest
  | '.' :: '/' :: rest => dropTrailing rest
  | other => other

/-- Replaces the extension of the file name, or adds one. What follows the file name is dropped;
a path without a file name stays as it is. -/
def withExtension (p : Path) (extension : String) : Path :=
  match p.fileName with
  | none => p
  | some name =>
    let upToName := (dropTrailing p.text.toList.reverse).reverse
    let surplus := match cutAtLastDot name.toList with
      | some (_, tail) => tail.length + 1
      | none => 0
    let kept := String.ofList (upToName.take (upToName.length - surplus))
    if extension.isEmpty then ⟨kept⟩ else ⟨kept ++ "." ++ extension⟩

/-! ## Joining -/

/-- Appends a relative text below a path; an absolute text replaces it. -/
def join (p : Path) (name : String) : Path :=
  if (Path.mk name).isAbsolute then ⟨name⟩
  else if p.text.isEmpty || p.endsInSlash then ⟨p.text ++ name⟩
  else ⟨p.text ++ "/" ++ name⟩

/-- Appends text to the path itself, without a separator. -/
def appendText (p : Path) (suffix : String) : Path := ⟨p.text ++ suffix⟩

end Path

end Sidecar
