import Sidecar.Naming
import Sidecar.Vector.Encoding

/-!
# Queries and segments

What a search is asked: a query, and the segments to run it against. A `Query` can only be made by
`Query.make`, so every query has a vector of finite components and asks for at least one match.

A segment names its files, and its sidecar is the one file that carries the extension of the
segment's layout. No such file means that no document of the segment has a vector; two of them mean
that the segment is broken.
-/

set_option autoImplicit false

namespace Sidecar

/-- A query for the nearest vectors of a field. -/
structure Query where
  field : String
  vector : Embedding
  /-- The number of matches asked of each segment. -/
  k : Nat
  field_ne : field.isEmpty = false
  vector_ne : vector.isEmpty = false
  finite : vector.findIdx? (!·.isFinite) = none
  k_pos : k ≠ 0

/-- Makes a query, or tells the first thing that is wrong with it. -/
def Query.make (field : String) (vector : Embedding) (k : Nat) : Except Error Query :=
  if hf : field.isEmpty = true then .error (.invalidQuery "field name is empty")
  else if hv : vector.isEmpty = true then .error (.invalidQuery "query vector is empty")
  else match hp : vector.findIdx? (!·.isFinite) with
    | some position =>
      .error (.invalidQuery s!"query vector has a non-finite value at position {position}")
    | none =>
      if hk : k = 0 then .error (.invalidQuery "k must be at least 1")
      else .ok ⟨field, vector, k, by simpa using hf, by simpa using hv, hp, hk⟩

/-- A segment to search. -/
structure Segment where
  directory : Path
  name : String
  files : List String
  layout : Layout := .regular
  /-- The global number of the segment's document 0. -/
  docBase : DocId := 0
  deriving Repr

/-- Finds the sidecar of a segment. -/
def Segment.resolve (segment : Segment) : Except Error (Option Path) :=
  match segment.files.filter (Naming.isSidecarName · segment.layout) with
  | [] => .ok none
  | [name] => .ok (some (segment.directory.join name))
  | several => .error (.ambiguousSidecar segment.name several.length)

end Sidecar
