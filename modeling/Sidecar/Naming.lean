import Sidecar.Path

/-!
# Names of sidecar files

The name of a sidecar is derived from its segment alone: the segment's name, the engine's tag when
it has one, and the extension of the layout in which the segment is stored. A segment inside a
compound container carries its sidecar beside the container, under an extension of its own, so that
the two layouts never take each other's files for their own.
-/

set_option autoImplicit false

namespace Sidecar

/-- How a segment is stored: as files of its own, or packed into a compound container. -/
inductive Layout where
  | regular
  | compound
  deriving DecidableEq, Repr, Inhabited

/-- The extension that marks the sidecars of a layout. -/
def Layout.extension : Layout → String
  | regular => "hnsw"
  | compound => "hnswc"

namespace Naming

/-- The name of a segment's sidecar. An empty tag counts as none. -/
def sidecarName (segment : String) (tag : Option String) (layout : Layout) : String :=
  match tag.filter (!·.isEmpty) with
  | some tag => s!"{segment}_{tag}.{layout.extension}"
  | none => s!"{segment}.{layout.extension}"

/-- The path at which a segment's sidecar is written. -/
def sidecarPath (directory : Path) (segment : String) (tag : Option String) : Path :=
  directory.join (sidecarName segment tag .regular)

/-- Whether a file name marks a sidecar of the layout. -/
def isSidecarName (name : String) (layout : Layout) : Bool :=
  (Path.mk name).extension == some layout.extension

end Naming

end Sidecar
