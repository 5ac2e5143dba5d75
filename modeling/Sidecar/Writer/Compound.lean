import Sidecar.Error
import Sidecar.FileTree
import Sidecar.Naming

/-!
# Sidecars of compound segments

A sidecar cannot be packed into a compound container, whose files carry a header of their own. So
before a segment is packed each of its sidecars is copied to its twin under the extension of the
compound layout, beside the container, and taken off the list of files to pack.
-/

set_option autoImplicit false

namespace Sidecar.Writer

/-- The path of a sidecar's twin. -/
def twin (path : Path) : Path := path.withExtension Layout.compound.extension

/-- Copies the sidecars among a segment's files to their twins and tells which files are left to
pack. The first copy that fails ends the work; earlier copies stay. What there is besides the bytes of
a file, and what a copy does with it, is left to the copy. -/
def prepareCompoundBy {τ : Type} (copy : τ → Path → Path → Except FileError τ) (files : τ)
    (directory : Path) : List String → Except Error (List String) × τ
  | [] => (.ok [], files)
  | name :: rest =>
    if Naming.isSidecarName name .regular then
      let source := directory.join name
      match copy files source (twin source) with
      | .ok files => prepareCompoundBy copy files directory rest
      | .error cause => (.error (.io cause.message), files)
    else
      match prepareCompoundBy copy files directory rest with
      | (.ok left, files) => (.ok (name :: left), files)
      | (.error e, files) => (.error e, files)

/-- The work on the files of a tree, of which a copy copies the bytes. -/
def prepareCompound (files : FileTree) (directory : Path) (names : List String) :
    Except Error (List String) × FileTree :=
  prepareCompoundBy FileTree.copy files directory names

end Sidecar.Writer
