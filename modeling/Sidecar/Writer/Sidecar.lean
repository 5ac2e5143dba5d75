import Sidecar.FileTree
import Sidecar.Naming
import Sidecar.Writer.Merge

/-!
# Writing sidecars

A segment's sidecar is written in three parts.

1. Every field value is decoded (`collect`); a fault ends the write before any file is touched.
2. An empty *marker* is made at the final path, and the index is built beside it, at a temporary
   path, by a worker.
3. A finished build is renamed over the marker; after anything else both files are removed
   (`publish`).

How a build runs is not the writer's business: `write` takes it as a function on the file tree and
whatever else it changes, and looks only at how it ended.
-/

set_option autoImplicit false

namespace Sidecar

/-- The segment that a sidecar is written for. -/
structure SegmentTarget where
  directory : Path
  segment : String
  deriving DecidableEq, Repr

/-- A written sidecar. -/
structure SidecarFile where
  path : Path
  segment : String
  recordCount : Nat
  dimension : Nat
  deriving DecidableEq, Repr

/-- The name under which the sidecar is listed among the files of its segment. -/
def SidecarFile.fileName (file : SidecarFile) : Option String := file.path.fileName

/-- A build: what to index, where to write it, and where it will be published. -/
structure BuildJob where
  path : Path
  temporary : Path
  ids : List DocId
  vectors : List Embedding
  deriving DecidableEq, Repr

/-- How a build ended, as the writer sees it. -/
inductive BuildOutcome where
  /-- The workers did not take the job. -/
  | rejected
  /-- The job ended without a result. -/
  | lost
  /-- The writer stopped waiting. -/
  | timedOut (milliseconds : Nat)
  /-- The job ended with a result. -/
  | ended (result : Except Error Unit)
  deriving Repr

namespace SegmentTarget

/-- The path of the segment's sidecar. -/
def sidecarPath (target : SegmentTarget) (tag : Option String) : Path :=
  Naming.sidecarPath target.directory target.segment tag

end SegmentTarget

namespace Writer

/-- The path at which a sidecar is built. -/
def temporaryPath (path : Path) : Path := path.appendText ".tmp"

/-- Decodes a stream. The first value fixes the dimension; the first fault ends the reading. -/
def collect : Option Nat → ValueStream → Except Error (List VectorRecord)
  | _, [] => .ok []
  | _, .error e :: _ => .error e
  | dimension, .ok (doc, bytes) :: rest => do
    let vector ← decodeVector doc bytes dimension
    let more ← collect (some (dimension.getD vector.length)) rest
    return ⟨doc, vector⟩ :: more

/-- Removes what a build leaves behind. -/
def cleanUp (job : BuildJob) (files : FileTree) : FileTree :=
  (files.removeIfPossible job.temporary).removeIfPossible job.path

/-- Publishes a build that ended well, and cleans up after any other. -/
def publish (job : BuildJob) (outcome : BuildOutcome) (files : FileTree) :
    Except Error Unit × FileTree :=
  match outcome with
  | .rejected => (.error (.buildRejected job.path.text), files.removeIfPossible job.path)
  | .timedOut ms => (.error (.buildTimeout job.path.text ms), cleanUp job files)
  | .lost =>
    (.error (.buildFailed job.path.text "build worker exited without a result"), cleanUp job files)
  | .ended (.error e) => (.error e, cleanUp job files)
  | .ended (.ok ()) =>
    match files.rename job.temporary job.path with
    | .ok files => (.ok (), files)
    | .error cause => (.error (.io cause.message), cleanUp job files)

/-- Builds and publishes a sidecar. The file tree comes with whatever else a build changes. -/
def build {ε : Type} (run : BuildJob → FileTree × ε → BuildOutcome × (FileTree × ε))
    (job : BuildJob) (state : FileTree × ε) : Except Error Unit × (FileTree × ε) :=
  match state.1.create job.path with
  | .error cause => (.error (.io cause.message), state)
  | .ok marked =>
    let (outcome, files, rest) := run job (marked, state.2)
    let (result, files) := publish job outcome files
    (result, files, rest)

/-- Writes the sidecar of a segment from its field values. Without a value there is no sidecar. -/
def write {ε : Type} (run : BuildJob → FileTree × ε → BuildOutcome × (FileTree × ε))
    (tag : Option String) (target : SegmentTarget) (values : ValueStream)
    (state : FileTree × ε) : Except Error (Option SidecarFile) × (FileTree × ε) :=
  match collect none values with
  | .error e => (.error e, state)
  | .ok [] => (.ok none, state)
  | .ok (first :: rest) =>
    let records := first :: rest
    let path := target.sidecarPath tag
    let job : BuildJob :=
      { path := path
        temporary := temporaryPath path
        ids := records.map (·.doc)
        vectors := records.map (·.vector) }
    match build run job state with
    | (.error e, state) => (.error e, state)
    | (.ok (), state) =>
      let file : SidecarFile :=
        { path := path
          segment := target.segment
          recordCount := records.length
          dimension := first.dimension }
      (.ok (some file), state)

/-- Writes the sidecar of a segment that other segments are merged into. -/
def writeMerge {ε : Type} (run : BuildJob → FileTree × ε → BuildOutcome × (FileTree × ε))
    (tag : Option String) (target : SegmentTarget) (inputs : List MergeInput)
    (state : FileTree × ε) : Except Error (Option SidecarFile) × (FileTree × ε) :=
  write run tag target (Merge.stream inputs) state

end Writer

end Sidecar
