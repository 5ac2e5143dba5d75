import Sidecar.Engine.Basic
import Sidecar.Flat.Nearest

/-!
# The host

A host gives the cache and the writer what they stand on: files, two clocks, and the flat engine
with *instruments*. The instruments count what the engine is asked to do and can make it fail or
dawdle on request, which is how the paths that a healthy engine never takes are reached.

Time passes only where something takes time: `elapsed` moves when a load or a build is delayed or
when somebody waits. The *manual clock* moves only when it is told to, and wraps at 64 bits.
-/

set_option autoImplicit false

namespace Sidecar

/-- The counters and the injected faults of an engine. -/
structure Instruments where
  builds : Nat := 0
  /-- Loads that were asked for, failed ones included. -/
  loads : Nat := 0
  queries : Nat := 0
  /-- How many of the next loads fail. -/
  failingLoads : Nat := 0
  /-- How many of the next builds fail. -/
  failingBuilds : Nat := 0
  /-- How many of the next queries find their index evicted. -/
  evictedQueries : Nat := 0
  /-- How many of the next builds panic. -/
  panickingBuilds : Nat := 0
  /-- How many of the next builds end well without having written anything. -/
  skippedBuilds : Nat := 0
  /-- The outcomes of the next queries, which then do not reach the engine. -/
  script : List (Except Error (List Match)) := []
  /-- How long a load takes, in nanoseconds. -/
  loadDelay : Nat := 0
  /-- How long a build takes, in nanoseconds. -/
  buildDelay : Nat := 0
  deriving Repr

/-- Everything outside the cache and the writer, except for the files. -/
structure Host where
  instruments : Instruments := {}
  /-- The time since the start, in nanoseconds. -/
  elapsed : Nat := 0
  /-- The clock that moves only when it is told to, in nanoseconds. -/
  manualClock : Nat := 0
  /-- Whether the cache runs on the time since the start, and not on the manual clock. -/
  usesSystemClock : Bool := false
  deriving Repr

/-- Files and host together: the world around the cache. -/
abbrev World := FileTree × Host

namespace Host

/-! ## Time -/

/-- The time on the cache's clock. -/
def now (host : Host) : Nat :=
  if host.usesSystemClock then host.elapsed % UInt64.size else host.manualClock

/-- Moves the manual clock. -/
def advance (host : Host) (seconds nanoseconds : Nat) : Host :=
  { host with
    manualClock := (host.manualClock + (seconds * 1000000000 + nanoseconds)) % UInt64.size }

/-- Some time passes. -/
def spend (host : Host) (nanoseconds : Nat) : Host :=
  { host with elapsed := host.elapsed + nanoseconds }

/-- Time passes until a point that is not in the past. -/
def passUntil (host : Host) (time : Nat) : Host := { host with elapsed := max host.elapsed time }

/-! ## Loading and querying -/

/-- Loads the index of a path. -/
def load (path : Path) (world : World) : Except Error FlatIndex × World :=
  let (files, host) := world
  let i := host.instruments
  let host := { host with instruments := { i with loads := i.loads + 1 } }.spend i.loadDelay
  match i.failingLoads with
  | left + 1 =>
    (.error (.loadFailed path.text "injected load failure"), files,
      { host with instruments := { host.instruments with failingLoads := left } })
  | 0 => (FlatIndex.load files path, files, host)

/-- Queries an index. A scripted outcome comes first. -/
def query (index : FlatIndex) (vector : Embedding) (k : Nat) (world : World) :
    Except Error (List Match) × World :=
  let (files, host) := world
  let i := host.instruments
  match i.script with
  | outcome :: rest => (outcome, files, { host with instruments := { i with script := rest } })
  | [] =>
    let i := { i with queries := i.queries + 1 }
    match i.evictedQueries with
    | left + 1 =>
      (.error (.handleInvalidated "<injected>"), files,
        { host with instruments := { i with evictedQueries := left } })
    | 0 => (index.nearest euclidean vector k, files, { host with instruments := i })

/-- What the cache sees of the world. -/
def environment : Environment World FlatIndex where
  now world := world.2.now
  presence world path := (world.1.stat path).map fun _ => ()
  load := load
  query := query
  size := FlatIndex.size

/-! ## Building -/

/-- The course of a build, which is settled when it starts. -/
inductive Course where
  /-- It panics at once. -/
  | panics
  /-- It ends well at once, without having written anything. -/
  | skips
  /-- It writes its file at a point in time. -/
  | writes (dueAt : Nat)
  deriving DecidableEq, Repr, Inhabited

/-- A build starts. -/
def startBuild (host : Host) : Course × Host :=
  let i := host.instruments
  match i.panickingBuilds, i.skippedBuilds with
  | left + 1, _ => (.panics, { host with instruments := { i with panickingBuilds := left } })
  | 0, left + 1 => (.skips, { host with instruments := { i with skippedBuilds := left } })
  | 0, 0 =>
    (.writes (host.elapsed + i.buildDelay),
      { host with instruments := { i with builds := i.builds + 1 } })

/-- A build ends. A build that panics has no result. -/
def endBuild (course : Course) (ids : List DocId) (vectors : List Embedding) (output : Path)
    (world : World) : Option (Except Error Unit) × World :=
  let (files, host) := world
  match course with
  | .panics => (none, files, host)
  | .skips => (some (.ok ()), files, host)
  | .writes dueAt =>
    let host := host.passUntil dueAt
    match host.instruments.failingBuilds with
    | left + 1 =>
      (some (.error (.buildFailed output.text "injected build failure")), files,
        { host with instruments := { host.instruments with failingBuilds := left } })
    | 0 => match FlatIndex.build files ids vectors output with
      | .ok files => (some (.ok ()), files, host)
      | .error e => (some (.error e), files, host)

/-- Builds a file and waits for it. -/
def build (ids : List DocId) (vectors : List Embedding) (output : Path) (world : World) :
    Option (Except Error Unit) × World :=
  let (course, host) := world.2.startBuild
  endBuild course ids vectors output (world.1, host)

end Host

end Sidecar
