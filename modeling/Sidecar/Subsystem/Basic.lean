import Sidecar.Cache.Flight
import Sidecar.Config.File
import Sidecar.Search.Executor
import Sidecar.Writer.Builders
import Sidecar.Writer.Compound

/-!
# The subsystem

One of each component, wired together: the watcher reports deleted files to the cache, the executor
reads through the cache, and the writer builds through the same engine. A `Subsystem` is opened from
a configuration, which is then validated, or from a data directory with a configuration file, and
everything in it runs.

The components can also be assembled piece by piece (`assemble`): without the background work, on a
clock that is moved by hand, with a watcher that nobody listens to. Only the opened subsystem has a
validated configuration.
-/

set_option autoImplicit false

namespace Sidecar

/-- All components together with their world. -/
structure Subsystem where
  config : Config
  /-- The tag of the engine, which goes into the names of sidecars. -/
  tag : Option String
  files : FileTree
  host : Host
  cache : Cache FlatIndex
  builders : Builders
  /-- A watcher that does not report to the cache. -/
  unheard : Option (Watcher Unit) := none
  /-- When the watcher polls next, if it does so by itself. -/
  nextPoll : Option Nat := none
  /-- When the cache is swept next, if that happens by itself. -/
  nextSweep : Option Nat := none

/-- Which connections are made between the components. -/
structure Wiring where
  /-- The cache runs on the system clock. -/
  systemClock : Bool := true
  /-- The watcher reports to the cache. -/
  observes : Bool := true
  /-- The watcher polls by itself. -/
  polls : Bool := true
  /-- The cache is swept by itself. -/
  sweeps : Bool := true
  deriving DecidableEq, Repr

namespace Subsystem

/-! ## Wiring -/

/-- The time of the next turn of work that is done at an interval of milliseconds. An interval of
zero counts as one. -/
def nextTurn (host : Host) (interval : Nat) : Nat := host.elapsed + max interval 1 * 1000000

/-- Puts components together. Idle entries can be swept only at an interval. -/
def assemble (config : Config) (wiring : Wiring) (tag : Option String) (files : FileTree) :
    Except Error Subsystem :=
  let sweeps := wiring.sweeps && config.cache.idleTimeout.isSome
  if sweeps && config.cache.sweepIntervalMs = 0 then .error CacheConfig.noSweepInterval
  else
    let host : Host := { usesSystemClock := wiring.systemClock }
    let interval := config.watcher.pollInterval
    let watcher : Option (Watcher Unit) :=
      if config.watcher.enabled then some { interval } else none
    .ok {
      config, tag, files, host
      cache := Cache.new config.cache (watcher.filter fun _ => wiring.observes)
      builders := Builders.new config.writer
      unheard := watcher.filter fun _ => !wiring.observes
      nextPoll := (watcher.filter fun _ => wiring.polls).map fun _ => nextTurn host interval
      nextSweep := if sweeps then some (nextTurn host config.cache.sweepIntervalMs) else none }

/-- Opens the subsystem, with everything that runs by itself. -/
def start (config : Config) (tag : Option String) (files : FileTree) : Except Error Subsystem := do
  config.validate
  assemble config {} tag files

/-- Opens the subsystem with the configuration file of a directory, which is written if it is
missing. -/
def startIn (directory : Path) (tag : Option String) (files : FileTree) :
    Except Error Subsystem := do
  let path := directory.join configFileName
  let files ← Config.writeDefaultIfMissing files path
  start (← Config.load files path) tag files

/-- The watcher, wherever it reports to. -/
def watcher (s : Subsystem) : Option (Watcher Unit) := s.cache.observer <|> s.unheard

/-- Whether a path is watched. -/
def isWatching (s : Subsystem) (path : Path) : Bool := s.watcher.any (·.isWatching path)

/-! ## Writing -/

/-- Lets the writer work on the files. -/
def writing {α : Type}
    (work : FileTree × Host × Builders → Except Error α × (FileTree × Host × Builders))
    (s : Subsystem) : Except Error α × Subsystem :=
  let (result, files, host, builders) := work (s.files, s.host, s.builders)
  (result, { s with files, host, builders })

/-- Writes the sidecar of a new segment. -/
def flush (target : SegmentTarget) (values : ValueStream) (s : Subsystem) :
    Except Error (Option SidecarFile) × Subsystem :=
  s.writing (Writer.write (Builders.run s.config.writer.buildTimeoutMs) s.tag target values)

/-- Writes the sidecar of a segment that other segments are merged into. -/
def merge (target : SegmentTarget) (inputs : List MergeInput) (s : Subsystem) :
    Except Error (Option SidecarFile) × Subsystem :=
  s.writing (Writer.writeMerge (Builders.run s.config.writer.buildTimeoutMs) s.tag target inputs)

/-- Has the engine build a file, without the writer. A build that panics has no result. -/
def build (output : Path) (ids : List DocId) (vectors : List Embedding) (s : Subsystem) :
    Option (Except Error Unit) × Subsystem :=
  let (result, files, host) := Host.build ids vectors output (s.files, s.host)
  (result, { s with files, host })

/-- Prepares the files of a segment for packing. -/
def prepareCompound (directory : Path) (names : List String) (s : Subsystem) :
    Except Error (List String) × Subsystem :=
  let (result, files) := Writer.prepareCompound s.files directory names
  (result, { s with files })

/-- Changes the files from outside. -/
def changeFiles {α : Type} (change : FileTree → Except FileError (α × FileTree)) (s : Subsystem) :
    Except Error α × Subsystem :=
  match change s.files with
  | .ok (result, files) => (.ok result, { s with files })
  | .error cause => (.error (.io cause.message), s)

/-! ## Reading through the cache -/

/-- Lets the cache work in its world. -/
def caching {α : Type} (work : Cache FlatIndex → World → α × Cache FlatIndex × World)
    (s : Subsystem) : α × Subsystem :=
  let (result, cache, files, host) := work s.cache (s.files, s.host)
  (result, { s with cache, files, host })

/-- A handle for a path. -/
def get (path : Path) (s : Subsystem) : Except Error (Handle FlatIndex) × Subsystem :=
  s.caching (Cache.get Host.environment path)

/-- Handles for a path, for several callers at once. -/
def getTogether (path : Path) (callers : Nat) (s : Subsystem) :
    List (Except Error (Handle FlatIndex)) × Subsystem :=
  s.caching (Cache.getTogether Host.environment path callers)

/-- Loads an index and puts it into the cache under a path. -/
def put (path source : Path) (s : Subsystem) : Except Error (Handle FlatIndex) × Subsystem :=
  s.caching fun cache world =>
    match Host.load source world with
    | (.error e, world) => (.error e, cache, world)
    | (.ok index, world) =>
      let (result, cache) := cache.put Host.environment path index world
      (result, cache, world)

/-- Queries the index behind a handle. -/
def query (h : Handle FlatIndex) (vector : Embedding) (k : Nat) (s : Subsystem) :
    Except Error (List Match) × Subsystem :=
  s.caching fun cache world =>
    let (result, world) := cache.query Host.environment h vector k world
    (result, cache, world)

/-- Searches one segment. -/
def searchSegment (segment : Segment) (query : Query) (s : Subsystem) :
    Except Error Scorer × Subsystem :=
  s.caching (Executor.searchSegment Host.environment s.config.query segment query)

/-- Searches several segments. -/
def search (segments : List Segment) (query : Query) (s : Subsystem) :
    Except Error SearchOutcome × Subsystem :=
  s.caching (Executor.search Host.environment s.config.query segments query)

/-- Removes the entry of a path. -/
def invalidate (path : Path) (s : Subsystem) : Bool × Subsystem :=
  let (found, cache) := s.cache.invalidate path
  (found, { s with cache })

/-- Sweeps the cache. The answer is the number of entries removed. -/
def sweep (s : Subsystem) : Nat × Subsystem :=
  let (removed, cache) := s.cache.sweep s.host.now
  (removed, { s with cache })

/-- Polls the watcher, if there is one. The answer is the number of deleted files. -/
def poll (s : Subsystem) : Option Nat × Subsystem :=
  let presence := Host.environment.presence (s.files, s.host)
  match s.cache.observer, s.unheard with
  | some _, _ =>
    let (fired, cache) := s.cache.poll presence
    (some fired, { s with cache })
  | none, some watcher =>
    let (fired, watcher) := watcher.poll presence
    (some fired.length, { s with unheard := some watcher })
  | none, none => (none, s)

/-! ## Shutting down -/

/-- Shuts the watcher down. -/
def shutDownWatcher (s : Subsystem) : Subsystem :=
  { s with
    cache := { s.cache with observer := s.cache.observer.map (·.shutdown) }
    unheard := s.unheard.map (·.shutdown)
    nextPoll := none }

/-- Shuts the cache down. -/
def shutDownCache (s : Subsystem) : Subsystem :=
  { s with cache := s.cache.shutdown, nextSweep := none }

/-- Shuts the writer down, after the builds it has accepted. -/
def shutDownWriter (s : Subsystem) : Subsystem :=
  let (files, host, builders) := Builders.shutdown (s.files, s.host, s.builders)
  { s with files, host, builders }

/-- Shuts everything down. -/
def shutdown (s : Subsystem) : Subsystem := s.shutDownWatcher.shutDownCache.shutDownWriter

end Subsystem

end Sidecar
