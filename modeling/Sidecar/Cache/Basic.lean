import Sidecar.Config.Basic
import Sidecar.Engine.Basic
import Sidecar.WorkerPool

/-!
# The handle cache: its state

The cache maps paths to loaded indexes. Callers get a *handle*, which they may keep for as long as
they like; the cache alone decides when the index behind it is given up.

**Entries are kept in the order of their last access**, least recently used first. So "the entry to
evict" is the first one, a hit moves an entry to the end, and no access counter is needed.

**A handle never changes.** What does change about it, that it was invalidated and that its index
was released, is kept by the cache as two lists of handle numbers. Both lists only grow, and
`released` is the record of releases in the order in which they happened, so "released exactly once"
is a count in that list.

A removed handle is invalidated at once and released later, by a worker with a bounded queue. When
that queue refuses the task, the handle becomes an *orphan*: it is released when the last reference
to it goes. How far the release worker lags behind is not the cache's choice, and `lags` holds it:
the number of releases still waiting when the next one is scheduled.
-/

set_option autoImplicit false

namespace Sidecar

/-- Why an entry left the cache. -/
inductive RemovalReason where
  /-- A caller asked for it. -/
  | explicit
  /-- It was not used for longer than the idle timeout. -/
  | expired
  /-- The cache had to stay within its weight budget. -/
  | weight
  /-- A new handle was put under the same path. -/
  | replaced
  /-- The watcher saw the file disappear. -/
  | deleted
  /-- The cache was shut down. -/
  | shutdown
  deriving DecidableEq, Repr, Inhabited

namespace RemovalReason

/-- Every reason, in the order in which they are counted. -/
def all : List RemovalReason := [explicit, expired, weight, replaced, deleted, shutdown]

/-- The name of a reason. -/
def name : RemovalReason → String
  | explicit => "explicit"
  | expired => "expired"
  | weight => "weight"
  | replaced => "replaced"
  | deleted => "deleted"
  | shutdown => "shutdown"

/-- Whether the watch on the path goes with the entry. After a replacement it serves the new
handle, and after a deletion it has fired already. -/
def dropsWatch : RemovalReason → Bool
  | replaced | deleted => false
  | _ => true

end RemovalReason

/-- A loaded index, as callers hold it. -/
structure Handle (ι : Type) where
  /-- The number of the handle: no two handles of a cache share it. -/
  id : Nat
  path : Path
  /-- The weight of the index, as it was when the handle was made. -/
  size : Nat
  index : ι
  deriving Repr

/-- A live entry. -/
structure Entry (ι : Type) where
  handle : Handle ι
  /-- The time of the last access, in nanoseconds. -/
  lastAccess : Nat
  deriving Repr

/-- What the cache counts. -/
structure Tally where
  hits : Nat := 0
  misses : Nat := 0
  loads : Nat := 0
  loadFailures : Nat := 0
  /-- Releases by the release worker. -/
  releases : Nat := 0
  deriving DecidableEq, Repr

/-- The handle cache. -/
structure Cache (ι : Type) where
  config : CacheConfig
  /-- The live entries, least recently used first. -/
  entries : List (Entry ι) := []
  /-- The sum of the weights of the live entries, as a number of any size. What is said of it holds for
  a counter of 64 bits as long as such a counter can hold the sum. -/
  weight : Nat := 0
  /-- The number of handles made so far, which is the number of the next. -/
  made : Nat := 0
  /-- The handles that were invalidated. -/
  invalidated : List Nat := []
  /-- The handles whose index was released, in that order. -/
  released : List Nat := []
  /-- The handles that are released when their last reference goes. -/
  orphans : List Nat := []
  /-- The handles that left the cache, in that order, with the reason. -/
  departures : List (Nat × RemovalReason) := []
  /-- The release worker. -/
  releaser : WorkerPool Nat
  /-- The counter of the releases that wait, in 64 bits. It is moved by hand: up before a release is
  scheduled, down when it was refused and down when it has run. -/
  waiting : UInt64 := 0
  /-- How many releases still wait when the next one is scheduled; none once the list ends. -/
  lags : List Nat := []
  tally : Tally := {}
  /-- The watcher that reports deleted files. -/
  observer : Option (Watcher Unit) := none
  isShutDown : Bool := false
  deriving Repr

namespace Cache

variable {ι : Type}

/-- A fresh cache. -/
def new (config : CacheConfig) (observer : Option (Watcher Unit)) : Cache ι :=
  { config, observer, releaser := { workers := 1, depth := config.releaseQueueDepth } }

/-! ## Looking without touching -/

/-- The live entry of a path. -/
def entry? (c : Cache ι) (path : Path) : Option (Entry ι) :=
  c.entries.find? (·.handle.path.sameKey path)

/-- Whether a path has a live entry. This is no access. -/
def contains (c : Cache ι) (path : Path) : Bool := (c.entry? path).isSome

/-- Whether a handle was invalidated. -/
def isInvalidated (c : Cache ι) (h : Handle ι) : Bool := c.invalidated.contains h.id

/-- Whether the index behind a handle was released. -/
def isReleased (c : Cache ι) (h : Handle ι) : Bool := c.released.contains h.id

/-- The number of removals for a reason. -/
def removals (c : Cache ι) (reason : RemovalReason) : Nat :=
  c.departures.countP (·.2 == reason)

/-- The number of releases that wait for the release worker, as the cache has counted. -/
def pendingReleases (c : Cache ι) : Nat := c.waiting.toNat

/-! ## Idle time -/

/-- The idle timeout in nanoseconds, in the 64 bits of the clock. -/
def idleLimit (c : Cache ι) : Option Nat :=
  c.config.idleTimeout.map fun milliseconds => milliseconds * 1000000 % UInt64.size

/-- Whether an entry has been idle for too long. -/
def isExpired (c : Cache ι) (now : Nat) (e : Entry ι) : Bool :=
  match c.idleLimit with
  | some limit => limit ≤ now - e.lastAccess
  | none => false

end Cache

end Sidecar
