import Sidecar.Cache.Release

/-!
# The handle cache: operations

What callers do with the cache. A look-up that finds an entry touches it; one that finds an entry
idle for too long removes it and counts as a miss; a miss loads the index and admits it.

Admission is where the budget is kept. An index heavier than the whole budget is not let in. Any
other replaces the entry of its path, and then the least recently used entries leave until the
weight fits; the new entry is not among them. So the weight is within the budget whenever the cache
is at rest, and the sweep, which first removes what is idle, finds nothing left to evict.

Every operation takes the state of the world along and hands it back, because a load changes it.
-/

set_option autoImplicit false

namespace Sidecar.Cache

variable {σ ι : Type}

/-- A key has to be a path that names a file. -/
def validateKey (path : Path) : Except Error Unit :=
  if path.text.isEmpty then .error (.invalidKey "empty path")
  else if path.fileName.isNone then
    .error (.invalidKey s!"{path.text} does not name a file")
  else .ok ()

/-- Makes an entry the most recently used one. -/
def touch (c : Cache ι) (now : Nat) (e : Entry ι) : Cache ι :=
  { c with entries := c.entries.filter (!·.handle.path.sameKey e.handle.path)
      ++ [{ e with lastAccess := now }] }

/-- Looks a path up. A live entry is touched; an idle one is removed. -/
def lookup (c : Cache ι) (now : Nat) (path : Path) : Option (Handle ι) × Cache ι :=
  match c.entry? path with
  | none => (none, c)
  | some e =>
    if c.isExpired now e then (none, c.expel .expired e)
    else (some e.handle, c.touch now e)

/-- Makes a handle for an index. -/
def mint (c : Cache ι) (path : Path) (index : ι) (size : Nat) : Handle ι × Cache ι :=
  ({ id := c.made, path, size, index }, { c with made := c.made + 1 })

/-- The shortest run of least recently used entries without which the weight fits the budget. -/
def victims (budget : Nat) : Nat → List (Entry ι) → List (Entry ι)
  | _, [] => []
  | weight, e :: rest =>
    if weight ≤ budget then []
    else e :: victims budget (weight - e.handle.size) rest

/-- Evicts least recently used entries until the budget can take `extra` more. -/
def makeRoom (c : Cache ι) (extra : Nat) : Cache ι :=
  match c.config.weightBudget with
  | none => c
  | some budget => c.expelAll .weight (victims budget (c.weight + extra) c.entries)

/-- Watches the path of a new entry. The entry stays unwatched if that fails. -/
def watch (c : Cache ι) (presence : Presence) (path : Path) : Cache ι :=
  { c with observer := c.observer.map fun w => (w.register presence path ()).2 }

/-- Makes a handle a live entry, the most recently used one. -/
def insert (c : Cache ι) (now : Nat) (h : Handle ι) : Cache ι :=
  { c with
    entries := c.entries ++ [{ handle := h, lastAccess := now }]
    weight := c.weight + h.size }

/-- The budget, if a handle alone is heavier. -/
def exceededBudget? (c : Cache ι) (h : Handle ι) : Option Nat :=
  c.config.weightBudget.filter (· < h.size)

/-- Lets a new handle in, unless it is too heavy or the cache is shut down. -/
def accept (env : Environment σ ι) (h : Handle ι) (c : Cache ι) (s : σ) :
    Except Error (Handle ι) × Cache ι :=
  match c.exceededBudget? h with
  | some budget =>
    (.error (.weightBudgetExceeded h.path.text h.size budget), c.discard h)
  | none =>
    if c.isShutDown then (.error .shutDown, c.discard h)
    else
      -- The watch is renewed first, and a replacement leaves it alone, so it serves the new entry.
      let c := c.watch (env.presence s h.path) h.path
      let c := (c.remove h.path .replaced).2
      -- The new entry is not there yet, so it cannot be among those that leave for it.
      let c := c.makeRoom h.size
      (.ok h, c.insert (env.now s) h)

/-- Loads the index of a path and makes a handle for it. -/
def fetch (env : Environment σ ι) (path : Path) (c : Cache ι) (s : σ) :
    Except Error (Handle ι) × Cache ι × σ :=
  if c.isShutDown then (.error .shutDown, c, s)
  else match env.load path s with
    | (.error e, s) =>
      (.error e, { c with tally := { c.tally with loadFailures := c.tally.loadFailures + 1 } }, s)
    | (.ok index, s) =>
      let c := { c with tally := { c.tally with loads := c.tally.loads + 1 } }
      let (h, c) := c.mint path index (env.size index)
      (.ok h, c, s)

/-- The part of a miss that only one of several callers for a path runs: another look-up, a load,
and admission. -/
def loadAndInsert (env : Environment σ ι) (path : Path) (c : Cache ι) (s : σ) :
    Except Error (Handle ι) × Cache ι × σ :=
  match c.lookup (env.now s) path with
  | (some h, c) => (.ok h, c, s)
  | (none, c) => match c.fetch env path s with
    | (.error e, c, s) => (.error e, c, s)
    | (.ok h, c, s) =>
      let (result, c) := c.accept env h s
      (result, c, s)

/-- The first part of a request: the cache has to be open, the path has to be a key, and a look-up
is counted as a hit or a miss. -/
def request (env : Environment σ ι) (path : Path) (c : Cache ι) (s : σ) :
    Except Error (Option (Handle ι)) × Cache ι :=
  if c.isShutDown then (.error .shutDown, c)
  else match validateKey path with
    | .error e => (.error e, c)
    | .ok () => match c.lookup (env.now s) path with
      | (some h, c) =>
        (.ok (some h), { c with tally := { c.tally with hits := c.tally.hits + 1 } })
      | (none, c) => (.ok none, { c with tally := { c.tally with misses := c.tally.misses + 1 } })

/-- A handle for a path, loaded if need be. -/
def get (env : Environment σ ι) (path : Path) (c : Cache ι) (s : σ) :
    Except Error (Handle ι) × Cache ι × σ :=
  match c.request env path s with
  | (.error e, c) => (.error e, c, s)
  | (.ok (some h), c) => (.ok h, c, s)
  | (.ok none, c) => c.loadAndInsert env path s

/-- Lets in an index that was loaded outside, in place of the entry of its path. -/
def put (env : Environment σ ι) (path : Path) (index : ι) (c : Cache ι) (s : σ) :
    Except Error (Handle ι) × Cache ι :=
  let (h, c) := c.mint path index (env.size index)
  if c.isShutDown then (.error .shutDown, c.discard h)
  else match validateKey path with
    | .error e => (.error e, c.discard h)
    | .ok () => c.accept env h s

/-- Removes the entry of a path on request. -/
def invalidate (c : Cache ι) (path : Path) : Bool × Cache ι := c.remove path .explicit

/-- Queries the index behind a handle, which has to be live still. -/
def query (env : Environment σ ι) (h : Handle ι) (vector : Embedding) (k : Nat) (c : Cache ι)
    (s : σ) : Except Error (List Match) × σ :=
  if c.isInvalidated h || c.isReleased h then (.error (.handleInvalidated h.path.text), s)
  else env.query h.index vector k s

/-- One sweep: removes idle entries, then evicts down to the budget. The answer is the number of
entries removed. -/
def sweep (c : Cache ι) (now : Nat) : Nat × Cache ι :=
  if c.isShutDown then (0, c)
  else
    let idle := c.entries.filter (c.isExpired now)
    let swept := (c.expelAll .expired idle).makeRoom 0
    (c.entries.length - swept.entries.length, swept)

/-- Polls the watcher and removes the entries of deleted files. The answer is the number of watches
that fired. -/
def poll (presence : Path → Presence) (c : Cache ι) : Nat × Cache ι :=
  match c.observer with
  | none => (0, c)
  | some w =>
    let (fired, w) := w.poll presence
    (fired.length,
     fired.foldl (fun c watch => (c.remove watch.1 .deleted).2) { c with observer := some w })

/-- Shuts the cache down: removes every entry, runs every release that waits, and refuses further
work. -/
def shutdown (c : Cache ι) : Cache ι :=
  if c.isShutDown then c
  else
    let c := { c with isShutDown := true }
    let c := (c.expelAll .shutdown c.entries).drainReleases
    { c with releaser := c.releaser.close.dismiss }

end Sidecar.Cache
