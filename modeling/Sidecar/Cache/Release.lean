import Sidecar.Cache.Basic

/-!
# The handle cache: releasing

Every handle that leaves the cache goes through the functions of this module, and so does a handle
that was never let in: it is invalidated, and its release is scheduled. Whichever way the release
then happens, by the worker or with the last reference, it goes through `Cache.free`, which passes
over a handle whose index is already gone.
-/

set_option autoImplicit false

namespace Sidecar.Cache

variable {ι : Type}

/-- Releases the index of a handle, once. -/
def free (c : Cache ι) (id : Nat) : Cache ι :=
  if c.released.contains id then c else { c with released := c.released ++ [id] }

/-- The release worker runs the next release. -/
def runRelease (c : Cache ι) : Cache ι :=
  match c.releaser.runNext with
  | none => c
  | some (id, releaser) =>
    let isFirst := !c.released.contains id
    let c := { c with releaser }.free id
    let c :=
      if isFirst then { c with tally := { c.tally with releases := c.tally.releases + 1 } } else c
    { c with waiting := c.waiting - 1 }

/-- The release worker runs some releases. -/
def runReleases : Nat → Cache ι → Cache ι
  | 0, c => c
  | n + 1, c => runReleases n c.runRelease

/-- The release worker runs every release that waits. -/
def drainReleases (c : Cache ι) : Cache ι := runReleases c.releaser.queue.length c

/-- The release worker works until no more releases wait than it lags behind. -/
def catchUp (c : Cache ι) : Cache ι :=
  let c := runReleases (c.releaser.queue.length - c.lags.headD 0) c
  { c with lags := c.lags.tail }

/-- Schedules the release of a handle. A handle whose release is refused becomes an orphan. -/
def scheduleRelease (c : Cache ι) (id : Nat) : Cache ι :=
  let c := c.catchUp
  let c := { c with waiting := c.waiting + 1 }
  match c.releaser.submit id with
  | some releaser => { c with releaser }
  | none => { c with waiting := c.waiting - 1, orphans := c.orphans ++ [id] }

/-- Marks a handle as invalidated. -/
def markInvalidated (c : Cache ι) (id : Nat) : Cache ι :=
  { c with invalidated := id :: c.invalidated }

/-- Gives up a handle that was never let into the cache. -/
def discard (c : Cache ι) (h : Handle ι) : Cache ι := (c.markInvalidated h.id).scheduleRelease h.id

/-- Releases the orphans that nobody holds any more. -/
def settle (held : List Nat) (c : Cache ι) : Cache ι :=
  let unheld := c.orphans.filter (!held.contains ·)
  unheld.foldl free { c with orphans := c.orphans.filter held.contains }

/-! ## Removing entries -/

/-- Drops the watch on a path. -/
def unwatch (c : Cache ι) (path : Path) : Cache ι :=
  { c with observer := c.observer.map (·.unregister path) }

/-- Removes a live entry: its weight goes, its handle is invalidated, its watch is dropped if the
reason says so, and its release is scheduled. -/
def expel (reason : RemovalReason) (c : Cache ι) (e : Entry ι) : Cache ι :=
  let c := { c with
    entries := c.entries.filter (!·.handle.path.sameKey e.handle.path)
    weight := c.weight - e.handle.size
    departures := c.departures ++ [(e.handle.id, reason)] }
  let c := c.markInvalidated e.handle.id
  let c := if reason.dropsWatch then c.unwatch e.handle.path else c
  c.scheduleRelease e.handle.id

/-- Removes some live entries, in order. -/
def expelAll (reason : RemovalReason) (c : Cache ι) (es : List (Entry ι)) : Cache ι :=
  es.foldl (expel reason) c

/-- Removes the entry of a path; the answer tells whether there was one. -/
def remove (c : Cache ι) (path : Path) (reason : RemovalReason) : Bool × Cache ι :=
  match c.entry? path with
  | none => (false, c)
  | some e => (true, c.expel reason e)

end Sidecar.Cache
