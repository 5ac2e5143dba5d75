import Sidecar.Subsystem.Basic

/-!
# What happens by itself

A started watcher polls at its interval, an idle sweep runs at its interval, and a build ends when
it is due. These are the *events* of a subsystem, each at a point in time, and between two events
nothing changes. So time passes by running events in the order of their time (`runUntil`), and
waiting for something is looking again after every event (`waitFor`).

An event that is late, because time moved on during a load or a build, runs at once, and the
interval to the next one begins then. So intervals of at least a millisecond bound the number of
events (`eventBound`).
-/

set_option autoImplicit false

namespace Sidecar.Subsystem

/-- What can happen by itself. -/
inductive Event where
  | poll
  | sweep
  /-- The build at a place among the started ones ends. -/
  | build (place : Nat)
  deriving DecidableEq, Repr

/-- The events to come, each with its time. -/
def events (s : Subsystem) : List (Nat × Event) :=
  s.nextPoll.toList.map (·, .poll) ++ s.nextSweep.toList.map (·, .sweep)
    ++ s.builders.next.toList.map fun (place, dueAt) => (dueAt, .build place)

/-- The event that comes first. -/
def nextEvent (s : Subsystem) : Option (Nat × Event) :=
  s.events.foldl (fun best event => match best with
    | none => some event
    | some earlier => if event.1 < earlier.1 then some event else some earlier) none

/-- An event happens. -/
def happen (event : Event) (s : Subsystem) : Subsystem :=
  match event with
  | .poll => { s.poll.2 with nextPoll := some (nextTurn s.host s.config.watcher.pollInterval) }
  | .sweep => { s.sweep.2 with nextSweep := some (nextTurn s.host s.config.cache.sweepIntervalMs) }
  | .build place =>
    let (_, files, host, builders) := Builders.complete place (s.files, s.host, s.builders)
    { s with files, host, builders }

/-- Releases what nobody needs any more, given the handles that are still held. -/
def settle (held : List Nat) (s : Subsystem) : Subsystem :=
  { s with cache := s.cache.drainReleases.settle held }

/-- A bound on the number of events until a point in time. -/
def eventBound (time : Nat) (s : Subsystem) : Nat :=
  2 * ((time - s.host.elapsed) / 1000000 + 2) + s.builders.pool.size

/-- Runs events until something is the case or a point in time is reached, at most the given number
of events. -/
def runUntil (done : Subsystem → Bool) (held : List Nat) (time : Nat) :
    Nat → Subsystem → Subsystem
  | 0, s => s
  | n + 1, s =>
    if done s then s
    else match s.nextEvent.filter (·.1 ≤ time) with
      | none => { s with host := s.host.passUntil time }
      | some (due, event) =>
        -- A late event happens now, not when it was due.
        let s := { s with host := s.host.passUntil due }
        runUntil done held time n ((s.happen event).settle held)

/-- Runs the events that are due. -/
def catchUp (held : List Nat) (s : Subsystem) : Subsystem :=
  runUntil (fun _ => false) held s.host.elapsed (s.eventBound s.host.elapsed) s

/-- How long anybody waits for something to happen, in nanoseconds. -/
def patience : Nat := 5000000000

/-- Waits until something is the case, or patience ends. -/
def waitFor (done : Subsystem → Bool) (held : List Nat) (s : Subsystem) : Subsystem :=
  let deadline := s.host.elapsed + patience
  runUntil done held deadline (s.eventBound deadline) s

end Sidecar.Subsystem
