import Sidecar.Config.Basic
import Sidecar.Engine.Host
import Sidecar.WorkerPool
import Sidecar.Writer.Sidecar

/-!
# Build workers

Builds run on a worker pool, because they take long. The writer submits a job and waits for it, with
or without a limit. When the limit passes, the writer marks the job as *abandoned*, cleans up and
goes away, but the job goes on: it may wait in the queue or be in the middle of its build. An
abandoned job removes its temporary file when it has ended, since nobody else will.

A worker takes three steps with a job, and other workers and the writer may do anything between two
of them: it **starts** the build, it **writes** what the engine produces, and it **reports**, which
is when it looks whether the job is abandoned.

Time needs no clock of its own here. Between two points in time at which a build ends nothing
happens on the pool, so waiting is a loop over those points (`await`): the build that is due first
ends, and its worker takes the next job.
-/

set_option autoImplicit false

namespace Sidecar

/-- A job on the pool. -/
structure Build where
  /-- The number of the job in the order of submission. -/
  ticket : Nat
  job : BuildJob
  /-- Whether the writer has stopped waiting for it. -/
  isAbandoned : Bool := false
  /-- The course of the build, once it has started. -/
  course : Option Host.Course := none
  /-- The result of the build, once it is there; a panic leaves none. -/
  result : Option (Except Error Unit) := none
  deriving Repr

/-- The build workers. -/
structure Builders where
  pool : WorkerPool Build
  /-- The ticket of the next job. -/
  nextTicket : Nat := 0
  deriving Repr

namespace Builders

/-- Idle workers. There is always one, whatever the configuration says. -/
def new (config : WriterConfig) : Builders :=
  { pool := { workers := max config.buildThreads 1, depth := config.buildQueueDepth } }

/-! ## Steps -/

/-- Changes the build with a ticket. -/
def modify (ticket : Nat) (f : Build → Build) (builders : Builders) : Builders :=
  { builders with
    pool := builders.pool.mapTasks fun build => if build.ticket = ticket then f build else build }

/-- Puts a job into the queue, unless it is refused. -/
def submit (job : BuildJob) (builders : Builders) : Option (Nat × Builders) :=
  let ticket := builders.nextTicket
  (builders.pool.submit { ticket := ticket, job := job }).map fun pool =>
    (ticket, { pool, nextTicket := ticket + 1 })

/-- An idle worker starts the next job. -/
def start (host : Host) (builders : Builders) : Option (Host × Builders) :=
  builders.pool.start.map fun (build, pool) =>
    let (course, host) := host.startBuild
    (host, { builders with pool }.modify build.ticket fun b => { b with course := some course })

/-- Idle workers start jobs, at most the given number. -/
def startMany : Nat → Host × Builders → Host × Builders
  | 0, state => state
  | n + 1, (host, builders) => match builders.start host with
    | none => (host, builders)
    | some state => startMany n state

/-- Idle workers start jobs as long as any wait. -/
def startAll (host : Host) (builders : Builders) : Host × Builders :=
  startMany builders.pool.queue.length (host, builders)

/-- The writer stops waiting for a job. -/
def abandon (ticket : Nat) (builders : Builders) : Builders :=
  builders.modify ticket fun build => { build with isAbandoned := true }

/-- When a started build ends. One that does not write ends at once. -/
def dueAt (build : Build) : Nat :=
  match build.course with
  | some (.writes dueAt) => dueAt
  | _ => 0

/-- The place of the started build that ends first, and when it ends. -/
def next (builders : Builders) : Option (Nat × Nat) :=
  (builders.pool.active.mapIdx fun place build => (place, dueAt build)).foldl
    (fun best found => match best with
      | none => some found
      | some earlier => if found.2 < earlier.2 then some found else some earlier) none

/-- The engine writes what the started build at a place produces. -/
def write (place : Nat) (state : FileTree × Host × Builders) : FileTree × Host × Builders :=
  let (files, host, builders) := state
  match builders.pool.active[place]? with
  | none => state
  | some build =>
    let (result, files, host) := Host.endBuild (build.course.getD .skips) build.job.ids
      build.job.vectors build.job.temporary (files, host)
    (files, host, builders.modify build.ticket fun b => { b with result })

/-- The worker of the build at a place reports and is done with it. If the job is abandoned, it
removes the temporary file, unless the build has panicked. -/
def report (place : Nat) (state : FileTree × Host × Builders) :
    Option Build × (FileTree × Host × Builders) :=
  let (files, host, builders) := state
  match builders.pool.active[place]? with
  | none => (none, state)
  | some build =>
    let files :=
      if build.isAbandoned && build.result.isSome then files.removeIfPossible build.job.temporary
      else files
    (some build, files, host, { builders with pool := builders.pool.finish place })

/-- The build at a place ends, and idle workers start the next jobs. -/
def complete (place : Nat) (state : FileTree × Host × Builders) :
    Option Build × (FileTree × Host × Builders) :=
  let (ended, files, host, builders) := report place (write place state)
  let (host, builders) := builders.startAll host
  (ended, files, host, builders)

/-! ## Waiting -/

/-- Waits for a job until it ends or the deadline passes, over at most the given number of builds.
The answer is missing if the deadline passed. -/
def await (ticket : Nat) (deadline : Option Nat) : Nat → FileTree × Host × Builders →
    Option (Option (Except Error Unit)) × (FileTree × Host × Builders)
  -- The job ends after at most as many builds as the pool holds.
  | 0, state => (none, state)
  | n + 1, (files, host, builders) =>
    let late := (none, files, host.passUntil (deadline.getD 0), builders)
    match builders.next with
    | none => late
    | some (place, due) =>
      if deadline.any (· < due) then late
      else match complete place (files, host, builders) with
        | (none, state) => (none, state)
        | (some build, state) =>
          if build.ticket = ticket then (some build.result, state)
          else await ticket deadline n state

/-- Runs a job for a writer that waits for it, at most for the configured time. -/
def run (timeoutMs : Option Nat) (job : BuildJob) (state : FileTree × Host × Builders) :
    BuildOutcome × (FileTree × Host × Builders) :=
  let (files, host, builders) := state
  match builders.submit job with
  | none => (.rejected, state)
  | some (ticket, builders) =>
    let (host, builders) := builders.startAll host
    let deadline := timeoutMs.map fun ms => host.elapsed + ms * 1000000
    match await ticket deadline builders.pool.size (files, host, builders) with
    | (some (some result), state) => (.ended result, state)
    | (some none, state) => (.lost, state)
    | (none, files, host, builders) =>
      (.timedOut (timeoutMs.getD 0), files, host, builders.abandon ticket)

/-- Every build ends, over at most the given number of builds. -/
def completeMany : Nat → FileTree × Host × Builders → FileTree × Host × Builders
  | 0, state => state
  | n + 1, state => match state.2.2.next with
    | none => state
    | some (place, _) => completeMany n (complete place state).2

/-- Stops the workers after they have run every job that was accepted. -/
def shutdown (state : FileTree × Host × Builders) : FileTree × Host × Builders :=
  let (files, host, builders) := state
  let closed := { builders with pool := builders.pool.close }
  let (files, host, builders) := completeMany closed.pool.size (files, host, closed)
  (files, host, { builders with pool := builders.pool.dismiss })

end Builders

end Sidecar
