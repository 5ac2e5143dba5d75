import Sidecar.WorkerPool

/-!
# A crew

A worker pool with tasks of three kinds: one that writes a number into the log, one that panics, and
one that stands at a *barrier* and cannot end before the barrier is lifted. An idle worker starts
the next task at once, and a started task ends at once unless it stands at the barrier. So after
every step all workers are idle or at the barrier (`work`).
-/

set_option autoImplicit false

namespace Sidecar

/-- A task of a crew. -/
inductive Chore where
  | log (id : Nat)
  | panic
  | barrier
  deriving DecidableEq, Repr

/-- A worker pool at work. -/
structure Crew where
  pool : WorkerPool Chore
  /-- The numbers written, in order. -/
  log : List Nat := []
  isLifted : Bool := false
  deriving Repr

namespace Crew

/-- A started task ends. -/
def finish (place : Nat) (chore : Chore) (crew : Crew) : Crew :=
  let crew := { crew with pool := crew.pool.finish place }
  match chore with
  | .log id => { crew with log := crew.log ++ [id] }
  | .panic | .barrier => crew

/-- A worker takes the next task and ends it if it can. -/
def startNext (crew : Crew) : Option Crew :=
  crew.pool.start.map fun (chore, pool) =>
    let crew := { crew with pool }
    if chore = .barrier && !crew.isLifted then crew else crew.finish (pool.active.length - 1) chore

/-- Workers take tasks as long as one is idle and a task waits, at most the given number. -/
def work : Nat → Crew → Crew
  | 0, crew => crew
  | n + 1, crew => match crew.startNext with
    | none => crew
    | some crew => work n crew

/-- Submits a task. The answer tells whether it was accepted. -/
def submit (chore : Chore) (crew : Crew) : Bool × Crew :=
  match crew.pool.submit chore with
  | none => (false, crew)
  | some pool => (true, work pool.queue.length { crew with pool })

/-- Lifts the barrier for good: every task that stands at it ends, and the workers go on. -/
def lift (crew : Crew) : Crew :=
  let ended := crew.pool.active.foldl (fun crew chore => crew.finish 0 chore)
    { crew with isLifted := true }
  work ended.pool.queue.length ended

/-- Refuses further tasks and sends the workers home. -/
def shutdown (crew : Crew) : Crew := { crew with pool := crew.pool.close.dismiss }

end Crew

end Sidecar
