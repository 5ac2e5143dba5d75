/-!
# Worker pools

A pool is a bounded first-in first-out queue of tasks served by a fixed number of workers. What
happens in it are small steps, and every run of a pool is a sequence of them:

* a task is **pushed** onto the queue, unless as many tasks wait as the depth allows. Whoever
  *submits* a task first looks whether the pool is shut down, and these are two steps: the pool may
  be shut down in between;
* an idle worker **starts** the task that has waited longest;
* a started task **ends**, normally or by a panic, which a worker survives;
* the pool is **closed**: it refuses tasks from now on, but still runs those that wait;
* an idle worker of a closed pool **leaves** when it finds the queue empty, and does not come back.

The pool does not know what its tasks do, so the type of tasks is a parameter, and which of the
possible steps comes next is left to its user: the release worker of the cache runs its tasks one by
one, the build workers of the writer take time for theirs.
-/

set_option autoImplicit false

namespace Sidecar

/-- A queue of tasks with its workers. -/
structure WorkerPool (τ : Type) where
  /-- The number of workers. -/
  workers : Nat
  /-- The number of tasks that may wait. -/
  depth : Nat
  /-- The tasks that wait, longest first. -/
  queue : List τ := []
  /-- The tasks that workers are busy with, in the order they were started. -/
  active : List τ := []
  /-- The number of tasks that have ended. -/
  completed : Nat := 0
  isShutDown : Bool := false
  /-- The number of workers that have left. -/
  departed : Nat := 0
  deriving Repr

namespace WorkerPool

variable {τ : Type}

/-- The refusal of a task. -/
def backpressure : String := "worker pool queue is full or shut down"

/-! ## Tasks come in -/

/-- Puts a task at the end of the queue, unless the queue is full. -/
def push (pool : WorkerPool τ) (task : τ) : Option (WorkerPool τ) :=
  if pool.depth ≤ pool.queue.length then none
  else some { pool with queue := pool.queue ++ [task] }

/-- Pushes a task unless the pool is shut down. -/
def submit (pool : WorkerPool τ) (task : τ) : Option (WorkerPool τ) :=
  if pool.isShutDown then none else pool.push task

/-- Refuses tasks from now on. -/
def close (pool : WorkerPool τ) : WorkerPool τ := { pool with isShutDown := true }

/-! ## Workers -/

/-- Whether some worker is there and has nothing to do. -/
def hasIdleWorker (pool : WorkerPool τ) : Bool :=
  pool.active.length + pool.departed < pool.workers

/-- An idle worker takes the task that has waited longest. -/
def start (pool : WorkerPool τ) : Option (τ × WorkerPool τ) :=
  if pool.hasIdleWorker then
    match pool.queue with
    | [] => none
    | task :: rest => some (task, { pool with queue := rest, active := pool.active ++ [task] })
  else none

/-- A started task ends; tasks are counted in the order they were started. -/
def finish (pool : WorkerPool τ) (place : Nat) : WorkerPool τ :=
  if place < pool.active.length then
    { pool with active := pool.active.eraseIdx place, completed := pool.completed + 1 }
  else pool

/-- An idle worker takes the next task and ends it at once. -/
def runNext (pool : WorkerPool τ) : Option (τ × WorkerPool τ) :=
  pool.start.map fun (task, started) => (task, started.finish (started.active.length - 1))

/-- An idle worker of a closed pool leaves, if no task waits for it. -/
def leave (pool : WorkerPool τ) : Option (WorkerPool τ) :=
  if pool.isShutDown && pool.queue.isEmpty && pool.hasIdleWorker then
    some { pool with departed := pool.departed + 1 }
  else none

/-- All idle workers of a closed pool leave, if no task waits for them. -/
def dismiss (pool : WorkerPool τ) : WorkerPool τ :=
  if pool.isShutDown && pool.queue.isEmpty then
    { pool with departed := pool.workers - pool.active.length }
  else pool

/-! ## All tasks together -/

/-- Changes the tasks that have not ended. -/
def mapTasks (f : τ → τ) (pool : WorkerPool τ) : WorkerPool τ :=
  { pool with queue := pool.queue.map f, active := pool.active.map f }

/-- The number of tasks that have not ended. -/
def size (pool : WorkerPool τ) : Nat := pool.queue.length + pool.active.length

/-- Whether nothing waits and nobody is busy. -/
def isIdle (pool : WorkerPool τ) : Bool := pool.queue.isEmpty && pool.active.isEmpty

end WorkerPool

end Sidecar
