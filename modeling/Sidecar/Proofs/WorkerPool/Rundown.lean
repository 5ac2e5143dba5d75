import Sidecar.Proofs.WorkerPool.Traffic

/-!
# Shutting a pool down

A shutdown is meant to stop new tasks, to run those that are queued, and to wait for the workers. It
does all of this except for one thing. A call that has looked before the pool is closed may push its
task when the last worker has gone. The task is accepted, nobody will ever run it, and who drains the
pool waits for good. There is such a run for every pool that has room for a task (`exists_stranded`).

Only these calls are affected. Whatever waits once the workers have been joined comes from a call that
stood between its two steps when the pool was closed (`ran_of_shutdown`); if there was none then all
accepted tasks have run. Two things carry this: after the closing no new call gets past its first
step (`Closing.calls`), and a worker does not leave before the queue is empty, so what waits when all
have left was pushed later (`Closing.queue`).
-/

set_option autoImplicit false

namespace Sidecar

namespace Traffic

variable {workers depth : Nat} {before after : List Step} {opened s s' : Traffic} {step : Step}

/-! ## After the closing -/

theorem workers_perform (h : s.perform step = some s') : s'.pool.workers = s.pool.workers := by
  cases effect_of_perform h <;> rfl

/-- The pool was closed when it was as given. -/
structure Closing (opened s : Traffic) : Prop where
  closed : s.pool.isShutDown = true
  /-- A call that is between its steps was so then. -/
  calls : ∀ call : Nat, s.calls[call]? = some Call.looked → opened.calls[call]? = some Call.looked
  /-- If all workers have left, what waits was pushed after that. -/
  queue : s.pool.departed = s.pool.workers →
    ∀ task ∈ s.pool.queue, opened.calls[task]? = some Call.looked

theorem Closing.calls_set (h : Closing opened s) {call : Nat} {answer : Call}
    (hanswer : answer ≠ .looked) (other : Nat)
    (hlooked : (s.calls.set call answer)[other]? = some Call.looked) :
    opened.calls[other]? = some Call.looked := by
  rw [List.getElem?_set] at hlooked
  split at hlooked
  · split at hlooked
    · exact absurd (Option.some.inj hlooked) hanswer
    · cases hlooked
  · exact h.calls other hlooked

theorem Closing.perform (h : Closing opened s) (hstep : s.perform step = some s') :
    Closing opened s' := by
  cases effect_of_perform hstep with
  | @look answer _ found =>
    refine ⟨h.closed, fun call hlooked => ?_, h.queue⟩
    have hlate : answer ≠ .looked := by
      intro heq
      rw [h.closed] at found
      exact absurd (found heq) (by decide)
    rw [List.getElem?_append] at hlooked
    split at hlooked
    · exact h.calls call hlooked
    · exact absurd (List.mem_singleton.mp (List.mem_of_getElem? hlooked)).symm hlate
  | @accept call looked =>
    refine ⟨h.closed, h.calls_set (by decide), fun hgone task htask => ?_⟩
    rcases List.mem_append.mp htask with hold | hnew
    · exact h.queue hgone task hold
    · rw [List.mem_singleton.mp hnew]
      exact h.calls call looked
  | refuse => exact ⟨h.closed, h.calls_set (by decide), h.queue⟩
  | start idle =>
    refine ⟨h.closed, h.calls, fun hgone => ?_⟩
    dsimp only at hgone
    omega
  | finish => exact ⟨h.closed, h.calls, h.queue⟩
  | leave closed queue =>
    refine ⟨h.closed, h.calls, fun _ => ?_⟩
    rw [queue]
    exact List.forall_mem_nil _
  | close => exact ⟨rfl, h.calls, h.queue⟩
  | join => exact ⟨h.closed, h.calls, h.queue⟩
  | drain => exact h

/-- An open pool that has a worker is closed. -/
theorem closing_close (h : opened.Sound) (hworkers : 1 ≤ opened.pool.workers)
    (hopen : opened.pool.isShutDown = false) :
    Closing opened { opened with pool := opened.pool.close } := by
  refine ⟨rfl, fun _ => id, fun hgone => ?_⟩
  have hleft : 0 < opened.pool.departed := hgone ▸ hworkers
  rw [h.departed hleft] at hopen
  cases hopen

/-- **What a shutdown leaves behind.** When the workers have been joined, each accepted task has run
or waits, and what waits was submitted by a call that had looked before the pool was closed and not
yet pushed. So without such a call all accepted tasks have run, and a drain returns. -/
theorem ran_of_shutdown (hworkers : 1 ≤ workers)
    (hbefore : run before (new workers depth) = some opened)
    (hopen : opened.pool.isShutDown = false) (hafter : run (.close :: after) opened = some s)
    (hjoined : s.isJoined = true) :
    (s.ended ++ s.pool.queue).Nodup ∧
    (∀ task : Nat, s.calls[task]? = some Call.accepted ↔ task ∈ s.ended ∨ task ∈ s.pool.queue) ∧
    (∀ task ∈ s.pool.queue, opened.calls[task]? = some Call.looked) ∧
    ((s.perform .drain).isSome = true ↔ s.pool.queue = []) ∧
    (opened.Settled → (s.perform .drain).isSome = true ∧
      ∀ task : Nat, s.calls[task]? = some Call.accepted → task ∈ s.ended) := by
  have hcount : opened.pool.workers = workers :=
    run_keeps (P := fun s => s.pool.workers = workers)
      (fun _ _ _ hs hstep => (workers_perform hstep).trans hs) rfl hbefore
  have hsound : s.Sound :=
    run_keeps (fun _ _ _ hs hstep => hs.perform hstep) (sound_run hbefore) hafter
  have hclosing : Closing opened s :=
    run_keeps (fun _ _ _ hs hstep => hs.perform hstep)
      (closing_close (sound_run hbefore) (hcount ▸ hworkers) hopen) hafter
  have hgone : s.pool.departed = s.pool.workers := (hsound.joined hjoined).2
  have hactive : s.pool.active = [] := by
    have hcrew := hsound.crew
    exact List.eq_nil_of_length_eq_zero (by omega)
  have htasks : s.tasks = s.ended ++ s.pool.queue := by rw [tasks, hactive, List.append_nil]
  have haccepted : ∀ task : Nat, s.calls[task]? = some Call.accepted ↔
      task ∈ s.ended ∨ task ∈ s.pool.queue := by
    intro task
    rw [hsound.accepted, htasks, List.mem_append]
  have hdrain : (s.perform .drain).isSome = true ↔ s.pool.queue = [] := by
    simp [perform, WorkerPool.isIdle, hactive]
  refine ⟨htasks ▸ hsound.distinct, haccepted, hclosing.queue hgone, hdrain, fun hsettled => ?_⟩
  have hqueue : s.pool.queue = [] :=
    List.eq_nil_iff_forall_not_mem.mpr fun task htask =>
      hsettled task (hclosing.queue hgone task htask)
  refine ⟨hdrain.mpr hqueue, fun task htask => ?_⟩
  simpa [hqueue] using (haccepted task).mp htask

/-- One task is being run and one waits when the pool is closed. -/
theorem ran_of_two_tasks :
    let opened : Traffic :=
      { pool := { workers := 1, depth := 2, queue := [1], active := [0] }
        calls := [.accepted, .accepted] }
    let s : Traffic :=
      { pool := { workers := 1, depth := 2, completed := 2, isShutDown := true, departed := 1 }
        calls := [.accepted, .accepted], ended := [0, 1], isJoined := true }
    run [.look, .push 0, .look, .push 1, .start] (new 1 2) = some opened ∧
    run [.close, .finish 0, .start, .finish 0, .leave, .join] opened = some s ∧
    (s.perform .drain).isSome = true := by
  intro opened s
  have hbefore : run [.look, .push 0, .look, .push 1, .start] (new 1 2) = some opened := rfl
  have hafter : run [.close, .finish 0, .start, .finish 0, .leave, .join] opened = some s := rfl
  have hsettled : opened.Settled
    | 0 | 1 => by simp [opened]
    | _ + 2 => by simp [opened]
  have hran := ran_of_shutdown (by decide) hbefore rfl hafter rfl
  exact ⟨hbefore, hafter, (hran.2.2.2.2 hsettled).1⟩

/-! ## Stranded tasks -/

/-- All workers have left and the task waits. -/
structure Stranded (task : Nat) (s : Traffic) : Prop where
  sound : s.Sound
  gone : s.pool.departed = s.pool.workers
  waits : task ∈ s.pool.queue

theorem Stranded.perform {task : Nat} (h : Stranded task s) (hstep : s.perform step = some s') :
    Stranded task s' := by
  have hsound := h.sound.perform hstep
  have hgone := h.gone
  cases effect_of_perform hstep with
  | accept => exact ⟨hsound, hgone, List.mem_append_left _ h.waits⟩
  | start idle => omega
  | leave _ _ idle => omega
  | look | refuse | finish | close | join | drain => exact ⟨hsound, hgone, h.waits⟩

/-- A stranded task does not run, and no drain returns. -/
theorem Stranded.never {task : Nat} (h : Stranded task s) :
    task ∉ s.ended ∧ s.perform .drain = none := by
  constructor
  · intro hended
    have hdistinct := h.sound.distinct
    rw [tasks, List.append_assoc, List.nodup_append] at hdistinct
    exact hdistinct.2.2 task hended task (List.mem_append_right _ h.waits) rfl
  · have hbusy : s.pool.isIdle = false := by
      rw [WorkerPool.isIdle, List.isEmpty_eq_false_iff.mpr (List.ne_nil_of_mem h.waits),
        Bool.false_and]
    rw [Traffic.perform, hbusy]
    rfl

/-- The workers of a closed pool without tasks leave one after the other. -/
theorem run_leave (n departed : Nat) (h : departed + n ≤ workers) (calls : List Call) :
    run (List.replicate n .leave)
      { pool := { workers, depth, isShutDown := true, departed }, calls }
      = some { pool := { workers, depth, isShutDown := true, departed := departed + n }, calls } := by
  induction n generalizing departed with
  | zero => rfl
  | succ n ih =>
    have hidle : departed < workers := by omega
    have hleave :
        perform { pool := { workers, depth, isShutDown := true, departed }, calls } .leave
          = some { pool := { workers, depth, isShutDown := true, departed := departed + 1 },
                   calls } := by
      simp [Traffic.perform, WorkerPool.leave, WorkerPool.hasIdleWorker, hidle]
    rw [List.replicate_succ, run_cons, hleave, Option.bind_some, ih (departed + 1) (by omega),
      Nat.add_right_comm, Nat.add_assoc]

/-- A call looks, the pool is shut down, and the call pushes: the task is accepted for good and never
runs. -/
theorem exists_stranded (workers : Nat) (hdepth : 1 ≤ depth) :
    ∃ s, run (.look :: .close :: List.replicate workers .leave ++ [.join, .push 0])
        (new workers depth) = some s ∧
      s.isJoined = true ∧ s.Settled ∧ s.calls[0]? = some Call.accepted ∧
      ∀ steps s', run steps s = some s' → 0 ∉ s'.ended ∧ s'.perform .drain = none := by
  have hrun : run (.look :: .close :: List.replicate workers .leave ++ [.join, .push 0])
      (new workers depth) = some {
        pool := { workers, depth, queue := [0], isShutDown := true, departed := workers }
        calls := [.accepted], isJoined := true } := by
    have hleft : run (List.replicate workers .leave)
        { pool := { workers, depth, isShutDown := true }, calls := [.looked] }
        = some { pool := { workers, depth, isShutDown := true, departed := workers }
                 calls := [.looked] } := by
      rw [run_leave workers 0 (Nat.le_of_eq (Nat.zero_add workers)), Nat.zero_add]
    have hpush : run [.join, .push 0]
        { pool := { workers, depth, isShutDown := true, departed := workers }, calls := [.looked] }
        = some {
            pool := { workers, depth, queue := [0], isShutDown := true, departed := workers }
            calls := [.accepted], isJoined := true } := by
      have hroom : ¬ depth = 0 := by omega
      simp [run, Traffic.perform, WorkerPool.push, hroom]
    -- The first two steps only compute.
    change run (List.replicate workers .leave ++ [.join, .push 0])
      { pool := { workers, depth, isShutDown := true }, calls := [.looked] } = _
    rw [run_append, hleft, Option.bind_some, hpush]
  refine ⟨_, hrun, rfl, ?_, rfl, fun steps s' hsteps => ?_⟩
  · intro call hlooked
    exact absurd (List.mem_singleton.mp (List.mem_of_getElem? hlooked)) (by decide)
  · have hstranded : Stranded 0 s' :=
      run_keeps (fun _ _ _ hs hstep => hs.perform hstep)
        ⟨sound_run hrun, rfl, List.mem_singleton_self _⟩ hsteps
    exact hstranded.never

/-- One worker, one call: the shutdown and the call have both returned, and the accepted task waits. -/
theorem task_stranded :
    ∃ s, run [.look, .close, .leave, .join, .push 0] (new 1 1) = some s ∧ s.isJoined = true ∧
      s.Settled ∧ s.calls[0]? = some Call.accepted ∧ 0 ∉ s.ended ∧ s.pool.queue = [0] ∧
      s.perform .drain = none := by
  refine ⟨_, rfl, rfl, ?_, rfl, List.not_mem_nil, rfl, rfl⟩
  intro call hlooked
  exact absurd (List.mem_singleton.mp (List.mem_of_getElem? hlooked)) (by decide)

end Traffic

end Sidecar
