import Sidecar.WorkerPool
import Mathlib.Data.List.Nodup
import Mathlib.Data.List.Perm.Basic

/-!
# Traffic at a worker pool

Callers, workers and whoever shuts the pool down work on it at the same time, and a `Step` is what
one of them does without the others seeing anything of it halfway. A call of `submit` takes two: it
*looks* whether the pool is open, and if so it *pushes* its task under the lock of the queue. Nothing
keeps the two together, so a call may look before the pool is closed and push after that. A shutdown
takes two as well, it closes the pool and *joins* the workers, which it can do when all have left.
To *drain* is to wait until nothing is queued and nobody is busy.

A run is a list of steps, one party's or another's, and each has to be possible when it comes. What
every run keeps is `Traffic.Sound`: the tasks that were accepted are those that have ended, those that
workers are busy with, and those that wait, and each is in one place only.
-/

set_option autoImplicit false

namespace Sidecar

/-! ## Steps of a pool -/

namespace WorkerPool

variable {τ : Type} {pool pool' : WorkerPool τ} {task : τ}

theorem push_eq_some_iff : pool.push task = some pool' ↔
    pool.queue.length < pool.depth ∧ pool' = { pool with queue := pool.queue ++ [task] } := by
  unfold push
  split
  · simp
    omega
  · simp only [Option.some.injEq, eq_comm (a := pool')]
    exact ⟨fun h => ⟨by omega, h⟩, And.right⟩

theorem start_cases (h : pool.start = some (task, pool')) :
    pool.active.length + pool.departed < pool.workers ∧ ∃ rest, pool.queue = task :: rest ∧
      pool' = { pool with queue := rest, active := pool.active ++ [task] } := by
  unfold start at h
  split at h
  · next hidle =>
    split at h
    · cases h
    · next first rest hqueue =>
      cases h
      exact ⟨by simpa [hasIdleWorker] using hidle, rest, hqueue, rfl⟩
  · cases h

theorem finish_eq {place : Nat} (h : pool.active[place]? = some task) : pool.finish place
    = { pool with active := pool.active.eraseIdx place, completed := pool.completed + 1 } :=
  if_pos (List.getElem?_eq_some_iff.mp h).1

theorem leave_cases (h : pool.leave = some pool') :
    pool.isShutDown = true ∧ pool.queue = [] ∧
      pool.active.length + pool.departed < pool.workers ∧
      pool' = { pool with departed := pool.departed + 1 } := by
  unfold leave at h
  split at h
  · next hfree =>
    cases h
    simp only [Bool.and_eq_true, List.isEmpty_iff, hasIdleWorker, decide_eq_true_eq] at hfree
    exact ⟨hfree.1.1, hfree.1.2, hfree.2, rfl⟩
  · cases h

end WorkerPool

/-! ## Runs -/

/-- How far a call of `submit` has come. -/
inductive Call where
  /-- It has found the pool open, and has not pushed its task yet. -/
  | looked
  | accepted
  | refused
  deriving DecidableEq, Repr

/-- A pool with the calls that were made. A call is known by its number, which is its task too. -/
structure Traffic where
  pool : WorkerPool Nat
  calls : List Call := []
  /-- The tasks that have ended, in this order. -/
  ended : List Nat := []
  /-- Whether a shutdown has returned. -/
  isJoined : Bool := false
  deriving Repr

namespace Traffic

/-- What one of the parties does at once. -/
inductive Step where
  /-- A new call looks whether the pool is open. -/
  | look
  /-- A call pushes its task. -/
  | push (call : Nat)
  | start
  | finish (place : Nat)
  | leave
  | close
  /-- A shutdown has waited for all workers and returns. -/
  | join
  /-- A drain has waited until the pool was idle and returns. -/
  | drain
  deriving DecidableEq, Repr

def new (workers depth : Nat) : Traffic := { pool := { workers, depth } }

/-- What is left after a step, if the step is possible. -/
def perform (s : Traffic) : Step → Option Traffic
  | .look => some { s with calls := s.calls ++ [if s.pool.isShutDown then .refused else .looked] }
  | .push call =>
    if s.calls[call]? = some Call.looked then
      match s.pool.push call with
      | some pool => some { s with pool, calls := s.calls.set call .accepted }
      | none => some { s with calls := s.calls.set call .refused }
    else none
  | .start => s.pool.start.map fun started => { s with pool := started.2 }
  | .finish place => s.pool.active[place]?.map fun task =>
      { s with pool := s.pool.finish place, ended := s.ended ++ [task] }
  | .leave => s.pool.leave.map fun pool => { s with pool }
  | .close => some { s with pool := s.pool.close }
  | .join =>
    if s.pool.isShutDown && s.pool.departed == s.pool.workers then some { s with isJoined := true }
    else none
  | .drain => if s.pool.isIdle then some s else none

def run (steps : List Step) (s : Traffic) : Option Traffic := steps.foldlM perform s

/-- Every call has returned. -/
def Settled (s : Traffic) : Prop := ∀ call : Nat, s.calls[call]? ≠ some Call.looked

variable {s s' : Traffic} {step : Step} {steps : List Step}

theorem run_cons (step : Step) (rest : List Step) (s : Traffic) :
    run (step :: rest) s = (s.perform step).bind (run rest) := rfl

theorem run_append (front back : List Step) (s : Traffic) :
    run (front ++ back) s = (run front s).bind (run back) :=
  List.foldlM_append

/-- What every step keeps, every run keeps. -/
theorem run_keeps {P : Traffic → Prop} (hstep : ∀ s step s', P s → s.perform step = some s' → P s')
    (h : P s) (hrun : run steps s = some s') : P s' := by
  induction steps generalizing s with
  | nil =>
    cases hrun
    exact h
  | cons step rest ih =>
    obtain ⟨next, hnext, hrest⟩ := Option.bind_eq_some_iff.mp hrun
    exact ih (hstep s step next h hnext) hrest

/-- A call whose two steps come one after the other is a `submit`. -/
theorem run_look_push (hopen : s.pool.isShutDown = false) :
    run [.look, .push s.calls.length] s = some (match s.pool.submit s.calls.length with
      | some pool => { s with pool, calls := s.calls ++ [.accepted] }
      | none => { s with calls := s.calls ++ [.refused] }) := by
  have hsubmit : s.pool.submit s.calls.length = s.pool.push s.calls.length := by
    rw [WorkerPool.submit, hopen, if_neg Bool.false_ne_true]
  rw [hsubmit]
  cases hpush : s.pool.push s.calls.length <;> simp [run, perform, hopen, hpush]

/-- All that a step can do, with the conditions under which it can. -/
inductive Effect (s : Traffic) : Step → Traffic → Prop where
  | look {answer : Call} (untaken : answer ≠ .accepted)
      (found : answer = .looked → s.pool.isShutDown = false) :
      Effect s .look { s with calls := s.calls ++ [answer] }
  | accept {call : Nat} (looked : s.calls[call]? = some .looked)
      (room : s.pool.queue.length < s.pool.depth) :
      Effect s (.push call) { s with
        pool := { s.pool with queue := s.pool.queue ++ [call] }
        calls := s.calls.set call .accepted }
  | refuse {call : Nat} (looked : s.calls[call]? = some .looked) :
      Effect s (.push call) { s with calls := s.calls.set call .refused }
  | start {task : Nat} {rest : List Nat}
      (idle : s.pool.active.length + s.pool.departed < s.pool.workers)
      (queue : s.pool.queue = task :: rest) :
      Effect s .start { s with
        pool := { s.pool with queue := rest, active := s.pool.active ++ [task] } }
  | finish {place task : Nat} (active : s.pool.active[place]? = some task) :
      Effect s (.finish place) { s with
        pool := { s.pool with
          active := s.pool.active.eraseIdx place
          completed := s.pool.completed + 1 }
        ended := s.ended ++ [task] }
  | leave (closed : s.pool.isShutDown = true) (queue : s.pool.queue = [])
      (idle : s.pool.active.length + s.pool.departed < s.pool.workers) :
      Effect s .leave { s with pool := { s.pool with departed := s.pool.departed + 1 } }
  | close : Effect s .close { s with pool := { s.pool with isShutDown := true } }
  | join (closed : s.pool.isShutDown = true) (departed : s.pool.departed = s.pool.workers) :
      Effect s .join { s with isJoined := true }
  | drain (idle : s.pool.isIdle = true) : Effect s .drain s

theorem effect_of_perform (h : s.perform step = some s') : Effect s step s' := by
  unfold perform at h
  cases step with
  | look =>
    cases h
    refine .look ?_ ?_ <;> split <;> simp_all
  | push call =>
    dsimp only at h
    split at h
    · next hlooked =>
      split at h
      · next pool hpush =>
        obtain ⟨hroom, rfl⟩ := WorkerPool.push_eq_some_iff.mp hpush
        cases h
        exact .accept hlooked hroom
      · cases h
        exact .refuse hlooked
    · cases h
  | start =>
    obtain ⟨⟨task, pool⟩, hstart, rfl⟩ := Option.map_eq_some_iff.mp h
    obtain ⟨hidle, rest, hqueue, rfl⟩ := WorkerPool.start_cases hstart
    exact .start hidle hqueue
  | finish place =>
    obtain ⟨task, hplace, rfl⟩ := Option.map_eq_some_iff.mp h
    rw [WorkerPool.finish_eq hplace]
    exact .finish hplace
  | leave =>
    obtain ⟨pool, hleave, rfl⟩ := Option.map_eq_some_iff.mp h
    obtain ⟨hclosed, hqueue, hidle, rfl⟩ := WorkerPool.leave_cases hleave
    exact .leave hclosed hqueue hidle
  | close =>
    cases h
    exact .close
  | join =>
    dsimp only at h
    split at h
    · next hall =>
      cases h
      rw [Bool.and_eq_true, beq_iff_eq] at hall
      exact .join hall.1 hall.2
    · cases h
  | drain =>
    dsimp only at h
    split at h
    · next hidle =>
      cases h
      exact .drain hidle
    · cases h

/-! ## What every run keeps -/

/-- The tasks that were accepted, by where they are. -/
def tasks (s : Traffic) : List Nat := s.ended ++ s.pool.active ++ s.pool.queue

/-- Every accepted task is in one place, every worker is in one place, and nobody leaves an open
pool. -/
structure Sound (s : Traffic) : Prop where
  accepted : ∀ task, s.calls[task]? = some Call.accepted ↔ task ∈ s.tasks
  distinct : s.tasks.Nodup
  crew : s.pool.active.length + s.pool.departed ≤ s.pool.workers
  departed : 0 < s.pool.departed → s.pool.isShutDown = true
  joined : s.isJoined = true → s.pool.isShutDown = true ∧ s.pool.departed = s.pool.workers

theorem sound_new (workers depth : Nat) : (new workers depth).Sound :=
  ⟨fun task => by simp [new, tasks], List.nodup_nil, Nat.zero_le _, nofun, nofun⟩

section Calls

variable {calls : List Call} {call task : Nat} {answer : Call}

theorem accepted_append (h : answer ≠ .accepted) :
    (calls ++ [answer])[task]? = some .accepted ↔ calls[task]? = some .accepted := by
  rcases Nat.lt_trichotomy task calls.length with hlt | rfl | hgt
  · rw [List.getElem?_append_left hlt]
  · simp [h]
  · rw [List.getElem?_eq_none (by rw [List.length_append]; exact hgt),
      List.getElem?_eq_none (by omega)]

theorem accepted_set (h : calls[call]? = some .looked) :
    (calls.set call answer)[task]? = some .accepted ↔
      (task = call ∧ answer = .accepted) ∨ calls[task]? = some .accepted := by
  have hlt : call < calls.length := (List.getElem?_eq_some_iff.mp h).1
  by_cases hsame : task = call
  · subst hsame
    rw [List.getElem?_set_self hlt, h]
    simp
  · rw [List.getElem?_set_ne (Ne.symm hsame)]
    simp [hsame]

end Calls

namespace Sound

/-- Tasks that are only moved are still the accepted ones. -/
theorem of_perm (h : s.Sound) (hcalls : s'.calls = s.calls) (hperm : s'.tasks.Perm s.tasks)
    (hcrew : s'.pool.active.length + s'.pool.departed ≤ s'.pool.workers)
    (hdeparted : 0 < s'.pool.departed → s'.pool.isShutDown = true)
    (hjoined : s'.isJoined = true → s'.pool.isShutDown = true ∧ s'.pool.departed = s'.pool.workers) :
    s'.Sound :=
  ⟨fun task => by rw [hcalls, h.accepted, hperm.mem_iff], hperm.nodup_iff.mpr h.distinct, hcrew,
    hdeparted, hjoined⟩

/-- The accepted tasks have a new one, which was pushed. -/
theorem accept (h : s.Sound) {call : Nat} (hlooked : s.calls[call]? = some .looked) :
    Sound { s with
      pool := { s.pool with queue := s.pool.queue ++ [call] }
      calls := s.calls.set call .accepted } := by
  have htasks : tasks { s with
      pool := { s.pool with queue := s.pool.queue ++ [call] }
      calls := s.calls.set call .accepted } = s.tasks ++ [call] := by
    simp [tasks]
  have hnew : call ∉ s.tasks := by
    rw [← h.accepted, hlooked]
    decide
  refine ⟨fun task => ?_, ?_, h.crew, h.departed, h.joined⟩
  · rw [htasks, List.mem_append, List.mem_singleton, ← h.accepted, accepted_set hlooked]
    tauto
  · rw [htasks, ← List.concat_eq_append, List.nodup_concat]
    exact ⟨hnew, h.distinct⟩

theorem perform (h : s.Sound) (hstep : s.perform step = some s') : s'.Sound := by
  cases effect_of_perform hstep with
  | look untaken =>
    refine ⟨fun task => ?_, h.distinct, h.crew, h.departed, h.joined⟩
    exact (accepted_append untaken).trans (h.accepted task)
  | accept looked => exact h.accept looked
  | @refuse call looked =>
    refine ⟨fun task => ?_, h.distinct, h.crew, h.departed, h.joined⟩
    have hkept : (s.calls.set call .refused)[task]? = some .accepted ↔
        s.calls[task]? = some .accepted :=
      (accepted_set looked).trans (or_iff_right fun hboth => Call.noConfusion hboth.2)
    exact hkept.trans (h.accepted task)
  | start idle queue =>
    refine h.of_perm rfl ?_ ?_ h.departed h.joined
    · simp [tasks, queue]
    · simp only [List.length_append, List.length_singleton]
      omega
  | @finish place task active =>
    obtain ⟨hlt, hget⟩ := List.getElem?_eq_some_iff.mp active
    have hmoved : (task :: s.pool.active.eraseIdx place).Perm s.pool.active :=
      hget ▸ List.getElem_cons_eraseIdx_perm hlt
    refine h.of_perm rfl ?_ ?_ h.departed h.joined
    · dsimp only [tasks]
      rw [List.append_assoc s.ended]
      exact (hmoved.append_left s.ended).append_right s.pool.queue
    · have hfewer := List.length_eraseIdx_le s.pool.active place
      have hcrew := h.crew
      dsimp only
      omega
  | leave closed queue idle =>
    refine h.of_perm rfl (List.Perm.refl _) (by dsimp only; omega) (fun _ => closed) fun hjoined => ?_
    have hall := (h.joined hjoined).2
    omega
  | close =>
    refine h.of_perm rfl (List.Perm.refl _) h.crew (fun _ => rfl) fun hjoined => ?_
    exact ⟨rfl, (h.joined hjoined).2⟩
  | join closed departed =>
    exact h.of_perm rfl (List.Perm.refl _) h.crew h.departed fun _ => ⟨closed, departed⟩
  | drain => exact h

end Sound

theorem sound_run {workers depth : Nat} (h : run steps (new workers depth) = some s) : s.Sound :=
  run_keeps (fun _ _ _ hs hstep => hs.perform hstep) (sound_new workers depth) h

end Traffic

end Sidecar
