import Sidecar.Proofs.WorkerPool.Traffic

/-!
# The logbook of a pool

Submitters, workers and those who drain a pool work on it at the same time. Here a submission is one
event, a drain is two, its call and its return, and a task that panics ends like any other as far as
the pool is concerned. A `Logbook` writes down in which order tasks were accepted and in which order
they were started, so what is said about order is said about two lists.

Two equations carry everything (`Logbook.Sound`). The tasks accepted are those started followed by
those that wait: so the pool is first in, first out, and takes up no task twice and none that it
refused. And the tasks started are those that have ended together with those that workers are busy
with. A drain sees a pool in which nothing waits and nobody is busy, and there the two equations say
that every accepted task has ended, whether or not it was accepted before the drain was called.

Nothing of this says that a task is ever started. It is, as long as workers work
(`perform_of_busy`): there is always something that a worker can do until the pool is idle, and
whatever workers do, they are done after as many events as `effort` says.
-/

set_option autoImplicit false

namespace Sidecar

/-- How a task ends. A worker survives either. -/
inductive Ending where
  | normal
  | panic
  deriving DecidableEq, Repr

/-- A pool with what has happened at it. A task is known by the number of its submission. -/
structure Logbook where
  pool : WorkerPool Nat
  /-- The number of submissions. -/
  submitted : Nat := 0
  /-- The tasks that were accepted, in this order. -/
  accepted : List Nat := []
  rejected : List Nat := []
  /-- The tasks that a worker has taken up, in this order. -/
  started : List Nat := []
  ended : List (Nat × Ending) := []
  /-- For each drain that was called, the tasks that had been accepted before it. -/
  drains : List (List Nat) := []
  /-- The numbers of the drains that have returned. -/
  returned : List Nat := []
  deriving Repr

namespace Logbook

inductive Event where
  | submit
  /-- An idle worker takes up a task. -/
  | start
  /-- A task that a worker is busy with ends. -/
  | finish (place : Nat) (ending : Ending)
  /-- Somebody begins to drain the pool. -/
  | drain
  /-- A drain finds the pool idle and returns. -/
  | resume (drain : Nat)
  deriving DecidableEq, Repr

/-- Whether a worker does it. -/
def Event.isWork : Event → Bool
  | start | finish .. => true
  | _ => false

def new (workers depth : Nat) : Logbook := { pool := { workers, depth } }

/-- The tasks that have ended. -/
def done (s : Logbook) : List Nat := s.ended.map (·.1)

/-- What is left after an event, if the event is possible. -/
def perform (s : Logbook) : Event → Option Logbook
  | .submit => match s.pool.submit s.submitted with
    | some pool => some { s with
        pool, submitted := s.submitted + 1, accepted := s.accepted ++ [s.submitted] }
    | none => some { s with
        submitted := s.submitted + 1, rejected := s.rejected ++ [s.submitted] }
  | .start => s.pool.start.map fun (task, pool) => { s with pool, started := s.started ++ [task] }
  | .finish place ending => s.pool.active[place]?.map fun task =>
      { s with pool := s.pool.finish place, ended := s.ended ++ [(task, ending)] }
  | .drain => some { s with drains := s.drains ++ [s.accepted] }
  | .resume drain =>
    if s.pool.isIdle && decide (drain < s.drains.length) && !s.returned.contains drain then
      some { s with returned := s.returned ++ [drain] }
    else none

def run (events : List Event) (s : Logbook) : Option Logbook := events.foldlM perform s

variable {workers depth : Nat} {s s' : Logbook} {event : Event} {events : List Event}

/-- What every event keeps, every run keeps. -/
theorem run_keeps {P : Logbook → Prop} (hevent : ∀ s event s', P s → s.perform event = some s' → P s')
    (h : P s) (hrun : run events s = some s') : P s' := by
  induction events generalizing s with
  | nil =>
    cases hrun
    exact h
  | cons event rest ih =>
    obtain ⟨next, hnext, hrest⟩ := Option.bind_eq_some_iff.mp hrun
    exact ih (hevent s event next h hnext) hrest

/-- All that an event can do, with the conditions under which it can. -/
inductive Effect (s : Logbook) : Event → Logbook → Prop where
  | accept (room : s.pool.queue.length < s.pool.depth) :
      Effect s .submit { s with
        pool := { s.pool with queue := s.pool.queue ++ [s.submitted] }
        submitted := s.submitted + 1
        accepted := s.accepted ++ [s.submitted] }
  | reject :
      Effect s .submit { s with
        submitted := s.submitted + 1
        rejected := s.rejected ++ [s.submitted] }
  | start {task : Nat} {rest : List Nat} (queue : s.pool.queue = task :: rest) :
      Effect s .start { s with
        pool := { s.pool with queue := rest, active := s.pool.active ++ [task] }
        started := s.started ++ [task] }
  | finish {place task : Nat} {ending : Ending} (active : s.pool.active[place]? = some task) :
      Effect s (.finish place ending) { s with
        pool := { s.pool with
          active := s.pool.active.eraseIdx place
          completed := s.pool.completed + 1 }
        ended := s.ended ++ [(task, ending)] }
  | drain : Effect s .drain { s with drains := s.drains ++ [s.accepted] }
  | resume {drain : Nat} (queue : s.pool.queue = []) (active : s.pool.active = [])
      (called : drain < s.drains.length) :
      Effect s (.resume drain) { s with returned := s.returned ++ [drain] }

theorem effect_of_perform (h : s.perform event = some s') : Effect s event s' := by
  unfold perform at h
  cases event with
  | submit =>
    dsimp only at h
    split at h
    · next pool hsubmit =>
      unfold WorkerPool.submit at hsubmit
      split at hsubmit
      · cases hsubmit
      · obtain ⟨hroom, rfl⟩ := WorkerPool.push_eq_some_iff.mp hsubmit
        cases h
        exact .accept hroom
    · cases h
      exact .reject
  | start =>
    obtain ⟨⟨task, pool⟩, hstart, rfl⟩ := Option.map_eq_some_iff.mp h
    obtain ⟨-, rest, hqueue, rfl⟩ := WorkerPool.start_cases hstart
    exact .start hqueue
  | finish place ending =>
    obtain ⟨task, hplace, rfl⟩ := Option.map_eq_some_iff.mp h
    rw [WorkerPool.finish_eq hplace]
    exact .finish hplace
  | drain =>
    cases h
    exact .drain
  | resume drain =>
    dsimp only at h
    split at h
    · next hall =>
      cases h
      simp only [WorkerPool.isIdle, Bool.and_eq_true, List.isEmpty_iff, decide_eq_true_eq] at hall
      exact .resume hall.1.1.1 hall.1.1.2 hall.1.2
    · cases h

/-! ## What every run keeps -/

/-- The pool is the one that was made, and its books are in order. -/
structure Sound (workers depth : Nat) (s : Logbook) : Prop where
  crew : s.pool.workers = workers
  bound : s.pool.depth = depth
  /-- Nobody shuts the pool down, so no worker leaves. -/
  staffed : s.pool.departed = 0
  roomy : s.pool.queue.length ≤ depth
  numbered : (s.accepted ++ s.rejected).Perm (List.range s.submitted)
  inOrder : s.accepted = s.started ++ s.pool.queue
  placed : s.started.Perm (s.done ++ s.pool.active)
  counted : s.pool.completed = s.ended.length
  called : ∀ owed ∈ s.drains, owed ⊆ s.accepted
  known : ∀ drain ∈ s.returned, drain < s.drains.length
  drained : ∀ drain ∈ s.returned, ∀ owed, s.drains[drain]? = some owed → owed ⊆ s.done

theorem sound_new (workers depth : Nat) : (new workers depth).Sound workers depth :=
  ⟨rfl, rfl, rfl, Nat.zero_le _, .nil, rfl, .nil, rfl, nofun, nofun, nofun⟩

/-- In an idle pool everything that was accepted has ended. -/
theorem Sound.accepted_subset_done (h : s.Sound workers depth) (hqueue : s.pool.queue = [])
    (hactive : s.pool.active = []) : s.accepted ⊆ s.done := by
  intro task htask
  rw [h.inOrder, hqueue, List.append_nil] at htask
  have hplaced := h.placed.mem_iff.mp htask
  rwa [hactive, List.append_nil] at hplaced

theorem Sound.perform (h : s.Sound workers depth) (hevent : s.perform event = some s') :
    s'.Sound workers depth := by
  have hnumbered := h.numbered
  cases effect_of_perform hevent with
  | accept room =>
    have hroomy : (s.pool.queue ++ [s.submitted]).length ≤ depth := by
      rw [List.length_append, List.length_singleton, ← h.bound]
      exact room
    have hinOrder : s.accepted ++ [s.submitted] = s.started ++ (s.pool.queue ++ [s.submitted]) := by
      rw [← List.append_assoc, h.inOrder]
    refine ⟨h.crew, h.bound, h.staffed, hroomy, ?_, hinOrder, h.placed, h.counted, ?_, h.known,
      h.drained⟩
    · rw [List.range_succ, List.append_assoc]
      exact List.perm_middle.trans ((hnumbered.cons _).trans (List.perm_append_singleton _ _).symm)
    · exact fun owed howed => List.subset_append_of_subset_left _ (h.called owed howed)
  | reject =>
    refine ⟨h.crew, h.bound, h.staffed, h.roomy, ?_, h.inOrder, h.placed, h.counted, h.called,
      h.known, h.drained⟩
    rw [List.range_succ, ← List.append_assoc]
    exact hnumbered.append_right _
  | @start task rest queue =>
    have hroomy := h.roomy
    have hinOrder := h.inOrder
    rw [queue] at hroomy hinOrder
    refine ⟨h.crew, h.bound, h.staffed, Nat.le_of_succ_le hroomy, hnumbered, ?_, ?_, h.counted,
      h.called, h.known, h.drained⟩
    · rw [hinOrder, List.append_assoc]
      rfl
    · show (s.started ++ [task]).Perm (s.done ++ (s.pool.active ++ [task]))
      rw [← List.append_assoc]
      exact h.placed.append_right _
  | @finish place task ending active =>
    obtain ⟨hlt, hget⟩ := List.getElem?_eq_some_iff.mp active
    have hmoved : (task :: s.pool.active.eraseIdx place).Perm s.pool.active :=
      hget ▸ List.getElem_cons_eraseIdx_perm hlt
    have hdone : (s.ended ++ [(task, ending)]).map (·.1) = s.done ++ [task] := List.map_append
    refine ⟨h.crew, h.bound, h.staffed, h.roomy, hnumbered, h.inOrder, ?_, ?_, h.called,
      h.known, ?_⟩
    · unfold done
      rw [hdone, List.append_assoc]
      exact h.placed.trans (hmoved.symm.append_left _)
    · rw [List.length_append, List.length_singleton, ← h.counted]
    · intro drain hdrain owed howed
      unfold done
      rw [hdone]
      exact List.subset_append_of_subset_left _ (h.drained drain hdrain owed howed)
  | drain =>
    refine ⟨h.crew, h.bound, h.staffed, h.roomy, hnumbered, h.inOrder, h.placed, h.counted, ?_, ?_, ?_⟩
    · intro owed howed
      rcases List.mem_append.mp howed with hold | hnew
      · exact h.called owed hold
      · rw [List.mem_singleton.mp hnew]
        exact List.Subset.refl _
    · intro drain hdrain
      rw [List.length_append]
      exact Nat.lt_add_right 1 (h.known drain hdrain)
    · intro drain hdrain owed howed
      rw [List.getElem?_append_left (h.known drain hdrain)] at howed
      exact h.drained drain hdrain owed howed
  | @resume drain queue active called =>
    refine ⟨h.crew, h.bound, h.staffed, h.roomy, hnumbered, h.inOrder, h.placed, h.counted,
      h.called, ?_, ?_⟩
    · intro other hother
      rcases List.mem_append.mp hother with hold | hnew
      · exact h.known other hold
      · rw [List.mem_singleton.mp hnew]
        exact called
    · intro other _ owed howed
      have hcalled := h.called owed (List.mem_of_getElem? howed)
      exact List.Subset.trans hcalled (h.accepted_subset_done queue active)

theorem sound_run (h : run events (new workers depth) = some s) : s.Sound workers depth :=
  run_keeps (fun _ _ _ hs hevent => hs.perform hevent) (sound_new workers depth) h

/-! ## Workers get done -/

/-- The number of things that workers have to do until the pool is idle: each task that waits has to
be started and ended. -/
def effort (s : Logbook) : Nat := 2 * s.pool.queue.length + s.pool.active.length

theorem effort_perform (hwork : event.isWork = true) (h : s.perform event = some s') :
    s'.effort + 1 = s.effort := by
  cases effect_of_perform h with
  | start queue =>
    simp only [effort, queue, List.length_cons, List.length_append, List.length_nil]
    omega
  | finish active =>
    have hlt := (List.getElem?_eq_some_iff.mp active).1
    simp only [effort, List.length_eraseIdx_of_lt hlt]
    omega
  | accept | reject | drain | resume => cases hwork

theorem effort_run (hwork : ∀ event ∈ events, event.isWork = true) (h : run events s = some s') :
    s'.effort + events.length = s.effort := by
  induction events generalizing s with
  | nil =>
    cases h
    rfl
  | cons event rest ih =>
    obtain ⟨next, hnext, hrest⟩ := Option.bind_eq_some_iff.mp h
    obtain ⟨hfirst, hothers⟩ := List.forall_mem_cons.mp hwork
    have hdone := ih hothers hrest
    have hone := effort_perform hfirst hnext
    rw [List.length_cons]
    omega

/-- Either the worker of some task ends it, or all workers are idle and one takes up a task. -/
theorem Sound.perform_of_busy (h : s.Sound workers depth) (hworkers : 1 ≤ workers)
    (hbusy : s.pool.isIdle = false) :
    ∃ event : Event, event.isWork = true ∧ (s.perform event).isSome = true := by
  cases hactive : s.pool.active with
  | cons task rest =>
    refine ⟨.finish 0 .normal, rfl, ?_⟩
    simp [Logbook.perform, hactive]
  | nil =>
    cases hqueue : s.pool.queue with
    | nil => simp [WorkerPool.isIdle, hactive, hqueue] at hbusy
    | cons task rest =>
      refine ⟨.start, rfl, ?_⟩
      have hidle : 0 < s.pool.workers := by
        rw [h.crew]
        exact hworkers
      simp [Logbook.perform, WorkerPool.start, WorkerPool.hasIdleWorker, hactive, hqueue, h.staffed,
        hidle]

/-! ## Every run -/

/-- **A pool takes up every task that it accepts, once and in turn.** However submissions, workers and
drains interleave: at most `depth` tasks wait. Every submission is accepted or rejected, and what is
rejected is never started. What has been started is the front of what was accepted, and the rest of
it waits; no task is started twice. Each accepted task waits, or a worker is busy with it, or it has
been counted as completed. When a drain has returned, what was accepted before it began has ended.
And as long as the pool is not idle a worker can do something, of which there is only so much to do. -/
theorem started_in_turn (hworkers : 1 ≤ workers) (hrun : run events (new workers depth) = some s) :
    s.pool.queue.length ≤ depth ∧
    (s.accepted ++ s.rejected).Perm (List.range s.submitted) ∧
    (∀ task ∈ s.rejected, task ∉ s.started) ∧
    s.accepted = s.started ++ s.pool.queue ∧ s.started.Nodup ∧
    s.accepted.length = s.pool.queue.length + s.pool.active.length + s.pool.completed ∧
    (∀ drain ∈ s.returned, ∃ owed, s.drains[drain]? = some owed ∧ ∀ task ∈ owed, task ∈ s.done) ∧
    (s.pool.isIdle = false →
      ∃ event : Event, event.isWork = true ∧ (s.perform event).isSome = true) ∧
    ∀ work s', (∀ event ∈ work, Event.isWork event = true) → run work s = some s' →
      s'.effort + work.length = s.effort := by
  have hs : s.Sound workers depth := sound_run hrun
  have hnodup : (s.accepted ++ s.rejected).Nodup := hs.numbered.nodup_iff.mpr List.nodup_range
  have hstarted : s.started.Sublist s.accepted := by
    rw [hs.inOrder]
    exact List.sublist_append_left _ _
  refine ⟨hs.roomy, hs.numbered, ?_, hs.inOrder, ?_, ?_, ?_, hs.perform_of_busy hworkers,
    fun work s' => effort_run⟩
  · intro task hrejected htask
    exact (List.nodup_append.mp hnodup).2.2 task (hstarted.subset htask) task hrejected rfl
  · exact (List.nodup_append.mp hnodup).1.sublist hstarted
  · have hplaced := hs.placed.length_eq
    rw [hs.inOrder, List.length_append, hs.counted]
    rw [List.length_append, done, List.length_map] at hplaced
    omega
  · intro drain hdrain
    have hcalled := hs.known drain hdrain
    exact ⟨_, List.getElem?_eq_getElem hcalled,
      fun task => (hs.drained drain hdrain _ (List.getElem?_eq_getElem hcalled) ·)⟩

/-- A pool with two workers and room for one task. While two tasks run and one waits another is
refused; one task panics, and a drain that was called before the third task returns when all are
done. -/
def busyDay : List Event :=
  [.submit, .start, .submit, .start, .drain, .submit, .submit, .finish 1 .panic, .start,
    .finish 0 .normal, .finish 0 .normal, .resume 0]

theorem started_in_turn_on_busy_day :
    ∃ s, run busyDay (new 2 1) = some s ∧
      s.accepted = [0, 1, 2] ∧ s.rejected = [3] ∧ 3 ∉ s.started ∧ s.started = [0, 1, 2] ∧
      s.ended = [(1, .panic), (0, .normal), (2, .normal)] ∧ s.pool.completed = 3 ∧
      s.returned = [0] ∧ ∃ owed, s.drains[0]? = some owed ∧ ∀ task ∈ owed, task ∈ s.done := by
  have hrun : run busyDay (new 2 1) = some {
      pool := { workers := 2, depth := 1, completed := 3 }
      submitted := 4, accepted := [0, 1, 2], rejected := [3], started := [0, 1, 2]
      ended := [(1, .panic), (0, .normal), (2, .normal)], drains := [[0, 1]], returned := [0] } := rfl
  obtain ⟨-, -, hnever, -, -, -, hdrained, -⟩ := started_in_turn (by decide) hrun
  exact ⟨_, hrun, rfl, rfl, hnever 3 (List.mem_singleton_self 3), rfl, rfl, rfl, rfl,
    hdrained 0 (List.mem_singleton_self 0)⟩

end Logbook

end Sidecar
