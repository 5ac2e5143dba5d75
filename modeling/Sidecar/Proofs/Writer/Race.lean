import Sidecar.Proofs.Writer.Retry

/-!
# Two builds at a time

With more than one worker the job that the writer has abandoned and the job of the next write of the
same sidecar can be run at once, and both build into the same temporary file. If the abandoned one
builds last, then the writer renames its file when the other one reports that it has ended well: the
write returns without an error, and the sidecar holds the values of the write that failed
(`exists_overwritten`). The flag does not help, since a job looks at it after it has built.

More workers can do what fewer do (`run_withWorkers`), so one run of two workers is enough.
-/

set_option autoImplicit false

namespace Sidecar

open Builders FileTree Writer

namespace Workshop

variable {s s' : Workshop} {step : Step} {steps : List Step} {n : Nat}

/-! ## More workers -/

/-- The same with another number of workers. -/
def withWorkers (n : Nat) (s : Workshop) : Workshop :=
  { s with builders := { s.builders with pool := { s.builders.pool with workers := n } } }

variable {n : Nat}

theorem submit_withWorkers (n : Nat) (b : Builders) (job : BuildJob) :
    Builders.submit job { b with pool := { b.pool with workers := n } }
      = (b.submit job).map fun (ticket, b') =>
        (ticket, { b' with pool := { b'.pool with workers := n } }) := by
  unfold Builders.submit WorkerPool.submit WorkerPool.push
  dsimp only
  split
  · rfl
  · split <;> rfl

theorem start_withWorkers {b b' : Builders} {host host' : Host} (hn : b.pool.workers ≤ n)
    (h : b.start host = some (host', b')) :
    Builders.start host { b with pool := { b.pool with workers := n } }
      = some (host', { b' with pool := { b'.pool with workers := n } }) := by
  unfold Builders.start at h ⊢
  obtain ⟨⟨task, pool⟩, hstart, heq⟩ := Option.map_eq_some_iff.mp h
  obtain ⟨hidle, rest, hqueue, rfl⟩ := WorkerPool.start_cases hstart
  cases heq
  have hidle' : b.pool.active.length + b.pool.departed < n := Nat.lt_of_lt_of_le hidle hn
  simp only [WorkerPool.start, WorkerPool.hasIdleWorker, hidle', hqueue, decide_true, if_true,
    Option.map_some]
  rfl

theorem write_withWorkers (n place : Nat) (s : Workshop) :
    Builders.write place (s.files, s.host, (s.withWorkers n).builders)
      = ((Builders.write place (s.files, s.host, s.builders)).1,
        (Builders.write place (s.files, s.host, s.builders)).2.1,
        { (Builders.write place (s.files, s.host, s.builders)).2.2 with
          pool := { (Builders.write place (s.files, s.host, s.builders)).2.2.pool with
            workers := n } }) := by
  unfold Builders.write withWorkers
  dsimp only
  split <;> rfl

theorem advance_withWorkers (h : s.advance = some s') :
    (s.withWorkers n).advance = some (s'.withWorkers n) := by
  unfold advance at h ⊢
  dsimp only [withWorkers]
  split at h
  · cases h
  · next job hstage =>
    simp only [submit_withWorkers]
    split at h
    · next hsubmit =>
      cases h
      simp [hsubmit]
    · next hsubmit =>
      cases h
      simp [hsubmit]
  · obtain ⟨message, hsent, rfl⟩ := Option.map_eq_some_iff.mp h
    simp [hsent]
  · cases h
    rfl
  · cases h
    rfl
  · cases h
    rfl
  · split at h
    · next hrename =>
      cases h
      simp
    · next hrename =>
      cases h
      simp

theorem finish_withWorkers (n place : Nat) (s : Workshop) :
    (s.withWorkers n).finish place = (s.finish place).withWorkers n := by
  unfold finish WorkerPool.finish withWorkers
  dsimp only
  split <;> rfl

theorem perform_withWorkers (hn : s.builders.pool.workers ≤ n) (h : s.perform step = some s') :
    (s.withWorkers n).perform step = some (s'.withWorkers n) := by
  unfold perform at h ⊢
  cases step with
  | mark job =>
    dsimp only [withWorkers] at h ⊢
    split at h
    · split at h
      · cases h
        simp
      · cases h
        simp
    · cases h
  | go => exact advance_withWorkers h
  | expire =>
    dsimp only [withWorkers] at h ⊢
    split at h
    · split at h
      · next hlate =>
        cases h
        simp [hlate]
      · cases h
    · cases h
  | start =>
    obtain ⟨⟨host, builders⟩, hstart, rfl⟩ := Option.map_eq_some_iff.mp h
    simp [withWorkers, start_withWorkers hn hstart]
  | build place =>
    obtain ⟨build, hplace, hbuild⟩ := Option.bind_eq_some_iff.mp h
    refine Option.bind_eq_some_iff.mpr ⟨build, hplace, ?_⟩
    rcases hcourse : build.course with _ | _ | _ | due <;>
      rcases hresult : build.result with _ | result <;> simp only [hcourse, hresult] at hbuild ⊢
    all_goals first
      | cases hbuild; done
      | cases hbuild
        exact congrArg (fun written => some { s.withWorkers n with
          files := written.1, host := written.2.1, builders := written.2.2 })
          (write_withWorkers n place s)
  | look place =>
    obtain ⟨build, hplace, hlook⟩ := Option.bind_eq_some_iff.mp h
    refine Option.bind_eq_some_iff.mpr ⟨build, hplace, ?_⟩
    split at hlook
    · next hready =>
      cases hlook
      exact if_pos hready
    · cases hlook
  | retire place =>
    obtain ⟨build, hplace, hretire⟩ := Option.bind_eq_some_iff.mp h
    refine Option.bind_eq_some_iff.mpr ⟨build, hplace, ?_⟩
    rw [finish_withWorkers]
    split at hretire
    · next hpanics =>
      cases hretire
      exact if_pos hpanics
    · next hcalm =>
      obtain ⟨isAbandoned, hlooked, rfl⟩ := Option.map_eq_some_iff.mp hretire
      rw [if_neg hcalm]
      refine Option.map_eq_some_iff.mpr ⟨isAbandoned, hlooked, ?_⟩
      cases isAbandoned <;> rfl
  | pass time =>
    cases h
    rfl

theorem run_withWorkers (hn : s.builders.pool.workers ≤ n) (h : run steps s = some s') :
    run steps (s.withWorkers n) = some (s'.withWorkers n) := by
  induction steps generalizing s with
  | nil =>
    cases h
    rfl
  | cons step rest ih =>
    obtain ⟨next, hnext, hrest⟩ := Option.bind_eq_some_iff.mp h
    refine Option.bind_eq_some_iff.mpr ⟨_, perform_withWorkers hn hnext, ih ?_ hrest⟩
    rw [workers_perform hnext]
    exact hn

/-! ## A race -/

/-- The second job is built first, then the abandoned one, and then the second is published. -/
def atOnce : List Step :=
  [.mark second, .go, .start, .build 1, .build 0, .look 1, .retire 1, .go, .go, .look 0, .retire 0]

/-- Both writes have returned, the second one well, and both jobs have ended. The sidecar holds what
the first one built. -/
structure Overwritten (s : Workshop) : Prop where
  returned : s.returned = [(second, .ok ()), (first, .error (.buildTimeout "_0_flat1.hnsw" 20))]
  ended : s.builders.pool.isIdle = true
  holds : s.files.stat second.path = .ok (.file (FlatIndex.encode first.ids first.vectors))

theorem run_atOnce :
    ∃ s, run (givingUp ++ atOnce) (new desk {} (impatient 2)) = some s ∧ Overwritten s := by
  have hall : (run (givingUp ++ atOnce) (new desk {} (impatient 2))).map (fun s =>
      (s.returned, s.builders.pool.isIdle, s.files.stat second.path))
      = some ([(second, .ok ()), (first, .error (.buildTimeout "_0_flat1.hnsw" 20))], true,
        .ok (.file (FlatIndex.encode first.ids first.vectors))) := by
    decide +kernel
  obtain ⟨s, hrun, heq⟩ := Option.map_eq_some_iff.mp hall
  obtain ⟨hreturned, hrest⟩ := Prod.mk.inj heq
  obtain ⟨hended, hholds⟩ := Prod.mk.inj hrest
  exact ⟨s, hrun, hreturned, hended, hholds⟩

/-- It can happen whenever there is more than one worker. -/
theorem exists_overwritten {buildThreads : Nat} (h : 2 ≤ buildThreads) :
    ∃ s, run (givingUp ++ atOnce) (new desk {} (impatient buildThreads)) = some s ∧
      Overwritten s := by
  obtain ⟨s, hrun, hover⟩ := run_atOnce
  have hnew : (new desk {} (impatient 2)).withWorkers buildThreads
      = new desk {} (impatient buildThreads) := by
    have hmax : max buildThreads 1 = buildThreads := Nat.max_eq_left (by omega)
    simp [new, withWorkers, Builders.new, impatient, hmax]
  refine ⟨s.withWorkers buildThreads, ?_, hover.returned, hover.ended, hover.holds⟩
  rw [← hnew]
  exact run_withWorkers h hrun

/-- Two workers: the first write has timed out, the second one has returned well, and what it has
published are the values of the first. -/
theorem overwritten_of_two :
    ∃ s, run (givingUp ++ atOnce) (new desk {} (impatient 2)) = some s ∧
      s.returned = [(second, .ok ()), (first, .error (.buildTimeout "_0_flat1.hnsw" 20))] ∧
      s.files.stat second.path = .ok (.file (FlatIndex.encode first.ids first.vectors)) ∧
      s.files.stat second.path ≠ .ok (.file (FlatIndex.encode second.ids second.vectors)) := by
  obtain ⟨s, hrun, hover⟩ := run_atOnce
  refine ⟨s, hrun, hover.returned, hover.holds, ?_⟩
  rw [hover.holds]
  decide +kernel

end Workshop

end Sidecar
