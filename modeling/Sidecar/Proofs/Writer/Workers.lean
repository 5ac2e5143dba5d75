import Sidecar.Proofs.Files.Changes
import Sidecar.Proofs.WorkerPool.Traffic
import Sidecar.Writer.Builders
import Mathlib.Data.List.Nodup
import Mathlib.Data.List.Perm.Basic
import Mathlib.Logic.Relation

/-!
# What build workers do

Waiting for a build is a long function, but what happens while somebody waits are small things: a
worker starts a build, the engine writes, a worker reports, and around them other writers submit jobs
and other programs change files. `Builders.Step` is one of these, and a run of the pool, the
writer's own included (`waits_run`), is a sequence of them.

Two lemmas say what a step can do, and most of what follows opens no step again.

* `Step.jobs`: no job comes to the pool, or one is submitted under the next ticket. So a job on the
  pool was there before or is new (`Step.origin`), and tickets tell jobs apart (`Step.numbered`).
* `Step.agreeOff`: files are changed at the temporary paths of the jobs and at the places that others
  change.
-/

set_option autoImplicit false

namespace Sidecar

open Relation

namespace Builders

abbrev State := FileTree × Host × Builders

/-! ## Jobs and tickets -/

/-- The jobs that have not ended. -/
def tasks (b : Builders) : List Build := b.pool.queue ++ b.pool.active

/-- Every job has a ticket of its own, which was given out. -/
structure Numbered (b : Builders) : Prop where
  distinct : (b.tasks.map Build.ticket).Nodup
  given : ∀ build ∈ b.tasks, build.ticket < b.nextTicket

theorem numbered_new (config : WriterConfig) : (new config).Numbered :=
  ⟨List.nodup_nil, List.forall_mem_nil _⟩

theorem Numbered.eq_of_ticket {b : Builders} (h : b.Numbered) {x y : Build} (hx : x ∈ b.tasks)
    (hy : y ∈ b.tasks) (hticket : x.ticket = y.ticket) : x = y :=
  List.inj_on_of_nodup_map h.distinct hx hy hticket

/-- A change of one job that leaves its ticket alone. -/
def change (ticket : Nat) (f : Build → Build) (build : Build) : Build :=
  if build.ticket = ticket then f build else build

theorem change_of_ne {ticket : Nat} {f : Build → Build} {build : Build}
    (h : build.ticket ≠ ticket) : change ticket f build = build :=
  if_neg h

theorem tasks_modify (ticket : Nat) (f : Build → Build) (b : Builders) :
    (b.modify ticket f).tasks = b.tasks.map (change ticket f) := by
  rw [tasks, tasks, List.map_append]
  rfl

theorem active_modify (ticket : Nat) (f : Build → Build) (b : Builders) :
    (b.modify ticket f).pool.active = b.pool.active.map (change ticket f) := rfl

/-! ## Steps -/

/-- One thing that happens around the pool. Other writers and programs keep to some places. The engine
may panic at any moment of a build; a *tidy* one does so only before it has written anything. -/
inductive Step (others : Location → Prop) (tidy : Prop) : State → State → Prop where
  | start {files : FileTree} {host host' : Host} {b b' : Builders}
      (h : b.start host = some (host', b')) : Step others tidy (files, host, b) (files, host', b')
  /-- The engine has done with a started build what it does, at the output path. -/
  | write {files files' : FileTree} {host host' : Host} {b : Builders} {place : Nat}
      {build : Build} {result : Option (Except Error Unit)}
      (started : b.pool.active[place]? = some build)
      (confined : files.AgreeOff others (files.Places build.job.temporary) files')
      (returned : (build.course = some .panics ∧ result = none ∧ (tidy → files' = files)) ∨
        (build.course ≠ some .panics ∧ result.isSome = true)) :
      Step others tidy (files, host, b)
        (files', host', b.modify build.ticket fun x => { x with result })
  | report (place : Nat) (s : State) : Step others tidy s (report place s).2
  | abandon {files : FileTree} {host : Host} {b : Builders} (ticket : Nat) :
      Step others tidy (files, host, b) (files, host, b.abandon ticket)
  | close {files : FileTree} {host : Host} {b : Builders} :
      Step others tidy (files, host, b) (files, host, { b with pool := b.pool.close })
  | dismiss {files : FileTree} {host : Host} {b : Builders} :
      Step others tidy (files, host, b) (files, host, { b with pool := b.pool.dismiss })
  /-- Another writer submits a job. -/
  | submit {files : FileTree} {host : Host} {b b' : Builders} {job : BuildJob} {ticket : Nat}
      (h : b.submit job = some (ticket, b'))
      (elsewhere : others (files.destination job.temporary)) :
      Step others tidy (files, host, b) (files, host, b')
  /-- Time passes, or somebody else changes files. -/
  | pass {files files' : FileTree} {host host' : Host} {b : Builders}
      (h : files.AgreeOff others (fun _ => False) files') :
      Step others tidy (files, host, b) (files', host', b)

abbrev Steps (others : Location → Prop) (tidy : Prop) : State → State → Prop :=
  ReflTransGen (Step others tidy)

/-- Steps with an engine that panics, if it does, before it has written anything. -/
abbrev TidySteps (others : Location → Prop) : State → State → Prop := Steps others True

variable {others S : Location → Prop} {tidy : Prop} {s s' : State}

theorem Step.ofTidy (h : Step others True s s') : Step others tidy s s' := by
  cases h with
  | start h => exact .start h
  | write started confined returned =>
    refine .write started confined (returned.imp_left ?_)
    exact fun ⟨hpanics, hnone, hsame⟩ => ⟨hpanics, hnone, fun _ => hsame trivial⟩
  | report place => exact .report place s
  | abandon ticket => exact .abandon ticket
  | close => exact .close
  | dismiss => exact .dismiss
  | submit h elsewhere => exact .submit h elsewhere
  | pass h => exact .pass h

theorem TidySteps.steps (h : TidySteps others s s') : Steps others tidy s s' :=
  ReflTransGen.mono (fun _ _ => Step.ofTidy) _ _ h

theorem start_eq {host host' : Host} {b b' : Builders} (h : b.start host = some (host', b')) :
    ∃ task rest, b.pool.queue = task :: rest ∧ host' = host.startBuild.2 ∧
      b' = modify task.ticket (fun build => { build with course := some host.startBuild.1 })
        { b with pool := { b.pool with queue := rest, active := b.pool.active ++ [task] } } := by
  unfold start at h
  obtain ⟨⟨task, pool⟩, hstart, heq⟩ := Option.map_eq_some_iff.mp h
  obtain ⟨-, rest, hqueue, rfl⟩ := WorkerPool.start_cases hstart
  cases heq
  exact ⟨task, rest, hqueue, rfl, rfl⟩

theorem start_cases {host host' : Host} {b b' : Builders} (h : b.start host = some (host', b')) :
    ∃ task rest course, b.pool.queue = task :: rest ∧
      b' = modify task.ticket (fun build => { build with course := some course })
        { b with pool := { b.pool with queue := rest, active := b.pool.active ++ [task] } } := by
  obtain ⟨task, rest, hqueue, -, heq⟩ := start_eq h
  exact ⟨task, rest, _, hqueue, heq⟩

theorem submit_cases {b b' : Builders} {job : BuildJob} {ticket : Nat}
    (h : b.submit job = some (ticket, b')) : ticket = b.nextTicket ∧
      b' = { b with
        pool := { b.pool with queue := b.pool.queue ++ [{ ticket := b.nextTicket, job := job }] }
        nextTicket := b.nextTicket + 1 } := by
  unfold submit WorkerPool.submit WorkerPool.push at h
  split at h
  · cases h
  · split at h
    · cases h
    · simp only [Option.map_some, Option.some.injEq, Prod.mk.injEq] at h
      exact ⟨h.1.symm, h.2.symm⟩

theorem finish_tasks (b : Builders) (place : Nat) :
    List.Sublist ({ b with pool := b.pool.finish place } : Builders).tasks b.tasks := by
  unfold tasks WorkerPool.finish
  split
  · exact (List.Sublist.refl _).append (List.eraseIdx_sublist _ _)
  · exact List.Sublist.refl _

theorem tasks_finish {b : Builders} {place : Nat} {build : Build}
    (hplace : b.pool.active[place]? = some build) :
    (build :: ({ b with pool := b.pool.finish place } : Builders).tasks).Perm b.tasks := by
  obtain ⟨hlt, hget⟩ := List.getElem?_eq_some_iff.mp hplace
  unfold tasks WorkerPool.finish
  rw [if_pos hlt, ← hget]
  exact List.perm_middle.symm.trans (List.Perm.append_left _ (List.getElem_cons_eraseIdx_perm hlt))

/-- The jobs that are being run are moved within the pool. -/
theorem tasks_start {b : Builders} {task : Build} {rest : List Build}
    (h : b.pool.queue = task :: rest) :
    List.Perm ({ b with pool := { b.pool with queue := rest, active := b.pool.active ++ [task] } } :
      Builders).tasks b.tasks := by
  unfold tasks
  rw [h, ← List.append_assoc]
  exact List.perm_append_singleton _ _

theorem tasks_submit {b b' : Builders} {job : BuildJob} {ticket : Nat}
    (h : b.submit job = some (ticket, b')) :
    b'.tasks.Perm ({ ticket := b.nextTicket, job := job } :: b.tasks) := by
  obtain ⟨-, rfl⟩ := submit_cases h
  unfold tasks
  rw [List.append_assoc]
  exact List.perm_middle

theorem dismiss_cases (pool : WorkerPool Build) :
    ∃ departed, pool.dismiss = { pool with departed } := by
  unfold WorkerPool.dismiss
  split
  · exact ⟨_, rfl⟩
  · exact ⟨_, rfl⟩

theorem write_cases (place : Nat) (files : FileTree) (host : Host) (b : Builders) :
    (b.pool.active[place]? = none ∧ write place (files, host, b) = (files, host, b)) ∨
    ∃ build result files' host', b.pool.active[place]? = some build ∧
      Host.endBuild (build.course.getD .skips) build.job.ids build.job.vectors build.job.temporary
        (files, host) = (result, files', host') ∧
      write place (files, host, b)
        = (files', host', b.modify build.ticket fun x => { x with result }) := by
  unfold write
  cases hplace : b.pool.active[place]? with
  | none => exact Or.inl ⟨rfl, by simp only [hplace]⟩
  | some build =>
    refine Or.inr ?_
    rcases hend : Host.endBuild (build.course.getD .skips) build.job.ids build.job.vectors
      build.job.temporary (files, host) with ⟨result, files', host'⟩
    exact ⟨build, result, files', host', rfl, hend, by simp only [hplace, hend]⟩

theorem report_cases (place : Nat) (files : FileTree) (host : Host) (b : Builders) :
    (b.pool.active[place]? = none ∧ report place (files, host, b) = (none, files, host, b)) ∨
    ∃ build, b.pool.active[place]? = some build ∧
      report place (files, host, b) = (some build,
        (if build.isAbandoned && build.result.isSome then
          files.removeIfPossible build.job.temporary else files),
        host, { b with pool := b.pool.finish place }) := by
  unfold report
  cases hplace : b.pool.active[place]? with
  | none => exact Or.inl ⟨rfl, by simp only [hplace]⟩
  | some build => exact Or.inr ⟨build, rfl, by simp only [hplace]⟩

/-! ## What a step does to the jobs -/

/-- The job is the same, and has not been taken back by its writer. -/
structure Continues (old new : Build) : Prop where
  ticket : new.ticket = old.ticket
  job : new.job = old.job
  isAbandoned : old.isAbandoned = true → new.isAbandoned = true

theorem Continues.refl (build : Build) : Continues build build := ⟨rfl, rfl, id⟩

/-- No job has come to the pool. Some may have gone. -/
structure Keeps (b b' : Builders) : Prop where
  tasks : ∃ f, (∀ build, Continues build (f build)) ∧ b'.tasks.Subperm (b.tasks.map f)
  nextTicket : b'.nextTicket = b.nextTicket

theorem keeps_of_subperm {b b' : Builders} (h : b'.tasks.Subperm b.tasks)
    (hnext : b'.nextTicket = b.nextTicket) : Keeps b b' :=
  ⟨⟨id, Continues.refl, by rwa [List.map_id]⟩, hnext⟩

theorem keeps_modify (ticket : Nat) {f : Build → Build} (hf : ∀ build, Continues build (f build))
    {b b' : Builders} (h : b'.tasks.Perm b.tasks) (hnext : b'.nextTicket = b.nextTicket) :
    Keeps b (b'.modify ticket f) := by
  refine ⟨⟨change ticket f, ?_, ?_⟩, hnext⟩
  · intro build
    unfold change
    split
    · exact hf build
    · exact .refl build
  · rw [tasks_modify]
    exact (h.map _).subperm

theorem Step.jobs (h : Step others tidy s s') : Keeps s.2.2 s'.2.2 ∨
    ∃ job, others (s.1.destination job.temporary) ∧ s'.2.2.nextTicket = s.2.2.nextTicket + 1 ∧
      s'.2.2.tasks.Perm ({ ticket := s.2.2.nextTicket, job := job } :: s.2.2.tasks) := by
  cases h with
  | start h =>
    obtain ⟨task, rest, course, hqueue, rfl⟩ := start_cases h
    refine Or.inl (keeps_modify _ ?_ (tasks_start hqueue) rfl)
    exact fun _ => ⟨rfl, rfl, id⟩
  | write _ _ _ =>
    refine Or.inl (keeps_modify _ ?_ (.refl _) rfl)
    exact fun _ => ⟨rfl, rfl, id⟩
  | report place =>
    obtain ⟨files, host, b⟩ := s
    rcases report_cases place files host b with ⟨-, heq⟩ | ⟨build, -, heq⟩
    · rw [heq]
      exact Or.inl (keeps_of_subperm (.refl _) rfl)
    · rw [heq]
      exact Or.inl (keeps_of_subperm (finish_tasks b place).subperm rfl)
  | abandon ticket =>
    refine Or.inl (keeps_modify _ ?_ (.refl _) rfl)
    exact fun _ => ⟨rfl, rfl, fun _ => rfl⟩
  | close => exact Or.inl (keeps_of_subperm (.refl _) rfl)
  | @dismiss files host b =>
    obtain ⟨departed, heq⟩ := dismiss_cases b.pool
    rw [heq]
    exact Or.inl (keeps_of_subperm (.refl _) rfl)
  | @submit files host b b' job ticket h elsewhere =>
    have hperm := tasks_submit h
    obtain ⟨-, rfl⟩ := submit_cases h
    exact Or.inr ⟨job, elsewhere, rfl, hperm⟩
  | pass => exact Or.inl (keeps_of_subperm (.refl _) rfl)

theorem Step.origin (h : Step others tidy s s') {build : Build} (hbuild : build ∈ s'.2.2.tasks) :
    (∃ old ∈ s.2.2.tasks, Continues old build) ∨
    (build.ticket = s.2.2.nextTicket ∧ others (s.1.destination build.job.temporary)) := by
  rcases h.jobs with hkeeps | ⟨job, helsewhere, -, hperm⟩
  · obtain ⟨f, hf, hsub⟩ := hkeeps.tasks
    obtain ⟨old, hold, rfl⟩ := List.mem_map.mp (hsub.subset hbuild)
    exact Or.inl ⟨old, hold, hf old⟩
  · rcases List.mem_cons.mp (hperm.mem_iff.mp hbuild) with rfl | hold
    · exact Or.inr ⟨rfl, helsewhere⟩
    · exact Or.inl ⟨build, hold, .refl build⟩

theorem Step.nextTicket_le (h : Step others tidy s s') : s.2.2.nextTicket ≤ s'.2.2.nextTicket := by
  rcases h.jobs with hkeeps | ⟨_, -, hnext, -⟩
  · exact Nat.le_of_eq hkeeps.nextTicket.symm
  · exact hnext ▸ Nat.le_succ _

theorem Keeps.numbered {b b' : Builders} (h : Keeps b b') (hb : b.Numbered) : b'.Numbered := by
  obtain ⟨f, hf, hsub⟩ := h.tasks
  refine ⟨?_, ?_⟩
  · obtain ⟨builds, hperm, hsublist⟩ := hsub
    have htickets : (b.tasks.map f).map Build.ticket = b.tasks.map Build.ticket := by
      rw [List.map_map]
      exact List.map_congr_left fun build _ => (hf build).ticket
    rw [← (hperm.map _).nodup_iff]
    exact hb.distinct.sublist (htickets ▸ hsublist.map _)
  · intro build hbuild
    obtain ⟨old, hold, rfl⟩ := List.mem_map.mp (hsub.subset hbuild)
    rw [(hf old).ticket, h.nextTicket]
    exact hb.given old hold

theorem Step.numbered (h : Step others tidy s s') (hs : s.2.2.Numbered) : s'.2.2.Numbered := by
  rcases h.jobs with hkeeps | ⟨job, -, hnext, hperm⟩
  · exact hkeeps.numbered hs
  · refine ⟨(hperm.map _).nodup_iff.mpr (List.nodup_cons.mpr ⟨?_, hs.distinct⟩), ?_⟩
    · intro hmem
      obtain ⟨build, hbuild, heq⟩ := List.mem_map.mp hmem
      exact Nat.lt_irrefl _ (heq ▸ hs.given build hbuild)
    · intro build hbuild
      rw [hnext]
      rcases List.mem_cons.mp (hperm.mem_iff.mp hbuild) with rfl | hold
      · exact Nat.lt_succ_self _
      · exact Nat.lt_succ_of_lt (hs.given build hold)

/-! ## What a step does to the files -/

/-- The jobs write at the given places. -/
def Within (S : Location → Prop) (files : FileTree) (b : Builders) : Prop :=
  ∀ build ∈ b.tasks, S (files.destination build.job.temporary)

theorem Within.of_eq {files files' : FileTree} {b : Builders} (h : Within S files b)
    (heq : files'.workingDirectory = files.workingDirectory) : Within S files' b := by
  intro build hbuild
  rw [FileTree.destination_eq heq]
  exact h build hbuild

theorem mem_tasks_of_active {b : Builders} {place : Nat} {build : Build}
    (h : b.pool.active[place]? = some build) : build ∈ b.tasks :=
  List.mem_append_right _ (List.mem_of_getElem? h)

theorem Step.agreeOff (h : Step others tidy s s')
    (hS : ∀ build ∈ s.2.2.tasks, ∀ loc, s.1.Places build.job.temporary loc →
      others loc ∨ S loc) : s.1.AgreeOff others S s'.1 := by
  cases h with
  | start _ => exact .refl _ _ _
  | write hstarted hconfined _ => exact hconfined.mono (hS _ (mem_tasks_of_active hstarted))
  | report place =>
    obtain ⟨files, host, b⟩ := s
    rcases report_cases place files host b with ⟨-, heq⟩ | ⟨build, hplace, heq⟩
    · rw [heq]
      exact .refl _ _ _
    · rw [heq]
      dsimp only
      split
      · exact (files.agreeOff_removeIfPossible others _).mono
          (hS build (mem_tasks_of_active hplace))
      · exact .refl _ _ _
  | abandon _ => exact .refl _ _ _
  | close => exact .refl _ _ _
  | dismiss => exact .refl _ _ _
  | submit _ _ => exact .refl _ _ _
  | pass h => exact h.mono fun _ => False.elim

/-- As long as all jobs write where others do, only others change files. -/
theorem Steps.agreeOff (h : Steps others tidy s s') (hwithin : Within others s.1 s.2.2) :
    s.1.AgreeOff others (fun _ => False) s'.1 ∧ Within others s'.1 s'.2.2 := by
  induction h with
  | refl => exact ⟨.refl _ _ _, hwithin⟩
  | tail _ hstep ih =>
    have hagree := hstep.agreeOff (S := fun _ => False) fun build hbuild loc hplaces =>
      Or.inl (hplaces.eq_destination ▸ ih.2 build hbuild)
    refine ⟨ih.1.trans hagree, ?_⟩
    intro build hbuild
    rw [FileTree.destination_eq hagree.workingDirectory]
    rcases hstep.origin hbuild with ⟨old, hold, hcontinues⟩ | ⟨-, helsewhere⟩
    · rw [hcontinues.job]
      exact ih.2 old hold
    · exact helsewhere

/-! ## The engine of the host -/

theorem agreeOff_endBuild (free : Location → Prop) {course : Host.Course} {ids : List DocId}
    {vectors : List Embedding} {output : Path} {files files' : FileTree} {host host' : Host}
    {result : Option (Except Error Unit)}
    (h : Host.endBuild course ids vectors output (files, host) = (result, files', host')) :
    files.AgreeOff free (files.Places output) files' := by
  unfold Host.endBuild at h
  dsimp only at h
  split at h
  · cases h
    exact .refl _ _ _
  · cases h
    exact .refl _ _ _
  · split at h
    · cases h
      exact .refl _ _ _
    · split at h
      · next hbuild =>
        cases h
        unfold FlatIndex.build at hbuild
        split at hbuild
        · cases hbuild
        · dsimp only at hbuild
          split at hbuild
          · cases hbuild
          · split at hbuild
            · next hwrite =>
              cases hbuild
              exact FileTree.agreeOff_write free hwrite
            · cases hbuild
      · cases h
        exact .refl _ _ _

theorem endBuild_cases {course : Host.Course} {ids : List DocId} {vectors : List Embedding}
    {output : Path} {files files' : FileTree} {host host' : Host}
    {result : Option (Except Error Unit)}
    (h : Host.endBuild course ids vectors output (files, host) = (result, files', host')) :
    (course = .panics ∧ result = none ∧ files' = files) ∨
      (course ≠ .panics ∧ result.isSome = true) := by
  unfold Host.endBuild at h
  dsimp only at h
  split at h
  · cases h
    exact Or.inl ⟨rfl, rfl, rfl⟩
  · cases h
    exact Or.inr ⟨nofun, rfl⟩
  · refine Or.inr ⟨nofun, ?_⟩
    split at h
    · cases h
      rfl
    · split at h <;> (cases h; rfl)

theorem write_steps (others : Location → Prop) (place : Nat) (s : State) :
    TidySteps others s (write place s) := by
  obtain ⟨files, host, b⟩ := s
  rcases write_cases place files host b with ⟨-, heq⟩ |
    ⟨build, result, files', host', hstarted, hend, heq⟩
  · rw [heq]
  · rw [heq]
    refine .single (.write hstarted (agreeOff_endBuild others hend) ?_)
    rcases endBuild_cases hend with ⟨hpanics, hnone, hfiles⟩ | ⟨hcourse, hresult⟩
    · refine Or.inl ⟨?_, hnone, fun _ => hfiles⟩
      cases hbuild : build.course with
      | none =>
        rw [hbuild] at hpanics
        cases hpanics
      | some course =>
        rw [hbuild] at hpanics
        exact congrArg some hpanics
    · refine Or.inr ⟨?_, hresult⟩
      intro hpanics
      rw [hpanics] at hcourse
      exact hcourse rfl

/-! ## Waiting for a job -/

theorem Steps.numbered (h : Steps others tidy s s') (hs : s.2.2.Numbered) :
    s'.2.2.Numbered ∧ s.2.2.nextTicket ≤ s'.2.2.nextTicket := by
  induction h with
  | refl => exact ⟨hs, Nat.le_refl _⟩
  | tail _ hstep ih => exact ⟨hstep.numbered ih.1, Nat.le_trans ih.2 hstep.nextTicket_le⟩

/-- A job that has ended does not come back. -/
theorem Steps.gone (h : Steps others tidy s s') {ticket : Nat} (hgiven : ticket < s.2.2.nextTicket)
    (hgone : ∀ build ∈ s.2.2.tasks, build.ticket ≠ ticket) :
    ∀ build ∈ s'.2.2.tasks, build.ticket ≠ ticket := by
  have hboth : ticket < s'.2.2.nextTicket ∧ ∀ build ∈ s'.2.2.tasks, build.ticket ≠ ticket := by
    induction h with
    | refl => exact ⟨hgiven, hgone⟩
    | tail _ hstep ih =>
      refine ⟨Nat.lt_of_lt_of_le ih.1 hstep.nextTicket_le, ?_⟩
      intro build hbuild
      rcases hstep.origin hbuild with ⟨old, hold, hcontinues⟩ | ⟨hnew, -⟩
      · rw [hcontinues.ticket]
        exact ih.2 old hold
      · rw [hnew]
        exact Nat.ne_of_gt ih.1
  exact hboth.2

theorem gone_of_report {place : Nat} {files files' : FileTree} {host host' : Host}
    {b b' : Builders} {build : Build} (hb : b.Numbered)
    (h : report place (files, host, b) = (some build, files', host', b')) :
    ∀ other ∈ b'.tasks, other.ticket ≠ build.ticket := by
  rcases report_cases place files host b with ⟨-, heq⟩ | ⟨build', hplace, heq⟩
  · rw [heq] at h
    cases h
  · rw [heq] at h
    cases h
    have hdistinct := ((tasks_finish hplace).map Build.ticket).nodup_iff.mpr hb.distinct
    rw [List.map_cons, List.nodup_cons] at hdistinct
    intro other hother heq
    exact hdistinct.1 (heq ▸ List.mem_map_of_mem hother)

theorem startMany_steps (others : Location → Prop) (n : Nat) (files : FileTree) (host : Host)
    (b : Builders) : TidySteps others (files, host, b) (files, startMany n (host, b)) := by
  induction n generalizing host b with
  | zero => exact .refl
  | succ n ih =>
    unfold startMany
    cases hstart : b.start host with
    | none => exact .refl
    | some state =>
      obtain ⟨host', b'⟩ := state
      exact .head (.start hstart) (ih host' b')

theorem complete_steps (others : Location → Prop) (place : Nat) (s : State) :
    TidySteps others s (complete place s).2 := by
  have hreport : Step others True (write place s) (report place (write place s)).2 := .report place _
  refine (write_steps others place s).trans (.head hreport ?_)
  unfold complete
  rcases report place (write place s) with ⟨ended, files', host', b'⟩
  exact startMany_steps others _ files' host' b'

theorem completeMany_steps (others : Location → Prop) (n : Nat) (s : State) :
    TidySteps others s (completeMany n s) := by
  induction n generalizing s with
  | zero => exact .refl
  | succ n ih =>
    unfold completeMany
    cases s.2.2.next with
    | none => exact .refl
    | some found => exact (complete_steps others found.1 s).trans (ih _)

/-- A shutdown is made of steps. -/
theorem shutdown_steps (others : Location → Prop) (s : State) : TidySteps others s (shutdown s) := by
  obtain ⟨files, host, b⟩ := s
  refine .head .close ?_
  unfold shutdown
  dsimp only
  have hmany := completeMany_steps others (b.pool.close).size
    (files, host, { b with pool := b.pool.close })
  rcases hend : completeMany (b.pool.close).size (files, host, { b with pool := b.pool.close })
    with ⟨files', host', b'⟩
  rw [hend] at hmany
  exact hmany.tail .dismiss

theorem gone_of_complete {place : Nat} {build : Build} (hs : s.2.2.Numbered)
    (h : complete place s = (some build, s')) :
    ∀ other ∈ s'.2.2.tasks, other.ticket ≠ build.ticket := by
  have hnumbered := ((write_steps (fun _ => True) place s).numbered hs).1
  unfold complete at h
  rcases hw : write place s with ⟨files, host, b⟩
  rw [hw] at hnumbered h
  rcases hr : report place (files, host, b) with ⟨ended, files', host', b'⟩
  rw [hr] at h
  have hstart : TidySteps (fun _ => True) (files', host', b') (files', b'.startAll host') :=
    startMany_steps _ _ files' host' b'
  cases h
  have hgiven : build.ticket < b'.nextTicket := by
    rcases report_cases place files host b with ⟨-, heq⟩ | ⟨_, hplace, heq⟩
    · rw [heq] at hr
      cases hr
    · rw [heq] at hr
      cases hr
      exact hnumbered.given _ (mem_tasks_of_active hplace)
  exact hstart.gone hgiven (gone_of_report hnumbered hr)

theorem await_spec (others : Location → Prop) {ticket : Nat} {deadline : Option Nat} {n : Nat}
    {answer : Option (Option (Except Error Unit))} (hs : s.2.2.Numbered)
    (h : await ticket deadline n s = (answer, s')) :
    TidySteps others s s' ∧
      (answer.isSome → ∀ build ∈ s'.2.2.tasks, build.ticket ≠ ticket) := by
  induction n generalizing s with
  | zero =>
    cases h
    exact ⟨.refl, nofun⟩
  | succ n ih =>
    obtain ⟨files, host, b⟩ := s
    have hlate : ∀ host', TidySteps others (files, host, b) (files, host', b) :=
      fun host' => .single (.pass (.refl _ _ _))
    unfold await at h
    dsimp only at h
    split at h
    · cases h
      exact ⟨hlate _, nofun⟩
    · next place due _ =>
      split at h
      · cases h
        exact ⟨hlate _, nofun⟩
      · have hsteps := complete_steps others place (files, host, b)
        rcases hc : complete place (files, host, b) with ⟨_ | build, state⟩
        · rw [hc] at h hsteps
          cases h
          exact ⟨hsteps, nofun⟩
        · rw [hc] at h hsteps
          dsimp only at h
          split at h
          · next hticket =>
            cases h
            exact ⟨hsteps, fun _ => hticket ▸ gone_of_complete hs hc⟩
          · obtain ⟨hmore, hended⟩ := ih (hsteps.numbered hs).1 h
            exact ⟨hsteps.trans hmore, hended⟩

theorem isAbandoned_of_abandon {ticket : Nat} {b : Builders} {build : Build}
    (h : build ∈ (b.abandon ticket).tasks) (hticket : build.ticket = ticket) :
    build.isAbandoned = true := by
  rw [abandon, tasks_modify] at h
  obtain ⟨old, -, rfl⟩ := List.mem_map.mp h
  by_cases hold : old.ticket = ticket
  · simp [change, hold]
  · rw [change_of_ne hold] at hticket
    exact absurd hticket hold

/-- A writer has submitted a job and waited for it, while others went on. When it comes back, the
job was refused, or it has ended, or it is abandoned. -/
inductive Waited (others : Location → Prop) (job : BuildJob) (s s' : State) :
    BuildOutcome → Prop where
  | refused (h : Steps others False s s') : Waited others job s s' .rejected
  | back {outcome : BuildOutcome} {ticket : Nat} {files : FileTree} {host : Host} {b b' : Builders}
      (taken : outcome ≠ .rejected) (before : Steps others False s (files, host, b))
      (h : b.submit job = some (ticket, b')) (after : Steps others False (files, host, b') s')
      (abandoned : ∀ build ∈ s'.2.2.tasks, build.ticket = ticket → build.isAbandoned = true) :
      Waited others job s s' outcome

/-- Jobs are run by writers that wait for them. -/
def Waits (others : Location → Prop) (run : BuildJob → State → BuildOutcome × State) : Prop :=
  ∀ job s, s.2.2.Numbered → Waited others job s (run job s).2 (run job s).1

theorem waits_run (others : Location → Prop) (timeoutMs : Option Nat) :
    Waits others (run timeoutMs) := by
  rintro job ⟨files, host, b⟩ hs
  unfold run
  dsimp only
  cases hsubmit : b.submit job with
  | none => exact .refused .refl
  | some submitted =>
    obtain ⟨ticket, b₁⟩ := submitted
    dsimp only
    have hsubmitted : Step (fun _ => True) True (files, host, b) (files, host, b₁) :=
      .submit hsubmit trivial
    have hnumbered : b₁.Numbered := hsubmitted.numbered hs
    have hstart : Steps others False (files, host, b₁) (files, b₁.startAll host) :=
      (startMany_steps others _ files host b₁).steps
    rcases hall : b₁.startAll host with ⟨host₂, b₂⟩
    rw [hall] at hstart
    dsimp only
    rcases hawait : await ticket (timeoutMs.map fun ms => host₂.elapsed + ms * 1000000)
      b₂.pool.size (files, host₂, b₂) with ⟨answer, files₃, host₃, b₃⟩
    obtain ⟨htidy, hgone⟩ := await_spec others (hstart.numbered hnumbered).1 hawait
    have hsteps : Steps others False (files, host₂, b₂) (files₃, host₃, b₃) := htidy.steps
    rcases answer with _ | _ | result
    · refine .back nofun .refl hsubmit ((hstart.trans hsteps).tail (.abandon ticket)) ?_
      exact fun build hbuild hticket => isAbandoned_of_abandon hbuild hticket
    · refine .back nofun .refl hsubmit (hstart.trans hsteps) ?_
      exact fun build hbuild hticket => absurd hticket (hgone rfl build hbuild)
    · refine .back nofun .refl hsubmit (hstart.trans hsteps) ?_
      exact fun build hbuild hticket => absurd hticket (hgone rfl build hbuild)

end Builders

end Sidecar
