import Sidecar.Proofs.Writer.Workers

/-!
# The workshop

`Writer.build` runs a build from the marker to the final file as if nothing came in between. In truth
the writer and every build worker go on step by step, and a `Workshop.Step` is what one of them does
without the others seeing anything of it halfway.

* The writer makes the marker, submits the job, and waits for the answer of the job or for the limit
  to pass. If it passes then the writer abandons the job, which is to set a flag, and removes the two
  files. If the build ended well it renames the temporary file.
* A worker starts a job, builds into the temporary file, looks at the flag, and either removes the
  file or sends the result. Between any two of these the flag may be set.

The writer writes one sidecar after the other. Two writes of the same sidecar have the same paths, and
the job of the first may be about still when the second one is built.
-/

set_option autoImplicit false

namespace Sidecar

namespace Workshop

/-- How far the writer has come with a write. -/
inductive Stage where
  | free
  /-- The marker is there. -/
  | marked (job : BuildJob)
  | waiting (ticket : Nat) (job : BuildJob)
  /-- The limit has passed, and the job does not know yet. -/
  | expired (ticket : Nat) (job : BuildJob)
  /-- The write fails, and the temporary file has to be removed. -/
  | sweeping (job : BuildJob) (e : Error)
  /-- The write fails, and the marker has to be removed. -/
  | clearing (job : BuildJob) (e : Error)
  /-- The build has ended well, and its file has to be renamed. -/
  | publishing (job : BuildJob)
  deriving Repr

namespace Stage

/-- What the writer is writing. -/
def job? : Stage → Option BuildJob
  | free => none
  | marked job | waiting _ job | expired _ job | sweeping job _ | clearing job _ | publishing job =>
    some job

/-- The write does not come to a good end any more. -/
inductive Failing : Stage → Prop where
  | expired (ticket : Nat) (job : BuildJob) : Failing (.expired ticket job)
  | sweeping (job : BuildJob) (e : Error) : Failing (.sweeping job e)
  | clearing (job : BuildJob) (e : Error) : Failing (.clearing job e)

theorem Failing.calm {stage : Stage} (h : stage.Failing) :
    (∀ ticket job, stage ≠ .waiting ticket job) ∧ ∀ job, stage ≠ .publishing job := by
  cases h <;> exact ⟨nofun, nofun⟩

end Stage

end Workshop

/-- A writer with its build workers. -/
structure Workshop where
  files : FileTree
  host : Host
  builders : Builders
  /-- How long the writer waits for a build. -/
  timeoutMs : Option Nat
  stage : Workshop.Stage := .free
  /-- Whether a job was abandoned when its worker looked, by tickets. -/
  looked : List (Nat × Bool) := []
  /-- What has come of a job, by tickets. A job that panics sends no result, but its end is noticed. -/
  sent : List (Nat × Option (Except Error Unit)) := []
  /-- The writes that have returned, last first. -/
  returned : List (BuildJob × Except Error Unit) := []
  deriving Repr

namespace Workshop

/-- What the writer or a worker does at once. -/
inductive Step where
  /-- The writer begins to write a sidecar. -/
  | mark (job : BuildJob)
  /-- The writer goes on with its write. -/
  | go
  /-- The limit passes. -/
  | expire
  /-- A worker takes the next job. -/
  | start
  /-- The engine builds. -/
  | build (place : Nat)
  /-- A worker looks whether its job is abandoned. -/
  | look (place : Nat)
  /-- A worker sends the result or removes its file, and is done with the job. -/
  | retire (place : Nat)
  /-- Time passes. -/
  | pass (time : Nat)
  deriving DecidableEq, Repr

def new (files : FileTree) (host : Host) (config : WriterConfig) : Workshop :=
  { files, host, builders := .new config, timeoutMs := config.buildTimeoutMs }

/-- What the writer makes of the answer of a job. -/
def answer (job : BuildJob) : Option (Except Error Unit) → Stage
  | some (.ok ()) => .publishing job
  | some (.error e) => .sweeping job e
  | none => .sweeping job (.buildFailed job.path.text "build worker exited without a result")

/-- The next step of the writer. There is none while it waits for an answer. -/
def advance (s : Workshop) : Option Workshop :=
  match s.stage with
  | .free => none
  | .marked job => match s.builders.submit job with
    | some (ticket, builders) => some { s with builders, stage := .waiting ticket job }
    | none => some { s with stage := .clearing job (.buildRejected job.path.text) }
  | .waiting ticket job => (s.sent.lookup ticket).map fun sent =>
      { s with stage := answer job sent }
  | .expired ticket job => some { s with
      builders := s.builders.abandon ticket
      stage := .sweeping job (.buildTimeout job.path.text (s.timeoutMs.getD 0)) }
  | .sweeping job e => some { s with
      files := s.files.removeIfPossible job.temporary
      stage := .clearing job e }
  | .clearing job e => some { s with
      files := s.files.removeIfPossible job.path
      stage := .free
      returned := (job, .error e) :: s.returned }
  | .publishing job => match s.files.rename job.temporary job.path with
    | .ok files => some { s with
        files
        stage := .free
        returned := (job, .ok ()) :: s.returned }
    | .error cause => some { s with stage := .sweeping job (.io cause.message) }

/-- A worker is done with the job at a place. -/
def finish (place : Nat) (s : Workshop) : Workshop :=
  { s with builders := { s.builders with pool := s.builders.pool.finish place } }

/-- What is left after a step, if the step is possible. -/
def perform (s : Workshop) : Step → Option Workshop
  | .mark job => match s.stage with
    | .free => match s.files.create job.path with
      | .ok files => some { s with files, stage := .marked job }
      | .error cause =>
        some { s with returned := (job, .error (.io cause.message)) :: s.returned }
    | _ => none
  | .go => s.advance
  | .expire => match s.stage with
    | .waiting ticket job =>
      if s.timeoutMs.isSome && (s.sent.lookup ticket).isNone then
        some { s with stage := .expired ticket job }
      else none
    | _ => none
  | .start => (s.builders.start s.host).map fun (host, builders) => { s with host, builders }
  | .build place => s.builders.pool.active[place]?.bind fun build =>
      match build.course, build.result with
      | none, _ | some .panics, _ | _, some _ => none
      | some _, none =>
        let (files, host, builders) := Builders.write place (s.files, s.host, s.builders)
        some { s with files, host, builders }
  | .look place => s.builders.pool.active[place]?.bind fun build =>
      if build.result.isSome && (s.looked.lookup build.ticket).isNone then
        some { s with looked := (build.ticket, build.isAbandoned) :: s.looked }
      else none
  | .retire place => s.builders.pool.active[place]?.bind fun build =>
      if build.course = some .panics then
        some { s.finish place with sent := (build.ticket, none) :: s.sent }
      else (s.looked.lookup build.ticket).map fun isAbandoned =>
        if isAbandoned then
          { s.finish place with files := s.files.removeIfPossible build.job.temporary }
        else { s.finish place with sent := (build.ticket, build.result) :: s.sent }
  | .pass time => some { s with host := s.host.passUntil time }

def run (steps : List Step) (s : Workshop) : Option Workshop := steps.foldlM perform s

/-- The property holds before, between and after the steps. -/
def Throughout (P : Workshop → Prop) : List Step → Workshop → Prop
  | [], s => P s
  | step :: rest, s => P s ∧ ∀ s', s.perform step = some s' → Throughout P rest s'

variable {s s' s'' : Workshop} {step : Step} {steps : List Step}

theorem run_append (front back : List Step) (s : Workshop) :
    run (front ++ back) s = (run front s).bind (run back) :=
  List.foldlM_append

theorem throughout_of_keeps {P : Workshop → Prop}
    (hstep : ∀ s step s', P s → s.perform step = some s' → P s') (h : P s) :
    Throughout P steps s := by
  induction steps generalizing s with
  | nil => exact h
  | cons step rest ih => exact ⟨h, fun s' hs' => ih (hstep s step s' h hs')⟩

theorem Throughout.imp {P Q : Workshop → Prop} (h : Throughout P steps s)
    (himp : ∀ s, P s → Q s) : Throughout Q steps s := by
  induction steps generalizing s with
  | nil => exact himp s h
  | cons step rest ih => exact ⟨himp s h.1, fun s' hs' => ih (h.2 s' hs')⟩

/-! ## What a step can do -/

/-- All that a step can do. A write that starts to fail is left alone until its files are removed. -/
inductive Effect (s : Workshop) : Step → Workshop → Prop where
  | mark {job : BuildJob} {files : FileTree} (free : s.stage = .free)
      (made : s.files.create job.path = .ok files) :
      Effect s (.mark job) { s with files, stage := .marked job }
  | unmarked {job : BuildJob} {e : Error} (free : s.stage = .free) :
      Effect s (.mark job) { s with returned := (job, .error e) :: s.returned }
  | submit {job : BuildJob} {ticket : Nat} {builders : Builders} (marked : s.stage = .marked job)
      (taken : s.builders.submit job = some (ticket, builders)) :
      Effect s .go { s with builders, stage := .waiting ticket job }
  | receive {ticket : Nat} {job : BuildJob} (waiting : s.stage = .waiting ticket job)
      (came : s.sent.lookup ticket = some (some (.ok ()))) :
      Effect s .go { s with stage := .publishing job }
  | fail {act : Step} {job : BuildJob} {stage : Stage} (before : s.stage.job? = some job)
      (after : stage.job? = some job) (failing : stage.Failing) :
      Effect s act { s with stage }
  | abandon {ticket : Nat} {job : BuildJob} {e : Error} (expired : s.stage = .expired ticket job) :
      Effect s .go { s with builders := s.builders.abandon ticket, stage := .sweeping job e }
  | sweep {job : BuildJob} {e : Error} (sweeping : s.stage = .sweeping job e) :
      Effect s .go { s with
        files := s.files.removeIfPossible job.temporary
        stage := .clearing job e }
  | clear {job : BuildJob} {e : Error} (clearing : s.stage = .clearing job e) :
      Effect s .go { s with
        files := s.files.removeIfPossible job.path
        stage := .free
        returned := (job, .error e) :: s.returned }
  | publish {job : BuildJob} {files : FileTree} (publishing : s.stage = .publishing job)
      (renamed : s.files.rename job.temporary job.path = .ok files) :
      Effect s .go { s with files, stage := .free, returned := (job, .ok ()) :: s.returned }
  | start {host : Host} {builders : Builders}
      (started : s.builders.start s.host = some (host, builders)) :
      Effect s .start { s with host, builders }
  | build {place : Nat} {build : Build} {course : Host.Course}
      {result : Option (Except Error Unit)} {files : FileTree} {host : Host}
      (active : s.builders.pool.active[place]? = some build) (started : build.course = some course)
      (ended : Host.endBuild course build.job.ids build.job.vectors build.job.temporary
        (s.files, s.host) = (result, files, host)) :
      Effect s (.build place) { s with
        files, host
        builders := s.builders.modify build.ticket fun x => { x with result } }
  | look {place : Nat} {looked : List (Nat × Bool)} : Effect s (.look place) { s with looked }
  | discard {place : Nat} {build : Build} (active : s.builders.pool.active[place]? = some build) :
      Effect s (.retire place) { s.finish place with
        files := s.files.removeIfPossible build.job.temporary }
  | send {place : Nat} {build : Build} {result : Option (Except Error Unit)}
      (active : s.builders.pool.active[place]? = some build)
      (own : result = none ∨ result = build.result) :
      Effect s (.retire place) { s.finish place with sent := (build.ticket, result) :: s.sent }
  | pass {time : Nat} : Effect s (.pass time) { s with host := s.host.passUntil time }

theorem effect_of_advance (h : s.advance = some s') : Effect s .go s' := by
  unfold advance at h
  split at h
  · cases h
  · next job hstage =>
    split at h
    · next hsubmit =>
      cases h
      exact .submit hstage hsubmit
    · cases h
      have hbefore : s.stage.job? = some job := by rw [hstage]; rfl
      exact .fail hbefore rfl (.clearing _ _)
  · next ticket job hstage =>
    obtain ⟨message, hsent, rfl⟩ := Option.map_eq_some_iff.mp h
    have hbefore : s.stage.job? = some job := by rw [hstage]; rfl
    match message with
    | some (.ok ()) => exact .receive hstage hsent
    | some (.error e) => exact .fail hbefore rfl (.sweeping job e)
    | none => exact .fail hbefore rfl (.sweeping job _)
  · next hstage =>
    cases h
    exact .abandon hstage
  · next hstage =>
    cases h
    exact .sweep hstage
  · next hstage =>
    cases h
    exact .clear hstage
  · next job hstage =>
    split at h
    · next hrename =>
      cases h
      exact .publish hstage hrename
    · cases h
      have hbefore : s.stage.job? = some job := by rw [hstage]; rfl
      exact .fail hbefore rfl (.sweeping _ _)

theorem effect_of_perform (h : s.perform step = some s') : Effect s step s' := by
  unfold perform at h
  cases step with
  | mark job =>
    dsimp only at h
    split at h
    · next hstage =>
      split at h
      · next hcreate =>
        cases h
        exact .mark hstage hcreate
      · cases h
        exact .unmarked hstage
    · cases h
  | go => exact effect_of_advance h
  | expire =>
    dsimp only at h
    split at h
    · next ticket job hstage =>
      split at h
      · cases h
        have hbefore : s.stage.job? = some job := by rw [hstage]; rfl
        exact .fail hbefore rfl (.expired ticket job)
      · cases h
    · cases h
  | start =>
    obtain ⟨⟨host, builders⟩, hstart, rfl⟩ := Option.map_eq_some_iff.mp h
    exact .start hstart
  | build place =>
    obtain ⟨build, hplace, hbuild⟩ := Option.bind_eq_some_iff.mp h
    split at hbuild
    · cases hbuild
    · cases hbuild
    · cases hbuild
    · next course _ hcourse _ =>
      rcases Builders.write_cases place s.files s.host s.builders with ⟨hnone, -⟩ |
        ⟨build', result, files, host, hplace', hend, heq⟩
      · rw [hnone] at hplace
        cases hplace
      · obtain rfl : build = build' := Option.some.inj (hplace.symm.trans hplace')
        rw [hcourse, Option.getD_some] at hend
        simp only [heq] at hbuild
        cases hbuild
        exact .build hplace hcourse hend
  | look place =>
    obtain ⟨build, -, hlook⟩ := Option.bind_eq_some_iff.mp h
    split at hlook
    · cases hlook
      exact .look
    · cases hlook
  | retire place =>
    obtain ⟨build, hplace, hretire⟩ := Option.bind_eq_some_iff.mp h
    split at hretire
    · cases hretire
      exact .send hplace (Or.inl rfl)
    · obtain ⟨isAbandoned, -, rfl⟩ := Option.map_eq_some_iff.mp hretire
      split
      · exact .discard hplace
      · exact .send hplace (Or.inr rfl)
  | pass time =>
    cases h
    exact .pass

end Workshop

/-! ## The order of the jobs -/

namespace Builders

variable {b b' : Builders} {host host' : Host} {x y : Build}

/-- The jobs that have not ended, in the order in which they came. -/
def line (b : Builders) : List Build := b.pool.active ++ b.pool.queue

/-- No job has come to the pool, and the others are in the order in which they were. -/
def Follows (b b' : Builders) : Prop :=
  b'.nextTicket = b.nextTicket ∧
    ∃ f : Build → Build, (∀ build, (f build).ticket = build.ticket ∧ (f build).job = build.job) ∧
      b'.line.Sublist (b.line.map f)

theorem Follows.refl (b : Builders) : Follows b b :=
  ⟨rfl, id, fun _ => ⟨rfl, rfl⟩, by rw [List.map_id]⟩

theorem Follows.origin (h : Follows b b') (hx : x ∈ b'.line) :
    ∃ old ∈ b.line, old.ticket = x.ticket ∧ old.job = x.job := by
  obtain ⟨-, f, hf, hsub⟩ := h
  obtain ⟨old, hold, rfl⟩ := List.mem_map.mp (hsub.subset hx)
  exact ⟨old, hold, (hf old).1.symm, (hf old).2.symm⟩

theorem change_keeps {ticket : Nat} {f : Build → Build}
    (hf : ∀ build, (f build).ticket = build.ticket ∧ (f build).job = build.job) (build : Build) :
    (change ticket f build).ticket = build.ticket ∧ (change ticket f build).job = build.job := by
  unfold change
  split
  · exact hf build
  · exact ⟨rfl, rfl⟩

theorem line_modify (ticket : Nat) (f : Build → Build) (b : Builders) :
    (b.modify ticket f).line = b.line.map (change ticket f) := by
  rw [line, line, List.map_append]
  rfl

/-- A worker takes the job that is next in the line. -/
theorem line_start {task : Build} {rest : List Build} (h : b.pool.queue = task :: rest) :
    line { b with pool := { b.pool with queue := rest, active := b.pool.active ++ [task] } }
      = b.line := by
  simp [line, h]

theorem follows_modify (ticket : Nat) {f : Build → Build}
    (hf : ∀ build, (f build).ticket = build.ticket ∧ (f build).job = build.job)
    (hline : b'.line = b.line) (hnext : b'.nextTicket = b.nextTicket) :
    Follows b (b'.modify ticket f) := by
  refine ⟨hnext, change ticket f, change_keeps hf, ?_⟩
  rw [line_modify, hline]

theorem follows_start (h : b.start host = some (host', b')) : Follows b b' := by
  obtain ⟨task, rest, course, hqueue, rfl⟩ := start_cases h
  exact follows_modify _ (fun _ => ⟨rfl, rfl⟩) (line_start hqueue) rfl

theorem line_finish (b : Builders) (place : Nat) :
    (line { b with pool := b.pool.finish place }).Sublist b.line := by
  unfold line WorkerPool.finish
  split
  · exact (List.eraseIdx_sublist _ _).append (List.Sublist.refl _)
  · exact List.Sublist.refl _

theorem follows_finish (b : Builders) (place : Nat) :
    Follows b { b with pool := b.pool.finish place } :=
  ⟨rfl, id, fun _ => ⟨rfl, rfl⟩, by rw [List.map_id]; exact line_finish b place⟩

/-- Jobs are started in the order of their tickets. -/
structure InOrder (b : Builders) : Prop where
  ascending : (b.line.map Build.ticket).Pairwise (· < ·)
  given : ∀ build ∈ b.line, build.ticket < b.nextTicket

theorem inOrder_new (config : WriterConfig) : (new config).InOrder :=
  ⟨List.Pairwise.nil, List.forall_mem_nil _⟩

theorem InOrder.follows (h : b.InOrder) (hfollows : Follows b b') : b'.InOrder := by
  refine ⟨?_, ?_⟩
  · obtain ⟨-, f, hf, hsub⟩ := hfollows
    have htickets : (b.line.map f).map Build.ticket = b.line.map Build.ticket := by
      rw [List.map_map]
      exact List.map_congr_left fun build _ => (hf build).1
    exact h.ascending.sublist (htickets ▸ hsub.map _)
  · intro build hbuild
    obtain ⟨old, hold, hticket, -⟩ := hfollows.origin hbuild
    rw [← hticket, hfollows.1]
    exact h.given old hold

theorem InOrder.submit {job : BuildJob} {ticket : Nat} (h : b.InOrder)
    (hsubmit : b.submit job = some (ticket, b')) : b'.InOrder := by
  obtain ⟨-, rfl⟩ := submit_cases hsubmit
  constructor
  · simp only [line, ← List.append_assoc, List.map_append, List.map_singleton]
    refine List.pairwise_append.mpr ⟨?_, List.pairwise_singleton _ _, ?_⟩
    · rw [← List.map_append]
      exact h.ascending
    · rw [← List.map_append]
      intro ticket hticket new hnew
      obtain ⟨build, hbuild, rfl⟩ := List.mem_map.mp hticket
      rw [List.mem_singleton.mp hnew]
      exact h.given build hbuild
  · intro build hbuild
    simp only [line, ← List.append_assoc] at hbuild
    rcases List.mem_append.mp hbuild with hold | hnew
    · exact Nat.lt_succ_of_lt (h.given build hold)
    · rw [List.mem_singleton.mp hnew]
      exact Nat.lt_succ_self _

theorem InOrder.eq_of_ticket (h : b.InOrder) (hx : x ∈ b.line) (hy : y ∈ b.line)
    (hticket : x.ticket = y.ticket) : x = y :=
  List.inj_on_of_nodup_map (h.ascending.imp Nat.ne_of_lt) hx hy hticket

theorem mem_line_of_active (h : x ∈ b.pool.active) : x ∈ b.line := List.mem_append_left _ h

theorem mem_line_of_queue (h : x ∈ b.pool.queue) : x ∈ b.line := List.mem_append_right _ h

theorem InOrder.lt (h : b.InOrder) (hx : x ∈ b.pool.active) (hy : y ∈ b.pool.queue) :
    x.ticket < y.ticket := by
  have hascending := h.ascending
  rw [line, List.map_append, List.pairwise_append] at hascending
  exact hascending.2.2 _ (List.mem_map_of_mem hx) _ (List.mem_map_of_mem hy)

/-- When the last job that was submitted is being run, no job waits. -/
theorem InOrder.active_of_newest (h : b.InOrder) (hx : x ∈ b.pool.active)
    (hnewest : b.nextTicket = x.ticket + 1) (hy : y ∈ b.line) : y ∈ b.pool.active := by
  rcases List.mem_append.mp hy with hactive | hqueue
  · exact hactive
  · have hlt := h.lt hx hqueue
    have hgiven := h.given y hy
    omega

theorem mem_active_of_finish {place : Nat} (h : x ∈ (b.pool.finish place).active) :
    x ∈ b.pool.active := by
  unfold WorkerPool.finish at h
  split at h
  · exact List.eraseIdx_subset h
  · exact h

/-- When a job has ended, the others that are being run have other tickets. -/
theorem InOrder.ne_of_finish {place : Nat} (h : b.InOrder) (hplace : b.pool.active[place]? = some x)
    (hy : y ∈ ({ b with pool := b.pool.finish place } : Builders).line) : y.ticket ≠ x.ticket := by
  have hperm : (x :: ({ b with pool := b.pool.finish place } : Builders).line).Perm b.line := by
    obtain ⟨hlt, hget⟩ := List.getElem?_eq_some_iff.mp hplace
    rw [line, line, WorkerPool.finish_eq hplace, ← hget, ← List.cons_append]
    exact (List.getElem_cons_eraseIdx_perm hlt).append_right _
  have hdistinct : (b.line.map Build.ticket).Nodup := h.ascending.imp Nat.ne_of_lt
  rw [← (hperm.map _).nodup_iff, List.map_cons, List.nodup_cons] at hdistinct
  intro heq
  exact hdistinct.1 (heq ▸ List.mem_map_of_mem hy)

end Builders

end Sidecar
