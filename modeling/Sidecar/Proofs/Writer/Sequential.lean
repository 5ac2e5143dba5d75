import Sidecar.Proofs.Writer.Awaited
import Sidecar.Proofs.Writer.Workshop

/-!
# A write by itself

`Writer.build` is what the writer and its workers do when the workers take their three steps with a
job one right after the other, as soon as its build is due, and idle workers start the next jobs at
once. That is one run of the workshop among others (`exists_run_of_build`), so what holds for every
run holds for it. Such a run leaves the workshop as it has to be for the next one, and a new workshop
is like that (`settled_new`).
-/

set_option autoImplicit false

namespace Sidecar

open Builders

namespace Workshop

variable {s s' s'' : Workshop} {place ticket : Nat} {host : Host} {b : Builders} {x : Build}

/-- Files, host and workers. -/
def state (s : Workshop) : State := (s.files, s.host, s.builders)

/-- The ticket is that of a job that has not ended, or of one that is still to come. -/
def Pending (s : Workshop) (ticket : Nat) : Prop :=
  (∃ build ∈ s.builders.line, build.ticket = ticket) ∨ s.builders.nextTicket ≤ ticket

/-- No worker is between two of its steps: each job has not been built yet or has ended. -/
structure Settled (s : Workshop) : Prop where
  inOrder : s.builders.InOrder
  unbuilt : ∀ build ∈ s.builders.line, build.result = none
  started : ∀ build ∈ s.builders.pool.active, build.course.isSome = true
  fresh : ∀ ticket, s.Pending ticket →
    s.looked.lookup ticket = none ∧ s.sent.lookup ticket = none

theorem settled_new (files : FileTree) (host : Host) (config : WriterConfig) :
    (new files host config).Settled :=
  ⟨inOrder_new config, List.forall_mem_nil _, List.forall_mem_nil _, fun _ _ => ⟨rfl, rfl⟩⟩

/-- Workers go on while the writer stays where it is. -/
structure Onward (s s' : Workshop) : Prop where
  reached : ∃ steps, run steps s = some s'
  stage : s'.stage = s.stage
  returned : s'.returned = s.returned
  timeoutMs : s'.timeoutMs = s.timeoutMs
  nextTicket : s'.builders.nextTicket = s.builders.nextTicket
  jobs : ∀ build ∈ s'.builders.line, ∃ old ∈ s.builders.line,
    old.ticket = build.ticket ∧ old.isAbandoned = build.isAbandoned
  settled : s'.Settled

theorem Settled.onward (h : s.Settled) : Onward s s :=
  ⟨⟨[], rfl⟩, rfl, rfl, rfl, rfl, fun build hbuild => ⟨build, hbuild, rfl, rfl⟩, h⟩

theorem Onward.trans (h : Onward s s') (h' : Onward s' s'') : Onward s s'' := by
  obtain ⟨steps, hsteps⟩ := h.reached
  obtain ⟨more, hmore⟩ := h'.reached
  refine ⟨⟨steps ++ more, ?_⟩, h'.stage.trans h.stage, h'.returned.trans h.returned,
    h'.timeoutMs.trans h.timeoutMs, h'.nextTicket.trans h.nextTicket, ?_, h'.settled⟩
  · rw [run, List.foldlM_append]
    exact Option.bind_eq_some_iff.mpr ⟨s', hsteps, hmore⟩
  · intro build hbuild
    obtain ⟨middle, hmiddle, hticket, habandoned⟩ := h'.jobs build hbuild
    obtain ⟨old, hold, hticket', habandoned'⟩ := h.jobs middle hmiddle
    exact ⟨old, hold, hticket'.trans hticket, habandoned'.trans habandoned⟩

/-! ## Workers -/

section Without

variable {result : Option (Except Error Unit)}

theorem inOrder_modify (h : b.InOrder) (x : Build) (result : Option (Except Error Unit)) :
    (b.modify x.ticket fun build => { build with result }).InOrder :=
  h.follows (follows_modify _ (fun _ => ⟨rfl, rfl⟩) rfl rfl)

theorem without_unbuilt (h : ∀ build ∈ b.line, build.result = none) (place : Nat) (x : Build) :
    b.without place x none = { b with pool := b.pool.finish place } := by
  have hsame : ∀ build ∈ b.line,
      change x.ticket (fun build => { build with result := none }) build = build := by
    intro build hbuild
    unfold change
    split
    · rw [← h build hbuild]
    · rfl
  have hmodify : b.modify x.ticket (fun build => { build with result := none }) = b := by
    have hqueue := List.map_congr_left fun build hbuild => hsame build (mem_line_of_queue hbuild)
    have hactive := List.map_congr_left fun build hbuild => hsame build (mem_line_of_active hbuild)
    rw [List.map_id'] at hqueue hactive
    unfold Builders.modify WorkerPool.mapTasks
    change { b with pool := { b.pool with
      queue := b.pool.queue.map (change x.ticket fun build => { build with result := none })
      active := b.pool.active.map (change x.ticket fun build => { build with result := none }) } } = b
    rw [hqueue, hactive]
  rw [Builders.without, hmodify]

/-- The others are what they were. -/
theorem mem_of_without (h : b.InOrder) (hplace : b.pool.active[place]? = some x)
    (result : Option (Except Error Unit)) :
    (∀ y ∈ (b.without place x result).line, y ∈ b.line ∧ y.ticket ≠ x.ticket) ∧
    ∀ y ∈ (b.without place x result).pool.active, y ∈ b.pool.active := by
  have hother : ∀ y ∈ (b.without place x result).line, y.ticket ≠ x.ticket := by
    intro y hy
    have hne := (inOrder_modify h x result).ne_of_finish (active_modify_self hplace _) hy
    exact hne
  have hsame : ∀ old : Build, (change x.ticket (fun build => { build with result }) old).ticket
      ≠ x.ticket → change x.ticket (fun build => { build with result }) old = old := by
    intro old hne
    unfold change at hne ⊢
    split at hne
    · next heq => exact absurd heq hne
    · next heq => exact if_neg heq
  refine ⟨fun y hy => ⟨?_, hother y hy⟩, fun y hy => ?_⟩
  · have hline := (line_finish _ place).subset hy
    rw [line_modify] at hline
    obtain ⟨old, hold, rfl⟩ := List.mem_map.mp hline
    rwa [hsame old (hother _ hy)]
  · have hactive := mem_active_of_finish hy
    rw [active_modify] at hactive
    obtain ⟨old, hold, rfl⟩ := List.mem_map.mp hactive
    rwa [hsame old (hother _ (mem_line_of_active hy))]

end Without

theorem Settled.start (h : s.Settled) (hstart : s.builders.start s.host = some (host, b)) :
    Onward s { s with host, builders := b } := by
  have hrun : run [.start] s = some { s with host, builders := b } := by
    simp [run, perform, hstart]
  have hinOrder := h.inOrder.follows (follows_start hstart)
  obtain ⟨task, rest, course, hqueue, rfl⟩ := start_cases hstart
  have hjobs : ∀ build ∈ (Builders.modify task.ticket (fun x => { x with course := some course })
      { s.builders with pool := { s.builders.pool with
        queue := rest, active := s.builders.pool.active ++ [task] } }).line,
      ∃ old ∈ s.builders.line, old.ticket = build.ticket ∧ old.isAbandoned = build.isAbandoned ∧
        old.result = build.result := by
    intro build hbuild
    rw [line_modify, line_start hqueue] at hbuild
    obtain ⟨old, hold, rfl⟩ := List.mem_map.mp hbuild
    refine ⟨old, hold, ?_⟩
    unfold change
    split <;> exact ⟨rfl, rfl, rfl⟩
  refine ⟨⟨_, hrun⟩, rfl, rfl, rfl, rfl, ?_, hinOrder, ?_, ?_, ?_⟩
  · intro build hbuild
    obtain ⟨old, hold, hticket, habandoned, -⟩ := hjobs build hbuild
    exact ⟨old, hold, hticket, habandoned⟩
  · intro build hbuild
    obtain ⟨old, hold, -, -, hresult⟩ := hjobs build hbuild
    rw [← hresult]
    exact h.unbuilt old hold
  · intro build hbuild
    rw [active_modify] at hbuild
    obtain ⟨old, hold, rfl⟩ := List.mem_map.mp hbuild
    by_cases hsame : old.ticket = task.ticket
    · simp [change, hsame]
    · rw [change_of_ne hsame]
      rcases List.mem_append.mp hold with hactive | htask
      · exact h.started old hactive
      · exact absurd (congrArg Build.ticket (List.mem_singleton.mp htask)) hsame
  · rintro ticket (⟨build, hbuild, rfl⟩ | hlater)
    · obtain ⟨old, hold, hticket, -⟩ := hjobs build hbuild
      exact h.fresh _ (Or.inl ⟨old, hold, hticket⟩)
    · exact h.fresh ticket (Or.inr hlater)

/-- Idle workers start jobs. -/
theorem Settled.startMany (h : s.Settled) (n : Nat) :
    ∃ s', Onward s s' ∧ s'.state = (s.files, Builders.startMany n (s.host, s.builders)) ∧
      s'.sent = s.sent := by
  induction n generalizing s with
  | zero => exact ⟨s, h.onward, rfl, rfl⟩
  | succ n ih =>
    unfold Builders.startMany
    cases hstart : s.builders.start s.host with
    | none => exact ⟨s, h.onward, rfl, rfl⟩
    | some started =>
      obtain ⟨host, b⟩ := started
      have hfirst := h.start hstart
      obtain ⟨s', honward, hstate, hsent⟩ := ih hfirst.settled
      exact ⟨s', hfirst.trans honward, hstate, hsent⟩

theorem Settled.onward_without (h : s.Settled) {files : FileTree}
    {result : Option (Except Error Unit)} {looked : List (Nat × Bool)}
    {sent : List (Nat × Option (Except Error Unit))}
    (hplace : s.builders.pool.active[place]? = some x)
    (hrun : ∃ steps, run steps s = some
      { s with files, host, builders := s.builders.without place x result, looked, sent })
    (hlooked : ∀ ticket, ticket ≠ x.ticket → looked.lookup ticket = s.looked.lookup ticket)
    (hsent : ∀ ticket, ticket ≠ x.ticket → sent.lookup ticket = s.sent.lookup ticket) :
    Onward s { s with files, host, builders := s.builders.without place x result, looked, sent } := by
  obtain ⟨hline, hactive⟩ := mem_of_without h.inOrder hplace result
  refine ⟨hrun, rfl, rfl, rfl, rfl, fun y hy => ⟨y, (hline y hy).1, rfl, rfl⟩,
    (inOrder_modify h.inOrder x result).follows (follows_finish _ place),
    fun y hy => h.unbuilt y (hline y hy).1, fun y hy => h.started y (hactive y hy), ?_⟩
  intro ticket hpending
  have hother : ticket ≠ x.ticket ∧ s.Pending ticket := by
    rcases hpending with ⟨y, hy, rfl⟩ | hlater
    · exact ⟨(hline y hy).2, Or.inl ⟨y, (hline y hy).1, rfl⟩⟩
    · have hgiven := h.inOrder.given x (mem_line_of_active (List.mem_of_getElem? hplace))
      exact ⟨Nat.ne_of_gt (Nat.lt_of_lt_of_le hgiven hlater), Or.inr hlater⟩
  dsimp only
  rw [hlooked ticket hother.1, hsent ticket hother.1]
  exact h.fresh ticket hother.2

/-- A worker builds, looks and reports, and nothing comes in between. Then idle workers start jobs. -/
theorem Settled.retire (h : s.Settled) (hplace : s.builders.pool.active[place]? = some x) :
    ∃ s' ended, Onward s s' ∧ Builders.complete place s.state
        = (some ended, s'.files, s'.builders.startAll s'.host) ∧
      ended.ticket = x.ticket ∧ ended.isAbandoned = x.isAbandoned ∧
      (∀ ticket, ticket ≠ x.ticket → s'.sent.lookup ticket = s.sent.lookup ticket) ∧
      (x.isAbandoned = false → s'.sent.lookup x.ticket = some ended.result) := by
  have hactive := List.mem_of_getElem? hplace
  have hline := mem_line_of_active hactive
  obtain ⟨course, hcourse⟩ := Option.isSome_iff_exists.mp (h.started x hactive)
  obtain ⟨result, files, host, hend, hcomplete⟩ := complete_cases s.files s.host hplace
  rw [hcourse, Option.getD_some] at hend
  have hwrite : Builders.write place (s.files, s.host, s.builders)
      = (files, host, s.builders.modify x.ticket fun build => { build with result }) := by
    simp [Builders.write, hplace, hcourse, hend]
  have hlookup : ∀ {α : Type} (entry : α) (entries : List (Nat × α)) (ticket : Nat),
      ticket ≠ x.ticket → ((x.ticket, entry) :: entries).lookup ticket = entries.lookup ticket := by
    intro α entry entries ticket hne
    rw [List.lookup_cons, beq_false_of_ne hne]
  rw [state, hcomplete]
  by_cases hpanics : course = .panics
  · -- No file was written, and the worker does not look at the flag.
    subst hpanics
    cases hend
    have hretire : s.perform (.retire place) = some { s with
        builders := s.builders.without place x none, sent := (x.ticket, none) :: s.sent } := by
      simp [perform, hplace, hcourse, without_unbuilt h.unbuilt, finish]
    refine ⟨_, { x with result := none }, h.onward_without hplace ⟨[.retire place],
      Option.bind_eq_some_iff.mpr ⟨_, hretire, rfl⟩⟩ (fun _ _ => rfl) (hlookup none s.sent), ?_,
      rfl, rfl, hlookup none s.sent, fun _ => List.lookup_cons_self⟩
    simp
  · obtain ⟨answer, rfl⟩ : ∃ answer, result = some answer := by
      rcases endBuild_cases hend with ⟨hpanics', -⟩ | ⟨-, hsome⟩
      · exact absurd hpanics' hpanics
      · exact Option.isSome_iff_exists.mp hsome
    have hfresh := (h.fresh x.ticket (Or.inl ⟨x, hline, rfl⟩)).1
    have hbuild : s.perform (.build place) = some { s with
        files, host
        builders := s.builders.modify x.ticket fun build => { build with result := some answer } } := by
      have hunbuilt := h.unbuilt x hline
      rcases course with _ | _ | due
      · exact absurd rfl hpanics
      · simp [perform, hplace, hcourse, hunbuilt, hwrite]
      · simp [perform, hplace, hcourse, hunbuilt, hwrite]
    have hlook : perform { s with
        files, host
        builders := s.builders.modify x.ticket fun build => { build with result := some answer } }
          (.look place) = some { s with
        files, host
        builders := s.builders.modify x.ticket fun build => { build with result := some answer }
        looked := (x.ticket, x.isAbandoned) :: s.looked } := by
      simp [perform, active_modify_self hplace, hfresh]
    have hcalm : x.course ≠ some .panics := by
      rw [hcourse]
      exact fun heq => hpanics (Option.some.inj heq)
    have hretire : perform { s with
        files, host
        builders := s.builders.modify x.ticket fun build => { build with result := some answer }
        looked := (x.ticket, x.isAbandoned) :: s.looked } (.retire place) = some { s with
        files := if x.isAbandoned then files.removeIfPossible x.job.temporary else files
        host
        builders := s.builders.without place x (some answer)
        looked := (x.ticket, x.isAbandoned) :: s.looked
        sent := if x.isAbandoned then s.sent else (x.ticket, some answer) :: s.sent } := by
      cases hflag : x.isAbandoned <;>
        simp [perform, active_modify_self hplace, hcalm, finish, without]
    have hrun : run [.build place, .look place, .retire place] s = some { s with
        files := if x.isAbandoned then files.removeIfPossible x.job.temporary else files
        host
        builders := s.builders.without place x (some answer)
        looked := (x.ticket, x.isAbandoned) :: s.looked
        sent := if x.isAbandoned then s.sent else (x.ticket, some answer) :: s.sent } := by
      simp only [run, List.foldlM_cons, hbuild, hlook, hretire, Option.bind_eq_bind,
        Option.bind_some, List.foldlM_nil]
      rfl
    have hsent : ∀ ticket, ticket ≠ x.ticket →
        (if x.isAbandoned then s.sent else (x.ticket, some answer) :: s.sent).lookup ticket
          = s.sent.lookup ticket := by
      intro ticket hne
      split
      · rfl
      · exact hlookup (some answer) s.sent ticket hne
    refine ⟨_, { x with result := some answer }, h.onward_without hplace ⟨_, hrun⟩
      (hlookup x.isAbandoned s.looked) hsent, ?_, rfl, rfl, hsent, ?_⟩
    · simp
    · intro hflag
      simp [hflag]

/-- What comes of a job is known by its ticket when the build at a place is over. -/
theorem Settled.complete (h : s.Settled) (place : Nat) :
    ∃ s', Onward s s' ∧ (Builders.complete place s.state).2 = s'.state ∧
      (((Builders.complete place s.state).1 = none ∧ s'.sent = s.sent) ∨
      ∃ ended, (Builders.complete place s.state).1 = some ended ∧
        (∃ x ∈ s.builders.line, ended.ticket = x.ticket ∧ ended.isAbandoned = x.isAbandoned) ∧
        (∀ ticket, ticket ≠ ended.ticket → s'.sent.lookup ticket = s.sent.lookup ticket) ∧
        (ended.isAbandoned = false → s'.sent.lookup ended.ticket = some ended.result)) := by
  cases hplace : s.builders.pool.active[place]? with
  | none =>
    obtain ⟨s', honward, hstate, hsent⟩ := h.startMany s.builders.pool.queue.length
    have hcomplete : Builders.complete place s.state = (none, s'.state) := by
      rw [hstate]
      unfold Builders.complete Builders.report Builders.write state
      simp only [hplace]
      rfl
    rw [hcomplete]
    exact ⟨s', honward, rfl, Or.inl ⟨rfl, hsent⟩⟩
  | some x =>
    obtain ⟨middle, ended, hfirst, hended, hticket, habandoned, hothers, hours⟩ := h.retire hplace
    obtain ⟨s', honward, hstate, hsent⟩ :=
      hfirst.settled.startMany middle.builders.pool.queue.length
    have hcomplete : Builders.complete place s.state = (some ended, s'.state) := by
      rw [hstate, hended]
      rfl
    rw [hcomplete]
    refine ⟨s', hfirst.trans honward, rfl, Or.inr ⟨ended, rfl,
      ⟨x, mem_line_of_active (List.mem_of_getElem? hplace), hticket, habandoned⟩, ?_, ?_⟩⟩
    · rw [hsent, hticket]
      exact hothers
    · rw [hsent, hticket, habandoned]
      exact hours

theorem Settled.pass (h : s.Settled) (time : Nat) :
    Onward s { s with host := s.host.passUntil time } :=
  ⟨⟨[.pass time], rfl⟩, rfl, rfl, rfl, rfl, fun build hbuild => ⟨build, hbuild, rfl, rfl⟩,
    h.inOrder, h.unbuilt, h.started, h.fresh⟩

/-- The answer that the writer gets is what has come of its job. -/
theorem Settled.await (h : s.Settled) (deadline : Option Nat) (n : Nat)
    (hours : ∀ build ∈ s.builders.line, build.ticket = ticket → build.isAbandoned = false)
    (hnone : s.sent.lookup ticket = none) :
    ∃ s', Onward s s' ∧ (Builders.await ticket deadline n s.state).2 = s'.state ∧
      s'.sent.lookup ticket = (Builders.await ticket deadline n s.state).1 := by
  induction n generalizing s with
  | zero => exact ⟨s, h.onward, rfl, hnone⟩
  | succ n ih =>
    have hlate := h.pass (deadline.getD 0)
    unfold Builders.await state
    dsimp only
    split
    · exact ⟨_, hlate, rfl, hnone⟩
    · next place due _ =>
      split
      · exact ⟨_, hlate, rfl, hnone⟩
      · obtain ⟨middle, hmiddle, hstate, hcomplete⟩ := h.complete place
        unfold state at hstate hcomplete
        rcases hcomplete with
          ⟨hgone, hsent⟩ | ⟨ended, hended, ⟨x, hx, hticket, hflag⟩, hothers, hsent⟩
        · split
          · next heq =>
            rw [heq] at hstate
            exact ⟨middle, hmiddle, hstate, hsent ▸ hnone⟩
          · next heq =>
            rw [heq] at hgone
            cases hgone
        · split
          · next heq =>
            rw [heq] at hended
            cases hended
          · next build after heq =>
            rw [heq] at hended hstate
            cases hended
            dsimp only at hstate
            subst hstate
            split
            · next hsame =>
              have habandoned := hours x hx (hticket.symm.trans hsame)
              exact ⟨middle, hmiddle, rfl, hsame ▸ hsent (hflag.trans habandoned)⟩
            · next hne =>
              have hours' : ∀ build ∈ middle.builders.line, build.ticket = ticket →
                  build.isAbandoned = false := by
                intro build hbuild hmine
                obtain ⟨old, hold, hold', hflag'⟩ := hmiddle.jobs build hbuild
                exact hflag' ▸ hours old hold (hold'.trans hmine)
              obtain ⟨s', honward, hstate', hanswer⟩ := ih hmiddle.settled hours'
                ((hothers ticket (Ne.symm hne)).trans hnone)
              exact ⟨s', hmiddle.trans honward, hstate', hanswer⟩

/-! ## The writer -/

variable {job : BuildJob} {e : Error}

theorem Settled.submit (h : s.Settled) (hsubmit : s.builders.submit job = some (ticket, b)) :
    Settled { s with builders := b, stage := .waiting ticket job } ∧
    (∀ build ∈ b.line, build.ticket = ticket → build.isAbandoned = false) ∧
    s.sent.lookup ticket = none := by
  have hinOrder := h.inOrder.submit hsubmit
  obtain ⟨rfl, rfl⟩ := submit_cases hsubmit
  have hline : ∀ build ∈ s.builders.pool.active ++ (s.builders.pool.queue ++
      [({ ticket := s.builders.nextTicket, job := job } : Build)]),
      build ∈ s.builders.line ∨ build = { ticket := s.builders.nextTicket, job := job } := by
    intro build hbuild
    rw [← List.append_assoc] at hbuild
    exact (List.mem_append.mp hbuild).imp_right List.mem_singleton.mp
  refine ⟨⟨hinOrder, ?_, h.started, ?_⟩, ?_, (h.fresh _ (Or.inr (Nat.le_refl _))).2⟩
  · intro build hbuild
    rcases hline build hbuild with hold | rfl
    · exact h.unbuilt build hold
    · rfl
  · rintro other (⟨build, hbuild, rfl⟩ | hlater)
    · rcases hline build hbuild with hold | rfl
      · exact h.fresh _ (Or.inl ⟨build, hold, rfl⟩)
      · exact h.fresh _ (Or.inr (Nat.le_refl _))
    · exact h.fresh other (Or.inr (Nat.le_of_succ_le hlater))
  · intro build hbuild hticket
    rcases hline build hbuild with hold | rfl
    · exact absurd hticket (Nat.ne_of_lt (h.inOrder.given build hold))
    · rfl

/-- How a build ended for the writer, by what has come of its job. -/
def outcome (timeoutMs : Option Nat) : Option (Option (Except Error Unit)) → BuildOutcome
  | some (some result) => .ended result
  | some none => .lost
  | none => .timedOut (timeoutMs.getD 0)

/-- The writer gets its answer or gives up, and publishes or removes what there is. -/
theorem exists_run_of_waiting (hstage : s.stage = .waiting ticket job)
    (hlimit : s.sent.lookup ticket = none → s.timeoutMs.isSome = true) :
    ∃ steps, run steps s = some { s with
      files := (Writer.publish job (outcome s.timeoutMs (s.sent.lookup ticket)) s.files).2
      builders := if (s.sent.lookup ticket).isNone then s.builders.abandon ticket else s.builders
      stage := .free
      returned := (job, (Writer.publish job (outcome s.timeoutMs (s.sent.lookup ticket))
        s.files).1) :: s.returned } := by
  rcases hsent : s.sent.lookup ticket with _ | _ | e | _
  · refine ⟨[.expire, .go, .go, .go], ?_⟩
    simp [run, perform, advance, hstage, hsent, hlimit hsent, outcome, Writer.publish,
      Writer.cleanUp]
  · refine ⟨[.go, .go, .go], ?_⟩
    simp [run, perform, advance, hstage, hsent, answer, outcome, Writer.publish, Writer.cleanUp]
  · refine ⟨[.go, .go, .go], ?_⟩
    simp [run, perform, advance, hstage, hsent, answer, outcome, Writer.publish, Writer.cleanUp]
  · cases hrename : s.files.rename job.temporary job.path with
    | ok files =>
      refine ⟨[.go, .go], ?_⟩
      simp [run, perform, advance, hstage, hsent, answer, outcome, Writer.publish, hrename]
    | error cause =>
      refine ⟨[.go, .go, .go, .go], ?_⟩
      simp [run, perform, advance, hstage, hsent, answer, outcome, Writer.publish, hrename,
        Writer.cleanUp]

/-- While the writer waits, its job and others go on. -/
theorem Settled.wait (h : s.Settled) (hsubmit : s.builders.submit job = some (ticket, b)) :
    ∃ s', Onward { s with builders := b, stage := .waiting ticket job } s' ∧
      Builders.run s.timeoutMs job s.state = (outcome s.timeoutMs (s'.sent.lookup ticket), s'.files,
        s'.host, if (s'.sent.lookup ticket).isNone then s'.builders.abandon ticket
          else s'.builders) := by
  obtain ⟨hsubmitted, hours, hnone⟩ := h.submit hsubmit
  obtain ⟨middle, hstarted, hmiddle, hsent⟩ := hsubmitted.startMany b.pool.queue.length
  have hours' : ∀ build ∈ middle.builders.line, build.ticket = ticket →
      build.isAbandoned = false := by
    intro build hbuild hticket
    obtain ⟨old, hold, hold', hflag⟩ := hstarted.jobs build hbuild
    exact hflag ▸ hours old hold (hold'.trans hticket)
  obtain ⟨s', hawaited, hstate, hanswer⟩ := hstarted.settled.await
    (s.timeoutMs.map fun ms => middle.host.elapsed + ms * 1000000) middle.builders.pool.size hours'
    (hsent ▸ hnone)
  refine ⟨s', hstarted.trans hawaited, ?_⟩
  have hall : b.startAll s.host = (middle.host, middle.builders) :=
    (congrArg Prod.snd hmiddle).symm
  have hfiles : middle.files = s.files := congrArg Prod.fst hmiddle
  have hawait : Builders.await ticket (s.timeoutMs.map fun ms => middle.host.elapsed + ms * 1000000)
      middle.builders.pool.size (s.files, middle.host, middle.builders)
      = (s'.sent.lookup ticket, s'.files, s'.host, s'.builders) := by
    rw [← hfiles]
    exact Prod.ext hanswer.symm hstate
  unfold Builders.run state
  dsimp only
  rw [hsubmit]
  dsimp only
  rw [hall]
  dsimp only
  rw [hawait]
  rcases s'.sent.lookup ticket with _ | _ | result <;> rfl

theorem Settled.abandon (h : s.Settled) (ticket : Nat) :
    Settled { s with builders := s.builders.abandon ticket } := by
  have hjobs : ∀ build ∈ (s.builders.abandon ticket).line, ∃ old ∈ s.builders.line,
      old.ticket = build.ticket ∧ old.result = build.result := by
    intro build hbuild
    rw [Builders.abandon, line_modify] at hbuild
    obtain ⟨old, hold, rfl⟩ := List.mem_map.mp hbuild
    refine ⟨old, hold, ?_⟩
    unfold change
    split <;> exact ⟨rfl, rfl⟩
  refine ⟨h.inOrder.follows (follows_modify ticket (fun _ => ⟨rfl, rfl⟩) rfl rfl), ?_, ?_, ?_⟩
  · intro build hbuild
    obtain ⟨old, hold, -, hresult⟩ := hjobs build hbuild
    rw [← hresult]
    exact h.unbuilt old hold
  · intro build hbuild
    rw [Builders.abandon, active_modify] at hbuild
    obtain ⟨old, hold, rfl⟩ := List.mem_map.mp hbuild
    have hstarted := h.started old hold
    unfold change
    split <;> exact hstarted
  · rintro other (⟨build, hbuild, rfl⟩ | hlater)
    · obtain ⟨old, hold, hticket, -⟩ := hjobs build hbuild
      exact h.fresh _ (Or.inl ⟨old, hold, hticket⟩)
    · exact h.fresh other (Or.inr hlater)

/-- **A write by itself is one of the runs.** The writer has a limit, or it does not come to that. -/
theorem exists_run_of_build (h : s.Settled) (hfree : s.stage = .free)
    (hlimit : s.timeoutMs = none → ∀ ms, (Writer.build (Builders.run s.timeoutMs) job s.state).1
      ≠ .error (.buildTimeout job.path.text ms)) :
    ∃ steps s', run steps s = some s' ∧ s'.Settled ∧ s'.stage = .free ∧
      s'.timeoutMs = s.timeoutMs ∧
      s'.state = (Writer.build (Builders.run s.timeoutMs) job s.state).2 ∧
      s'.returned = (job, (Writer.build (Builders.run s.timeoutMs) job s.state).1) :: s.returned := by
  cases hcreate : s.files.create job.path with
  | error cause =>
    refine ⟨[.mark job], { s with returned := (job, .error (.io cause.message)) :: s.returned },
      ?_, ⟨h.inOrder, h.unbuilt, h.started, h.fresh⟩, hfree, rfl, ?_, ?_⟩
    · simp [run, perform, hfree, hcreate]
    · simp [Writer.build, state, hcreate]
    · simp [Writer.build, state, hcreate]
  | ok marked =>
    cases hsubmit : s.builders.submit job with
    | none =>
      refine ⟨[.mark job, .go, .go], { s with
        files := marked.removeIfPossible job.path
        stage := .free
        returned := (job, .error (.buildRejected job.path.text)) :: s.returned },
        ?_, ⟨h.inOrder, h.unbuilt, h.started, h.fresh⟩, rfl, rfl, ?_, ?_⟩
      · simp [run, perform, advance, hfree, hcreate, hsubmit]
      · simp [Writer.build, Writer.publish, Builders.run, state, hcreate, hsubmit]
      · simp [Writer.build, Writer.publish, Builders.run, state, hcreate, hsubmit]
    | some submitted =>
      obtain ⟨ticket, b⟩ := submitted
      have hmarked : Settled { s with files := marked, stage := .marked job } :=
        ⟨h.inOrder, h.unbuilt, h.started, h.fresh⟩
      obtain ⟨s', honward, hwait⟩ := hmarked.wait hsubmit
      unfold state at hwait
      dsimp only at hwait
      have hbuild : Writer.build (Builders.run s.timeoutMs) job s.state
          = ((Writer.publish job (outcome s.timeoutMs (s'.sent.lookup ticket)) s'.files).1,
            (Writer.publish job (outcome s.timeoutMs (s'.sent.lookup ticket)) s'.files).2, s'.host,
            if (s'.sent.lookup ticket).isNone then s'.builders.abandon ticket else s'.builders) := by
        unfold Writer.build state
        dsimp only
        rw [hcreate]
        dsimp only
        rw [hwait]
      have hlimit' : s'.sent.lookup ticket = none → s'.timeoutMs.isSome = true := by
        intro hnone
        rw [honward.timeoutMs, Option.isSome_iff_ne_none]
        intro hforever
        refine hlimit hforever 0 ?_
        rw [hbuild, hnone, hforever]
        rfl
      obtain ⟨steps, hrun⟩ := exists_run_of_waiting honward.stage hlimit'
      obtain ⟨before, hbefore⟩ := honward.reached
      have hgo : run [.mark job, .go] s = some { s with
          files := marked, builders := b, stage := .waiting ticket job } := by
        simp [run, perform, advance, hfree, hcreate, hsubmit]
      have hwhole : run ([.mark job, .go] ++ (before ++ steps)) s = run steps s' := by
        rw [run_append, hgo, Option.bind_some, run_append, hbefore, Option.bind_some]
      rw [hbuild]
      refine ⟨_, _, hwhole.trans hrun, ?_, rfl, honward.timeoutMs, ?_, ?_⟩
      · have hsettled := honward.settled
        cases (s'.sent.lookup ticket).isNone with
        | false => exact ⟨hsettled.inOrder, hsettled.unbuilt, hsettled.started, hsettled.fresh⟩
        | true =>
          have habandoned := hsettled.abandon ticket
          exact ⟨habandoned.inOrder, habandoned.unbuilt, habandoned.started, habandoned.fresh⟩
      · simp [state, honward.timeoutMs]
      · simp [honward.timeoutMs, honward.returned]

end Workshop

end Sidecar
