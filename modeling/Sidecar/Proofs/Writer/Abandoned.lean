import Sidecar.Proofs.Writer.Workers

/-!
# After the writer has given up

A writer that gives up waiting removes its files and goes away, but its job goes on, and the engine
may write the temporary file once more. The job then removes it, so when the job has ended nothing is
left. That is an invariant of the steps around the pool (`Trailing`): **if there is a file at the
temporary path, then the job is in progress, and it has a result**. A job in progress ends with a
report, and the report of an abandoned job with a result removes the file.

A build that panics has no result and its report removes nothing. No file comes of that if the engine is
*tidy* and panics, when it does, before it has written anything (`Step.write`). Otherwise the file stays.

Nobody else writes there: the other jobs on the pool and the other programs keep to places of their
own (`Sharing`), and later jobs get other tickets.
-/

set_option autoImplicit false

namespace Sidecar.Builders

variable {others : Location → Prop} {tidy : Prop} {ticket : Nat} {job : BuildJob} {s s' : State}

/-! ## One job among others -/

/-- A job shares the pool with jobs that write where others do, and itself writes elsewhere. -/
structure Sharing (others : Location → Prop) (ticket : Nat) (job : BuildJob) (s : State) :
    Prop where
  numbered : s.2.2.Numbered
  given : ticket < s.2.2.nextTicket
  spared : s.1.Spared others job.temporary
  ours : ∀ build ∈ s.2.2.tasks, build.ticket = ticket → build.job = job
  theirs : ∀ build ∈ s.2.2.tasks, build.ticket ≠ ticket →
    others (s.1.destination build.job.temporary)

theorem Sharing.agreeOff (h : Sharing others ticket job s) (hstep : Step others tidy s s') :
    s.1.AgreeOff others (s.1.Places job.temporary) s'.1 := by
  refine hstep.agreeOff fun build hbuild loc hplaces => ?_
  by_cases hticket : build.ticket = ticket
  · exact Or.inr (h.ours build hbuild hticket ▸ hplaces)
  · exact Or.inl (hplaces.eq_destination ▸ h.theirs build hbuild hticket)

theorem Sharing.step (h : Sharing others ticket job s) (hstep : Step others tidy s s') :
    Sharing others ticket job s' := by
  have hagree := h.agreeOff hstep
  refine ⟨hstep.numbered h.numbered, Nat.lt_of_lt_of_le h.given hstep.nextTicket_le,
    h.spared.of_eq hagree.workingDirectory, ?_, ?_⟩
  · intro build hbuild hticket
    rcases hstep.origin hbuild with ⟨old, hold, hcontinues⟩ | ⟨hnew, -⟩
    · rw [hcontinues.job]
      exact h.ours old hold (hcontinues.ticket ▸ hticket)
    · exact absurd (hnew.symm.trans hticket) (Nat.ne_of_gt h.given)
  · intro build hbuild hticket
    rw [FileTree.destination_eq hagree.workingDirectory]
    rcases hstep.origin hbuild with ⟨old, hold, hcontinues⟩ | ⟨-, helsewhere⟩
    · rw [hcontinues.job]
      exact h.theirs old hold (hcontinues.ticket ▸ hticket)
    · exact helsewhere

theorem Sharing.steps (h : Sharing others ticket job s) (hsteps : Steps others tidy s s') :
    Sharing others ticket job s' ∧ s.1.AgreeOff others (s.1.Places job.temporary) s'.1 := by
  induction hsteps with
  | refl => exact ⟨h, .refl _ _ _⟩
  | tail _ hstep ih =>
    refine ⟨ih.1.step hstep, ih.2.trans ((ih.1.agreeOff hstep).mono fun loc hplaces => ?_)⟩
    exact Or.inr ((ih.2.places_iff h.spared).mp hplaces)

theorem sharing_of_submit {files : FileTree} {host : Host} {b b' : Builders} (hb : b.Numbered)
    (hwithin : Within others files b) (hspared : files.Spared others job.temporary)
    (h : b.submit job = some (ticket, b')) : Sharing others ticket job (files, host, b') := by
  have hperm := tasks_submit h
  have hsubmitted : Step (fun _ => True) True (files, host, b) (files, host, b') := .submit h trivial
  obtain ⟨rfl, heq⟩ := submit_cases h
  refine ⟨hsubmitted.numbered hb, ?_, hspared, ?_, ?_⟩
  · rw [heq]
    exact Nat.lt_succ_self _
  · intro build hbuild hticket
    rcases List.mem_cons.mp (hperm.mem_iff.mp hbuild) with rfl | hold
    · rfl
    · exact absurd hticket (Nat.ne_of_lt (hb.given build hold))
  · intro build hbuild hticket
    rcases List.mem_cons.mp (hperm.mem_iff.mp hbuild) with rfl | hold
    · exact absurd rfl hticket
    · exact hwithin build hold

theorem Sharing.of_eq {files : FileTree} (h : Sharing others ticket job s)
    (heq : files.workingDirectory = s.1.workingDirectory) :
    Sharing others ticket job (files, s.2) := by
  refine ⟨h.numbered, h.given, h.spared.of_eq heq, h.ours, ?_⟩
  intro build hbuild hticket
  rw [FileTree.destination_eq heq]
  exact h.theirs build hbuild hticket

/-- While a writer waits, its job writes at the temporary path, unless it was refused. -/
theorem Waited.confined {outcome : BuildOutcome} (h : Waited others job s s' outcome)
    (hs : s.2.2.Numbered) (hwithin : Within others s.1 s.2.2)
    (hspared : s.1.Spared others job.temporary) :
    (outcome = .rejected ∧ s.1.AgreeOff others (fun _ => False) s'.1 ∧
      Within others s'.1 s'.2.2) ∨
    (outcome ≠ .rejected ∧ s.1.AgreeOff others (s.1.Places job.temporary) s'.1 ∧
      ∃ ticket, Sharing others ticket job s' ∧
        ∀ build ∈ s'.2.2.tasks, build.ticket = ticket → build.isAbandoned = true) := by
  cases h with
  | refused hsteps => exact Or.inl ⟨rfl, hsteps.agreeOff hwithin⟩
  | @back _ ticket files host b b' htaken hbefore hsubmit hafter habandoned =>
    obtain ⟨hagree, hwithin'⟩ := hbefore.agreeOff hwithin
    have hsharing : Sharing others ticket job (files, host, b') :=
      sharing_of_submit (hbefore.numbered hs).1 hwithin' (hspared.of_eq hagree.workingDirectory)
        hsubmit
    obtain ⟨hsharing', hagree'⟩ := hsharing.steps hafter
    refine Or.inr ⟨htaken, (hagree.mono fun _ => False.elim).trans (hagree'.mono ?_), ticket,
      hsharing', habandoned⟩
    intro loc hplaces
    exact Or.inr ((hagree.places_iff hspared).mp hplaces)

/-! ## A job that nobody waits for -/

/-- The job is in progress and has a result. -/
def InHand (ticket : Nat) (b : Builders) : Prop :=
  ∃ build ∈ b.pool.active, build.ticket = ticket ∧ build.result.isSome = true ∧
    build.course ≠ some .panics

/-- The job is abandoned, and it has its temporary file in hand, if there is one. -/
structure Trailing (others : Location → Prop) (ticket : Nat) (job : BuildJob) (s : State) :
    Prop extends Sharing others ticket job s where
  abandoned : ∀ build ∈ s.2.2.tasks, build.ticket = ticket → build.isAbandoned = true
  inHand : ∀ loc content, s.1.Places job.temporary loc →
    s.1.node? loc = some (.file content) → InHand ticket s.2.2

theorem InHand.modify {b : Builders} (h : InHand ticket b) {other : Nat} {f : Build → Build}
    (hf : other = ticket → ∀ build, (f build).ticket = build.ticket ∧
      (f build).course = build.course ∧
      (build.result.isSome = true → (f build).result.isSome = true)) :
    InHand ticket (b.modify other f) := by
  obtain ⟨build, hactive, hticket, hresult, hcourse⟩ := h
  refine ⟨change other f build, ?_, ?_⟩
  · rw [active_modify]
    exact List.mem_map_of_mem hactive
  · by_cases hother : build.ticket = other
    · obtain ⟨hticket', hcourse', hresult'⟩ := hf (hother.symm.trans hticket) build
      rw [change, if_pos hother, hticket', hcourse']
      exact ⟨hticket, hresult' hresult, hcourse⟩
    · rw [change_of_ne hother]
      exact ⟨hticket, hresult, hcourse⟩

theorem InHand.result_of_mem {b : Builders} (h : InHand ticket b) (hb : b.Numbered)
    {build : Build} (hbuild : build ∈ b.tasks) (hticket : build.ticket = ticket) :
    build.result.isSome = true ∧ build.course ≠ some .panics := by
  obtain ⟨other, hactive, hother, hrest⟩ := h
  have heq : other = build :=
    hb.eq_of_ticket (List.mem_append_right _ hactive) hbuild (hother.trans hticket.symm)
  exact heq ▸ hrest

/-- A started job is not among those in progress before. -/
theorem InHand.start {host host' : Host} {b b' : Builders} (h : InHand ticket b)
    (hb : b.Numbered) (hstart : b.start host = some (host', b')) : InHand ticket b' := by
  obtain ⟨task, rest, course, hqueue, rfl⟩ := start_cases hstart
  obtain ⟨build, hactive, hticket, hrest⟩ := h
  have hne : build.ticket ≠ task.ticket := by
    have hdistinct := hb.distinct
    rw [tasks, hqueue, List.cons_append, List.map_cons, List.nodup_cons] at hdistinct
    intro heq
    exact hdistinct.1 (heq ▸ List.mem_map_of_mem (List.mem_append_right _ hactive))
  refine ⟨build, ?_, hticket, hrest⟩
  rw [active_modify, ← change_of_ne (f := fun build => { build with course := some course }) hne]
  exact List.mem_map_of_mem (List.mem_append_left _ hactive)

theorem InHand.finish {b : Builders} {place : Nat} {ended : Build} (h : InHand ticket b)
    (hplace : b.pool.active[place]? = some ended) (hne : ended.ticket ≠ ticket) :
    InHand ticket { b with pool := b.pool.finish place } := by
  obtain ⟨build, hactive, hticket, hrest⟩ := h
  refine ⟨build, ?_, hticket, hrest⟩
  obtain ⟨hlt, hget⟩ := List.getElem?_eq_some_iff.mp hplace
  unfold WorkerPool.finish
  rw [if_pos hlt]
  have hmem := (List.getElem_cons_eraseIdx_perm hlt).mem_iff.mpr hactive
  rcases List.mem_cons.mp hmem with heq | hmem
  · rw [hget] at heq
    exact absurd (heq ▸ hticket) hne
  · exact hmem

variable {files : FileTree} {host : Host} {b : Builders} {place : Nat} {loc : Location}
  {content : Bytes}

theorem Trailing.inHand_write (h : Trailing others ticket job (files, host, b))
    {files' : FileTree} {build : Build} {result : Option (Except Error Unit)}
    (hstarted : b.pool.active[place]? = some build)
    (hconfined : files.AgreeOff others (files.Places build.job.temporary) files')
    (hreturned : (build.course = some .panics ∧ result = none ∧ (True → files' = files)) ∨
      (build.course ≠ some .panics ∧ result.isSome = true))
    (hplaces : files.Places job.temporary loc) (hfile : files'.node? loc = some (.file content)) :
    InHand ticket (b.modify build.ticket fun x => { x with result }) := by
  have hmem := mem_tasks_of_active hstarted
  by_cases hticket : build.ticket = ticket
  · rcases hreturned with ⟨hpanics, -, hsame⟩ | ⟨hcourse, hresult⟩
    · -- The file was there before, but a build that panics has nothing in hand.
      have hbefore := h.inHand loc content hplaces (hsame trivial ▸ hfile)
      exact absurd hpanics (hbefore.result_of_mem h.numbered hmem hticket).2
    · refine ⟨{ build with result }, ?_, hticket, hresult, hcourse⟩
      rw [active_modify]
      exact List.mem_map.mpr ⟨build, List.mem_of_getElem? hstarted, if_pos rfl⟩
  · have hours : ¬ others loc := hplaces.eq_destination ▸ h.spared.destination
    have hsame : files'.node? loc = files.node? loc := by
      refine hconfined.nodes loc hours fun hother => hours ?_
      exact hother.eq_destination ▸ h.theirs build hmem hticket
    rw [hsame] at hfile
    exact (h.inHand loc content hplaces hfile).modify fun hother => absurd hother hticket

theorem Trailing.inHand_report (h : Trailing others ticket job (files, host, b))
    (hplaces : files.Places job.temporary loc)
    (hfile : (report place (files, host, b)).2.1.node? loc = some (.file content)) :
    InHand ticket (report place (files, host, b)).2.2.2 := by
  rcases report_cases place files host b with ⟨-, heq⟩ | ⟨build, hplace, heq⟩
  · rw [heq] at hfile ⊢
    exact h.inHand loc content hplaces hfile
  · rw [heq] at hfile ⊢
    dsimp only at hfile ⊢
    have hmem := mem_tasks_of_active hplace
    have hbefore : files.node? loc = some (.file content) := by
      split at hfile
      · exact FileTree.node?_of_removeIfPossible hfile
      · exact hfile
    have hinHand := h.inHand loc content hplaces hbefore
    by_cases hticket : build.ticket = ticket
    · have hresult := (hinHand.result_of_mem h.numbered hmem hticket).1
      rw [h.abandoned build hmem hticket, hresult, h.ours build hmem hticket] at hfile
      exact absurd hfile (FileTree.node?_removeIfPossible hplaces)
    · exact hinHand.finish hplace hticket

theorem Trailing.step (h : Trailing others ticket job s) (hstep : Step others True s s') :
    Trailing others ticket job s' := by
  have hagree := h.toSharing.agreeOff hstep
  refine ⟨h.toSharing.step hstep, ?_, ?_⟩
  · intro build hbuild hticket
    rcases hstep.origin hbuild with ⟨old, hold, hcontinues⟩ | ⟨hnew, -⟩
    · exact hcontinues.isAbandoned (h.abandoned old hold (hcontinues.ticket ▸ hticket))
    · exact absurd (hnew.symm.trans hticket) (Nat.ne_of_gt h.given)
  · intro loc content hplaces hfile
    rw [hagree.places_iff h.spared] at hplaces
    cases hstep with
    | start hstart => exact (h.inHand loc content hplaces hfile).start h.numbered hstart
    | write hstarted hconfined hreturned =>
      exact h.inHand_write hstarted hconfined hreturned hplaces hfile
    | report place => exact h.inHand_report hplaces hfile
    | abandon other =>
      exact (h.inHand loc content hplaces hfile).modify fun _ _ => ⟨rfl, rfl, id⟩
    | close => exact h.inHand loc content hplaces hfile
    | @dismiss _ _ b =>
      obtain ⟨departed, heq⟩ := dismiss_cases b.pool
      rw [heq]
      exact h.inHand loc content hplaces hfile
    | submit hsubmit _ =>
      obtain ⟨-, rfl⟩ := submit_cases hsubmit
      exact h.inHand loc content hplaces hfile
    | pass hpass =>
      have hours : ¬ others loc := hplaces.eq_destination ▸ h.spared.destination
      have hsame := hpass.nodes loc hours id
      exact h.inHand loc content hplaces (hsame ▸ hfile)

theorem Trailing.steps (h : Trailing others ticket job s) (hsteps : TidySteps others s s') :
    Trailing others ticket job s' := by
  induction hsteps with
  | refl => exact h
  | tail _ hstep ih => exact ih.step hstep

/-- When an abandoned job has ended, it has left no file behind. -/
theorem Trailing.nothing_left (h : Trailing others ticket job s)
    (hended : ∀ build ∈ s.2.2.tasks, build.ticket ≠ ticket)
    (hplaces : s.1.Places job.temporary loc) : s.1.node? loc ≠ some (.file content) := by
  intro hfile
  obtain ⟨build, hactive, hticket, -⟩ := h.inHand loc content hplaces hfile
  exact hended build (List.mem_append_right _ hactive) hticket

end Sidecar.Builders
