import Sidecar.Proofs.Writer.Flush
import Sidecar.Proofs.Writer.Workshop

/-!
# Writing a sidecar again

A write that timed out leaves its job behind, and the next write of the same sidecar uses the same two
files. What it publishes is its own output nevertheless, if no two builds of the sidecar are ever run
at a time (`published_of_solo`). A single worker runs one job at a time, so this holds whatever the
order of the steps (`throughout_solo`).

Everything is carried by one invariant of the steps, `Orderly`, and its core is what holds while the
writer waits (`Underway`). The job that it waits for is the last that was submitted and jobs are
started in order, so when it is being run no other job of the sidecar waits. If none is being run at
the same time either, then all of them have ended, and nobody else touches the temporary file from
then on until the writer renames it.

The writer may write other sidecars in between. Their jobs have to do with places of `others`.
-/

set_option autoImplicit false

namespace Sidecar

open Builders FileTree Writer

/-- What the file of a job holds. -/
def BuildJob.content (job : BuildJob) : Bytes := FlatIndex.encode job.ids job.vectors

namespace Workshop

variable {others S : Location → Prop} {path : Path} {home t t' : FileTree} {final temp : Location}
  {job : BuildJob} {host host' : Host} {b b' : Builders} {ticket place : Nat} {x y : Build}

/-! ## The two files of a sidecar -/

/-- The sidecar and its temporary file have their places, and no directory stands there. -/
structure Site (home : FileTree) (path : Path) (final temp : Location) (t : FileTree) : Prop where
  origin : t.workingDirectory = home.workingDirectory
  finalAt : t.Places path final
  temporaryAt : t.Places (temporaryPath path) temp
  finalOpen : t.node? final ≠ some .directory
  temporaryOpen : t.node? temp ≠ some .directory
  apart : ∀ p, Apart temp final (t.origin p)

/-- Others keep to places of their own, and to what is below them. -/
structure Elsewhere (others : Location → Prop) (path : Path) (home : FileTree) : Prop where
  names : Reserved others path home
  below : ∀ loc other, others loc → loc <+: other → others other

/-- A job is for the sidecar, or it has to do with places of others only. -/
def Concerns (others : Location → Prop) (path : Path) (home : FileTree) (job : BuildJob) : Prop :=
  (job.path = path ∧ job.temporary = temporaryPath path) ∨
    (others (home.destination job.path) ∧ others (home.destination job.temporary))

namespace Site

theorem ne (h : Site home path final temp t) : temp ≠ final :=
  h.finalAt.ne_of_appendText h.temporaryAt (by decide) (by decide)

theorem final_mine (h : Site home path final temp t) (helse : Elsewhere others path home) :
    ¬ others final := by
  rw [h.finalAt.eq_destination, destination_eq h.origin]
  exact helse.names.published.destination

theorem temporary_mine (h : Site home path final temp t) (helse : Elsewhere others path home) :
    ¬ others temp := by
  rw [h.temporaryAt.eq_destination, destination_eq h.origin]
  exact helse.names.temporary.destination

theorem agreeOff (h : Site home path final temp t) (helse : Elsewhere others path home)
    (hagree : t.AgreeOff others S t') : Site home path final temp t' := by
  refine ⟨hagree.workingDirectory.trans h.origin,
    hagree.places (helse.names.published.of_eq h.origin) h.finalAt,
    hagree.places (helse.names.temporary.of_eq h.origin) h.temporaryAt, ?_, ?_, ?_⟩
  · exact fun hdirectory =>
      h.finalOpen ((hagree.directories final (h.final_mine helse)).mp hdirectory)
  · exact fun hdirectory =>
      h.temporaryOpen ((hagree.directories temp (h.temporary_mine helse)).mp hdirectory)
  · intro p
    rw [origin_eq hagree.workingDirectory]
    exact h.apart p

/-- The temporary file takes the place of the sidecar. -/
theorem rename (h : Site home path final temp t)
    (hrename : t.rename (temporaryPath path) path = .ok t') :
    Site home path final temp t' ∧ t'.node? final = t.node? temp := by
  have hmoved : t' = t.move temp final := by
    have hcases := eq_move_of_rename hrename
    rw [← h.temporaryAt.eq_destination, ← h.finalAt.eq_destination] at hcases
    exact hcases.resolve_left fun hsame => h.ne hsame.1
  subst hmoved
  have hfinal := node?_move_self (t := t) h.temporaryAt.ne_nil h.finalAt.ne_nil h.ne
  have hplaces := h.finalAt.move h.temporaryOpen h.finalOpen (h.apart path)
  have hplaces' := h.temporaryAt.move h.temporaryOpen h.finalOpen (h.apart (temporaryPath path))
  have hgone : (t.move temp final).node? temp = none := by
    refine node?_moved h.temporaryAt.ne_nil (fun hbelow => h.ne ?_) (List.prefix_refl _)
    obtain ⟨parent, name, hname, hname'⟩ := h.finalAt.appendText h.temporaryAt (by decide)
    exact (hbelow.eq_of_length (by simp [hname, hname'])).symm
  refine ⟨⟨h.origin, hplaces, hplaces', ?_, ?_, h.apart⟩, hfinal⟩
  · rw [hfinal]
    exact h.temporaryOpen
  · rw [hgone]
    exact nofun

end Site

namespace Concerns

theorem temporary_eq (h : Concerns others path home job) (helse : Elsewhere others path home)
    (hpath : job.path = path) : job.temporary = temporaryPath path := by
  rcases h with ⟨-, htemporary⟩ | ⟨helsewhere, -⟩
  · exact htemporary
  · rw [hpath] at helsewhere
    exact absurd helsewhere helse.names.published.destination

variable (hjob : Concerns others path home job) (hsite : Site home path final temp t)

include hjob hsite

theorem agreeOff_temporary (h : t.AgreeOff others (t.Places job.temporary) t') :
    t.AgreeOff others (fun loc => job.path = path ∧ loc = temp) t' := by
  refine h.mono fun loc hplaces => ?_
  rcases hjob with ⟨hpath, htemporary⟩ | ⟨-, helsewhere⟩
  · exact Or.inr ⟨hpath, (htemporary ▸ hplaces).unique hsite.temporaryAt⟩
  · rw [← destination_eq hsite.origin, ← hplaces.eq_destination] at helsewhere
    exact Or.inl helsewhere

theorem agreeOff_path (h : t.AgreeOff others (t.Places job.path) t') :
    t.AgreeOff others (fun loc => job.path = path ∧ loc = final) t' := by
  refine h.mono fun loc hplaces => ?_
  rcases hjob with ⟨hpath, -⟩ | ⟨helsewhere, -⟩
  · exact Or.inr ⟨hpath, (hpath ▸ hplaces).unique hsite.finalAt⟩
  · rw [← destination_eq hsite.origin, ← hplaces.eq_destination] at helsewhere
    exact Or.inl helsewhere

end Concerns

/-! ## Builds -/

/-- A build that ends well has written its file, unless it was skipped. -/
theorem write_of_endBuild {course : Host.Course} {ids : List DocId} {vectors : List Embedding}
    {output : Path} (hcourse : course ≠ .skips)
    (h : Host.endBuild course ids vectors output (t, host) = (some (.ok ()), t', host')) :
    t.write output (FlatIndex.encode ids vectors) = .ok t' := by
  unfold Host.endBuild at h
  dsimp only at h
  split at h
  · cases h
  · exact absurd rfl hcourse
  · split at h
    · cases h
    · split at h
      · next hbuild =>
        cases h
        exact (FlatIndex.build_eq_ok_iff.mp hbuild).2
      · cases h

/-- Jobs are run in order, those that wait have no result yet, and those that are being run are not
skipped. -/
structure AtWork (host : Host) (b : Builders) : Prop where
  inOrder : b.InOrder
  unbuilt : ∀ build ∈ b.pool.queue, build.result = none
  skipped : host.instruments.skippedBuilds = 0
  courses : ∀ build ∈ b.pool.active, build.course ≠ some .skips

namespace AtWork

theorem start (h : AtWork host b) (hstart : b.start host = some (host', b')) :
    AtWork host' b' := by
  refine ⟨h.inOrder.follows (follows_start hstart), ?_, ?_, ?_⟩
  all_goals obtain ⟨task, rest, hqueue, rfl, rfl⟩ := start_eq hstart
  · intro build hbuild
    obtain ⟨old, hold, rfl⟩ := List.mem_map.mp hbuild
    have hnone := h.unbuilt old (hqueue ▸ List.mem_cons_of_mem _ hold)
    dsimp only
    split <;> exact hnone
  · unfold Host.startBuild
    dsimp only
    split
    · exact h.skipped
    · next hskipped =>
      rw [h.skipped] at hskipped
      cases hskipped
    · exact h.skipped
  · intro build hbuild
    obtain ⟨old, hold, rfl⟩ := List.mem_map.mp hbuild
    dsimp only
    split
    · unfold Host.startBuild
      dsimp only
      rw [h.skipped]
      split <;> simp_all
    · next hne =>
      rcases List.mem_append.mp hold with hactive | htask
      · exact h.courses old hactive
      · exact absurd (congrArg Build.ticket (List.mem_singleton.mp htask)) hne

theorem modify {f : Build → Build} (h : AtWork host b)
    (hkeeps : ∀ build, (f build).ticket = build.ticket ∧ (f build).job = build.job)
    (hcourse : ∀ build, (f build).course = build.course)
    (hresult : ∀ build ∈ b.pool.queue, build.ticket = ticket → (f build).result = build.result)
    (hskipped : host'.instruments.skippedBuilds = 0) : AtWork host' (b.modify ticket f) := by
  refine ⟨h.inOrder.follows (follows_modify ticket hkeeps rfl rfl), ?_, hskipped, ?_⟩
  · intro build hbuild
    obtain ⟨old, hold, rfl⟩ := List.mem_map.mp hbuild
    split
    · next hticket => exact (hresult old hold hticket).trans (h.unbuilt old hold)
    · exact h.unbuilt old hold
  · intro build hbuild
    obtain ⟨old, hold, rfl⟩ := List.mem_map.mp hbuild
    split
    · rw [hcourse]
      exact h.courses old hold
    · exact h.courses old hold

theorem abandon (h : AtWork host b) (ticket : Nat) : AtWork host (b.abandon ticket) :=
  h.modify (fun _ => ⟨rfl, rfl⟩) (fun _ => rfl) (fun _ _ _ => rfl) h.skipped

theorem build {course : Host.Course} {result : Option (Except Error Unit)} (h : AtWork host b)
    (hplace : b.pool.active[place]? = some x)
    (hend : Host.endBuild course x.job.ids x.job.vectors x.job.temporary (t, host)
      = (result, t', host')) :
    AtWork host' (b.modify x.ticket fun build => { build with result }) := by
  refine h.modify (fun _ => ⟨rfl, rfl⟩) (fun _ => rfl) ?_ ?_
  · intro build hbuild hticket
    exact absurd hticket (Nat.ne_of_gt (h.inOrder.lt (List.mem_of_getElem? hplace) hbuild))
  · unfold Host.endBuild at hend
    dsimp only at hend
    split at hend
    · cases hend
      exact h.skipped
    · cases hend
      exact h.skipped
    · split at hend
      · cases hend
        exact h.skipped
      · split at hend <;> (cases hend; exact h.skipped)

theorem finish (h : AtWork host b) (place : Nat) :
    AtWork host { b with pool := b.pool.finish place } := by
  refine ⟨h.inOrder.follows (follows_finish b place), ?_, h.skipped, ?_⟩
  · unfold WorkerPool.finish
    split <;> exact h.unbuilt
  · unfold WorkerPool.finish
    split
    · exact fun build hbuild => h.courses build (List.eraseIdx_subset hbuild)
    · exact h.courses

theorem submit (h : AtWork host b) (hsubmit : b.submit job = some (ticket, b')) :
    AtWork host b' := by
  refine ⟨h.inOrder.submit hsubmit, ?_, h.skipped, ?_⟩
  all_goals obtain ⟨-, rfl⟩ := submit_cases hsubmit
  · intro build hbuild
    rcases List.mem_append.mp hbuild with hold | hnew
    · exact h.unbuilt build hold
    · rw [List.mem_singleton.mp hnew]
  · exact h.courses

end AtWork

/-! ## What holds throughout -/

variable {s s' : Workshop} {step : Step} {steps : List Step}

/-- The last build of the sidecar is over, and its file is at hand. -/
structure Built (path : Path) (temp : Location) (job : BuildJob) (s : Workshop) : Prop where
  alone : ∀ build ∈ s.builders.line, build.job.path ≠ path
  holds : s.files.node? temp = some (.file job.content)

/-- The writer waits for a build of the sidecar. -/
structure Underway (path : Path) (temp : Location) (ticket : Nat) (job : BuildJob) (s : Workshop) :
    Prop where
  newest : s.builders.nextTicket = ticket + 1
  ours : ∀ build ∈ s.builders.line, build.ticket = ticket → build.job = job
  /-- When it has been built, its file is at hand. -/
  holds : ∀ build ∈ s.builders.pool.active, build.ticket = ticket →
    build.result = some (.ok ()) → s.files.node? temp = some (.file job.content)
  /-- When it has ended, no other build of the sidecar is left. -/
  ended : ∀ message, s.sent.lookup ticket = some message →
    (∀ build ∈ s.builders.line, build.job.path ≠ path) ∧
      (message = some (.ok ()) → s.files.node? temp = some (.file job.content))

/-- What every step keeps, as long as no two builds of the sidecar are being run at a time. -/
structure Orderly (others : Location → Prop) (home : FileTree) (path : Path) (final temp : Location)
    (s : Workshop) : Prop where
  site : Site home path final temp s.files
  work : AtWork s.host s.builders
  sent : ∀ entry ∈ s.sent, entry.1 < s.builders.nextTicket
  jobs : ∀ build ∈ s.builders.line, Concerns others path home build.job
  job : ∀ job, s.stage.job? = some job → Concerns others path home job
  waiting : ∀ ticket job, s.stage = .waiting ticket job → job.path = path →
    Underway path temp ticket job s
  publishing : ∀ job, s.stage = .publishing job → job.path = path → Built path temp job s
  published : (∀ job, s.stage.job? = some job → job.path ≠ path) → ∀ job,
    s.returned.find? (fun entry => entry.1.path = path) = some (job, .ok ()) →
    s.files.node? final = some (.file job.content)

/-- Of the builds that are being run, one at most is for the sidecar. -/
def Solo (path : Path) (s : Workshop) : Prop :=
  ∀ x ∈ s.builders.pool.active, ∀ y ∈ s.builders.pool.active,
    x.job.path = path → y.job.path = path → x.ticket = y.ticket

/-! ### Workers -/

/-- What a worker may do to the rest: it changes the temporary file, if a build of the sidecar is
being run. -/
structure Works (others : Location → Prop) (path : Path) (temp : Location) (s s' : Workshop) :
    Prop where
  stage : s'.stage = s.stage
  returned : s'.returned = s.returned
  follows : Follows s.builders s'.builders
  files : s.files.AgreeOff others
    (fun loc => (∃ build ∈ s.builders.pool.active, build.job.path = path) ∧ loc = temp) s'.files

namespace Works

variable (h : Works others path temp s s')

include h

theorem alone (halone : ∀ build ∈ s.builders.line, build.job.path ≠ path) :
    ∀ build ∈ s'.builders.line, build.job.path ≠ path := by
  intro build hbuild
  obtain ⟨old, hold, -, hjob⟩ := h.follows.origin hbuild
  rw [← hjob]
  exact halone old hold

theorem node_temporary (halone : ∀ build ∈ s.builders.line, build.job.path ≠ path)
    (hmine : ¬ others temp) : s'.files.node? temp = s.files.node? temp := by
  refine h.files.nodes temp hmine ?_
  rintro ⟨⟨build, hbuild, hpath⟩, -⟩
  exact halone build (mem_line_of_active hbuild) hpath

theorem built (hbuilt : Built path temp job s) (hmine : ¬ others temp) : Built path temp job s' :=
  ⟨h.alone hbuilt.alone, by rw [h.node_temporary hbuilt.alone hmine]; exact hbuilt.holds⟩

theorem ended (hunder : Underway path temp ticket job s) (hmine : ¬ others temp)
    {message : Option (Except Error Unit)} (hsent : s.sent.lookup ticket = some message) :
    (∀ build ∈ s'.builders.line, build.job.path ≠ path) ∧
      (message = some (.ok ()) → s'.files.node? temp = some (.file job.content)) := by
  obtain ⟨halone, hholds⟩ := hunder.ended message hsent
  rw [h.node_temporary halone hmine]
  exact ⟨h.alone halone, hholds⟩

end Works

/-- A step of a worker keeps everything, if it keeps what the writer may be waiting for. -/
theorem Orderly.works (h : Orderly others home path final temp s)
    (helse : Elsewhere others path home) (hworks : Works others path temp s s')
    (hwork : AtWork s'.host s'.builders)
    (hsent : ∀ entry ∈ s'.sent, entry.1 < s.builders.nextTicket)
    (hholds : ∀ ticket job, job.path = path → Underway path temp ticket job s →
      ∀ build ∈ s'.builders.pool.active, build.ticket = ticket → build.result = some (.ok ()) →
        s'.files.node? temp = some (.file job.content))
    (hended : ∀ ticket job, job.path = path → Underway path temp ticket job s →
      ∀ message, s'.sent.lookup ticket = some message →
        (∀ build ∈ s'.builders.line, build.job.path ≠ path) ∧
          (message = some (.ok ()) → s'.files.node? temp = some (.file job.content))) :
    Orderly others home path final temp s' := by
  have hmine := h.site.temporary_mine helse
  refine ⟨h.site.agreeOff helse hworks.files, hwork, ?_, ?_, ?_, ?_, ?_, ?_⟩
  · rw [hworks.follows.1]
    exact hsent
  · intro build hbuild
    obtain ⟨old, hold, -, hjob⟩ := hworks.follows.origin hbuild
    rw [← hjob]
    exact h.jobs old hold
  · rw [hworks.stage]
    exact h.job
  · intro ticket job hstage hpath
    have hunder := h.waiting ticket job (hworks.stage ▸ hstage) hpath
    refine ⟨hworks.follows.1.trans hunder.newest, ?_, hholds ticket job hpath hunder,
      hended ticket job hpath hunder⟩
    intro build hbuild hticket
    obtain ⟨old, hold, hsame, hjob⟩ := hworks.follows.origin hbuild
    rw [← hjob]
    exact hunder.ours old hold (hsame.trans hticket)
  · intro job hstage hpath
    exact hworks.built (h.publishing job (hworks.stage ▸ hstage) hpath) hmine
  · rw [hworks.stage, hworks.returned]
    intro hidle job hlast
    rw [hworks.files.nodes final (h.site.final_mine helse) fun htemp => h.site.ne htemp.2.symm]
    exact h.published hidle job hlast

/-- When the build that the writer waits for is done, no other build of the sidecar is left. -/
theorem Orderly.alone_of_finish (h : Orderly others home path final temp s) (hsolo : Solo path s)
    (hplace : s.builders.pool.active[place]? = some x)
    (hunder : Underway path temp x.ticket job s) (hpath : job.path = path) :
    ∀ build ∈ (s.finish place).builders.line, build.job.path ≠ path := by
  intro build hbuild hmine
  have hactive := List.mem_of_getElem? hplace
  have hours := hunder.ours x (mem_line_of_active hactive) rfl
  obtain ⟨old, hold, hticket, hjob⟩ := (follows_finish s.builders place).origin hbuild
  have hsame := hsolo old (h.work.inOrder.active_of_newest hactive hunder.newest hold) x hactive
    (hjob ▸ hmine) (hours ▸ hpath)
  exact h.work.inOrder.ne_of_finish hplace hbuild (hticket.symm.trans hsame)

namespace Orderly

variable (h : Orderly others home path final temp s) (helse : Elsewhere others path home)

include h helse

theorem start (hstart : s.builders.start s.host = some (host, b)) :
    Orderly others home path final temp { s with host, builders := b } := by
  have hworks : Works others path temp s { s with host, builders := b } :=
    ⟨rfl, rfl, follows_start hstart, .refl _ _ _⟩
  refine h.works helse hworks (h.work.start hstart) h.sent ?_ fun ticket job _ hunder message =>
    hworks.ended hunder (h.site.temporary_mine helse)
  intro ticket job _ hunder build hbuild hticket hresult
  obtain ⟨task, rest, course, hqueue, rfl⟩ := start_cases hstart
  -- The job that is started has no result yet.
  obtain ⟨old, hold, rfl⟩ := List.mem_map.mp hbuild
  have hsame : ∀ x : Build, (if x.ticket = task.ticket then { x with course := some course }
      else x).ticket = x.ticket ∧ (if x.ticket = task.ticket then { x with course := some course }
      else x).result = x.result := fun x => by split <;> exact ⟨rfl, rfl⟩
  rw [(hsame old).1] at hticket
  rw [(hsame old).2] at hresult
  rcases List.mem_append.mp hold with hactive | htask
  · exact hunder.holds old hactive hticket hresult
  · have hunbuilt := h.work.unbuilt task (hqueue ▸ List.mem_cons_self)
    rw [List.mem_singleton.mp htask, hunbuilt] at hresult
    cases hresult

theorem build {files : FileTree} {course : Host.Course} {result : Option (Except Error Unit)}
    (hsolo : Solo path s) (hplace : s.builders.pool.active[place]? = some x)
    (hcourse : x.course = some course)
    (hend : Host.endBuild course x.job.ids x.job.vectors x.job.temporary (s.files, s.host)
      = (result, files, host)) :
    Orderly others home path final temp { s with
      files, host, builders := s.builders.modify x.ticket fun build => { build with result } } := by
  have hactive := List.mem_of_getElem? hplace
  have hjob := h.jobs x (mem_line_of_active hactive)
  have hagree := hjob.agreeOff_temporary h.site (agreeOff_endBuild others hend)
  have hworks : Works others path temp s { s with
      files, host, builders := s.builders.modify x.ticket fun build => { build with result } } :=
    ⟨rfl, rfl, follows_modify _ (fun _ => ⟨rfl, rfl⟩) rfl rfl,
      hagree.mono fun loc hloc => Or.inr ⟨⟨x, hactive, hloc.1⟩, hloc.2⟩⟩
  refine h.works helse hworks (h.work.build hplace hend) h.sent ?_
    fun ticket job _ hunder message => hworks.ended hunder (h.site.temporary_mine helse)
  intro ticket job hpath hunder build hbuild hticket hresult
  obtain ⟨old, hold, rfl⟩ := List.mem_map.mp hbuild
  by_cases hsame : old.ticket = x.ticket
  · -- It is the build that the writer waits for, and it has been written.
    simp only [hsame, if_true] at hticket hresult
    subst hresult
    have hours : x.job = job := hunder.ours x (mem_line_of_active hactive) hticket
    have hcourse' : course ≠ .skips := fun hskips => h.work.courses x hactive (hskips ▸ hcourse)
    have hwrite := write_of_endBuild hcourse' hend
    rw [hjob.temporary_eq helse (hours ▸ hpath)] at hwrite
    obtain ⟨loc, hplaces, -, hput⟩ := write_eq_ok_iff.mp hwrite
    dsimp only
    rw [hput, hplaces.unique h.site.temporaryAt, node?_put_self h.site.temporaryAt.ne_nil, hours]
    rfl
  · simp only [hsame, if_false] at hticket hresult
    have hours := hunder.ours old (mem_line_of_active hold) hticket
    have hother : x.job.path ≠ path := fun hx =>
      hsame (hsolo old hold x hactive (hours ▸ hpath) hx)
    have hkept : files.node? temp = s.files.node? temp :=
      hagree.nodes temp (h.site.temporary_mine helse) fun hloc => hother hloc.1
    exact hkept.trans (hunder.holds old hold hticket hresult)

theorem discard (hsolo : Solo path s) (hplace : s.builders.pool.active[place]? = some x) :
    Orderly others home path final temp { s.finish place with
      files := s.files.removeIfPossible x.job.temporary } := by
  have hactive := List.mem_of_getElem? hplace
  have hjob := h.jobs x (mem_line_of_active hactive)
  have hagree := hjob.agreeOff_temporary h.site (agreeOff_removeIfPossible others s.files _)
  have hworks : Works others path temp s { s.finish place with
      files := s.files.removeIfPossible x.job.temporary } :=
    ⟨rfl, rfl, follows_finish s.builders place,
      hagree.mono fun loc hloc => Or.inr ⟨⟨x, hactive, hloc.1⟩, hloc.2⟩⟩
  refine h.works helse hworks (h.work.finish place) h.sent ?_
    fun ticket job _ hunder message => hworks.ended hunder (h.site.temporary_mine helse)
  intro ticket job hpath hunder build hbuild hticket hresult
  -- The job that is gone was for another sidecar, or else two builds of one were being run.
  have hold : build ∈ s.builders.pool.active := mem_active_of_finish hbuild
  have hours := hunder.ours build (mem_line_of_active hold) hticket
  have hother : x.job.path ≠ path := fun hx =>
    h.work.inOrder.ne_of_finish hplace (mem_line_of_active hbuild)
      (hsolo build hold x hactive (hours ▸ hpath) hx)
  have hkept : (s.files.removeIfPossible x.job.temporary).node? temp = s.files.node? temp :=
    hagree.nodes temp (h.site.temporary_mine helse) fun hloc => hother hloc.1
  exact hkept.trans (hunder.holds build hold hticket hresult)

theorem send {result : Option (Except Error Unit)} (hsolo : Solo path s)
    (hplace : s.builders.pool.active[place]? = some x) (hown : result = none ∨ result = x.result) :
    Orderly others home path final temp { s.finish place with
      sent := (x.ticket, result) :: s.sent } := by
  have hactive := List.mem_of_getElem? hplace
  have hworks : Works others path temp s { s.finish place with
      sent := (x.ticket, result) :: s.sent } :=
    ⟨rfl, rfl, follows_finish s.builders place, .refl _ _ _⟩
  refine h.works helse hworks (h.work.finish place) ?_ ?_ ?_
  · intro entry hentry
    rcases List.mem_cons.mp hentry with rfl | hold
    · exact h.work.inOrder.given x (mem_line_of_active hactive)
    · exact h.sent entry hold
  · exact fun ticket job _ hunder build hbuild =>
      hunder.holds build (mem_active_of_finish hbuild)
  · intro ticket job hpath hunder message hsent
    by_cases hticket : ticket = x.ticket
    · subst hticket
      rw [List.lookup_cons_self, Option.some.injEq] at hsent
      subst hsent
      refine ⟨h.alone_of_finish hsolo hplace hunder hpath, fun hok => ?_⟩
      subst hok
      exact hunder.holds x hactive rfl (hown.resolve_left nofun).symm
    · rw [List.lookup_cons, beq_false_of_ne hticket] at hsent
      exact hworks.ended hunder (h.site.temporary_mine helse) hsent

theorem look (looked : List (Nat × Bool)) :
    Orderly others home path final temp { s with looked } :=
  h.works helse ⟨rfl, rfl, .refl _, .refl _ _ _⟩ h.work h.sent
    (fun _ _ _ hunder => hunder.holds) (fun _ _ _ hunder => hunder.ended)

theorem pass (time : Nat) :
    Orderly others home path final temp { s with host := s.host.passUntil time } :=
  h.works helse ⟨rfl, rfl, .refl _, .refl _ _ _⟩
    ⟨h.work.inOrder, h.work.unbuilt, h.work.skipped, h.work.courses⟩ h.sent
    (fun _ _ _ hunder => hunder.holds) (fun _ _ _ hunder => hunder.ended)

end Orderly

/-! ### The writer -/

/-- A step of the writer after which it neither waits nor publishes. -/
theorem Orderly.writes (h : Orderly others home path final temp s)
    (hsite : Site home path final temp s'.files) (hwork : AtWork s'.host s'.builders)
    (hfollows : Follows s.builders s'.builders) (hsent : s'.sent = s.sent)
    (hjob : ∀ job, s'.stage.job? = some job → Concerns others path home job)
    (hwaiting : ∀ ticket job, s'.stage ≠ .waiting ticket job)
    (hpublishing : ∀ job, s'.stage ≠ .publishing job)
    (hpublished : (∀ job, s'.stage.job? = some job → job.path ≠ path) → ∀ job,
      s'.returned.find? (fun entry => entry.1.path = path) = some (job, .ok ()) →
      s'.files.node? final = some (.file job.content)) :
    Orderly others home path final temp s' := by
  refine ⟨hsite, hwork, ?_, ?_, hjob, ?_, ?_, hpublished⟩
  · rw [hsent, hfollows.1]
    exact h.sent
  · intro build hbuild
    obtain ⟨old, hold, -, hsame⟩ := hfollows.origin hbuild
    rw [← hsame]
    exact h.jobs old hold
  · exact fun ticket job hstage => absurd hstage (hwaiting ticket job)
  · exact fun job hstage => absurd hstage (hpublishing job)

/-- A write of the sidecar has returned. -/
theorem find?_returned {returned : List (BuildJob × Except Error Unit)}
    {result : Except Error Unit} {last : BuildJob}
    (h : ((job, result) :: returned).find? (fun entry => entry.1.path = path)
      = some (last, .ok ())) :
    (job.path = path ∧ result = .ok () ∧ last = job) ∨
      (job.path ≠ path ∧ returned.find? (fun entry => entry.1.path = path) = some (last, .ok ())) := by
  by_cases hpath : job.path = path
  · rw [List.find?_cons_of_pos (by simpa using hpath)] at h
    cases h
    exact Or.inl ⟨hpath, rfl, rfl⟩
  · rw [List.find?_cons_of_neg (by simpa using hpath)] at h
    exact Or.inr ⟨hpath, h⟩

namespace Orderly

variable (h : Orderly others home path final temp s)

include h

/-- The writer is not writing the sidecar, and what it does write leaves the sidecar alone. -/
theorem published_of_agreeOff {files : FileTree} {last : BuildJob}
    (helse : Elsewhere others path home)
    (hagree : s.files.AgreeOff others (fun loc => job.path = path ∧ S loc) files)
    (hstage : ∀ other, s.stage.job? = some other → other = job) (hpath : job.path ≠ path)
    (hlast : s.returned.find? (fun entry => entry.1.path = path) = some (last, .ok ())) :
    files.node? final = some (.file last.content) := by
  rw [hagree.nodes final (h.site.final_mine helse) fun hloc => hpath hloc.1]
  exact h.published (fun other hother => hstage other hother ▸ hpath) last hlast

theorem mark {files : FileTree} (helse : Elsewhere others path home)
    (hjob : Concerns others path home job) (hfree : s.stage = .free)
    (hmade : s.files.create job.path = .ok files) :
    Orderly others home path final temp { s with files, stage := .marked job } := by
  have hagree := hjob.agreeOff_path h.site (agreeOff_write others hmade)
  refine h.writes (h.site.agreeOff helse hagree) h.work (.refl _) rfl ?_ nofun nofun ?_
  · rintro _ ⟨⟩
    exact hjob
  · exact fun hidle last => h.published_of_agreeOff helse hagree (by rw [hfree]; nofun)
      (hidle job rfl)

theorem unmarked {e : Error} (hfree : s.stage = .free) :
    Orderly others home path final temp
      { s with returned := (job, .error e) :: s.returned } := by
  refine h.writes h.site h.work (.refl _) rfl h.job ?_ ?_ ?_
  · exact fun _ _ => by rw [hfree]; nofun
  · exact fun _ => by rw [hfree]; nofun
  · intro hidle last hlast
    rcases find?_returned hlast with ⟨-, ⟨⟩, -⟩ | ⟨-, hlast⟩
    exact h.published hidle last hlast

theorem fail {stage : Stage} (hbefore : s.stage.job? = some job) (hafter : stage.job? = some job)
    (hfailing : stage.Failing) : Orderly others home path final temp { s with stage } := by
  refine h.writes h.site h.work (.refl _) rfl ?_ hfailing.calm.1 hfailing.calm.2 ?_
  all_goals rw [hafter, ← hbefore]
  · exact h.job
  · exact h.published

theorem abandon {e : Error} (hstage : s.stage = .expired ticket job) :
    Orderly others home path final temp
      { s with builders := s.builders.abandon ticket, stage := .sweeping job e } := by
  have hjob := h.job
  have hpublished := h.published
  rw [hstage] at hjob hpublished
  exact h.writes h.site (h.work.abandon ticket)
    (follows_modify ticket (fun _ => ⟨rfl, rfl⟩) rfl rfl) rfl hjob nofun nofun hpublished

theorem sweep {e : Error} (helse : Elsewhere others path home)
    (hstage : s.stage = .sweeping job e) :
    Orderly others home path final temp { s with
      files := s.files.removeIfPossible job.temporary, stage := .clearing job e } := by
  have hjob := h.job
  rw [hstage] at hjob
  have hagree := (hjob job rfl).agreeOff_temporary h.site
    (agreeOff_removeIfPossible others s.files _)
  refine h.writes (h.site.agreeOff helse hagree) h.work (.refl _) rfl hjob nofun nofun ?_
  intro hidle last
  refine h.published_of_agreeOff helse hagree ?_ (hidle job rfl)
  rw [hstage]
  exact fun other hother => (Option.some.inj hother).symm

theorem clear {e : Error} (helse : Elsewhere others path home)
    (hstage : s.stage = .clearing job e) :
    Orderly others home path final temp { s with
      files := s.files.removeIfPossible job.path
      stage := .free
      returned := (job, .error e) :: s.returned } := by
  have hjob := h.job
  rw [hstage] at hjob
  have hagree := (hjob job rfl).agreeOff_path h.site (agreeOff_removeIfPossible others s.files _)
  refine h.writes (h.site.agreeOff helse hagree) h.work (.refl _) rfl nofun nofun nofun ?_
  intro _ last hlast
  rcases find?_returned hlast with ⟨-, ⟨⟩, -⟩ | ⟨hpath, hlast⟩
  refine h.published_of_agreeOff helse hagree ?_ hpath hlast
  rw [hstage]
  exact fun other hother => (Option.some.inj hother).symm

theorem publish {files : FileTree} (helse : Elsewhere others path home)
    (hstage : s.stage = .publishing job)
    (hrename : s.files.rename job.temporary job.path = .ok files) :
    Orderly others home path final temp { s with
      files, stage := .free, returned := (job, .ok ()) :: s.returned } := by
  have hjob := h.job
  rw [hstage] at hjob
  rcases hjob job rfl with ⟨hpath, htemporary⟩ | helsewhere
  · obtain ⟨hsite, hmoved⟩ := h.site.rename (hpath ▸ htemporary ▸ hrename)
    refine h.writes hsite h.work (.refl _) rfl nofun nofun nofun ?_
    intro _ last hlast
    rcases find?_returned hlast with ⟨-, -, rfl⟩ | ⟨hother, -⟩
    · exact hmoved.trans (h.publishing last hstage hpath).holds
    · exact absurd hpath hother
  · have hagree : s.files.AgreeOff others (fun _ => False) files := by
      rw [← destination_eq h.site.origin, ← destination_eq h.site.origin] at helsewhere
      exact agreeOff_rename helse.below helsewhere.2 helsewhere.1 hrename
    refine h.writes (h.site.agreeOff helse hagree) h.work (.refl _) rfl nofun nofun nofun ?_
    intro _ last hlast
    have hpath : job.path ≠ path := by
      rintro rfl
      exact helse.names.published.destination helsewhere.1
    rcases find?_returned hlast with ⟨hsame, -⟩ | ⟨-, hlast⟩
    · exact absurd hsame hpath
    · refine h.published_of_agreeOff (S := fun _ => False) helse
        (hagree.mono fun _ => False.elim) ?_ hpath hlast
      rw [hstage]
      exact fun other hother => (Option.some.inj hother).symm

theorem submit (hstage : s.stage = .marked job) (htaken : s.builders.submit job = some (ticket, b)) :
    Orderly others home path final temp { s with builders := b, stage := .waiting ticket job } := by
  have hjob := h.job
  have hpublished := h.published
  rw [hstage] at hjob hpublished
  have hwork := h.work.submit htaken
  obtain ⟨rfl, rfl⟩ := submit_cases htaken
  refine ⟨h.site, hwork, fun entry hentry => Nat.lt_succ_of_lt (h.sent entry hentry), ?_, hjob, ?_,
    nofun, hpublished⟩
  · intro build hbuild
    simp only [line, ← List.append_assoc] at hbuild
    rcases List.mem_append.mp hbuild with hold | hnew
    · exact h.jobs build hold
    · rw [List.mem_singleton.mp hnew]
      exact hjob job rfl
  · rintro _ _ ⟨⟩ hpath
    refine ⟨rfl, ?_, ?_, ?_⟩
    · intro build hbuild hticket
      simp only [line, ← List.append_assoc] at hbuild
      rcases List.mem_append.mp hbuild with hold | hnew
      · exact absurd hticket (Nat.ne_of_lt (h.work.inOrder.given build hold))
      · rw [List.mem_singleton.mp hnew]
    · exact fun build hbuild hticket =>
        absurd hticket (Nat.ne_of_lt (h.work.inOrder.given build (mem_line_of_active hbuild)))
    · intro message hsent
      obtain ⟨front, back, heq, -⟩ := List.lookup_eq_some_iff.mp hsent
      have hentry : (s.builders.nextTicket, message) ∈ s.sent :=
        heq.symm ▸ List.mem_append_right front List.mem_cons_self
      exact absurd (h.sent _ hentry) (Nat.lt_irrefl _)

theorem receive (hstage : s.stage = .waiting ticket job)
    (hcame : s.sent.lookup ticket = some (some (.ok ()))) :
    Orderly others home path final temp { s with stage := .publishing job } := by
  have hjob := h.job
  have hpublished := h.published
  rw [hstage] at hjob hpublished
  refine ⟨h.site, h.work, h.sent, h.jobs, hjob, nofun, ?_, hpublished⟩
  rintro _ ⟨⟩ hpath
  obtain ⟨halone, hholds⟩ := (h.waiting ticket job hstage hpath).ended _ hcame
  exact ⟨halone, hholds rfl⟩

end Orderly

/-! ## The last write -/

theorem Orderly.perform (h : Orderly others home path final temp s)
    (helse : Elsewhere others path home) (hsolo : Solo path s)
    (hmark : ∀ job, step = .mark job → Concerns others path home job)
    (hstep : s.perform step = some s') : Orderly others home path final temp s' := by
  cases effect_of_perform hstep with
  | mark free made => exact h.mark helse (hmark _ rfl) free made
  | unmarked free => exact h.unmarked free
  | submit marked taken => exact h.submit marked taken
  | receive waiting came => exact h.receive waiting came
  | fail before after failing => exact h.fail before after failing
  | abandon expired => exact h.abandon expired
  | sweep sweeping => exact h.sweep helse sweeping
  | clear clearing => exact h.clear helse clearing
  | publish publishing renamed => exact h.publish helse publishing renamed
  | start started => exact h.start helse started
  | build active started ended => exact h.build helse hsolo active started ended
  | look => exact h.look helse _
  | discard active => exact h.discard helse hsolo active
  | send active own => exact h.send helse hsolo active own
  | pass => exact h.pass helse _

theorem Orderly.run (h : Orderly others home path final temp s)
    (helse : Elsewhere others path home) (hsolo : Throughout (Solo path) steps s)
    (hmark : ∀ job, .mark job ∈ steps → Concerns others path home job)
    (hrun : Workshop.run steps s = some s') : Orderly others home path final temp s' := by
  induction steps generalizing s with
  | nil =>
    cases hrun
    exact h
  | cons step rest ih =>
    obtain ⟨next, hnext, hrest⟩ := Option.bind_eq_some_iff.mp hrun
    refine ih (h.perform helse hsolo.1 ?_ hnext) (hsolo.2 next hnext) ?_ hrest
    · exact fun job hjob => hmark job (hjob ▸ List.mem_cons_self)
    · exact fun job hjob => hmark job (List.mem_cons_of_mem _ hjob)

/-- Nothing stands in the way of the sidecar. -/
structure Room (others : Location → Prop) (path : Path) (files : FileTree) : Prop where
  elsewhere : Elsewhere others path files
  grounded : files.Grounded
  marker : ∃ marked, files.create path = .ok marked
  temporary : ∃ opened, files.create (temporaryPath path) = .ok opened

variable {files : FileTree} {config : WriterConfig}

theorem orderly_new (config : WriterConfig) (h : Room others path files)
    (hskipped : host.instruments.skippedBuilds = 0) :
    ∃ final temp, Orderly others files path final temp (new files host config) := by
  obtain ⟨marked, hmarked⟩ := h.marker
  obtain ⟨opened, hopened⟩ := h.temporary
  obtain ⟨final, hfinal, hfree, -⟩ := write_eq_ok_iff.mp hmarked
  obtain ⟨temp, htemp, hfree', -⟩ := write_eq_ok_iff.mp hopened
  refine ⟨final, temp, ⟨rfl, hfinal, htemp, hfree, hfree', h.grounded.apart hfree' hfree⟩,
    ⟨inOrder_new config, List.forall_mem_nil _, hskipped, List.forall_mem_nil _⟩,
    List.forall_mem_nil _, List.forall_mem_nil _, nofun, nofun, nofun, ?_⟩
  exact fun _ _ => nofun

/-! A single worker runs one build at a time. -/

theorem workers_perform (h : s.perform step = some s') :
    s'.builders.pool.workers = s.builders.pool.workers := by
  cases effect_of_perform h with
  | submit marked taken => exact (sameCrew_submit taken).workers
  | start started => exact (sameCrew_start started).workers
  | discard active => exact (sameCrew_finish s.builders _).workers
  | send active => exact (sameCrew_finish s.builders _).workers
  | _ => rfl

/-- So many workers run at most so many jobs. -/
def Crewed (n : Nat) (s : Workshop) : Prop :=
  s.builders.pool.workers = n ∧ s.builders.pool.active.length ≤ n

theorem Crewed.perform {n : Nat} (h : Crewed n s) (hstep : s.perform step = some s') :
    Crewed n s' := by
  refine ⟨(workers_perform hstep).trans h.1, ?_⟩
  cases effect_of_perform hstep with
  | submit marked taken =>
    obtain ⟨-, rfl⟩ := submit_cases taken
    exact h.2
  | abandon =>
    rw [Builders.abandon, active_modify, List.length_map]
    exact h.2
  | start started =>
    obtain ⟨⟨task, pool⟩, hstart, heq⟩ := Option.map_eq_some_iff.mp started
    obtain ⟨hidle, rest, -, rfl⟩ := WorkerPool.start_cases hstart
    cases heq
    have hidle' := h.1 ▸ hidle
    rw [active_modify, List.length_map, List.length_append, List.length_singleton]
    omega
  | build =>
    rw [active_modify, List.length_map]
    exact h.2
  | discard active =>
    dsimp only [finish]
    rw [WorkerPool.finish_eq active]
    exact (List.length_eraseIdx_le _ _).trans h.2
  | send active =>
    dsimp only [finish]
    rw [WorkerPool.finish_eq active]
    exact (List.length_eraseIdx_le _ _).trans h.2
  | _ => exact h.2

theorem throughout_solo (path : Path) (hthreads : config.buildThreads ≤ 1) :
    Throughout (Solo path) steps (new files host config) := by
  have hnew : Crewed 1 (new files host config) := ⟨Nat.max_eq_right hthreads, Nat.zero_le 1⟩
  have hcrewed : Throughout (Crewed 1) steps (new files host config) :=
    throughout_of_keeps (fun _ _ _ hs hstep => hs.perform hstep) hnew
  refine hcrewed.imp fun s hs x hx y hy _ _ => ?_
  obtain ⟨i, hi, rfl⟩ := List.mem_iff_getElem.mp hx
  obtain ⟨j, hj, rfl⟩ := List.mem_iff_getElem.mp hy
  have hone := hs.2
  obtain rfl : i = j := by omega
  rfl

/-- **What a write has published.** As long as no two builds of the sidecar are being run at a time,
and with a single worker they never are, the sidecar is the output of the last write of it that has
returned, if that ended well. It stays so until the next write begins, whatever becomes of jobs that
were abandoned before. -/
theorem published_of_solo (hroom : Room others path files)
    (hskipped : host.instruments.skippedBuilds = 0)
    (hmark : ∀ job, .mark job ∈ steps → Concerns others path files job)
    (hsolo : config.buildThreads ≤ 1 ∨ Throughout (Solo path) steps (new files host config))
    (hrun : run steps (new files host config) = some s)
    (hidle : ∀ job, s.stage.job? = some job → job.path ≠ path)
    (hlast : s.returned.find? (fun entry => entry.1.path = path) = some (job, .ok ())) :
    s.files.stat path = .ok (.file (FlatIndex.encode job.ids job.vectors)) := by
  have hsolo' : Throughout (Solo path) steps (new files host config) :=
    hsolo.elim (throughout_solo path) id
  obtain ⟨final, temp, hnew⟩ := orderly_new config hroom hskipped
  have horderly := hnew.run hroom.elsewhere hsolo' hmark hrun
  exact stat_eq_file_iff.mpr ⟨final, horderly.site.finalAt, horderly.published hidle job hlast⟩

/-- A segment is flushed, and flushed again with another vector. -/
def flushed (vector : Embedding) : BuildJob :=
  { path := ⟨"_0_flat1.hnsw"⟩
    temporary := ⟨"_0_flat1.hnsw.tmp"⟩
    ids := [0]
    vectors := [vector] }

def first : BuildJob := flushed [⟨0x3f800000⟩]

def second : BuildJob := flushed [⟨0x40000000⟩]

def impatient (buildThreads : Nat) : WriterConfig := { buildThreads, buildTimeoutMs := some 20 }

/-- The writer gives up while the first job is being run. -/
def givingUp : List Step := [.mark first, .go, .start, .expire, .go, .go, .go]

/-- The only worker is done with the abandoned job before it takes the second one. -/
def inTurn : List Step :=
  [.mark second, .go, .build 0, .look 0, .retire 0, .start, .build 0, .look 0, .retire 0, .go, .go]

theorem published_after_timeout :
    ∃ s, run (givingUp ++ inTurn) (new desk {} (impatient 1)) = some s ∧
      s.returned = [(second, .ok ()), (first, .error (.buildTimeout "_0_flat1.hnsw" 20))] ∧
      s.files.stat second.path = .ok (.file (FlatIndex.encode second.ids second.vectors)) := by
  have hreturned : (run (givingUp ++ inTurn) (new desk {} (impatient 1))).map
      (fun s => (s.stage.job?, s.returned))
      = some (none,
          [(second, .ok ()), (first, .error (.buildTimeout "_0_flat1.hnsw" 20))]) := by
    decide +kernel
  obtain ⟨s, hrun, heq⟩ := Option.map_eq_some_iff.mp hreturned
  obtain ⟨hstage, hreturned⟩ := Prod.mk.inj heq
  have hnames : Reserved (["w", "_9.si"] <+: ·) second.path desk := by
    constructor
    · change ∀ loc ∈ desk.way second.path, ¬ ["w", "_9.si"] <+: loc
      decide +kernel
    · change ∀ loc ∈ desk.way (temporaryPath second.path), ¬ ["w", "_9.si"] <+: loc
      decide +kernel
  have hroom : Room (["w", "_9.si"] <+: ·) second.path desk :=
    ⟨⟨hnames, fun _ _ => List.IsPrefix.trans⟩, grounded_desk,
      ⟨desk.put ["w", "_0_flat1.hnsw"] (.file []), by decide +kernel⟩,
      ⟨desk.put ["w", "_0_flat1.hnsw.tmp"] (.file []), by decide +kernel⟩⟩
  have hmark : ∀ job, .mark job ∈ givingUp ++ inTurn →
      Concerns (["w", "_9.si"] <+: ·) second.path desk job := by
    intro job hjob
    have hboth : job = first ∨ job = second := by
      simpa [givingUp, inTurn] using hjob
    rcases hboth with rfl | rfl
    · exact Or.inl ⟨rfl, rfl⟩
    · exact Or.inl ⟨rfl, rfl⟩
  have hidle : ∀ job, s.stage.job? = some job → job.path ≠ second.path := by
    rw [hstage]
    exact nofun
  have hlast : s.returned.find? (fun entry => entry.1.path = second.path)
      = some (second, .ok ()) := by
    rw [hreturned]
    rfl
  have hthreads : (impatient 1).buildThreads ≤ 1 := Nat.le_refl 1
  exact ⟨s, hrun, hreturned,
    published_of_solo hroom rfl hmark (Or.inl hthreads) hrun hidle hlast⟩

end Workshop

end Sidecar
