import Sidecar.Proofs.Files.Key
import Sidecar.Proofs.Writer.Abandoned

/-!
# Writes that fail

A write makes its marker at the final path and lets a job write beside it. If it fails, both are
removed, and there is nothing to tell that a write was attempted (`Undone`): every file was there
before, and if the marker had been made, there is nothing at the final path.

How a write can fail is settled once (`write_error`): before the marker, which changes nothing; or
after it, and then `publish` has removed the marker, and the temporary file as well unless the job
was refused. What the job has done in between is known from its places alone (`Confined`), so it does
not matter how far it came. The state of the files is then `Cleaned`, and it stays so as long as no
file comes back to the temporary path.

There is one way out. A job that outlives its write removes its file when its build has ended, but it does
not come to that if the build panics (`left_of_late_panic`). So what is said of later times is said of
engines that panic, if they do, before they write (`TidySteps`).

A sidecar that was there already falls victim to this. The marker truncates it, and a write that
fails then removes it (`survives_iff`).
-/

set_option autoImplicit false

namespace Sidecar

open Builders

namespace Writer

/-! ## The two kinds of write -/

/-- What a sidecar is written from. -/
inductive Source where
  | flush (values : ValueStream)
  | merge (inputs : List MergeInput)

def Source.values : Source → ValueStream
  | flush values => values
  | merge inputs => Merge.stream inputs

def Source.write {ε : Type} (run : BuildJob → FileTree × ε → BuildOutcome × (FileTree × ε))
    (tag : Option String) (target : SegmentTarget) :
    Source → FileTree × ε → Except Error (Option SidecarFile) × (FileTree × ε)
  | flush values => Writer.write run tag target values
  | merge inputs => Writer.writeMerge run tag target inputs

section

variable {ε : Type} {run : BuildJob → FileTree × ε → BuildOutcome × (FileTree × ε)}
  {tag : Option String} {target : SegmentTarget} {others : Location → Prop}
  {job : BuildJob} {outcome : BuildOutcome} {t marked files files' : FileTree} {e : Error}

theorem Source.write_eq (source : Source) (state : FileTree × ε) :
    source.write run tag target state = Writer.write run tag target source.values state := by
  cases source <;> rfl

/-! ## How a write fails -/

/-- The write gets as far as making its marker. -/
def Marks (values : ValueStream) (path : Path) (t : FileTree) : Prop :=
  (∃ first rest, collect none values = .ok (first :: rest)) ∧ ∃ marked, t.create path = .ok marked

theorem build_error {state after : FileTree × ε} (h : build run job state = (.error e, after)) :
    ((∀ marked, state.1.create job.path ≠ .ok marked) ∧ after = state) ∨
    ∃ marked outcome files rest files', state.1.create job.path = .ok marked ∧
      run job (marked, state.2) = (outcome, files, rest) ∧
      publish job outcome files = (.error e, files') ∧ after = (files', rest) := by
  unfold build at h
  split at h
  · next hcreate =>
    cases h
    exact Or.inl ⟨by simp [hcreate], rfl⟩
  · next marked hcreate =>
    rcases hrun : run job (marked, state.2) with ⟨outcome, files, rest⟩
    rcases hpublish : publish job outcome files with ⟨result, files'⟩
    simp only [hrun, hpublish] at h
    cases h
    exact Or.inr ⟨marked, outcome, files, rest, files', hcreate, hrun, hpublish, rfl⟩

theorem write_error {values : ValueStream} {state after : FileTree × ε}
    (h : write run tag target values state = (.error e, after)) :
    (¬ Marks values (target.sidecarPath tag) state.1 ∧ after = state) ∨
    (Marks values (target.sidecarPath tag) state.1 ∧
      ∃ job marked outcome files rest files', job.path = target.sidecarPath tag ∧
        job.temporary = temporaryPath (target.sidecarPath tag) ∧
        state.1.create (target.sidecarPath tag) = .ok marked ∧
        run job (marked, state.2) = (outcome, files, rest) ∧
        publish job outcome files = (.error e, files') ∧ after = (files', rest)) := by
  unfold write at h
  split at h
  · next hcollect =>
    cases h
    exact Or.inl ⟨by simp [Marks, hcollect], rfl⟩
  · cases h
  · next first rest hcollect =>
    dsimp only at h
    split at h
    · next hbuild =>
      cases h
      rcases build_error hbuild with ⟨hnone, heq⟩ | ⟨marked, hmore⟩
      · exact Or.inl ⟨fun hmarks => hnone _ hmarks.2.choose_spec, heq⟩
      · obtain ⟨outcome, files, rest', files', hcreate, hbuilt⟩ := hmore
        refine Or.inr ⟨⟨⟨first, rest, hcollect⟩, marked, hcreate⟩, ?_⟩
        exact ⟨_, marked, outcome, files, rest', files', rfl, rfl, hcreate, hbuilt⟩
    · cases h

theorem publish_error (h : publish job outcome files = (.error e, files')) :
    (outcome = .rejected ∧ files' = files.removeIfPossible job.path) ∨
    (outcome ≠ .rejected ∧ files' = cleanUp job files) := by
  unfold publish at h
  split at h
  · cases h
    exact Or.inl ⟨rfl, rfl⟩
  · cases h
    exact Or.inr ⟨nofun, rfl⟩
  · cases h
    exact Or.inr ⟨nofun, rfl⟩
  · cases h
    exact Or.inr ⟨nofun, rfl⟩
  · split at h
    · cases h
    · cases h
      exact Or.inr ⟨nofun, rfl⟩

end

/-! ## What is left -/

variable {others : Location → Prop} {path : Path} {wrote : Prop} {t t' t'' : FileTree}

/-- Nobody else has to do with the two names that a write uses. -/
structure Reserved (others : Location → Prop) (path : Path) (t : FileTree) : Prop where
  published : t.Spared others path
  temporary : t.Spared others (temporaryPath path)

/-- A write has left no trace: every file was there before, with the same bytes, and where the
marker was there is no file. -/
structure Undone (others : Location → Prop) (path : Path) (marked : Prop) (t t' : FileTree) :
    Prop where
  files : ∀ loc content, ¬ others loc → t'.node? loc = some (.file content) →
    t.node? loc = some (.file content)
  gone : marked → t'.stat path = .error .notFound

/-- Files have changed at the names of a write at most, and none is left there. -/
structure Cleaned (others : Location → Prop) (path : Path) (wrote : Prop) (t t' : FileTree) :
    Prop where
  agrees : t.AgreeOff others
    (fun loc => t.Places path loc ∨ wrote ∧ t.Places (temporaryPath path) loc) t'
  noMarker : ∀ loc content, t.Places path loc → t'.node? loc ≠ some (.file content)
  noTemporary : wrote → ∀ loc content, t.Places (temporaryPath path) loc →
    t'.node? loc ≠ some (.file content)

theorem undone_of_agreeOff {marked : Prop} (h : t.AgreeOff others (fun _ => False) t')
    (hmarked : ¬ marked) : Undone others path marked t t' := by
  refine ⟨?_, fun h => absurd h hmarked⟩
  intro loc content hfree hfile
  rw [← h.nodes loc hfree id]
  exact hfile

theorem Cleaned.undone {marked : Prop} (h : Cleaned others path wrote t t')
    (hnames : Reserved others path t) (hmark : marked → ∃ t₁, t.create path = .ok t₁) :
    Undone others path marked t t' := by
  constructor
  · intro loc content hfree hfile
    rw [← h.agrees.nodes loc hfree]
    · exact hfile
    · rintro (hpath | ⟨hwrote, htemporary⟩)
      · exact h.noMarker loc content hpath hfile
      · exact h.noTemporary hwrote loc content htemporary hfile
  · intro hmarked
    obtain ⟨t₁, hcreate⟩ := hmark hmarked
    obtain ⟨loc, hplaces, hnode, -⟩ := FileTree.write_eq_ok_iff.mp hcreate
    have hfree : ¬ others loc := hplaces.eq_destination ▸ hnames.published.destination
    apply FileTree.stat_eq_notFound (h.agrees.places hnames.published hplaces)
    rcases hleft : t'.node? loc with _ | _ | content
    · rfl
    · exact absurd ((h.agrees.directories loc hfree).mp hleft) hnode
    · exact absurd hleft (h.noMarker loc content hplaces)

/-- What happens later at the temporary path is of no account, once it is gone again. -/
theorem Cleaned.later (h : Cleaned others path wrote t t') (hnames : Reserved others path t)
    (hagree : t'.AgreeOff others (fun loc => wrote ∧ t.Places (temporaryPath path) loc) t'')
    (hgone : wrote → ∀ loc content, t.Places (temporaryPath path) loc →
      t''.node? loc ≠ some (.file content)) : Cleaned others path wrote t t'' := by
  refine ⟨h.agrees.trans (hagree.mono fun loc hin => Or.inr (Or.inr hin)), ?_, hgone⟩
  intro loc content hplaces
  have hfree : ¬ others loc := hplaces.eq_destination ▸ hnames.published.destination
  rw [hagree.nodes loc hfree]
  · exact h.noMarker loc content hplaces
  · rintro ⟨-, htemporary⟩
    exact hplaces.ne_of_appendText htemporary (by decide) (by decide) rfl

theorem cleaned_of_publish {job : BuildJob} {outcome : BuildOutcome} {marked files : FileTree}
    {e : Error} (hnames : Reserved others path t) (hpath : job.path = path)
    (htemporary : job.temporary = temporaryPath path) (hcreate : t.create path = .ok marked)
    (hrun : marked.AgreeOff others
      (fun loc => outcome ≠ .rejected ∧ marked.Places (temporaryPath path) loc) files)
    (hpublish : publish job outcome files = (.error e, t')) :
    Cleaned others path (outcome ≠ .rejected) t t' := by
  have hmark : t.AgreeOff others (t.Places path) marked := FileTree.agreeOff_write others hcreate
  have hmarked : ∀ loc, marked.Places (temporaryPath path) loc ↔ t.Places (temporaryPath path) loc :=
    fun _ => hmark.places_iff hnames.temporary
  simp only [hmarked] at hrun
  have hbuilt : t.AgreeOff others (fun loc => t.Places path loc ∨
      outcome ≠ .rejected ∧ t.Places (temporaryPath path) loc) files :=
    (hmark.mono fun loc hin => Or.inr (Or.inl hin)).trans (hrun.mono fun loc hin => .inr (.inr hin))
  rcases publish_error hpublish with ⟨hrejected, rfl⟩ | ⟨hwrote, rfl⟩
  · rw [hpath]
    refine ⟨hbuilt.trans ((files.agreeOff_removeIfPossible others path).mono ?_), ?_, ?_⟩
    · intro loc hplaces
      exact Or.inr (Or.inl ((hbuilt.places_iff hnames.published).mp hplaces))
    · intro loc content hplaces
      exact FileTree.node?_removeIfPossible (hbuilt.places hnames.published hplaces)
    · exact fun hwrote => absurd hrejected hwrote
  · rw [cleanUp, hpath, htemporary]
    have hmiddle : t.AgreeOff others (fun loc => t.Places path loc ∨
        outcome ≠ .rejected ∧ t.Places (temporaryPath path) loc)
        (files.removeIfPossible (temporaryPath path)) := by
      refine hbuilt.trans ((files.agreeOff_removeIfPossible others _).mono ?_)
      intro loc hplaces
      exact Or.inr (Or.inr ⟨hwrote, (hbuilt.places_iff hnames.temporary).mp hplaces⟩)
    refine ⟨hmiddle.trans ((FileTree.agreeOff_removeIfPossible others _ path).mono ?_), ?_, ?_⟩
    · intro loc hplaces
      exact Or.inr (Or.inl ((hmiddle.places_iff hnames.published).mp hplaces))
    · intro loc content hplaces
      exact FileTree.node?_removeIfPossible (hmiddle.places hnames.published hplaces)
    · intro _ loc content hplaces hfile
      have hbefore := FileTree.node?_of_removeIfPossible hfile
      exact FileTree.node?_removeIfPossible (hbuilt.places hnames.temporary hplaces) hbefore

theorem Cleaned.trail {ticket : Nat} {job : BuildJob} {s final : State}
    (h : Cleaned others path wrote t s.1) (hnames : Reserved others path t) (hwrote : wrote)
    (htemporary : job.temporary = temporaryPath path) (hsharing : Sharing others ticket job s)
    (habandoned : ∀ build ∈ s.2.2.tasks, build.ticket = ticket → build.isAbandoned = true)
    (hsteps : TidySteps others s final)
    (hended : ∀ build ∈ final.2.2.tasks, build.job.temporary ≠ temporaryPath path) :
    Cleaned others path wrote t final.1 := by
  have hplaces : ∀ loc, s.1.Places job.temporary loc ↔ t.Places (temporaryPath path) loc := by
    intro loc
    rw [htemporary]
    exact h.agrees.places_iff hnames.temporary
  have htrailing : Trailing others ticket job s := by
    refine ⟨hsharing, habandoned, ?_⟩
    intro loc content hloc hfile
    exact absurd hfile (h.noTemporary hwrote loc content ((hplaces loc).mp hloc))
  obtain ⟨hsharing', hagree⟩ := hsharing.steps hsteps
  apply h.later hnames (hagree.mono fun loc hloc => Or.inr ⟨hwrote, (hplaces loc).mp hloc⟩)
  intro _ loc content hloc
  refine (htrailing.steps hsteps).nothing_left ?_ ?_
  · intro build hbuild hticket
    exact hended build hbuild (hsharing'.ours build hbuild hticket ▸ htemporary)
  · exact hagree.places hsharing.spared ((hplaces loc).mpr hloc)

/-! ## A failed write leaves nothing -/

/-- The engine writes at the temporary path of its job, and nothing at all if the job is refused. How
far it comes, and whether it notices, is left open. -/
def Confined {ε : Type} (others : Location → Prop)
    (run : BuildJob → FileTree × ε → BuildOutcome × (FileTree × ε)) : Prop :=
  ∀ (job : BuildJob) (state : FileTree × ε), state.1.AgreeOff others
    (fun loc => (run job state).1 ≠ .rejected ∧ state.1.Places job.temporary loc)
    (run job state).2.1

theorem undone_of_confined {ε : Type}
    {run : BuildJob → FileTree × ε → BuildOutcome × (FileTree × ε)} {tag : Option String}
    {target : SegmentTarget} {values : ValueStream} {rest : ε} {after : FileTree × ε} {e : Error}
    (hnames : Reserved others (target.sidecarPath tag) t) (hrun : Confined others run)
    (h : write run tag target values (t, rest) = (.error e, after)) :
    Undone others (target.sidecarPath tag) (Marks values (target.sidecarPath tag) t) t after.1 := by
  rcases write_error h with ⟨hnone, rfl⟩ |
    ⟨hmarks, job, marked, outcome, files, rest', files', hpath, htemporary, hcreate, hbuilt,
      hpublish, rfl⟩
  · exact undone_of_agreeOff (.refl _ _ _) hnone
  · have hconfined := hrun job (marked, rest)
    rw [hbuilt, htemporary] at hconfined
    have hcleaned := cleaned_of_publish hnames hpath htemporary hcreate hconfined hpublish
    exact hcleaned.undone hnames And.right

theorem undone_of_waited {run : BuildJob → State → BuildOutcome × State} {tag : Option String}
    {target : SegmentTarget} {values : ValueStream} {host : Host} {b : Builders} {after : State}
    {e : Error} (hnames : Reserved others (target.sidecarPath tag) t)
    (hrun : Waits others run) (hb : b.Numbered) (hwithin : Within others t b)
    (h : write run tag target values (t, host, b) = (.error e, after)) :
    Undone others (target.sidecarPath tag) (Marks values (target.sidecarPath tag) t) t after.1 ∧
    ∀ final, TidySteps others after final →
      (∀ build ∈ final.2.2.tasks, build.job.temporary ≠ temporaryPath (target.sidecarPath tag)) →
      Undone others (target.sidecarPath tag) (Marks values (target.sidecarPath tag) t) t final.1 := by
  rcases write_error h with ⟨hnone, rfl⟩ |
    ⟨hmarks, job, marked, outcome, files, rest, files', hpath, htemporary, hcreate, hbuilt,
      hpublish, rfl⟩
  · refine ⟨undone_of_agreeOff (.refl _ _ _) hnone, ?_⟩
    intro final hsteps _
    exact undone_of_agreeOff (hsteps.agreeOff hwithin).1 hnone
  · have hmark : t.AgreeOff others (t.Places (target.sidecarPath tag)) marked :=
      FileTree.agreeOff_write others hcreate
    have hspared : marked.Spared others job.temporary :=
      htemporary ▸ hnames.temporary.of_eq hmark.workingDirectory
    have hwaited : Waited others job (marked, host, b) _ _ := hrun job (marked, host, b) hb
    rw [hbuilt] at hwaited
    rcases hwaited.confined hb (hwithin.of_eq hmark.workingDirectory) hspared with
      ⟨rfl, hagree, hwithin'⟩ | ⟨houtcome, hagree, ticket, hsharing, habandoned⟩
    · have hcleaned := cleaned_of_publish hnames hpath htemporary hcreate
        (hagree.mono fun _ => False.elim) hpublish
      have hsame := hcleaned.agrees.workingDirectory.trans
        (hagree.workingDirectory.trans hmark.workingDirectory).symm
      refine ⟨hcleaned.undone hnames And.right, ?_⟩
      intro final hsteps _
      have hagree' := (hsteps.agreeOff (hwithin'.of_eq hsame)).1
      have hlater := hcleaned.later hnames (hagree'.mono fun _ => False.elim)
        fun hwrote => absurd rfl hwrote
      exact hlater.undone hnames And.right
    · rw [htemporary] at hagree
      have hcleaned := cleaned_of_publish hnames hpath htemporary hcreate
        (hagree.mono fun loc hplaces => Or.inr ⟨houtcome, hplaces⟩) hpublish
      have hsame := hcleaned.agrees.workingDirectory.trans
        (hagree.workingDirectory.trans hmark.workingDirectory).symm
      refine ⟨hcleaned.undone hnames And.right, ?_⟩
      intro final hsteps hended
      have hlater := hcleaned.trail hnames houtcome htemporary (hsharing.of_eq hsame)
        habandoned hsteps hended
      exact hlater.undone hnames And.right

/-- **A write that fails leaves nothing**, in any tree of files without links, whatever the engine has
done at the temporary path. On the pool, where the job of the write may outlive it, this is so when the
write returns, and again when the job has ended, if no build panics that has written something. -/
theorem undone_of_failure (others : Location → Prop) (tag : Option String)
    (target : SegmentTarget) (source : Source) (t : FileTree)
    (hnames : Reserved others (target.sidecarPath tag) t) :
    (∀ (ε : Type) (run : BuildJob → FileTree × ε → BuildOutcome × (FileTree × ε)) (rest : ε)
      (after : FileTree × ε) (e : Error), Confined others run →
      source.write run tag target (t, rest) = (.error e, after) →
      Undone others (target.sidecarPath tag)
        (Marks source.values (target.sidecarPath tag) t) t after.1) ∧
    (∀ (run : BuildJob → State → BuildOutcome × State) (host : Host) (b : Builders)
      (after : State) (e : Error), Waits others run → b.Numbered → Within others t b →
      source.write run tag target (t, host, b) = (.error e, after) →
      Undone others (target.sidecarPath tag)
        (Marks source.values (target.sidecarPath tag) t) t after.1 ∧
      ∀ final, TidySteps others after final →
        (∀ build ∈ final.2.2.tasks,
          build.job.temporary ≠ temporaryPath (target.sidecarPath tag)) →
        Undone others (target.sidecarPath tag)
          (Marks source.values (target.sidecarPath tag) t) t final.1) ∧
    ∀ timeoutMs, Waits others (Builders.run timeoutMs) := by
  refine ⟨?_, ?_, waits_run others⟩
  · intro ε run rest after e hrun h
    rw [source.write_eq] at h
    exact undone_of_confined hnames hrun h
  · intro run host b after e hrun hb hwithin h
    rw [source.write_eq] at h
    exact undone_of_waited hnames hrun hb hwithin h

/-- A build that stops half way, without a result. -/
def torn (job : BuildJob) (state : FileTree × Unit) : BuildOutcome × (FileTree × Unit) :=
  match state.1.write job.temporary [1, 2] with
  | .ok files => (.lost, files, ())
  | .error _ => (.lost, state)

theorem confined_torn (others : Location → Prop) : Confined others torn := by
  intro job state
  unfold torn
  split
  · next hwrite =>
    exact (FileTree.agreeOff_write others hwrite).mono fun loc hplaces => Or.inr ⟨nofun, hplaces⟩
  · exact .refl _ _ _

/-- A segment with a file beside it, while somebody else writes another file. -/
def desk : FileTree :=
  { workingDirectory := ["w"]
    nodes := [(["w"], .directory), (["w", "_0.si"], .file [7]), (["w", "_9.si"], .file [9])] }

def slowHost : Host := { instruments := { buildDelay := 200000000 } }

def oneVector : Source := .flush [.ok (0, [0, 0, 128, 63])]

theorem undone_of_torn_and_late :
    let target : SegmentTarget := ⟨⟨""⟩, "_0"⟩
    let others : Location → Prop := (· = ["w", "_9.si"])
    let path := target.sidecarPath (some "flat1")
    let marked := Marks oneVector.values path desk
    let late := oneVector.write (Builders.run (some 20)) (some "flat1") target
      (desk, slowHost, Builders.new {})
    marked ∧
    Undone others path marked desk (oneVector.write torn (some "flat1") target (desk, ())).2.1 ∧
    late.1 = .error (.buildTimeout path.text 20) ∧ late.2.2.2.tasks.length = 1 ∧
    Undone others path marked desk (shutdown late.2).1 := by
  intro target others path marked late
  have hmarked : marked := by
    refine ⟨⟨⟨0, [⟨0x3f800000⟩]⟩, [], ?_⟩, desk.put ["w", "_0_flat1.hnsw"] (.file []), ?_⟩
    · decide +kernel
    · decide +kernel
  have hnames : Reserved others path desk := by
    constructor
    · change ∀ loc ∈ desk.way path, ¬ loc = ["w", "_9.si"]
      decide +kernel
    · change ∀ loc ∈ desk.way (temporaryPath path), ¬ loc = ["w", "_9.si"]
      decide +kernel
  obtain ⟨htorn, hlate, hwaits⟩ := undone_of_failure others (some "flat1") target oneVector desk hnames
  have htimeout : late.1 = .error (.buildTimeout path.text 20) := by decide +kernel
  refine ⟨hmarked, ?_, htimeout, by decide +kernel, ?_⟩
  · have hlost : (oneVector.write torn (some "flat1") target (desk, ())).1
        = .error (.buildFailed path.text "build worker exited without a result") := by
      decide +kernel
    generalize hafter : oneVector.write torn (some "flat1") target (desk, ()) = after at hlost ⊢
    obtain ⟨result, left⟩ := after
    cases hlost
    exact htorn Unit torn () left _ (confined_torn others) hafter
  · have hended : (shutdown late.2).2.2.tasks.length = 0 := by decide +kernel
    have hlater := shutdown_steps others late.2
    generalize hafter : late = after at htimeout hended hlater ⊢
    obtain ⟨result, left⟩ := after
    cases htimeout
    refine (hlate _ _ _ left _ (hwaits (some 20)) (numbered_new {}) ?_ hafter).2 _ hlater ?_
    · exact List.forall_mem_nil _
    · rw [List.length_eq_zero_iff.mp hended]
      exact List.forall_mem_nil _

/-- A writer has gone away, and its job keeps the only worker busy. The build after it will panic. -/
def crowded : State :=
  let (files, host, b) := (oneVector.write (Builders.run (some 20)) (some "flat1") ⟨⟨""⟩, "_9"⟩
    (desk, slowHost, Builders.new { buildThreads := 1 })).2
  (files, { host with instruments := { panickingBuilds := 1 } }, b)

/-- The writer after it has not waited long enough either. -/
def late : Except Error (Option SidecarFile) × State :=
  oneVector.write (Builders.run (some 20)) (some "flat1") ⟨⟨""⟩, "_0"⟩ crowded

/-- The first job has ended, and the second panics when it has written some bytes. -/
def panicked : State :=
  let (files, host, b) := (complete 0 late.2).2
  (files.put ["w", "_0_flat1.hnsw.tmp"] (.file [1, 2]), host,
    b.modify 1 fun x => { x with result := none })

/-- A late build that panics after it has written something leaves it behind: its job does not come to
the point where an abandoned job removes the file. -/
theorem left_of_late_panic :
    let others : Location → Prop := (· = ["w", "_9_flat1.hnsw.tmp"])
    let path : Path := ⟨"_0_flat1.hnsw"⟩
    let final := (report 0 panicked).2
    Reserved others path crowded.1 ∧ crowded.2.2.Numbered ∧ Within others crowded.1 crowded.2.2 ∧
    late.1 = .error (.buildTimeout path.text 20) ∧ Steps others False late.2 final ∧
    final.2.2.tasks.length = 0 ∧ crowded.1.stat (temporaryPath path) = .error .notFound ∧
    final.1.stat (temporaryPath path) = .ok (.file [1, 2]) := by
  intro others path final
  have hbuild : ((complete 0 late.2).2.2.2.pool.active[0]?.map fun build =>
      (build.ticket, build.course, build.job.temporary))
        = some (1, some .panics, temporaryPath path) := by decide +kernel
  obtain ⟨build, hstarted, hsame⟩ := Option.map_eq_some_iff.mp hbuild
  obtain ⟨hticket, hcourse, htemporary⟩ : build.ticket = 1 ∧ build.course = some .panics ∧
      build.job.temporary = temporaryPath path := by simpa using hsame
  have hwrite : (complete 0 late.2).2.1.write (temporaryPath path) [1, 2] = .ok panicked.1 := by
    decide +kernel
  have hconfined := FileTree.agreeOff_write others hwrite
  rw [← htemporary] at hconfined
  have hpanic : Step others False (complete 0 late.2).2 (panicked.1, (complete 0 late.2).2.2.1,
      (complete 0 late.2).2.2.2.modify build.ticket fun x => { x with result := none }) :=
    .write hstarted hconfined (Or.inl ⟨hcourse, rfl, False.elim⟩)
  rw [hticket] at hpanic
  refine ⟨⟨?_, ?_⟩, ⟨by decide +kernel, by decide +kernel⟩, ?_, by decide +kernel, ?_,
    by decide +kernel, by decide +kernel, by decide +kernel⟩
  · change ∀ loc ∈ crowded.1.way path, ¬ loc = ["w", "_9_flat1.hnsw.tmp"]
    decide +kernel
  · change ∀ loc ∈ crowded.1.way (temporaryPath path), ¬ loc = ["w", "_9_flat1.hnsw.tmp"]
    decide +kernel
  · change ∀ build ∈ crowded.2.2.tasks,
      crowded.1.destination build.job.temporary = ["w", "_9_flat1.hnsw.tmp"]
    decide +kernel
  · exact (((complete_steps others 0 late.2).steps.tail hpanic).tail (.report 0 panicked))

/-! ## The sidecar that was there -/

theorem create_of_stat {content : Bytes} (h : t.stat path = .ok (.file content)) :
    ∃ marked, t.create path = .ok marked := by
  obtain ⟨loc, hplaces, hnode⟩ := FileTree.stat_eq_file_iff.mp h
  exact ⟨_, FileTree.write_eq_ok_iff.mpr ⟨loc, hplaces, by simp [hnode], rfl⟩⟩

/-- A failed write takes the sidecar of its segment with it, unless the values are at fault. -/
theorem survives_iff (others : Location → Prop) (tag : Option String) (target : SegmentTarget)
    (source : Source) (run : BuildJob → State → BuildOutcome × State) (host : Host) (b : Builders)
    (t : FileTree) (after : State) (content : Bytes) (e : Error)
    (hnames : Reserved others (target.sidecarPath tag) t) (hrun : Waits others run)
    (hb : b.Numbered) (hwithin : Within others t b)
    (hthere : t.stat (target.sidecarPath tag) = .ok (.file content))
    (h : source.write run tag target (t, host, b) = (.error e, after)) :
    (after.1.stat (target.sidecarPath tag) = .ok (.file content) ↔
      collect none source.values = .error e) ∧
    (after.1.stat (target.sidecarPath tag) = .error .notFound ↔
      ∃ records, collect none source.values = .ok records) := by
  rw [source.write_eq] at h
  cases hcollect : collect none source.values with
  | error fault =>
    rw [write, hcollect] at h
    cases h
    simp [hthere]
  | ok records =>
    cases records with
    | nil =>
      rw [write, hcollect] at h
      cases h
    | cons first rest =>
      have hmarks : Marks source.values (target.sidecarPath tag) t :=
        ⟨⟨first, rest, hcollect⟩, create_of_stat hthere⟩
      have hgone := (undone_of_waited hnames hrun hb hwithin h).1.gone hmarks
      simp [hgone]

theorem survives_bad_value :
    let target : SegmentTarget := ⟨⟨""⟩, "_0"⟩
    let path := target.sidecarPath (some "flat1")
    let published := desk.put ["w", "_0_flat1.hnsw"] (.file [1])
    let state : State := (published, { instruments := { panickingBuilds := 1 } }, Builders.new {})
    let source : Source := .flush [.ok (0, [0, 0, 128, 63]), .ok (1, [0, 0])]
    (source.write (Builders.run none) (some "flat1") target state).2.1.stat path = .ok (.file [1]) ∧
    (oneVector.write (Builders.run none) (some "flat1") target state).2.1.stat path
      = .error .notFound := by
  intro target path published state source
  have hnames : Reserved (fun _ => False) path published := ⟨fun _ _ => id, fun _ _ => id⟩
  have hthere : published.stat path = .ok (.file [1]) := by decide +kernel
  have hnobody : Within (fun _ => False) published (Builders.new {}) := List.forall_mem_nil _
  constructor
  · have hbad : collect none source.values
        = .error (.malformedVector 1 "value length 2 is not a multiple of 4") := by decide +kernel
    have hfails : (source.write (Builders.run none) (some "flat1") target state).1
        = .error (.malformedVector 1 "value length 2 is not a multiple of 4") := by decide +kernel
    generalize hafter : source.write (Builders.run none) (some "flat1") target state = after
      at hfails ⊢
    obtain ⟨result, left⟩ := after
    cases hfails
    exact (survives_iff _ _ target source _ _ _ published left [1] _ hnames (waits_run _ none)
      (numbered_new {}) hnobody hthere hafter).1.mpr hbad
  · have hgood : collect none oneVector.values = .ok [⟨0, [⟨0x3f800000⟩]⟩] := by decide +kernel
    have hfails : (oneVector.write (Builders.run none) (some "flat1") target state).1
        = .error (.buildFailed path.text "build worker exited without a result") := by
      decide +kernel
    generalize hafter : oneVector.write (Builders.run none) (some "flat1") target state = after
      at hfails ⊢
    obtain ⟨result, left⟩ := after
    cases hfails
    exact (survives_iff _ _ target oneVector _ _ _ published left [1] _ hnames (waits_run _ none)
      (numbered_new {}) hnobody hthere hafter).2.mpr ⟨_, hgood⟩

/-- The sidecar of a write that ended well does not outlive a build that fails. -/
theorem published_sidecar_lost :
    let target : SegmentTarget := ⟨⟨""⟩, "_0"⟩
    let first := oneVector.write (Builders.run none) (some "flat1") target
      (desk, {}, Builders.new {})
    let second := oneVector.write (Builders.run none) (some "flat1") target
      (first.2.1, { instruments := { failingBuilds := 1 } }, first.2.2.2)
    ∃ file content, first.1 = .ok (some file) ∧ first.2.1.stat file.path = .ok (.file content) ∧
      (∃ e, second.1 = .error e) ∧ second.2.1.stat file.path = .error .notFound := by
  intro target first second
  refine ⟨⟨⟨"_0_flat1.hnsw"⟩, "_0", 1, 1⟩,
    [0x4b, 0x4e, 0x4e, 0x46, 1, 0, 0, 0, 1, 0, 0, 0, 1, 0, 0, 0, 0, 0, 0, 0, 0, 0, 0, 0,
      0, 0, 0x80, 0x3f, 0xc9, 0xe5, 0x12, 0x87], ?_, ?_, ?_, ?_⟩
  · decide +kernel
  · decide +kernel
  · exact ⟨.buildFailed "_0_flat1.hnsw.tmp" "injected build failure", by decide +kernel⟩
  · decide +kernel

end Writer

end Sidecar
