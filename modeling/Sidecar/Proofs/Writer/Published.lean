import Sidecar.Proofs.Files.Presence
import Sidecar.Proofs.Files.Rename
import Sidecar.Proofs.Writer.Failure

/-!
# Writes that end well

What a write changes when it ends well. Its marker makes a file at the final path, its job changes
the temporary file beside it, and the rename brings the one to the place of the other. So of
everything that is not at or below the final place there is nothing new: it is as it was, or gone with
the temporary file (`Publishes.thins`).
-/

set_option autoImplicit false

namespace Sidecar

open Builders

namespace Writer

/-! ## How a write ends well -/

section

variable {ε : Type} {run : BuildJob → FileTree × ε → BuildOutcome × (FileTree × ε)}
  {tag : Option String} {target : SegmentTarget} {job : BuildJob} {outcome : BuildOutcome}
  {files files' : FileTree}

theorem publish_ok (h : publish job outcome files = (.ok (), files')) :
    files.rename job.temporary job.path = .ok files' := by
  unfold publish at h
  split at h
  · cases h
  · cases h
  · cases h
  · cases h
  · split at h
    · next hrename =>
      cases h
      exact hrename
    · cases h

theorem build_ok {state after : FileTree × ε} (h : build run job state = (.ok (), after)) :
    ∃ marked, state.1.create job.path = .ok marked ∧
      (run job (marked, state.2)).2.1.rename job.temporary job.path = .ok after.1 := by
  unfold build at h
  split at h
  · cases h
  · next marked hcreate =>
    rcases hrun : run job (marked, state.2) with ⟨outcome, files, rest⟩
    rcases hpublish : publish job outcome files with ⟨result, files'⟩
    simp only [hrun, hpublish] at h
    cases h
    exact ⟨marked, hcreate, by rw [hrun]; exact publish_ok hpublish⟩

theorem write_ok {values : ValueStream} {state after : FileTree × ε} {file : SidecarFile}
    (h : write run tag target values state = (.ok (some file), after)) :
    file.path = target.sidecarPath tag ∧ ∃ job marked, job.path = file.path ∧
      job.temporary = temporaryPath file.path ∧ state.1.create file.path = .ok marked ∧
      (run job (marked, state.2)).2.1.rename (temporaryPath file.path) file.path
        = .ok after.1 := by
  unfold write at h
  split at h
  · cases h
  · cases h
  · dsimp only at h
    split at h
    · cases h
    · next hbuild =>
      cases h
      obtain ⟨marked, hcreate, hrename⟩ := build_ok hbuild
      exact ⟨rfl, _, marked, rfl, rfl, hcreate, hrename⟩

/-! ## What it changes -/

/-- While the marker is there, the file at the temporary path is all that changes, apart from the
places of others. -/
def Contained (others : Location → Prop)
    (run : BuildJob → FileTree × ε → BuildOutcome × (FileTree × ε)) (path : Path)
    (state : FileTree × ε) : Prop :=
  ∀ job marked, job.temporary = temporaryPath path → state.1.create path = .ok marked →
    marked.AgreeOff others (marked.Places (temporaryPath path)) (run job (marked, state.2)).2.1

theorem Confined.contained {others : Location → Prop} (h : Confined others run) (path : Path)
    (state : FileTree × ε) : Contained others run path state := by
  intro job marked htemporary _
  apply (h job (marked, state.2)).mono
  rintro loc ⟨-, hplaces⟩
  exact Or.inr (htemporary ▸ hplaces)

end

variable {others : Location → Prop} {path : Path} {t t' : FileTree}

theorem contained_of_waits {run : BuildJob → State → BuildOutcome × State} {host : Host}
    {b : Builders} (hrun : Waits others run) (hb : b.Numbered) (hwithin : Within others t b)
    (hnames : Reserved others path t) : Contained others run path (t, host, b) := by
  intro job marked htemporary hcreate
  have hmark : t.AgreeOff others (t.Places path) marked := FileTree.agreeOff_write others hcreate
  have hspared : marked.Spared others job.temporary :=
    htemporary ▸ hnames.temporary.of_eq hmark.workingDirectory
  have hwaited : Waited others job (marked, host, b) _ _ := hrun job (marked, host, b) hb
  rw [← htemporary]
  rcases hwaited.confined hb (hwithin.of_eq hmark.workingDirectory) hspared with
    ⟨-, hagree, -⟩ | ⟨-, hagree, -⟩
  · exact hagree.mono fun _ => False.elim
  · exact hagree

/-- The files of a write that has published a sidecar, before it and after. -/
inductive Publishes (others : Location → Prop) (path : Path) (t t' : FileTree) : Prop where
  | write {ε : Type} {run : BuildJob → FileTree × ε → BuildOutcome × (FileTree × ε)}
      {tag : Option String} {target : SegmentTarget} {source : Source} {rest rest' : ε}
      {file : SidecarFile} (names : Reserved others path t)
      (contained : Contained others run path (t, rest))
      (ends : source.write run tag target (t, rest) = (.ok (some file), t', rest'))
      (path_eq : file.path = path)

/-- What is new after a write is at the place that its path leads to, or below. -/
theorem Publishes.thins (h : Publishes others path t t') :
    t'.workingDirectory = t.workingDirectory ∧ ∃ loc, t.Places path loc ∧
      ∀ other, ¬ others other → ¬ loc <+: other → t.Thins t' other := by
  obtain @⟨_, run, _, _, _, rest, _, file, hnames, hcontained, hends, rfl⟩ := h
  rw [Source.write_eq] at hends
  obtain ⟨-, job, marked, -, htemporary, hcreate, hrename⟩ := write_ok hends
  have hmark : t.AgreeOff others (t.Places file.path) marked :=
    FileTree.agreeOff_write others hcreate
  have hrun := hcontained job marked htemporary hcreate
  generalize (run job (marked, rest)).2.1 = files at hrun hrename
  obtain ⟨loc, hplaces, -, hmarked⟩ := FileTree.write_eq_ok_iff.mp hcreate
  have hspared := hnames.published.of_eq hmark.workingDirectory
  have hfree : ¬ others loc := hplaces.eq_destination ▸ hnames.published.destination
  have hpath : files.Places file.path loc :=
    hrun.places hspared (hmark.places hnames.published hplaces)
  have htemp : ∀ other, marked.Places (temporaryPath file.path) other ↔
      files.Places (temporaryPath file.path) other :=
    fun _ => (hrun.places_iff (hnames.temporary.of_eq hmark.workingDirectory)).symm
  have hapart : ∀ other, files.Places (temporaryPath file.path) other → other ≠ loc :=
    fun _ hother => hpath.ne_of_appendText hother (by decide) (by decide)
  have hthere : files.node? loc = some (.file []) := by
    rw [hrun.nodes loc hfree fun hother => hapart loc ((htemp loc).mp hother) rfl, hmarked,
      FileTree.node?_put_self hplaces.ne_nil]
  obtain ⟨source, hsource, hsame | rfl⟩ := FileTree.rename_cases hrename hpath hthere
  · exact absurd hsame (hapart source hsource)
  · refine ⟨hrun.workingDirectory.trans hmark.workingDirectory, loc, hplaces, ?_⟩
    intro other hother hnew
    by_cases hmoved : source <+: other
    · exact Or.inr (FileTree.node?_moved hsource.ne_nil hnew hmoved)
    · -- What is neither the marker nor the temporary file has not been touched.
      have hnot : ¬ marked.Places (temporaryPath file.path) other := by
        intro htemporary
        have heq := hsource.unique ((htemp other).mp htemporary)
        exact hmoved (heq ▸ List.prefix_refl _)
      have hold : ¬ t.Places file.path other := by
        intro hold
        exact hnew (hplaces.unique hold ▸ List.prefix_refl _)
      refine Or.inl ?_
      rw [FileTree.node?_move hnew hmoved, hrun.nodes other hother hnot,
        hmark.nodes other hother hold]

end Writer

end Sidecar
