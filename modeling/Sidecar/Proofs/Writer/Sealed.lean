import Sidecar.Proofs.Writer.Twins

/-!
# Sealed sidecars

A copy of a file is more than its bytes: the permissions are copied too. So the twin of a sidecar that
is read only is read only itself, and whoever prepares the segment a second time may not write it. A
*guarded* tree has this one bit. It says of each file whether it is sealed, and it says whether the
user is privileged and may write sealed files all the same.

On a guarded tree the work on a segment does with the files what it does on a plain one, as long as it
is let (`prepareCompoundBy_run`), and it is let where neither a sidecar nor a twin is sealed
(`prepareCompoundBy_of_open`).
-/

set_option autoImplicit false

namespace Sidecar

/-- A tree of files of which some are sealed. -/
structure GuardedTree where
  files : FileTree
  /-- Where the files are that are read only. -/
  sealed : List Location
  /-- Whether read-only files may be written nevertheless. -/
  privileged : Bool
  deriving DecidableEq, Repr

namespace GuardedTree

/-- Whether a path leads to a file that may not be written. -/
def denies (t : GuardedTree) (path : Path) : Bool :=
  match t.files.stat path with
  | .ok (.file _) => !t.privileged && decide (t.files.destination path ∈ t.sealed)
  | _ => false

/-- The sealed files, when a file with all its permissions has been copied from one place to another. -/
def sealedAfter (t : GuardedTree) (source target : Location) : List Location :=
  t.sealed.filter (· ≠ target) ++ if source ∈ t.sealed then [target] else []

/-- Copies a file with its permissions. A file that is there already must not be sealed. -/
def copy (t : GuardedTree) (source target : Path) : Except FileError GuardedTree :=
  match t.files.stat source with
  | .error cause => .error cause
  | .ok .directory => .error .notRegular
  | .ok (.file _) =>
    if t.denies target then .error .permissionDenied
    else (t.files.copy source target).map fun files =>
      let marks := t.sealedAfter (t.files.destination source) (t.files.destination target)
      { t with files, sealed := marks }

variable {t t' : GuardedTree} {p q : Path} {loc source target : Location}

theorem mem_sealedAfter : loc ∈ t.sealedAfter source target ↔
    (loc ≠ target ∧ loc ∈ t.sealed) ∨ (loc = target ∧ source ∈ t.sealed) := by
  by_cases hsource : source ∈ t.sealed <;> by_cases hloc : loc = target <;>
    simp [sealedAfter, hsource, hloc]

theorem denies_eq_false (h : t.privileged = true ∨ ∀ loc, t.files.Places p loc → loc ∉ t.sealed) :
    t.denies p = false := by
  unfold denies
  rcases hstat : t.files.stat p with cause | _ | content
  · rfl
  · rfl
  · rcases h with hprivileged | hopen
    · simp [hprivileged]
    · obtain ⟨loc, hplaces, -⟩ := FileTree.stat_eq_file_iff.mp hstat
      simp [← hplaces.eq_destination, hopen loc hplaces]

/-- A file that is not denied is not sealed, unless that makes no difference. -/
theorem notMem_of_denies {content : Bytes} (h : t.denies p = false) (hp : t.files.Places p loc)
    (hnode : t.files.node? loc = some (.file content)) :
    t.privileged = true ∨ loc ∉ t.sealed := by
  have hstat := FileTree.stat_eq_file_iff.mpr ⟨loc, hp, hnode⟩
  simp only [denies, hstat, ← hp.eq_destination, Bool.and_eq_false_iff, Bool.not_eq_false',
    decide_eq_false_iff_not] at h
  exact h

/-- A copy succeeds if it would without permissions and the target may be written. -/
theorem copy_eq_ok_iff : t.copy p q = .ok t' ↔
    t.denies q = false ∧ ∃ files, t.files.copy p q = .ok files ∧
      t' = { t with
        files
        sealed := t.sealedAfter (t.files.destination p) (t.files.destination q) } := by
  unfold copy
  rcases hstat : t.files.stat p with cause | _ | content
  · simp [FileTree.copy, hstat, bind, Except.bind]
  · simp [FileTree.copy, hstat, bind, Except.bind, throw, throwThe, MonadExceptOf.throw]
  · cases t.denies q <;> cases t.files.copy p q <;> simp [Except.map, eq_comm]

/-- What a guarded copy does to the files is a copy. -/
theorem files_of_copy (h : t.copy p q = .ok t') :
    t.files.copy p q = .ok t'.files ∧ t'.privileged = t.privileged ∧
      t'.sealed = t.sealedAfter (t.files.destination p) (t.files.destination q) := by
  obtain ⟨-, files, hcopy, rfl⟩ := copy_eq_ok_iff.mp h
  exact ⟨hcopy, rfl, rfl⟩

end GuardedTree

namespace Writer

open Naming

/-! ## One copy -/

/-- Neither the sidecars among the names nor their twins are sealed, or the user is privileged. -/
def Unsealed (t : GuardedTree) (directory : Path) (names : List String) : Prop :=
  ∀ name ∈ names, isSidecarName name .regular = true → t.privileged = true ∨ ∀ loc,
    t.files.Places (directory.join name) loc ∨ t.files.Places (twin (directory.join name)) loc →
      loc ∉ t.sealed

section Copy

variable {t t' : GuardedTree} {directory : Path} {name : String} {rest : List String}
  {loc target : Location} (hslash : '/' ∉ name.toList) (hname : isSidecarName name .regular = true)
  (h : t.copy (directory.join name) (twin (directory.join name)) = .ok t')

include h in
/-- A twin is sealed if its sidecar is. -/
theorem mem_sealed_twin (hloc : t.files.Places (directory.join name) loc)
    (htarget : t.files.Places (twin (directory.join name)) target) :
    target ∈ t'.sealed ↔ loc ∈ t.sealed := by
  obtain ⟨-, -, hsealed⟩ := GuardedTree.files_of_copy h
  rw [hsealed, GuardedTree.mem_sealedAfter, ← hloc.eq_destination, ← htarget.eq_destination]
  simp

include hslash hname h

/-- Elsewhere a copy seals nothing, and breaks no seal. -/
theorem mem_sealed_of_copy (hloc : ¬ t.files.Places (twin (directory.join name)) loc) :
    loc ∈ t'.sealed ↔ loc ∈ t.sealed := by
  obtain ⟨hfiles, -, hsealed⟩ := GuardedTree.files_of_copy h
  obtain ⟨-, target, -, -, -, htarget, -⟩ := (copy_twin_eq_ok_iff hslash hname).mp hfiles
  have hne : loc ≠ t.files.destination (twin (directory.join name)) := by
    rintro rfl
    exact hloc (htarget.eq_destination ▸ htarget)
  simp [hsealed, GuardedTree.mem_sealedAfter, hne]

theorem places_iff_of_copy {path : Path} :
    t'.files.Places path loc ↔ t.files.Places path loc :=
  (agreeOff_copy hslash hname (GuardedTree.files_of_copy h).1).places_iff fun _ _ => id

/-- A seal would have to come from the sidecar. -/
theorem Unsealed.copy (hopen : Unsealed t directory (name :: rest)) : Unsealed t' directory rest := by
  obtain ⟨hfiles, hprivileged, -⟩ := GuardedTree.files_of_copy h
  obtain ⟨source, -, -, hsource, -, -, -, -⟩ := (copy_twin_eq_ok_iff hslash hname).mp hfiles
  intro other hother hsidecar
  rw [hprivileged]
  rcases hopen other (List.mem_cons_of_mem name hother) hsidecar with heither | hfree
  · exact Or.inl heither
  rcases hopen name List.mem_cons_self hname with heither | hfree'
  · exact Or.inl heither
  refine Or.inr fun loc hloc hmem => ?_
  rw [places_iff_of_copy hslash hname h, places_iff_of_copy hslash hname h] at hloc
  by_cases htwin : t.files.Places (twin (directory.join name)) loc
  · exact hfree' source (Or.inl hsource) ((mem_sealed_twin h hsource htwin).mp hmem)
  · exact hfree loc hloc ((mem_sealed_of_copy hslash hname h htwin).mp hmem)

end Copy

/-! ## All sidecars of a segment -/

section Prepare

variable {t t' : GuardedTree} {directory : Path} {names left : List String} {name : String}

/-- Where the work on a segment succeeds, it does to the files what it does without permissions, and
every twin is sealed if its sidecar is. -/
theorem prepareCompoundBy_run (hnames : ∀ name ∈ names, '/' ∉ name.toList)
    (h : prepareCompoundBy GuardedTree.copy t directory names = (.ok left, t')) :
    prepareCompound t.files directory names = (.ok left, t'.files) ∧
    t'.privileged = t.privileged ∧
    (∀ loc, ¬ TwinPlaces t.files directory names loc → (loc ∈ t'.sealed ↔ loc ∈ t.sealed)) ∧
    ∀ name ∈ names, isSidecarName name .regular = true → ∀ loc target,
      t.files.Places (directory.join name) loc → t.files.Places (twin (directory.join name)) target →
      (target ∈ t'.sealed ↔ loc ∈ t.sealed) := by
  induction names generalizing t left with
  | nil =>
    obtain ⟨rfl, rfl⟩ : [] = left ∧ t = t' := by simpa [prepareCompoundBy] using h
    exact ⟨rfl, rfl, fun _ _ => Iff.rfl, List.forall_mem_nil _⟩
  | cons name rest ih =>
    have hslash := hnames name List.mem_cons_self
    have hrest : ∀ other ∈ rest, '/' ∉ other.toList :=
      fun other hother => hnames other (List.mem_cons_of_mem name hother)
    rcases prepareCompoundBy_cons_iff.mp h with
      ⟨hname, copied, hcopy, hlast⟩ | ⟨hname, packed, rfl, hlast⟩
    · obtain ⟨hfiles, hprivileged, -⟩ := GuardedTree.files_of_copy hcopy
      obtain ⟨hrun, hkept, hoff, htwins⟩ := ih hrest hlast
      have hplaces : ∀ {path loc}, copied.files.Places path loc ↔ t.files.Places path loc :=
        places_iff_of_copy hslash hname hcopy
      refine ⟨prepareCompoundBy_cons_iff.mpr (Or.inl ⟨hname, copied.files, hfiles, hrun⟩),
        hkept.trans hprivileged, ?_, ?_⟩
      · intro loc hloc
        rw [hoff loc, mem_sealed_of_copy hslash hname hcopy]
        · exact fun hfirst => hloc ⟨name, List.mem_cons_self, hname, hfirst⟩
        · rintro ⟨other, hother, hsidecar, hlater⟩
          exact hloc ⟨other, List.mem_cons_of_mem _ hother, hsidecar, hplaces.mp hlater⟩
      · intro other hother hsidecar loc target hloc htarget
        by_cases hlater : other ∈ rest
        · rw [htwins other hlater hsidecar loc target (hplaces.mpr hloc) (hplaces.mpr htarget)]
          exact mem_sealed_of_copy hslash hname hcopy fun hfirst =>
            ne_of_places_twin (hnames other hother) hsidecar hslash hname hloc hfirst rfl
        · -- No later copy goes to this twin, because two sidecars have two twins.
          obtain rfl := (List.mem_cons.mp hother).resolve_right hlater
          rw [hoff target, mem_sealed_twin hcopy hloc htarget]
          rintro ⟨another, hanother, hsidecar', htwin⟩
          have heq := eq_of_places_twin (hrest another hanother) hsidecar' hslash hname
            (hplaces.mp htwin) htarget
          exact hlater (heq ▸ hanother)
    · obtain ⟨hrun, hkept, hoff, htwins⟩ := ih hrest hlast
      refine ⟨prepareCompoundBy_cons_iff.mpr (Or.inr ⟨hname, packed, rfl, hrun⟩), hkept,
        fun loc hloc => hoff loc ?_, ?_⟩
      · rintro ⟨other, hother, hsidecar, hlater⟩
        exact hloc ⟨other, List.mem_cons_of_mem _ hother, hsidecar, hlater⟩
      · intro other hother hsidecar
        rcases List.mem_cons.mp hother with rfl | hother
        · rw [hname] at hsidecar
          cases hsidecar
        · exact htwins other hother hsidecar

/-- Where nothing is sealed, permissions stop nothing. -/
theorem prepareCompoundBy_of_open (hnames : ∀ name ∈ names, '/' ∉ name.toList)
    (hopen : Unsealed t directory names) {files : FileTree}
    (h : prepareCompound t.files directory names = (.ok left, files)) :
    ∃ t', prepareCompoundBy GuardedTree.copy t directory names = (.ok left, t') ∧
      t'.files = files := by
  induction names generalizing t left with
  | nil =>
    obtain ⟨rfl, rfl⟩ : [] = left ∧ t.files = files := by
      simpa [prepareCompound, prepareCompoundBy] using h
    exact ⟨t, rfl, rfl⟩
  | cons name rest ih =>
    have hslash := hnames name List.mem_cons_self
    have hrest : ∀ other ∈ rest, '/' ∉ other.toList :=
      fun other hother => hnames other (List.mem_cons_of_mem name hother)
    rcases prepareCompoundBy_cons_iff.mp h with
      ⟨hname, copied, hcopy, hlast⟩ | ⟨hname, packed, rfl, hlast⟩
    · have hdenied : t.denies (twin (directory.join name)) = false :=
        GuardedTree.denies_eq_false ((hopen name List.mem_cons_self hname).imp_right
          fun hfree loc hloc => hfree loc (Or.inr hloc))
      have hguarded := GuardedTree.copy_eq_ok_iff.mpr ⟨hdenied, copied, hcopy, rfl⟩
      obtain ⟨t', hrun, hfiles⟩ := ih hrest (hopen.copy hslash hname hguarded) hlast
      exact ⟨t', prepareCompoundBy_cons_iff.mpr (Or.inl ⟨hname, _, hguarded, hrun⟩), hfiles⟩
    · obtain ⟨t', hrun, hfiles⟩ := ih hrest
        (fun other hother => hopen other (List.mem_cons_of_mem name hother)) hlast
      exact ⟨t', prepareCompoundBy_cons_iff.mpr (Or.inr ⟨hname, packed, rfl, hrun⟩), hfiles⟩

/-- The work leaves the sidecars as they are, sealed or not. -/
theorem mem_sealed_of_run (hnames : ∀ name ∈ names, '/' ∉ name.toList)
    (h : prepareCompoundBy GuardedTree.copy t directory names = (.ok left, t'))
    (hname : name ∈ names) (hsidecar : isSidecarName name .regular = true) {loc : Location}
    (hloc : t.files.Places (directory.join name) loc) : loc ∈ t'.sealed ↔ loc ∈ t.sealed := by
  obtain ⟨-, -, hoff, -⟩ := prepareCompoundBy_run hnames h
  refine hoff loc ?_
  rintro ⟨other, hother, hsidecar', htwin⟩
  exact ne_of_places_twin (hnames name hname) hsidecar (hnames other hother) hsidecar' hloc htwin rfl

/-- What was prepared without a sealed sidecar may be prepared again. -/
theorem unsealed_of_run (hnames : ∀ name ∈ names, '/' ∉ name.toList)
    (h : prepareCompoundBy GuardedTree.copy t directory names = (.ok left, t'))
    (hopen : ∀ name ∈ names, isSidecarName name .regular = true →
      t.denies (directory.join name) = false) : Unsealed t' directory names := by
  obtain ⟨hplain, hprivileged, -, hmarks⟩ := prepareCompoundBy_run hnames h
  obtain ⟨-, hagree, -, -⟩ := prepareCompound_run hnames hplain
  have hplaces : ∀ {path loc}, t'.files.Places path loc ↔ t.files.Places path loc :=
    hagree.places_iff fun _ _ => id
  intro name hname hsidecar
  obtain ⟨content, hread, -, -⟩ := read_of_prepared hnames hplain hname hsidecar
  obtain ⟨loc, hsource, hnode⟩ := FileTree.read_eq_ok_iff.mp hread
  rcases GuardedTree.notMem_of_denies (hopen name hname hsidecar) hsource hnode with heither | hfree
  · exact Or.inl (hprivileged.trans heither)
  · refine Or.inr fun place hplace hsealed => hfree ?_
    rcases hplace with hplace | hplace
    · rw [hplaces] at hplace
      rwa [mem_sealed_of_run hnames h hname hsidecar hplace, hplace.unique hsource] at hsealed
    · exact (hmarks name hname hsidecar loc place hsource (hplaces.mp hplace)).mp hsealed

/-- To prepare a segment again is to change nothing, files and permissions alike. -/
theorem prepareCompoundBy_again (hnames : ∀ name ∈ names, '/' ∉ name.toList)
    (h : prepareCompoundBy GuardedTree.copy t directory names = (.ok left, t'))
    (hopen : ∀ name ∈ names, isSidecarName name .regular = true →
      t.denies (directory.join name) = false) :
    ∃ t'', prepareCompoundBy GuardedTree.copy t' directory names = (.ok left, t'') ∧
      t''.files.workingDirectory = t'.files.workingDirectory ∧
      ∀ loc, t''.files.node? loc = t'.files.node? loc ∧ (loc ∈ t''.sealed ↔ loc ∈ t'.sealed) := by
  obtain ⟨hplain, -, -, hmarks⟩ := prepareCompoundBy_run hnames h
  obtain ⟨hleft, hagree, -, htwinned⟩ := prepareCompound_run hnames hplain
  have hplaces : ∀ {path loc}, t'.files.Places path loc ↔ t.files.Places path loc :=
    hagree.places_iff fun _ _ => id
  obtain ⟨again, hagain, hsame⟩ := prepareCompound_of_twinned hnames htwinned
  obtain ⟨t'', hrun, rfl⟩ :=
    prepareCompoundBy_of_open hnames (unsealed_of_run hnames h hopen) hagain
  obtain ⟨-, -, hoff', hmarks'⟩ := prepareCompoundBy_run hnames hrun
  refine ⟨t'', hleft ▸ hrun, hsame.workingDirectory, fun loc => ⟨hsame.nodes loc id id, ?_⟩⟩
  by_cases hloc : TwinPlaces t'.files directory names loc
  · obtain ⟨name, hname, hsidecar, htarget⟩ := hloc
    obtain ⟨source, -, -, hsource, -, -, -⟩ := htwinned name hname hsidecar
    rw [hmarks' name hname hsidecar source loc hsource htarget,
      mem_sealed_of_run hnames h hname hsidecar (hplaces.mp hsource),
      hmarks name hname hsidecar source loc (hplaces.mp hsource) (hplaces.mp htarget)]
  · exact hoff' loc hloc

end Prepare

end Writer

end Sidecar
