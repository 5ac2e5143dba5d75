import Mathlib.Data.List.TakeWhile
import Sidecar.Proofs.Files.Presence
import Sidecar.Proofs.Writer.Naming

/-!
# Twins

Before a segment is packed each of its sidecars is copied to a twin. The names that are worked on may
be any, in any order and more than once, so a later copy could undo an earlier one. It does not, and
the reason is in the names:

* the name of a twin is the name of the sidecar with one more letter, in the same directory
  (`twin_join`), and it is not the name of a sidecar of a regular segment;
* so a twin is never a source (`ne_of_places_twin`), and two sidecars have two twins
  (`eq_of_places_twin`).

A copy therefore brings one pair of equal files about (`twinned_copy`) and leaves the others
(`Twinned.copy`), and by induction on the names all of them are there in the end
(`prepareCompound_run`). Where they are there already nothing changes (`prepareCompound_of_twinned`).
-/

set_option autoImplicit false

namespace Sidecar

/-! ## The name of a twin -/

namespace Path

theorem eq_of_cutAtLastDot {name stem extension : List Char}
    (h : cutAtLastDot name = some (stem, extension)) :
    name = stem ++ '.' :: extension ∧ stem ≠ [] ∧ '.' ∉ extension := by
  unfold cutAtLastDot at h
  dsimp only at h
  split at h
  · cases h
  · next hcut =>
    obtain ⟨rfl, rfl⟩ := Prod.mk.inj (Option.some.inj h)
    have hparts := (List.takeWhile_append_dropWhile (p := fun c => decide (c ≠ '.'))
      (l := name.reverse)).symm
    generalize htail : name.reverse.takeWhile (fun c => decide (c ≠ '.')) = tail at hcut hparts
    have hplain : '.' ∉ tail := by
      intro hdot
      rw [← htail] at hdot
      have hne := List.mem_takeWhile_imp (p := fun c => decide (c ≠ '.')) hdot
      simp at hne
    rcases hrest : name.reverse.dropWhile (fun c => decide (c ≠ '.')) with _ | ⟨c, rest⟩
    · -- Without a dot the tail is the whole name.
      rw [hrest, List.append_nil] at hparts
      have hlength := congrArg List.length hparts
      rw [List.length_reverse] at hlength
      simp [hlength] at hcut
    · have hc : c = '.' := by
        have hhead := List.head?_dropWhile_not (fun c => decide (c ≠ '.')) name.reverse
        rw [hrest] at hhead
        simpa using hhead
      subst hc
      rw [hrest] at hcut hparts
      have hname := congrArg List.reverse hparts
      rw [List.reverse_reverse] at hname
      refine ⟨?_, ?_, by simpa using hplain⟩
      · rw [hname]
        simp
      · simpa using (not_or.mp (mt (Bool.or_eq_true _ _).mpr hcut)).2

theorem fileName_of_no_slash {name file : String} (hslash : '/' ∉ name.toList)
    (h : (Path.mk name).fileName = some file) : file = name := by
  rw [fileName_eq_some_iff, named, steps, pieces_of_no_slash hslash] at h
  cases hempty : name.toList.isEmpty with
  | true => simp [hempty] at h
  | false =>
    rcases ofStep_cases name with ⟨-, hnone⟩ | ⟨-, c, hsome, -, hstep⟩
    · simp [hempty, hnone] at h
    · simp only [hempty, Bool.not_false, List.filter_cons_of_pos, List.filter_nil, List.map_cons,
        List.map_nil, String.ofList_toList, List.filterMap_cons, hsome, List.filterMap_nil,
        List.getLast?_singleton, Option.some.injEq] at h
      rw [← hstep, h]
      rfl

end Path

namespace Naming

open Sidecar.Path

/-- A file name marks a sidecar if it is a stem with the extension of the layout, and no other names
do. -/
theorem exists_stem {name : String} {layout : Layout} (hslash : '/' ∉ name.toList)
    (h : isSidecarName name layout = true) :
    ∃ stem, stem ≠ "" ∧ '/' ∉ stem.toList ∧ name = dotted stem layout.extension := by
  rw [isSidecarName, beq_iff_eq, Path.extension, Option.bind_eq_some_iff] at h
  obtain ⟨file, hfile, hcut⟩ := h
  obtain rfl := fileName_of_no_slash hslash hfile
  obtain ⟨⟨stem, extension⟩, hcut, hextension⟩ := Option.map_eq_some_iff.mp hcut
  obtain ⟨hname, hstem, -⟩ := eq_of_cutAtLastDot hcut
  have hdotted : file = dotted (String.ofList stem) layout.extension := by
    apply String.toList_injective
    rw [toList_dotted, ← hextension, String.toList_ofList, String.toList_ofList, hname]
  refine ⟨String.ofList stem, by simpa using hstem, ?_, hdotted⟩
  rw [hname] at hslash
  simp only [List.mem_append, not_or] at hslash
  rw [String.toList_ofList]
  exact hslash.1

end Naming

namespace Writer

open Sidecar.Path Naming

theorem noSlash_twin {name : String} (hslash : '/' ∉ name.toList) : '/' ∉ (name ++ "c").toList := by
  simp [hslash]

theorem dotted_twin (stem : String) :
    dotted stem Layout.regular.extension ++ "c" = dotted stem Layout.compound.extension := by
  simp only [dotted, String.append_assoc]
  rfl

section Names

variable {name : String} (hslash : '/' ∉ name.toList) (hname : isSidecarName name .regular = true)

include hslash hname

theorem isSidecarName_twin : isSidecarName (name ++ "c") .compound = true := by
  obtain ⟨stem, hne, hstem, rfl⟩ := exists_stem hslash hname
  rw [dotted_twin, isSidecarName_dotted hne hstem (isPlain_layout .compound)]

/-- A twin is in the directory of its sidecar. -/
theorem twin_join (directory : Path) :
    twin (directory.join name) = directory.join (name ++ "c") := by
  obtain ⟨stem, hne, hstem, rfl⟩ := exists_stem hslash hname
  rw [dotted_twin]
  exact withExtension_join_dotted directory hne hstem (isPlain_layout _) (isPlain_layout _)

end Names

/-! ## Where a twin lies -/

section Places

variable {t t' t'' : FileTree} {directory : Path} {name other : String} {loc loc' : Location}
  {content : Bytes}

theorem getLast_of_places (hslash : '/' ∉ name.toList) (hne : name ≠ "")
    (hplaces : t.Places (directory.join name) loc) : loc.getLast? = some name := by
  obtain ⟨parent, last, hlast, -, -, -, -, rfl⟩ := hplaces.last
  rw [getLast_steps_join directory hslash hne, Option.some.injEq] at hlast
  rw [List.getLast?_concat, hlast]

theorem ne_empty_of_isSidecarName {layout : Layout} (h : isSidecarName name layout = true) :
    name ≠ "" := by
  rintro rfl
  revert h
  cases layout <;> decide

variable (hslash : '/' ∉ name.toList) (hname : isSidecarName name .regular = true)
  (hslash' : '/' ∉ other.toList) (hother : isSidecarName other .regular = true)

include hslash hname in
theorem getLast_of_places_twin (hplaces : t.Places (twin (directory.join name)) loc) :
    loc.getLast? = some (name ++ "c") := by
  rw [twin_join hslash hname] at hplaces
  exact getLast_of_places (noSlash_twin hslash) (by simp) hplaces

include hslash hname hslash' hother

/-- A twin is no sidecar of a regular segment. -/
theorem ne_of_places_twin (hplaces : t.Places (directory.join name) loc)
    (hplaces' : t'.Places (twin (directory.join other)) loc') : loc ≠ loc' := by
  rintro rfl
  have hlast := getLast_of_places hslash (ne_empty_of_isSidecarName hname) hplaces
  rw [getLast_of_places_twin hslash' hother hplaces', Option.some.injEq] at hlast
  have hcompound := isSidecarName_twin hslash' hother
  rw [hlast, isSidecarName, beq_iff_eq] at hcompound
  rw [isSidecarName, beq_iff_eq, hcompound] at hname
  revert hname
  decide

/-- No two sidecars share a twin. -/
theorem eq_of_places_twin (hplaces : t.Places (twin (directory.join name)) loc)
    (hplaces' : t'.Places (twin (directory.join other)) loc) : name = other := by
  have hlast := getLast_of_places_twin hslash hname hplaces
  rw [getLast_of_places_twin hslash' hother hplaces', Option.some.injEq] at hlast
  exact (String.append_left_inj _).mp hlast.symm

end Places

/-! ## Copying one sidecar -/

/-- The sidecar is there, and its twin holds the same bytes. -/
def Twinned (t : FileTree) (directory : Path) (name : String) : Prop :=
  ∃ loc target content,
    t.Places (directory.join name) loc ∧ t.node? loc = some (.file content) ∧
    t.Places (twin (directory.join name)) target ∧ t.node? target = some (.file content)

theorem places_join_of_sameKey {t : FileTree} {directory elsewhere : Path} {name : String}
    {loc : Location} {layout : Layout} (hslash : '/' ∉ name.toList)
    (hname : isSidecarName name layout = true) (hkey : directory.sameKey elsewhere = true)
    (hshort : (elsewhere.join name).text.utf8ByteSize < 4096)
    (h : t.Places (directory.join name) loc) : t.Places (elsewhere.join name) loc := by
  have hne := ne_empty_of_isSidecarName hname
  have hdots : name ≠ "." ∧ name ≠ ".." := by
    constructor <;>
    · rintro rfl
      revert hname
      cases layout <;> decide
  refine h.of_sameKey (sameKey_join hkey hslash hne hdots.1 hdots.2) ?_
    (endsInSlash_join elsewhere hslash hne) hshort
  rw [getLast_steps_join elsewhere hslash hne]
  simpa using hdots.1

/-- Whichever way the directory is spelled, the twins are seen, if the spelling is not too long. -/
theorem Twinned.elsewhere {t : FileTree} {directory elsewhere : Path} {name : String}
    (h : Twinned t directory name) (hslash : '/' ∉ name.toList)
    (hname : isSidecarName name .regular = true) (hkey : directory.sameKey elsewhere = true)
    (hshort : (elsewhere.join (name ++ "c")).text.utf8ByteSize < 4096) :
    Twinned t elsewhere name := by
  have hslash' := noSlash_twin hslash
  have hname' := isSidecarName_twin hslash hname
  obtain ⟨loc, target, content, hsource, hnode, htarget, hnode'⟩ := h
  have hshorter : (elsewhere.join name).text.utf8ByteSize < 4096 := by
    rw [join_eq_lead elsewhere hslash', String.utf8ByteSize_append,
      String.utf8ByteSize_append] at hshort
    rw [join_eq_lead elsewhere hslash, String.utf8ByteSize_append]
    omega
  rw [twin_join hslash hname] at htarget
  refine ⟨loc, target, content, places_join_of_sameKey hslash hname hkey hshorter hsource, hnode,
    ?_, hnode'⟩
  rw [twin_join hslash hname]
  exact places_join_of_sameKey hslash' hname' hkey hshort htarget

section Copy

variable {t t' : FileTree} {directory : Path} {name other : String}

variable (hslash : '/' ∉ name.toList) (hname : isSidecarName name .regular = true)

include hslash hname

theorem copy_twin_eq_ok_iff :
    t.copy (directory.join name) (twin (directory.join name)) = .ok t' ↔
      ∃ loc target content, t.Places (directory.join name) loc ∧
        t.node? loc = some (.file content) ∧ t.Places (twin (directory.join name)) target ∧
        t.node? target ≠ some .directory ∧ t' = t.put target (.file content) :=
  FileTree.copy_eq_ok_iff fun _ hplaces hplaces' =>
    ne_of_places_twin hslash hname hslash hname hplaces hplaces' rfl

/-- A copy touches the twin only. -/
theorem agreeOff_copy (h : t.copy (directory.join name) (twin (directory.join name)) = .ok t') :
    FileTree.AgreeOff (fun _ => False) (t.Places (twin (directory.join name))) t t' := by
  obtain ⟨loc, target, content, -, -, htarget, hfile, rfl⟩ :=
    (copy_twin_eq_ok_iff hslash hname).mp h
  apply (FileTree.agreeOff_put _ htarget.ne_nil hfile).mono
  rintro _ rfl
  exact Or.inr htarget

theorem twinned_copy (h : t.copy (directory.join name) (twin (directory.join name)) = .ok t') :
    Twinned t' directory name := by
  have hagree := agreeOff_copy hslash hname h
  obtain ⟨loc, target, content, hsource, hnode, htarget, hfile, rfl⟩ :=
    (copy_twin_eq_ok_iff hslash hname).mp h
  have hapart := ne_of_places_twin hslash hname hslash hname hsource htarget
  refine ⟨loc, target, content, hagree.places (fun _ _ => id) hsource, ?_,
    hagree.places (fun _ _ => id) htarget, FileTree.node?_put_self htarget.ne_nil _⟩
  rw [FileTree.node?_put hapart, hnode]

/-- A copy leaves the pairs that there are. -/
theorem Twinned.copy (hslash' : '/' ∉ other.toList) (hother : isSidecarName other .regular = true)
    (htwinned : Twinned t directory other)
    (h : t.copy (directory.join name) (twin (directory.join name)) = .ok t') :
    Twinned t' directory other := by
  by_cases heq : name = other
  · exact heq ▸ twinned_copy hslash hname h
  · have hagree := agreeOff_copy hslash hname h
    obtain ⟨loc, target, content, hsource, hnode, htarget, hnode'⟩ := htwinned
    refine ⟨loc, target, content, hagree.places (fun _ _ => id) hsource, ?_,
      hagree.places (fun _ _ => id) htarget, ?_⟩
    · rw [hagree.nodes loc id fun hplaces =>
        ne_of_places_twin hslash' hother hslash hname hsource hplaces rfl, hnode]
    · rw [hagree.nodes target id fun hplaces =>
        heq (eq_of_places_twin hslash hname hslash' hother hplaces htarget), hnode']

/-- A second copy finds everything as it makes it. -/
theorem copy_of_twinned (h : Twinned t directory name) :
    ∃ t', t.copy (directory.join name) (twin (directory.join name)) = .ok t' ∧
      FileTree.AgreeOff (fun _ => False) (fun _ => False) t t' := by
  obtain ⟨loc, target, content, hsource, hnode, htarget, hnode'⟩ := h
  have hfile : t.node? target ≠ some .directory := by
    rw [hnode']
    nofun
  have hagree : FileTree.AgreeOff (fun _ => False) (· = target) t (t.put target (.file content)) :=
    FileTree.agreeOff_put _ htarget.ne_nil hfile
  refine ⟨t.put target (.file content), (copy_twin_eq_ok_iff hslash hname).mpr
    ⟨loc, target, content, hsource, hnode, htarget, hfile, rfl⟩, hagree.workingDirectory,
    hagree.directories, fun other _ _ => ?_⟩
  by_cases heq : other = target
  · rw [heq, FileTree.node?_put_self htarget.ne_nil, hnode']
  · exact hagree.nodes other id heq

end Copy

/-! ## All sidecars of a segment -/

/-- The work succeeds on one more name if it can be copied, or need not be, and it succeeds on the
rest. -/
theorem prepareCompoundBy_cons_iff {τ : Type} {copy : τ → Path → Path → Except FileError τ}
    {t t' : τ} {directory : Path} {name : String} {rest left : List String} :
    prepareCompoundBy copy t directory (name :: rest) = (.ok left, t') ↔
      (isSidecarName name .regular = true ∧
        ∃ copied, copy t (directory.join name) (twin (directory.join name)) = .ok copied ∧
          prepareCompoundBy copy copied directory rest = (.ok left, t')) ∨
      (isSidecarName name .regular = false ∧
        ∃ packed, left = name :: packed ∧
          prepareCompoundBy copy t directory rest = (.ok packed, t')) := by
  rw [prepareCompoundBy]
  cases hname : isSidecarName name .regular with
  | true =>
    cases hcopy : copy t (directory.join name) (twin (directory.join name)) <;> simp [hcopy]
  | false =>
    rcases hrest : prepareCompoundBy copy t directory rest with ⟨e | packed, after⟩
    · simp
    · simp [eq_comm]

/-- Where the twins of the sidecars among the names lie. -/
def TwinPlaces (t : FileTree) (directory : Path) (names : List String) (loc : Location) : Prop :=
  ∃ name ∈ names, isSidecarName name .regular = true ∧
    t.Places (twin (directory.join name)) loc

section Prepare

variable {t t' : FileTree} {directory : Path} {names left : List String} {name : String}
  (hnames : ∀ name ∈ names, '/' ∉ name.toList)

include hnames

/-- The work on a segment copies one sidecar after the other. -/
theorem prepareCompound_run (h : prepareCompound t directory names = (.ok left, t')) :
    left = names.filter (fun name => !isSidecarName name .regular) ∧
    FileTree.AgreeOff (fun _ => False) (TwinPlaces t directory names) t t' ∧
    (∀ name, '/' ∉ name.toList → isSidecarName name .regular = true →
      Twinned t directory name → Twinned t' directory name) ∧
    ∀ name ∈ names, isSidecarName name .regular = true → Twinned t' directory name := by
  -- What later copies leave is needed of every pair, not only of those that they make.
  induction names generalizing t left with
  | nil =>
    obtain ⟨rfl, rfl⟩ : [] = left ∧ t = t' := by simpa [prepareCompound, prepareCompoundBy] using h
    exact ⟨rfl, .refl _ _ _, fun _ _ _ => id, List.forall_mem_nil _⟩
  | cons name rest ih =>
    have hslash := hnames name List.mem_cons_self
    have hrest : ∀ other ∈ rest, '/' ∉ other.toList :=
      fun other hother => hnames other (List.mem_cons_of_mem name hother)
    rcases prepareCompoundBy_cons_iff.mp h with
      ⟨hname, copied, hcopy, hlast⟩ | ⟨hname, packed, rfl, hlast⟩
    · obtain ⟨hleft, hagree, hkept, hall⟩ := ih hrest hlast
      have hfirst := agreeOff_copy hslash hname hcopy
      refine ⟨by simp [hleft, hname], ?_, ?_, ?_⟩
      · refine (hfirst.mono ?_).trans (hagree.mono ?_)
        · exact fun loc hplaces => Or.inr ⟨name, List.mem_cons_self, hname, hplaces⟩
        · rintro loc ⟨other, hother, hsidecar, hplaces⟩
          exact Or.inr ⟨other, List.mem_cons_of_mem _ hother, hsidecar,
            (hfirst.places_iff fun _ _ => id).mp hplaces⟩
      · exact fun other hslash' hother htwinned =>
          hkept other hslash' hother (htwinned.copy hslash hname hslash' hother hcopy)
      · intro other hother hsidecar
        rcases List.mem_cons.mp hother with rfl | hother
        · exact hkept other hslash hname (twinned_copy hslash hname hcopy)
        · exact hall other hother hsidecar
    · obtain ⟨hleft, hagree, hkept, hall⟩ := ih hrest hlast
      refine ⟨by simp [hleft, hname], hagree.mono ?_, hkept, ?_⟩
      · rintro loc ⟨other, hother, hplaces⟩
        exact Or.inr ⟨other, List.mem_cons_of_mem _ hother, hplaces⟩
      · intro other hother hsidecar
        rcases List.mem_cons.mp hother with rfl | hother
        · rw [hname] at hsidecar
          cases hsidecar
        · exact hall other hother hsidecar

/-- The bytes of a sidecar are kept, and its twin has them. -/
theorem read_of_prepared (h : prepareCompound t directory names = (.ok left, t'))
    (hname : name ∈ names) (hsidecar : isSidecarName name .regular = true) : ∃ content,
    t.read (directory.join name) = .ok content ∧ t'.read (directory.join name) = .ok content ∧
    t'.read (twin (directory.join name)) = .ok content := by
  obtain ⟨-, hagree, -, hall⟩ := prepareCompound_run hnames h
  obtain ⟨loc, target, content, hsource, hnode, htarget, hnode'⟩ := hall name hname hsidecar
  have hplaces : t.Places (directory.join name) loc :=
    (hagree.places_iff fun _ _ => id).mp hsource
  have hkept : t'.node? loc = t.node? loc := by
    apply hagree.nodes loc id
    rintro ⟨other, hother, hsidecar', htwin⟩
    exact ne_of_places_twin (hnames name hname) hsidecar (hnames other hother) hsidecar' hplaces
      htwin rfl
  exact ⟨content, FileTree.read_eq_ok_iff.mpr ⟨loc, hplaces, hkept ▸ hnode⟩,
    FileTree.read_eq_ok_iff.mpr ⟨loc, hsource, hnode⟩,
    FileTree.read_eq_ok_iff.mpr ⟨target, htarget, hnode'⟩⟩

/-- Where every twin is in place, the work succeeds and changes nothing. -/
theorem prepareCompound_of_twinned
    (h : ∀ name ∈ names, isSidecarName name .regular = true → Twinned t directory name) :
    ∃ t', prepareCompound t directory names
        = (.ok (names.filter fun name => !isSidecarName name .regular), t') ∧
      FileTree.AgreeOff (fun _ => False) (fun _ => False) t t' := by
  induction names generalizing t with
  | nil => exact ⟨t, rfl, .refl _ _ _⟩
  | cons name rest ih =>
    have hslash := hnames name List.mem_cons_self
    have hrest : ∀ other ∈ rest, '/' ∉ other.toList :=
      fun other hother => hnames other (List.mem_cons_of_mem name hother)
    cases hname : isSidecarName name .regular with
    | true =>
      obtain ⟨copied, hcopy, hsame⟩ :=
        copy_of_twinned hslash hname (h name List.mem_cons_self hname)
      obtain ⟨t', hprepared, hsame'⟩ := ih hrest fun other hother hsidecar =>
        (h other (List.mem_cons_of_mem name hother) hsidecar).copy hslash hname
          (hrest other hother) hsidecar hcopy
      rw [List.filter_cons_of_neg (by simp [hname])]
      exact ⟨t', prepareCompoundBy_cons_iff.mpr (Or.inl ⟨hname, copied, hcopy, hprepared⟩),
        hsame.trans hsame'⟩
    | false =>
      obtain ⟨t', hprepared, hsame⟩ := ih hrest fun other hother hsidecar =>
        h other (List.mem_cons_of_mem name hother) hsidecar
      rw [List.filter_cons_of_pos (by simp [hname])]
      exact ⟨t', prepareCompoundBy_cons_iff.mpr (Or.inr ⟨hname, _, rfl, hprepared⟩), hsame⟩

end Prepare

end Writer

end Sidecar
