import Sidecar.Proofs.Files.Address

/-!
# What an operation on files changes

Writing and removing change at most the place to which the path leads, and they change it from a file
to a file or to nothing: no directory comes or goes. `FileTree.AgreeOff` says this of two trees and a
set of places. Beside these it has *free* places, where somebody else may do as they please, to
directories as well.

The directories are the point of it. Where a path leads depends on those that it goes through and on
nothing else (`AgreeOff.places_iff`), so a path whose way has no free place on it (`Spared`) places a
file in every later tree where it did at first, and one set of places serves for a whole sequence of
changes.
-/

set_option autoImplicit false

namespace Sidecar

namespace FileTree

variable {t t' t'' : FileTree} {p : Path} {loc other : Location} {content : Bytes}
  {S S' : Location → Prop}

/-! ## Single places -/

theorem find?_erase (t : FileTree) (h : other ≠ loc) :
    (t.nodes.filter fun entry => entry.1 != loc).find? (fun entry => entry.1 == other)
      = t.nodes.find? fun entry => entry.1 == other := by
  rw [List.find?_filter]
  congr 1
  funext entry
  by_cases hentry : entry.1 = other
  · simp [hentry, h]
  · simp [hentry]

theorem find?_erase_self (t : FileTree) (loc : Location) :
    (t.nodes.filter fun entry => entry.1 != loc).find? (fun entry => entry.1 == loc) = none := by
  rw [List.find?_filter, List.find?_eq_none]
  intro entry _
  by_cases hentry : entry.1 = loc <;> simp [hentry]

theorem node?_put_self (h : loc ≠ []) (node : Node) : (t.put loc node).node? loc = some node := by
  rw [node?, if_neg h, put, List.find?_append, find?_erase_self]
  simp

theorem node?_put (h : other ≠ loc) (node : Node) :
    (t.put loc node).node? other = t.node? other := by
  have hnot : (loc == other) = false := by simpa using Ne.symm h
  simp [put, node?, List.find?_append, find?_erase t h, hnot]

theorem node?_erase_self (h : loc ≠ []) : (t.erase loc).node? loc = none := by
  rw [node?, if_neg h, erase, find?_erase_self]
  rfl

theorem node?_erase (h : other ≠ loc) : (t.erase loc).node? other = t.node? other := by
  simp [erase, node?, find?_erase t h]

/-! ## The way of a path -/

/-- Where a step leads, if it leads anywhere. -/
def follow (loc : Location) (step : String) : Location :=
  if step = "." then loc else if step = ".." then loc.dropLast else loc ++ [step]

/-- Where a path leads, if it leads anywhere. -/
def destination (t : FileTree) (p : Path) : Location := p.steps.foldl follow (t.origin p)

/-- The places that a path goes through, its destination included. -/
def way (t : FileTree) (p : Path) : List Location := p.steps.scanl follow (t.origin p)

/-- What happens at the free places is of no account to the path. -/
def Spared (free : Location → Prop) (t : FileTree) (p : Path) : Prop := ∀ loc ∈ t.way p, ¬ free loc

theorem eq_follow_of_enter {step : String} (h : t.enter loc step = .ok other) :
    other = follow loc step := by
  unfold enter at h
  unfold follow
  by_cases hdot : step = "."
  · simpa [hdot, pure, Except.pure, eq_comm] using h
  · by_cases hup : step = ".."
    · simpa [hdot, hup, pure, Except.pure, eq_comm] using h
    · cases hcheck : checkName step with
      | error e => simp [hdot, hup, hcheck, bind, Except.bind] at h
      | ok _ =>
        rcases hnode : t.node? (loc ++ [step]) with _ | _ | bytes
        · simp [hdot, hup, hcheck, hnode, bind, Except.bind] at h
        · simpa [hdot, hup, hcheck, hnode, bind, Except.bind, pure, Except.pure, eq_comm] using h
        · simp [hdot, hup, hcheck, hnode, bind, Except.bind] at h

theorem eq_foldl_of_walk (steps : List String) (h : steps.foldlM t.enter loc = .ok other) :
    other = steps.foldl follow loc := by
  induction steps generalizing loc with
  | nil =>
    cases h
    rfl
  | cons step rest ih =>
    rw [List.foldlM_cons] at h
    cases hfirst : t.enter loc step with
    | error e =>
      rw [hfirst] at h
      cases h
    | ok middle =>
      rw [hfirst] at h
      rw [List.foldl_cons, ← eq_follow_of_enter hfirst]
      exact ih h

theorem location_eq_destination {spot : Spot} (h : t.locate p = .ok spot)
    (hname : spot.name.isNone = false) : spot.location = t.destination p := by
  rw [locate_eq (addressable_of_locate h)] at h
  cases hwalk : p.steps.dropLast.foldlM t.enter (t.origin p) with
  | error e => simp [hwalk, Except.map] at h
  | ok parent =>
    rw [hwalk, Except.map, Except.ok.injEq] at h
    subst h
    unfold spotOf at hname ⊢
    split at hname
    · cases hname
    · cases hname
    · cases hname
    · next name hdot hup hlast =>
      obtain ⟨init, hinit⟩ := List.getLast?_eq_some_iff.mp hlast
      have hparent := eq_foldl_of_walk _ hwalk
      rw [hinit, List.dropLast_concat] at hparent
      rw [destination, hinit, List.foldl_concat, ← hparent, follow, if_neg hdot, if_neg hup]

theorem Places.eq_destination (h : t.Places p loc) : loc = t.destination p := by
  obtain ⟨spot, hl, rfl, -, hname, -⟩ := h.locate
  exact location_eq_destination hl hname

theorem destination_mem_way (t : FileTree) (p : Path) : t.destination p ∈ t.way p := by
  have hall : ∀ (steps : List String) (loc : Location),
      steps.foldl follow loc ∈ steps.scanl follow loc := by
    intro steps
    induction steps with
    | nil => exact fun _ => List.mem_cons_self
    | cons step rest ih =>
      intro loc
      rw [List.scanl_cons]
      exact List.mem_cons_of_mem _ (ih _)
  exact hall p.steps _

theorem Spared.destination {free : Location → Prop} (h : t.Spared free p) :
    ¬ free (t.destination p) :=
  h _ (t.destination_mem_way p)

/-! Where a path leads depends on the working directory, if it leads anywhere. -/

theorem origin_eq (h : t'.workingDirectory = t.workingDirectory) (p : Path) :
    t'.origin p = t.origin p := by
  rw [origin, origin, h]

theorem destination_eq (h : t'.workingDirectory = t.workingDirectory) (p : Path) :
    t'.destination p = t.destination p := by
  rw [destination, destination, origin_eq h]

theorem Spared.of_eq {free : Location → Prop} (hp : t.Spared free p)
    (h : t'.workingDirectory = t.workingDirectory) : t'.Spared free p := by
  unfold Spared way at hp ⊢
  rw [origin_eq h]
  exact hp

/-! ## Agreement -/

/-- The second tree has the directories of the first, and outside the places its files. What there
is at the free places is left open. -/
structure AgreeOff (free S : Location → Prop) (t t' : FileTree) : Prop where
  workingDirectory : t'.workingDirectory = t.workingDirectory
  directories : ∀ loc, ¬ free loc →
    (t'.node? loc = some .directory ↔ t.node? loc = some .directory)
  nodes : ∀ loc, ¬ free loc → ¬ S loc → t'.node? loc = t.node? loc

namespace AgreeOff

variable {free : Location → Prop}

theorem refl (free S : Location → Prop) (t : FileTree) : AgreeOff free S t t :=
  ⟨rfl, fun _ _ => Iff.rfl, fun _ _ _ => rfl⟩

theorem symm (h : AgreeOff free S t t') : AgreeOff free S t' t :=
  ⟨h.workingDirectory.symm, fun loc hfree => (h.directories loc hfree).symm,
    fun loc hfree hs => (h.nodes loc hfree hs).symm⟩

theorem trans (h : AgreeOff free S t t') (h' : AgreeOff free S t' t'') : AgreeOff free S t t'' :=
  ⟨h'.workingDirectory.trans h.workingDirectory,
    fun loc hfree => (h'.directories loc hfree).trans (h.directories loc hfree),
    fun loc hfree hs => (h'.nodes loc hfree hs).trans (h.nodes loc hfree hs)⟩

theorem mono (h : AgreeOff free S t t') (hsub : ∀ loc, S loc → free loc ∨ S' loc) :
    AgreeOff free S' t t' :=
  ⟨h.workingDirectory, h.directories,
    fun loc hfree hs => h.nodes loc hfree fun hin => (hsub loc hin).elim hfree hs⟩

theorem enter (h : AgreeOff free S t t') {step : String} {next : Location} (hfree : ¬ free next)
    (hstep : t.enter loc step = .ok next) : t'.enter loc step = .ok next := by
  have hnext := eq_follow_of_enter hstep
  unfold FileTree.enter at hstep ⊢
  by_cases hdot : step = "."
  · simpa [hdot] using hstep
  · by_cases hup : step = ".."
    · simpa [hup] using hstep
    · have hloc : next = loc ++ [step] := by simpa [follow, hdot, hup] using hnext
      cases hcheck : checkName step with
      | error e => simp [hdot, hup, hcheck, bind, Except.bind] at hstep
      | ok _ =>
        rcases hnode : t.node? (loc ++ [step]) with _ | _ | bytes
        · simp [hdot, hup, hcheck, hnode, bind, Except.bind] at hstep
        · have hnode' := (h.directories _ (hloc ▸ hfree)).mpr hnode
          simpa [hdot, hup, hcheck, hnode, hnode', bind, Except.bind] using hstep
        · simp [hdot, hup, hcheck, hnode, bind, Except.bind] at hstep

theorem walk (h : AgreeOff free S t t') (steps : List String) {next : Location}
    (hfree : ∀ dir ∈ steps.scanl follow loc, ¬ free dir)
    (hwalk : steps.foldlM t.enter loc = .ok next) : steps.foldlM t'.enter loc = .ok next := by
  induction steps generalizing loc with
  | nil => exact hwalk
  | cons step rest ih =>
    rw [List.foldlM_cons] at hwalk ⊢
    rw [List.scanl_cons] at hfree
    cases hfirst : t.enter loc step with
    | error e =>
      rw [hfirst] at hwalk
      cases hwalk
    | ok middle =>
      rw [hfirst] at hwalk
      obtain rfl := eq_follow_of_enter hfirst
      have hmiddle : ¬ free (follow loc step) := by
        apply hfree
        cases rest <;> simp [List.scanl_cons]
      rw [h.enter hmiddle hfirst]
      exact ih (fun dir hdir => hfree dir (List.mem_cons_of_mem _ hdir)) hwalk

theorem places (h : AgreeOff free S t t') (hspared : t.Spared free p) (hp : t.Places p loc) :
    t'.Places p loc := by
  obtain ⟨parent, name, hlast, hdot, hup, hname, hwalk, hloc⟩ := hp.last
  refine ⟨hp.addressable, hp.noSlash, parent, name, hlast, hdot, hup, hname, ?_, hloc⟩
  obtain ⟨init, hinit⟩ := List.getLast?_eq_some_iff.mp hlast
  rw [origin_eq h.workingDirectory]
  refine h.walk _ ?_ hwalk
  intro dir hdir
  apply hspared dir
  rw [hinit, List.dropLast_concat] at hdir
  rw [way, hinit, List.scanl_append]
  exact List.mem_append_left _ hdir

/-- Paths that are spared lead to the same places in both trees. -/
theorem places_iff (h : AgreeOff free S t t') (hspared : t.Spared free p) :
    t'.Places p loc ↔ t.Places p loc :=
  ⟨h.symm.places (hspared.of_eq h.workingDirectory), h.places hspared⟩

end AgreeOff

/-! ## Writing and removing -/

variable (free : Location → Prop)

theorem agreeOff_put (hloc : loc ≠ []) (hnode : t.node? loc ≠ some .directory) :
    AgreeOff free (· = loc) t (t.put loc (.file content)) := by
  refine ⟨rfl, ?_, fun other _ hother => node?_put hother _⟩
  intro other _
  by_cases hother : other = loc
  · subst hother
    simp [node?_put_self hloc, hnode]
  · rw [node?_put hother]

theorem agreeOff_erase (hloc : loc ≠ []) (hnode : t.node? loc ≠ some .directory) :
    AgreeOff free (· = loc) t (t.erase loc) := by
  refine ⟨rfl, ?_, fun other _ hother => node?_erase hother⟩
  intro other _
  by_cases hother : other = loc
  · subst hother
    simp [node?_erase_self hloc, hnode]
  · rw [node?_erase hother]

theorem agreeOff_write (h : t.write p content = .ok t') : AgreeOff free (t.Places p) t t' := by
  obtain ⟨loc, hplaces, hnode, rfl⟩ := write_eq_ok_iff.mp h
  apply (agreeOff_put free hplaces.ne_nil hnode).mono
  rintro _ rfl
  exact Or.inr hplaces

/-- Where a file could be made, it still can. -/
theorem AgreeOff.write {free : Location → Prop} {opened : FileTree} (h : AgreeOff free S t t')
    (hspared : t.Spared free p) (hopened : t.create p = .ok opened) (content : Bytes) :
    ∃ written, t'.write p content = .ok written := by
  obtain ⟨loc, hplaces, hnode, -⟩ := write_eq_ok_iff.mp hopened
  have hfree : ¬ free loc := hplaces.eq_destination ▸ hspared.destination
  exact ⟨_, write_eq_ok_iff.mpr ⟨loc, h.places hspared hplaces,
    fun hdirectory => hnode ((h.directories loc hfree).mp hdirectory), rfl⟩⟩

/-- What is written is there to be read. -/
theorem stat_of_write (h : t.write p content = .ok t') : t'.stat p = .ok (.file content) := by
  have hagree := agreeOff_write (fun _ => False) h
  obtain ⟨loc, hplaces, -, rfl⟩ := write_eq_ok_iff.mp h
  exact stat_eq_file_iff.mpr ⟨loc, hagree.places (fun _ _ => id) hplaces,
    node?_put_self hplaces.ne_nil _⟩

theorem removeIfPossible_cases (t : FileTree) (p : Path) :
    (t.removeIfPossible p = t ∧
      ∀ loc content, t.Places p loc → t.node? loc ≠ some (.file content)) ∨
    ∃ loc content, t.Places p loc ∧ t.node? loc = some (.file content) ∧
      t.removeIfPossible p = t.erase loc := by
  unfold removeIfPossible
  cases hremove : t.remove p with
  | ok t' =>
    obtain ⟨loc, hplaces, ⟨content, hnode⟩, rfl⟩ := remove_eq_ok_iff.mp hremove
    exact Or.inr ⟨loc, content, hplaces, hnode, rfl⟩
  | error e =>
    refine Or.inl ⟨rfl, ?_⟩
    intro loc content hplaces hnode
    rw [remove_eq_ok_iff.mpr ⟨loc, hplaces, ⟨content, hnode⟩, rfl⟩] at hremove
    cases hremove

theorem agreeOff_removeIfPossible (t : FileTree) (p : Path) :
    AgreeOff free (t.Places p) t (t.removeIfPossible p) := by
  rcases t.removeIfPossible_cases p with ⟨heq, -⟩ | ⟨loc, content, hplaces, hnode, heq⟩
  · rw [heq]
    exact .refl free _ t
  · rw [heq]
    apply (agreeOff_erase free hplaces.ne_nil (by simp [hnode])).mono
    rintro _ rfl
    exact Or.inr hplaces

/-- Removing leaves no file where the path leads. -/
theorem node?_removeIfPossible (hp : t.Places p loc) :
    (t.removeIfPossible p).node? loc ≠ some (.file content) := by
  rcases t.removeIfPossible_cases p with ⟨heq, hnone⟩ | ⟨loc', content', hplaces, hnode, heq⟩
  · rw [heq]
    exact hnone loc content hp
  · rw [heq, hp.unique hplaces, node?_erase_self hplaces.ne_nil]
    simp

/-- Removing brings no file. -/
theorem node?_of_removeIfPossible (h : (t.removeIfPossible p).node? loc = some (.file content)) :
    t.node? loc = some (.file content) := by
  rcases t.removeIfPossible_cases p with ⟨heq, -⟩ | ⟨loc', content', hplaces, hnode, heq⟩
  · rwa [heq] at h
  · rw [heq] at h
    by_cases hloc : loc = loc'
    · rw [hloc, node?_erase_self hplaces.ne_nil] at h
      cases h
    · rwa [node?_erase hloc] at h

theorem stat_eq_notFound (hp : t.Places p loc) (hnode : t.node? loc = none) :
    t.stat p = .error .notFound := by
  obtain ⟨spot, hl, -, -, -, hn⟩ := hp.locate
  simp [stat, hl, hn, hnode, bind, Except.bind, throw, throwThe, MonadExceptOf.throw]

/-! ## Copying -/

theorem put_put (t : FileTree) (loc : Location) (node node' : Node) :
    (t.put loc node).put loc node' = t.put loc node' := by
  simp [put, List.filter_append, List.filter_filter]

/-- A copy to another place puts the content of the one at the other. -/
theorem copy_eq_ok_iff {q : Path} (hapart : ∀ loc, t.Places p loc → ¬ t.Places q loc) :
    t.copy p q = .ok t' ↔ ∃ loc target content,
      t.Places p loc ∧ t.node? loc = some (.file content) ∧
      t.Places q target ∧ t.node? target ≠ some .directory ∧ t' = t.put target (.file content) := by
  -- Making the target empties a file, but not the one that is copied.
  have hmade : ∀ {loc target content}, t.Places p loc → t.node? loc = some (.file content) →
      t.Places q target → t.node? target ≠ some .directory →
      t.create q = .ok (t.put target (.file [])) ∧
      (t.put target (.file [])).read p = .ok content ∧
      (t.put target (.file [])).write q content = .ok (t.put target (.file content)) := by
    intro loc target content hsource hnode htarget hfile
    have hopened : t.create q = .ok (t.put target (.file [])) :=
      write_eq_ok_iff.mpr ⟨target, htarget, hfile, rfl⟩
    have hagree := agreeOff_write (fun _ => False) hopened
    have hkept : (t.put target (.file [])).node? loc = some (.file content) := by
      rw [hagree.nodes loc id (hapart loc hsource), hnode]
    have hread : (t.put target (.file [])).read p = .ok content :=
      read_eq_ok_iff.mpr ⟨loc, hagree.places (fun _ _ => id) hsource, hkept⟩
    refine ⟨hopened, hread, write_eq_ok_iff.mpr ⟨target, ?_, ?_, ?_⟩⟩
    · exact hagree.places (fun _ _ => id) htarget
    · rw [node?_put_self htarget.ne_nil]
      nofun
    · rw [put_put]
  constructor
  · intro h
    unfold copy at h
    rcases hstat : t.stat p with e | _ | content
    · simp [hstat, bind, Except.bind] at h
    · simp [hstat, bind, Except.bind, throw, throwThe, MonadExceptOf.throw] at h
    · obtain ⟨loc, hsource, hnode⟩ := stat_eq_file_iff.mp hstat
      cases hopened : t.create q with
      | error e => simp [hstat, hopened, bind, Except.bind] at h
      | ok opened =>
        obtain ⟨target, htarget, hfile, rfl⟩ := write_eq_ok_iff.mp hopened
        obtain ⟨-, hread, hwritten⟩ := hmade hsource hnode htarget hfile
        simp only [hstat, hopened, hread, hwritten, bind, Except.bind, Except.ok.injEq] at h
        exact ⟨loc, target, content, hsource, hnode, htarget, hfile, h.symm⟩
  · rintro ⟨loc, target, content, hsource, hnode, htarget, hfile, rfl⟩
    have hstat : t.stat p = .ok (.file content) := stat_eq_file_iff.mpr ⟨loc, hsource, hnode⟩
    obtain ⟨hopened, hread, hwritten⟩ := hmade hsource hnode htarget hfile
    simp only [copy, hstat, hopened, hread, hwritten, bind, Except.bind]

end FileTree

end Sidecar
