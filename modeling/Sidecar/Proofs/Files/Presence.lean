import Sidecar.Engine.Basic
import Sidecar.Proofs.Files.Changes
import Sidecar.Proofs.Files.Key

/-!
# What a look at a path shows

A path that has ever led to a file is *plain*: it names something and asks for nothing else. A look
at a plain path is a walk to a directory and one node in it (`stat_eq_of_plain`), and two things
follow.

* Plain paths of one key show the same, in every tree. So whoever keeps paths by their keys may look
  at any spelling of them.
* If whatever changes on the way of a path is something that goes, the path shows what it showed, or
  nothing (`stat_cases`). Directories may be among what goes.

A path that is not plain may ask for a directory, and then it shows something else than a plain path of
its key. But it shows *nothing* exactly when the plain path does (`stat_notFound_of_sameKey`), because
a step that is missing is missing whatever comes after it. This is all that the watcher asks for.
-/

set_option autoImplicit false

namespace Sidecar

/-- The path names a file, as far as its text tells. -/
structure Path.Plain (p : Path) : Prop where
  addressable : FileTree.Addressable p
  noSlash : p.endsInSlash = false
  named : ∃ name, p.steps.getLast? = some name ∧ name ≠ "." ∧ name ≠ ".." ∧
    name.utf8ByteSize ≤ 255

/-- The file name is the last step that is walked. -/
theorem Path.walked_of_fileName {p : Path} {name : String} (h : p.fileName = some name) :
    p.walked.getLast? = some name ∧ name ≠ "." ∧ name ≠ ".." := by
  have hlast := Path.fileName_eq_some_iff.mp h
  obtain ⟨step, -, hstep⟩ := List.mem_filterMap.mp (List.mem_of_getLast? hlast)
  refine ⟨by rw [← Path.map_step_named, List.getLast?_map, hlast]; rfl, ?_⟩
  unfold Path.Component.ofStep? at hstep
  split at hstep
  · cases hstep
  · next hdot =>
    split at hstep
    · cases hstep
    · next hup =>
      obtain rfl : step = name := by simpa using hstep
      exact ⟨hdot, hup⟩

namespace FileTree

variable {t t' : FileTree} {p q : Path} {loc : Location} {content : Bytes}

theorem Places.plain (h : t.Places p loc) : p.Plain := by
  obtain ⟨_, name, hlast, hdot, hup, hshort, -, -⟩ := h.last
  exact ⟨h.addressable, h.noSlash, name, hlast, hdot, hup, hshort⟩

/-! ## A look at a plain path -/

/-- What a walk has come to in the end. -/
def glance (t : FileTree) (name : String) : Except FileError Location → Except FileError Node
  | .error e => .error e
  | .ok parent => match t.node? (parent ++ [name]) with
    | none => .error .notFound
    | some node => .ok node

theorem stat_eq_of_plain (hp : p.Plain) {name : String} (hlast : p.steps.getLast? = some name) :
    t.stat p = t.glance name (p.steps.dropLast.foldlM t.enter (t.origin p)) := by
  obtain ⟨_, hname, hdot, hup, hshort⟩ := hp.named
  rw [hlast, Option.some.injEq] at hname
  subst hname
  unfold stat
  cases hwalk : p.steps.dropLast.foldlM t.enter (t.origin p) with
  | error e => simp [locate_eq hp.addressable, hwalk, Except.map, glance, bind, Except.bind]
  | ok parent =>
    have hplaces : t.Places p (parent ++ [name]) :=
      ⟨hp.addressable, hp.noSlash, parent, name, hlast, hdot, hup, hshort, hwalk, rfl⟩
    obtain ⟨spot, hl, -, hslash, -, hn⟩ := hplaces.locate
    rcases hnode : t.node? (parent ++ [name]) with _ | _ | bytes <;>
      simp [hl, hn, hnode, hslash, glance, bind, Except.bind, pure, Except.pure, throw, throwThe,
        MonadExceptOf.throw]

/-- How a path is spelled does not show. -/
theorem stat_of_sameKey (hp : p.Plain) (hq : q.Plain) (hkey : p.sameKey q = true) :
    t.stat q = t.stat p := by
  obtain ⟨name, hlast, hdot, -, -⟩ := hp.named
  obtain ⟨other, hother, hdot', -, -⟩ := hq.named
  obtain ⟨habs, hwalked⟩ := Path.walked_of_sameKey hkey
  rw [walked_of_last hlast hdot, walked_of_last hother hdot'] at hwalked
  obtain ⟨hinit, htail⟩ := List.append_inj' hwalked rfl
  obtain rfl := List.singleton_inj.mp htail
  have hstart : t.origin q = t.origin p := by rw [origin, origin, habs]
  rw [stat_eq_of_plain hp hlast, stat_eq_of_plain hq hother, hstart,
    ← foldlM_enter_filter t p.steps.dropLast, ← foldlM_enter_filter t q.steps.dropLast, hinit]

/-! ## Nothing there -/

theorem addressable_of_stat {node : Node} (h : t.stat p = .ok node) : Addressable p := by
  cases hlocate : t.locate p with
  | error e =>
    rw [stat, hlocate] at h
    cases h
  | ok spot => exact addressable_of_locate hlocate

theorem node_of_enter {name : String} {next : Location} (hdot : name ≠ ".") (hup : name ≠ "..")
    (h : t.enter loc name = .ok next) : t.node? next = some .directory := by
  unfold enter at h
  rw [if_neg hdot, if_neg hup] at h
  cases hcheck : checkName name with
  | error e => simp [hcheck, bind, Except.bind] at h
  | ok _ =>
    rcases hnode : t.node? (loc ++ [name]) with _ | _ | content
    · simp [hcheck, hnode, bind, Except.bind, throw, throwThe, MonadExceptOf.throw] at h
    · simp only [hcheck, hnode, bind, Except.bind, pure, Except.pure, Except.ok.injEq] at h
      rw [← h, hnode]
    · simp [hcheck, hnode, bind, Except.bind, throw, throwThe, MonadExceptOf.throw] at h

/-- A walk whose last step is a name has come to a directory. -/
theorem node_of_walk {name : String} {steps : List String} {start : Location}
    (hlast : (steps.filter (· ≠ ".")).getLast? = some name) (hup : name ≠ "..")
    (h : steps.foldlM t.enter start = .ok loc) : t.node? loc = some .directory := by
  obtain ⟨init, hinit⟩ := List.getLast?_eq_some_iff.mp hlast
  have hdot : name ≠ "." := by
    have hmem : name ∈ steps.filter (· ≠ ".") := List.mem_of_getLast? hlast
    simpa using (List.mem_filter.mp hmem).2
  rw [← foldlM_enter_filter, hinit, List.foldlM_append] at h
  cases hwalk : init.foldlM t.enter start with
  | error e => simp [hwalk, bind, Except.bind] at h
  | ok parent =>
    cases hnext : t.enter parent name with
    | error e => simp [hwalk, hnext, bind, Except.bind] at h
    | ok next =>
      simp only [hwalk, hnext, List.foldlM_cons, List.foldlM_nil, bind, Except.bind, pure,
        Except.pure, Except.ok.injEq] at h
      exact h ▸ node_of_enter hdot hup hnext

/-- There is nothing at a path with a file name if a walk along all of its steps, the name included,
comes upon one that is missing. -/
theorem stat_eq_notFound_iff (hp : Addressable p) {name : String} (hname : p.fileName = some name) :
    t.stat p = .error .notFound ↔ p.walked.foldlM t.enter (t.origin p) = .error .notFound := by
  obtain ⟨hwalked, hdot, hup⟩ := Path.walked_of_fileName hname
  rw [show p.walked.foldlM t.enter (t.origin p) = p.steps.foldlM t.enter (t.origin p) from
    foldlM_enter_filter t p.steps (t.origin p)]
  rcases hlast : p.steps.getLast? with _ | last
  · rw [Path.walked, List.getLast?_eq_none_iff.mp hlast] at hwalked
    cases hwalked
  obtain ⟨init, hinit⟩ := List.getLast?_eq_some_iff.mp hlast
  unfold stat
  rw [locate_eq hp, hinit, List.dropLast_concat, List.foldlM_append]
  cases hwalk : init.foldlM t.enter (t.origin p) with
  | error e => simp [Except.map, bind, Except.bind]
  | ok parent =>
    by_cases hhere : last = "."
    · -- The name comes before the dots, and what it leads to has been entered.
      subst hhere
      have hends : (init.filter (· ≠ ".")).getLast? = some name := by
        simpa [Path.walked, hinit] using hwalked
      have hdir : t.node? parent = some .directory := node_of_walk hends hup hwalk
      simp [spotOf, hlast, lookUp, hdir, enter_here, Except.map, bind, Except.bind, pure, Except.pure]
    · obtain rfl : last = name := by
        simpa [walked_of_last hlast hhere] using hwalked
      have hspot : spotOf p (t.origin p) parent
          = ⟨parent, some last, parent ++ [last], p.endsInSlash⟩ := by
        unfold spotOf
        rw [hlast]
        split <;> simp_all
      -- What is no directory cannot be entered, but it is not missing either.
      cases hcheck : checkName last with
      | error e =>
        simp [hspot, lookUp, hcheck, enter, hdot, hup, Except.map, bind, Except.bind]
      | ok _ =>
        rcases hnode : t.node? (parent ++ [last]) with _ | _ | content
        · simp [hspot, lookUp, hcheck, hnode, enter, hdot, hup, Except.map, bind, Except.bind, pure,
            Except.pure, throw, throwThe, MonadExceptOf.throw]
        · simp [hspot, lookUp, hcheck, hnode, enter, hdot, hup, Except.map, bind, Except.bind, pure,
            Except.pure]
        · cases hslash : p.endsInSlash <;>
            simp [hspot, lookUp, hcheck, hnode, hslash, enter, hdot, hup, Except.map, bind,
              Except.bind, pure, Except.pure, throw, throwThe, MonadExceptOf.throw]

/-- Whichever spelling of a path one looks at, there is nothing or there is something. -/
theorem stat_notFound_of_sameKey (hp : Addressable p) (hq : Addressable q) {name : String}
    (hname : p.fileName = some name) (hkey : p.sameKey q = true) :
    t.stat p = .error .notFound ↔ t.stat q = .error .notFound := by
  have hcomponents : p.components = q.components := by simpa [Path.sameKey] using hkey
  have hname' : q.fileName = some name := by rw [← hname, Path.fileName, Path.fileName, hcomponents]
  obtain ⟨habs, hwalked⟩ := Path.walked_of_sameKey hkey
  rw [stat_eq_notFound_iff hp hname, stat_eq_notFound_iff hq hname', hwalked, origin, origin, habs]

/-! ## Things that go -/

/-- What stands at the place is what stood there, or nothing. -/
def Thins (t t' : FileTree) (loc : Location) : Prop :=
  t'.node? loc = t.node? loc ∨ t'.node? loc = none

theorem enter_cases {step : String} (h : t.Thins t' (follow loc step)) :
    t'.enter loc step = t.enter loc step ∨ t'.enter loc step = .error .notFound := by
  unfold enter
  by_cases hdot : step = "."
  · exact Or.inl (by simp [hdot])
  · by_cases hup : step = ".."
    · exact Or.inl (by simp [hup])
    · have hnext : follow loc step = loc ++ [step] := by simp [follow, hdot, hup]
      rw [hnext] at h
      cases hcheck : checkName step with
      | error e => exact Or.inl (by simp [hdot, hup, bind, Except.bind])
      | ok _ =>
        rcases h with hsame | hnone
        · exact Or.inl (by simp [hdot, hup, hsame])
        · exact Or.inr (by simp [hdot, hup, hnone, bind, Except.bind, throw, throwThe,
            MonadExceptOf.throw])

theorem walk_cases (steps : List String) (h : ∀ dir ∈ steps.scanl follow loc, t.Thins t' dir) :
    steps.foldlM t'.enter loc = steps.foldlM t.enter loc ∨
      steps.foldlM t'.enter loc = .error .notFound := by
  induction steps generalizing loc with
  | nil => exact Or.inl rfl
  | cons step rest ih =>
    rw [List.scanl_cons] at h
    have hnext : t.Thins t' (follow loc step) := by
      apply h
      cases rest <;> simp [List.scanl_cons]
    rw [List.foldlM_cons, List.foldlM_cons]
    rcases enter_cases hnext with hsame | hgone
    · rw [hsame]
      cases hfirst : t.enter loc step with
      | error e => exact Or.inl rfl
      | ok next =>
        obtain rfl := eq_follow_of_enter hfirst
        exact ih fun dir hdir => h dir (List.mem_cons_of_mem _ hdir)
    · rw [hgone]
      exact Or.inr rfl

theorem stat_cases (hp : p.Plain) (horigin : t'.workingDirectory = t.workingDirectory)
    (h : ∀ loc ∈ t.way p, t.Thins t' loc) :
    t'.stat p = t.stat p ∨ t'.stat p = .error .notFound := by
  obtain ⟨name, hlast, hdot, hup, -⟩ := hp.named
  obtain ⟨init, hinit⟩ := List.getLast?_eq_some_iff.mp hlast
  have hway : ∀ dir ∈ init.scanl follow (t.origin p), t.Thins t' dir := by
    intro dir hdir
    apply h
    rw [way, hinit, List.scanl_append]
    exact List.mem_append_left _ hdir
  rw [stat_eq_of_plain hp hlast, stat_eq_of_plain hp hlast, origin_eq horigin, hinit,
    List.dropLast_concat]
  rcases walk_cases init hway with hsame | hgone
  · rw [hsame]
    cases hwalk : init.foldlM t.enter (t.origin p) with
    | error e => exact Or.inl rfl
    | ok parent =>
      have hend : t.destination p = parent ++ [name] := by
        rw [destination, hinit, List.foldl_concat, ← eq_foldl_of_walk init hwalk, follow,
          if_neg hdot, if_neg hup]
      have hthins := h _ (t.destination_mem_way p)
      rw [hend] at hthins
      rcases hthins with hsame | hnone
      · exact Or.inl (by rw [glance, glance, hsame])
      · exact Or.inr (by rw [glance, hnone])
  · exact Or.inr (by rw [hgone, glance])

end FileTree

/-! ## What the watcher sees -/

variable {σ ι : Type}

/-- A path looks to the watcher as the files have it. -/
def Environment.Sighted (env : Environment σ ι) (files : σ → FileTree) : Prop :=
  ∀ world path, env.presence world path = ((files world).stat path).map fun _ => ()

variable {env : Environment σ ι} {files : σ → FileTree} {world : σ} {path : Path}

theorem Environment.Sighted.isGone_iff (h : env.Sighted files) :
    (env.presence world path).isGone = true ↔ (files world).stat path = .error .notFound := by
  rw [h]
  rcases (files world).stat path with cause | node
  · cases cause <;> simp [Except.map, Presence.isGone]
  · simp [Except.map, Presence.isGone]

theorem Environment.Sighted.addressable (h : env.Sighted files)
    (hpresent : env.presence world path = .ok ()) : FileTree.Addressable path := by
  rw [h] at hpresent
  cases hstat : (files world).stat path with
  | error cause =>
    rw [hstat] at hpresent
    cases hpresent
  | ok node => exact FileTree.addressable_of_stat hstat

end Sidecar
