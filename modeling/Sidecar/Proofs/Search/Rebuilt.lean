import Sidecar.Proofs.Cache.Watched
import Sidecar.Proofs.Search.Afresh
import Sidecar.Proofs.Search.TopK
import Sidecar.Proofs.Writer.Published

/-!
# Sidecars that are rebuilt

A poll asks of a watched path whether anything is there, and not what. So it removes the entries whose
files are gone by then (`Service.Tidy.mem_poll_iff`), and it leaves an entry whose file was deleted and
built again since the last poll: the entry is *stale*, and answers with the index of the file that was
there before (`Rebuild.rebuilt_before_poll`).

There is no other way for an entry to be left behind. In the runs considered here (`Action.Tended`)
sidecars are made by writes that end well and are otherwise taken away at most, and no write goes to
the file of a live entry, which is mapped: it goes there when the file has been taken away. An entry is
loaded from its file, so it starts without being stale. Its file going does not make it stale, since the
next poll will see that. A write does not make it stale if the path of the entry does not come by the
place where it publishes (`Publishes.not_stale`). What is left are the writes that *supplant* an entry,
and `current_after_poll` is an equivalence: after every poll every entry is what a load would give,
exactly if no write supplants a live entry.

That the watcher watches the path of every entry is not assumed. It does so from the load on, under
some spelling of the path, and for a file the spelling is of no account (`FileTree.stat_of_sameKey`).
-/

set_option autoImplicit false

namespace Sidecar

open Writer

variable {σ ι : Type}

/-! ## Handles and their files -/

namespace FlatIndex

variable {t t' : FileTree} {path : Path} {index : FlatIndex}

theorem load_congr (h : t'.stat path = t.stat path) :
    FlatIndex.load t' path = FlatIndex.load t path := by
  unfold FlatIndex.load FileTree.map
  rw [h]

theorem stat_of_load (h : FlatIndex.load t path = .ok index) :
    ∃ content, t.stat path = .ok (.file content) := by
  obtain ⟨loc, content, hplaces, hnode, -⟩ := load_eq_ok_iff.mp h
  exact ⟨content, FileTree.stat_eq_file_iff.mpr ⟨loc, hplaces, hnode⟩⟩

theorem plain_of_load (h : FlatIndex.load t path = .ok index) : path.Plain := by
  obtain ⟨_, _, hplaces, -, -⟩ := load_eq_ok_iff.mp h
  exact hplaces.plain

end FlatIndex

namespace Handle

/-- The path leads to nothing, as a poll sees it. -/
def Gone (t : FileTree) (h : Handle FlatIndex) : Prop := t.stat h.path = .error .notFound

/-- There is something at the path, but it is not the index of the handle. -/
def Stale (t : FileTree) (h : Handle FlatIndex) : Prop :=
  ¬ h.Gone t ∧ FlatIndex.load t h.path ≠ .ok h.index

variable {t t' : FileTree} {h : Handle FlatIndex}

theorem not_stale_of_stat (hh : ¬ h.Stale t)
    (hstat : t'.stat h.path = t.stat h.path ∨ t'.stat h.path = .error .notFound) :
    ¬ h.Stale t' := by
  rcases hstat with hsame | hgone
  · unfold Stale Gone at hh ⊢
    rwa [hsame, FlatIndex.load_congr hsame]
  · exact fun hstale => hstale.1 hgone

end Handle

/-- The second path leads to the place of the first, through it or past it. -/
def FileTree.Reaches (t : FileTree) (p q : Path) : Prop :=
  ∃ loc, t.Places p loc ∧ ∃ place ∈ t.way q, loc <+: place

/-- A write makes nothing stale unless its path is reached. -/
theorem Writer.Publishes.not_stale {others : Location → Prop} {path : Path} {t t' : FileTree}
    (h : Publishes others path t t') {handle : Handle FlatIndex} (hplain : handle.path.Plain)
    (hspared : t.Spared others handle.path) (hapart : ¬ t.Reaches path handle.path)
    (hbefore : ¬ handle.Stale t) : ¬ handle.Stale t' := by
  obtain ⟨hsame, loc, hplaces, hthins⟩ := h.thins
  apply Handle.not_stale_of_stat hbefore
  apply FileTree.stat_cases hplain hsame
  intro place hplace
  exact hthins place (hspared place hplace) fun hbelow => hapart ⟨loc, hplaces, place, hplace, hbelow⟩

/-! ## Runs in which the host tends the files -/

/-- Whether something is true of every action of a run, in the state in which it happens. -/
def Service.Throughout (env : Environment σ ι) (P : Service σ ι → Action σ ι → Prop)
    (s : Service σ ι) : List (Action σ ι) → Prop
  | [] => True
  | action :: rest => P s action ∧ Throughout env P (s.act env action).2 rest

namespace Action

/-- Sidecars come from writes that end well, and whatever else happens to the file of an entry is
that it goes. Nobody writes where the file of a live entry is: the index of the entry is the mapped file,
which a write would truncate. What is put is the index of its path, and the watcher keeps running. -/
def Tended (files : σ → FileTree) (calm : σ → Prop) (others : Location → Prop)
    (s : Service σ FlatIndex) : Action σ FlatIndex → Prop
  | .drift world => calm world ∧
      ((s.cache.Each fun h => (files world).stat h.path = (files s.world).stat h.path ∨
          (files world).stat h.path = .error .notFound) ∨
        ((∃ path, Publishes others path (files s.world) (files world) ∧
            s.cache.Each fun h => (files s.world).Reaches path h.path → h.Gone (files s.world)) ∧
          s.cache.Each fun h => (files s.world).Spared others h.path))
  | .put path index => FlatIndex.load (files s.world) path = .ok index
  | .blind => False
  | _ => True

/-- A write publishes another index where a live entry leads. -/
def Supplants (files : σ → FileTree) (others : Location → Prop) (s : Service σ FlatIndex) :
    Action σ FlatIndex → Prop
  | .drift world => ∃ path, Publishes others path (files s.world) (files world) ∧
      ∃ e ∈ s.cache.entries, (files s.world).Reaches path e.handle.path ∧
        e.handle.Stale (files world)
  | _ => False

end Action

namespace Service

variable {env : Environment σ FlatIndex} {files : σ → FileTree} {metric : Metric}
  {calm : σ → Prop} {others : Location → Prop} {s : Service σ FlatIndex}
  {action : Action σ FlatIndex}

theorem world_perform (heng : env.Exact files metric calm) (hcalm : calm s.world)
    (hstays : ∀ world, action ≠ .drift world) :
    calm (s.perform env action).2.world ∧
      files (s.perform env action).2.world = files s.world := by
  cases action with
  | get path =>
    have hworld : calm (s.cache.get env path s.world).2.2 ∧
        files (s.cache.get env path s.world).2.2 = files s.world := by
      rcases Cache.world_get (c := s.cache) env s.world path with hworld | hworld
      · rw [hworld]
        exact ⟨hcalm, rfl⟩
      · obtain ⟨s', hload, hcalm', hfiles⟩ := heng.load path hcalm
        rw [hworld, hload]
        exact ⟨hcalm', hfiles⟩
    simp only [perform, grant]
    split <;> exact hworld
  | put path index =>
    simp only [perform, grant]
    split <;> exact ⟨hcalm, rfl⟩
  | query id vector k =>
    simp only [perform]
    split
    · exact ⟨hcalm, rfl⟩
    · next handle _ =>
      unfold Cache.query
      split
      · exact ⟨hcalm, rfl⟩
      · obtain ⟨s', hquery, hcalm', hfiles⟩ := heng.query handle.index vector k hcalm
        simp only [hquery]
        exact ⟨hcalm', hfiles⟩
  | drift world => exact absurd rfl (hstays world)
  | invalidate _ | sweep | poll | shutdown | share _ | drop _ | release | drain | lag _ | blind =>
    exact ⟨hcalm, rfl⟩

/-- What is true of the handle of every entry and its files stays true, if it is true of what a load
gives and survives what happens to the files. -/
theorem each_act (heng : env.Exact files metric calm) (hcalm : calm s.world)
    {P : FileTree → Handle FlatIndex → Prop} (h : s.cache.Each (P (files s.world)))
    (hload : ∀ path index, FlatIndex.load (files s.world) path = .ok index →
      ∀ c : Cache FlatIndex, P (files s.world) (c.nextHandle env path index))
    (htended : action.Tended files calm others s)
    (hdrift : ∀ world, action = .drift world → s.cache.Each (P (files world))) :
    (s.act env action).2.cache.Each (P (files (s.act env action).2.world)) := by
  have hperformed : (s.perform env action).2.cache.Each (P (files (s.perform env action).2.world)) := by
    by_cases hmoves : ∃ world, action = .drift world
    · obtain ⟨world, rfl⟩ := hmoves
      exact hdrift world rfl
    · rw [(world_perform heng hcalm fun world heq => hmoves ⟨world, heq⟩).2]
      cases action with
      | get path =>
        have hgot := h.get env s.world path fun index s' hok c =>
          hload path index ((heng.faithful.load hcalm hok).2.2 index rfl) c
        simp only [perform, grant]
        split <;> exact hgot
      | put path index =>
        have hput := h.put env s.world path index (hload path index htended s.cache)
        simp only [perform, grant]
        split <;> exact hput
      | query id vector k =>
        simp only [perform]
        split
        · exact h
        · exact h
      | invalidate path => exact h.remove path .explicit
      | sweep => exact h.sweep _
      | poll => exact h.poll _
      | shutdown => exact h.shutdown
      | release => exact h.of_entries (Cache.frame_runRelease _).entries
      | drain => exact h.of_entries (Cache.frame_runReleases _ _).entries
      | drift world => exact absurd ⟨world, rfl⟩ hmoves
      | share _ | drop _ | lag _ | blind => exact h
  exact hperformed.of_entries (Cache.frame_settle _ _).entries

theorem guarded_act (heng : env.Exact files metric calm)
    (hsight : env.Sighted files)
    (hcalm : calm s.world) (h : s.cache.Guarded Path.Plain)
    (htended : action.Tended files calm others s) :
    (s.act env action).2.cache.Guarded Path.Plain := by
  have hpresent : ∀ {path index} {world : σ}, files world = files s.world →
      FlatIndex.load (files s.world) path = .ok index →
      env.presence world path = .ok () ∧ path.Plain := by
    intro path index world hsame hload
    obtain ⟨content, hstat⟩ := FlatIndex.stat_of_load hload
    rw [hsight, hsame, hstat]
    exact ⟨rfl, FlatIndex.plain_of_load hload⟩
  have hperformed : (s.perform env action).2.cache.Guarded Path.Plain := by
    cases action with
    | get path =>
      have hgot := h.get env s.world path fun index s' hok => by
        obtain ⟨-, hsame, hload⟩ := heng.faithful.load hcalm hok
        exact hpresent hsame (hload index rfl)
      simp only [perform, grant]
      split <;> exact hgot
    | put path index =>
      obtain ⟨hthere, hplain⟩ := hpresent rfl htended
      have hput := h.put env s.world index hthere hplain
      simp only [perform, grant]
      split <;> exact hput
    | query id vector k =>
      simp only [perform]
      split
      · exact h
      · exact h
    | invalidate path => exact h.remove path .explicit
    | sweep => exact h.sweep _
    | poll => exact h.poll _
    | shutdown => exact h.shutdown
    | release => exact h.of_frame (Cache.frame_runRelease _)
    | drain => exact h.of_frame (Cache.frame_runReleases _ _)
    | blind => exact htended.elim
    | drift _ | share _ | drop _ | lag _ => exact h
  exact hperformed.of_frame (Cache.frame_settle _ _)

/-- What is true in every run that is tended. -/
structure Tidy (files : σ → FileTree) (calm : σ → Prop) (s : Service σ FlatIndex) : Prop where
  calm : calm s.world
  guarded : s.cache.Guarded Path.Plain
  filed : s.cache.Each fun h => h.path.Plain ∧ h.size = h.index.size

theorem Tidy.act (heng : env.Exact files metric calm)
    (hsight : env.Sighted files)
    (h : s.Tidy files calm) (htended : action.Tended files calm others s) :
    (s.act env action).2.Tidy files calm := by
  refine ⟨?_, guarded_act heng hsight h.calm h.guarded htended, ?_⟩
  · by_cases hmoves : ∃ world, action = .drift world
    · obtain ⟨world, rfl⟩ := hmoves
      exact htended.1
    · exact (world_perform heng h.calm fun world heq => hmoves ⟨world, heq⟩).1
  · refine each_act (P := fun _ h => h.path.Plain ∧ h.size = h.index.size) heng h.calm h.filed ?_
      htended fun _ _ => h.filed
    intro path index hload c
    exact ⟨FlatIndex.plain_of_load hload, heng.size index⟩

theorem not_stale_act (heng : env.Exact files metric calm) (h : s.Tidy files calm)
    (hbefore : s.cache.Each fun h => ¬ h.Stale (files s.world))
    (htended : action.Tended files calm others s) (hnone : ¬ action.Supplants files others s) :
    (s.act env action).2.cache.Each fun h => ¬ h.Stale (files (s.act env action).2.world) := by
  refine each_act (P := fun t h => ¬ h.Stale t) heng h.calm hbefore ?_ htended ?_
  · exact fun path index hload c hstale => hstale.2 hload
  · rintro world rfl e he
    obtain ⟨-, hleft | ⟨⟨path, hwrites, -⟩, hspared⟩⟩ := htended
    · exact Handle.not_stale_of_stat (hbefore e he) (hleft e he)
    · by_cases hreached : (files s.world).Reaches path e.handle.path
      · exact fun hstale => hnone ⟨path, hwrites, e, he, hreached, hstale⟩
      · exact hwrites.not_stale (h.filed e he).1 (hspared e he) hreached (hbefore e he)

/-! ## Polls -/

/-- The entries that a poll leaves are those whose file is not gone. -/
theorem Tidy.mem_poll_iff
    (hsight : env.Sighted files)
    (h : s.Tidy files calm) {e : Entry FlatIndex} :
    e ∈ (s.act env .poll).2.cache.entries ↔
      e ∈ s.cache.entries ∧ ¬ e.handle.Gone (files s.world) := by
  obtain ⟨w, hw, hguards⟩ := h.guarded
  have hentries : (s.act env .poll).2.cache.entries = s.cache.entries.filter fun e =>
      !(w.poll (env.presence s.world)).1.any (e.handle.path.sameKey ·.1) :=
    (Cache.frame_settle _ _).entries.trans (Cache.entries_poll hw _)
  rw [hentries, List.mem_filter, Bool.not_eq_true', List.any_eq_false]
  apply and_congr_right
  intro he
  have hplain := (h.filed e he).1
  constructor
  · intro hquiet hlost
    obtain ⟨watch, hwatch, hsame⟩ :=
      Watcher.isWatching_iff.mp (hguards.watching _ ⟨e, he, rfl⟩)
    have hfires : (env.presence s.world watch.1).isGone = true := by
      rw [hsight.isGone_iff, ← FileTree.stat_of_sameKey (hguards.known watch hwatch) hplain hsame]
      exact hlost
    exact hquiet watch (List.mem_filter.mpr ⟨hwatch, hfires⟩) (Path.sameKey_comm hsame)
  · intro hthere watch hfired hsame
    obtain ⟨hwatch, hfires⟩ := List.mem_filter.mp hfired
    apply hthere
    rw [Handle.Gone, ← FileTree.stat_of_sameKey hplain (hguards.known watch hwatch) hsame]
    exact hsight.isGone_iff.mp hfires

/-- The entries are current after a poll if none of them is stale. -/
theorem Tidy.current_poll_iff (hsight : env.Sighted files) (h : s.Tidy files calm) :
    (s.act env .poll).2.cache.Current (files s.world) ↔
      s.cache.Each fun h => ¬ h.Stale (files s.world) := by
  constructor
  · intro hcurrent e he hstale
    exact hstale.2 (hcurrent e ((h.mem_poll_iff hsight).mpr ⟨he, hstale.1⟩))
  · intro hnone e he
    obtain ⟨hin, hthere⟩ := (h.mem_poll_iff hsight).mp he
    by_contra hother
    exact hnone e hin ⟨hthere, hother⟩

/-! ## Runs -/

theorem Tidy.run (heng : env.Exact files metric calm) (hsight : env.Sighted files)
    {actions : List (Action σ FlatIndex)} (h : s.Tidy files calm)
    (htended : s.Throughout env (Action.Tended files calm others) actions)
    {before : List (Action σ FlatIndex)} (hbefore : before <+: actions) :
    (s.run env before).Tidy files calm := by
  induction before generalizing s actions with
  | nil => exact h
  | cons action rest ih =>
    obtain ⟨after, rfl⟩ := hbefore
    obtain ⟨hfirst, hrest⟩ := htended
    exact ih (h.act heng hsight hfirst) hrest (List.prefix_append _ _)

/-- The entries are never stale exactly if no write supplants one. -/
theorem Tidy.never_stale_iff (heng : env.Exact files metric calm) (hsight : env.Sighted files)
    {actions : List (Action σ FlatIndex)} (h : s.Tidy files calm)
    (hnow : s.cache.Each fun h => ¬ h.Stale (files s.world))
    (htended : s.Throughout env (Action.Tended files calm others) actions) :
    (∀ before, before <+: actions →
        (s.run env before).cache.Each fun h => ¬ h.Stale (files (s.run env before).world)) ↔
      s.Throughout env (fun s action => ¬ action.Supplants files others s) actions := by
  induction actions generalizing s with
  | nil =>
    refine ⟨fun _ => trivial, fun _ before hbefore => ?_⟩
    rw [List.prefix_nil.mp hbefore]
    exact hnow
  | cons action rest ih =>
    obtain ⟨hfirst, hrest⟩ := htended
    have htidy := h.act heng hsight hfirst
    constructor
    · intro hnever
      have hnext := hnever [action] ⟨rest, rfl⟩
      refine ⟨?_, (ih htidy hnext hrest).mp fun before hbefore => ?_⟩
      · -- The entries are the same before the write and after it.
        intro hsupplants
        cases action with
        | drift world =>
          obtain ⟨_, _, e, he, -, hstale⟩ := hsupplants
          have hentries := (Cache.frame_settle s.heldIds s.cache).entries
          exact hnext e (hentries.symm ▸ he) hstale
        | _ => exact hsupplants
      · exact hnever (action :: before) (List.cons_prefix_cons.mpr ⟨rfl, hbefore⟩)
    · rintro ⟨hnone, hlater⟩ before hbefore
      have hnext := not_stale_act heng h hnow hfirst hnone
      cases before with
      | nil => exact hnow
      | cons first before =>
        obtain ⟨rfl, hbefore'⟩ := List.cons_prefix_cons.mp hbefore
        exact (ih htidy hnext hrest).mpr hlater before hbefore'

theorem start_tidy (config : CacheConfig) (interval : Nat) {world : σ} (hcalm : calm world) :
    (start config (some { interval }) world).Tidy files calm := by
  refine ⟨hcalm, ⟨_, rfl, rfl, List.forall_mem_nil _, ?_⟩, List.forall_mem_nil _⟩
  rintro path ⟨e, he, -⟩
  cases he

/-- A cache with current entries is in order. -/
theorem Tidy.inOrder {config : CacheConfig} {observer : Option (Watcher Unit)} {world : σ}
    {actions : List (Action σ FlatIndex)} (h : s.Tidy files calm)
    (hrun : s = (start config observer world).run env actions)
    (hcurrent : s.cache.Current (files s.world)) :
    Cache.InOrder files calm (files s.world) config s.cache.isShutDown s.cache s.world :=
  inOrder_of_current hrun h.calm (fun e he => (h.filed e he).2) hcurrent

end Service

/-- **After a poll the cache holds what is in the files, unless a write has supplanted an entry.** In a
run that is tended, with a watcher that keeps running, this is so after every poll exactly if no write
publishes another index where a live entry leads. Whenever it is so, a search answers as it would if
the cache were emptied first. -/
theorem current_after_poll {env : Environment σ FlatIndex} {files : σ → FileTree} {metric : Metric}
    {calm : σ → Prop} (heng : env.Exact files metric calm) (hsight : env.Sighted files)
    (config : CacheConfig) (interval : Nat) (world : σ) (hcalm : calm world)
    (others : Location → Prop) (actions : List (Action σ FlatIndex))
    (htended : (Service.start config (some { interval }) world).Throughout env
      (Action.Tended files calm others) actions) :
    let start := Service.start config (some { interval }) world
    ((∀ before, before <+: actions →
        let s := start.run env (before ++ [.poll])
        s.cache.Current (files s.world)) ↔
      start.Throughout env (fun s action => ¬ action.Supplants files others s) actions) ∧
    ∀ before, before <+: actions →
      let s := start.run env (before ++ [.poll])
      s.cache.Current (files s.world) →
      ∀ (limits : QueryConfig) (segments : List Segment) (query : Query),
        (∀ segment ∈ segments, segment.Addressed) →
        (Executor.search env limits segments query s.cache s.world).1
          = (Executor.search env limits segments query s.cache.emptied s.world).1 := by
  intro start
  have htidy : start.Tidy files calm := Service.start_tidy config interval hcalm
  have hpolled : ∀ before, start.run env (before ++ [.poll])
      = ((start.run env before).act env .poll).2 := fun before => start.run_append env before [.poll]
  constructor
  · rw [← htidy.never_stale_iff heng hsight (List.forall_mem_nil _) htended]
    refine forall₂_congr fun before hbefore => ?_
    have hthere := htidy.run heng hsight htended hbefore
    rw [hpolled]
    exact hthere.current_poll_iff hsight
  · intro before hbefore s hcurrent limits segments query hsegments
    have hthere := htidy.run heng hsight htended hbefore
    have hpoll : Action.Tended files calm others (start.run env before) .poll := trivial
    have hafter := hthere.act heng hsight hpoll
    rw [← hpolled] at hafter
    have horder := hafter.inOrder rfl hcurrent
    exact Executor.InOrder.search_eq heng horder horder.emptied limits query hsegments

/-! ## Rebuilt after a poll and before one -/

namespace Rebuild

open Builders

abbrev env : Environment (FileTree × Nat) FlatIndex := Environment.flat Alias.metric

def target : SegmentTarget := ⟨⟨""⟩, "_0"⟩

def path : Path := ⟨"_0_flat1.hnsw"⟩

def segment : Segment := { directory := ⟨""⟩, name := "_0", files := ["_0_flat1.hnsw"] }

/-- What is left when the segment has been written. -/
def written (source : Source) (t : FileTree) : FileTree :=
  (source.write (run none) (some "flat1") target (t, {}, Builders.new {})).2.1

def bare : FileTree := { workingDirectory := ["w"], nodes := [(["w"], .directory)] }

@[irreducible] def first : FileTree := written (.flush [.ok (0, [0, 0, 128, 63])]) bare

@[irreducible] def cleared : FileTree := first.removeIfPossible path

@[irreducible] def second : FileTree := written (.flush [.ok (0, [0, 0, 0, 64])]) cleared

/-- The segment is written, found, deleted and written again. -/
def hasty : List (Action (FileTree × Nat) FlatIndex) :=
  [.drift (first, 0), .get path, .drift (cleared, 0), .drift (second, 0)]

/-- The same with a poll in between. -/
def patient : List (Action (FileTree × Nat) FlatIndex) :=
  [.drift (first, 0), .get path, .drift (cleared, 0), .poll, .drift (second, 0), .get path]

def start : Service (FileTree × Nat) FlatIndex := Service.start {} (some { interval := 1 }) (bare, 0)

theorem publishes_written {source : Source} {t : FileTree} (file : SidecarFile)
    (h : (source.write (run none) (some "flat1") target (t, {}, Builders.new {})).1
      = .ok (some file)) : Publishes (fun _ => False) file.path t (written source t) := by
  have hnames : Reserved (fun _ => False) file.path t := ⟨fun _ _ => id, fun _ _ => id⟩
  have hcontained : Contained (fun _ => False) (run none) file.path (t, {}, Builders.new {}) :=
    contained_of_waits (waits_run _ none) (numbered_new {}) (List.forall_mem_nil _) hnames
  exact .write hnames hcontained (Prod.ext h rfl) rfl

theorem publishes_first : Publishes (fun _ => False) path bare first := by
  unfold first
  exact publishes_written ⟨path, "_0", 1, 1⟩ (by decide +kernel)

theorem publishes_second : Publishes (fun _ => False) path cleared second := by
  unfold second
  exact publishes_written ⟨path, "_0", 1, 1⟩ (by decide +kernel)

theorem gone_of_cleared :
    ((start.act env (.drift (first, 0))).2.act env (.get path)).2.cache.Each fun h =>
      cleared.stat h.path = .error .notFound := by
  unfold Cache.Each
  decide +kernel

theorem gone_before_second :
    (((start.act env (.drift (first, 0))).2.act env (.get path)).2.act env
      (.drift (cleared, 0))).2.cache.Each fun h => cleared.stat h.path = .error .notFound := by
  unfold Cache.Each
  decide +kernel

theorem unreached_of_gone {c : Cache FlatIndex} {t : FileTree}
    (h : c.Each fun h => t.stat h.path = .error .notFound) :
    c.Each fun h => t.Reaches path h.path → h.Gone t := fun e he _ => h e he

theorem tended_hasty : start.Throughout env
    (Action.Tended Prod.fst (fun _ => True) fun _ => False) hasty := by
  refine ⟨⟨trivial, Or.inr ⟨⟨_, publishes_first, List.forall_mem_nil _⟩, fun _ _ _ _ => id⟩⟩, trivial,
    ⟨trivial, Or.inl ?_⟩, ⟨trivial, Or.inr ⟨⟨_, publishes_second, ?_⟩, fun _ _ _ _ => id⟩⟩, trivial⟩
  · exact fun e he => Or.inr (gone_of_cleared e he)
  · exact unreached_of_gone gone_before_second

theorem tended_patient : start.Throughout env
    (Action.Tended Prod.fst (fun _ => True) fun _ => False) patient := by
  refine ⟨⟨trivial, Or.inr ⟨⟨_, publishes_first, List.forall_mem_nil _⟩, fun _ _ _ _ => id⟩⟩, trivial,
    ⟨trivial, Or.inl ?_⟩, trivial,
    ⟨trivial, Or.inr ⟨⟨_, publishes_second, ?_⟩, fun _ _ _ _ => id⟩⟩, trivial, trivial⟩
  · exact fun e he => Or.inr (gone_of_cleared e he)
  · refine unreached_of_gone ?_
    unfold Cache.Each
    decide +kernel

theorem not_supplants {s : Service (FileTree × Nat) FlatIndex} {t : FileTree}
    (h : s.cache.Each fun h => t.stat h.path = .error .notFound) :
    ¬ Action.Supplants Prod.fst (fun _ => False) s (.drift (t, 0)) := by
  rintro ⟨_, -, e, he, -, hstale⟩
  exact hstale.1 (h e he)

theorem patient_supplants_none : start.Throughout env
    (fun s action => ¬ action.Supplants Prod.fst (fun _ => False) s) patient := by
  refine ⟨not_supplants (List.forall_mem_nil _), id, not_supplants gone_of_cleared, id,
    not_supplants ?_, id, trivial⟩
  unfold Cache.Each
  decide +kernel

def found (c : Cache FlatIndex) (t : FileTree) : Except Error (List Match) :=
  (Executor.search env {} [segment] Alias.query c (t, 0)).1.map fun outcome => outcome.topK 1

theorem addressed : segment.Addressed := by
  have hresolve : segment.resolve = .ok (some path) := by decide +kernel
  refine ⟨?_, fun other hother => ?_⟩
  · show ∀ name ∈ ["_0_flat1.hnsw"], '/' ∉ name.toList
    decide +kernel
  · rw [hresolve] at hother
    cases hother
    decide +kernel

/-- With a poll before the segment is written again, its new index is found. -/
theorem current_of_patient :
    start.Throughout env (Action.Tended Prod.fst (fun _ => True) fun _ => False) patient ∧
    let s := start.run env (patient ++ [.poll])
    s.cache.Current s.world.1 ∧ found s.cache s.world.1 = .ok [⟨0, ⟨0x40000000⟩⟩] ∧
    (Executor.search env {} [segment] Alias.query s.cache s.world).1
      = (Executor.search env {} [segment] Alias.query s.cache.emptied s.world).1 := by
  obtain ⟨hcurrent, hsearch⟩ := current_after_poll (Environment.flat_exact Alias.metric)
    (fun _ _ => rfl) {} 1 (bare, 0) trivial (fun _ => False) patient tended_patient
  have hnow := hcurrent.mpr patient_supplants_none patient (List.prefix_refl _)
  have hsegments : ∀ other ∈ [segment], other.Addressed := by
    intro other hother
    rw [List.mem_singleton.mp hother]
    exact addressed
  refine ⟨tended_patient, hnow, ?_, hsearch patient (List.prefix_refl _) hnow {} _ _ hsegments⟩
  decide +kernel

/-- **A segment that is written again before the poll is answered from its predecessor's index.** Its
path is watched all the time, and no file is touched by anybody but the writer and the host. -/
theorem rebuilt_before_poll :
    start.Throughout env (Action.Tended Prod.fst (fun _ => True) fun _ => False) hasty ∧
    let s := start.run env (hasty ++ [.poll])
    (∀ e ∈ s.cache.entries, s.cache.observer.any (·.isWatching e.handle.path) = true) ∧
    ¬ s.cache.Current s.world.1 ∧
    found s.cache s.world.1 = .ok [⟨0, ⟨0x3f800000⟩⟩] ∧
    found s.cache.emptied s.world.1 = .ok [⟨0, ⟨0x40000000⟩⟩] := by
  refine ⟨tended_hasty, ?_, ?_, ?_, ?_⟩
  · decide +kernel
  · unfold Cache.Current Cache.Each
    decide +kernel
  · decide +kernel
  · decide +kernel

end Rebuild

end Sidecar
