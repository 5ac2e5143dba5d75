import Sidecar.Proofs.Cache.Contents
import Sidecar.Proofs.Cache.Refusal
import Sidecar.Proofs.Cache.Weight
import Sidecar.Proofs.Search.FlatEngine
import Sidecar.Search.Executor
import Mathlib.Data.String.Basic

/-!
# The cache is not seen

A search of one segment answers what it would answer without a cache (`Executor.searchAfresh`): the
index is loaded from its file, refused if it is heavier than the budget, and queried. That the
answer does not depend on what happened before is the point of this file.

What makes it so is one property of the entries: an entry under a sidecar's path holds what a load
of that path would give, and weighs what the index weighs (`Held`). It is brought in by a load, because
the engine is exact, and by a `put`, because callers put what they have loaded; and it stays as long
as no sidecar file is changed or taken away (`FileTree.Keeps`). So no case of a request needs a
history:

* a hit answers with an entry, hence with the index in the file, and the budget admits it, because
  the whole cache is within the budget;
* a miss loads the file, and fails for the reasons for which a fresh load fails.

The path of the entry may be another spelling of the path that was asked for, and an index is loaded
by its address and found by its key. Where the two readings of a path differ the cache can be seen:
an address of 4096 bytes is too long for a load, and a key is never too long. Nor is anything found
without an attempt, and of the largest number of retries there is none. These are the two exceptions,
and `searchSegment_seen` has a run in which they show.
-/

set_option autoImplicit false

namespace Sidecar

variable {σ : Type}

/-! ## The paths of sidecars -/

namespace Path

/-- The path has the extension of a sidecar, in one of the layouts. -/
def IsSidecar (p : Path) : Prop := ∃ layout : Layout, p.extension = some layout.extension

theorem extension_of_sameKey {p q : Path} (h : p.sameKey q = true) : p.extension = q.extension := by
  have hsame : p.components = q.components := by simpa [sameKey] using h
  unfold extension fileName
  rw [hsame]

theorem IsSidecar.of_sameKey {p q : Path} (hp : p.IsSidecar) (h : q.sameKey p = true) :
    q.IsSidecar := by
  obtain ⟨layout, hlayout⟩ := hp
  exact ⟨layout, by rw [extension_of_sameKey h, hlayout]⟩

/-- The path of a sidecar, as far as a look-up by key or by address is concerned. -/
structure Proper (p : Path) : Prop where
  isSidecar : p.IsSidecar
  fileName : p.fileName.isNone = false
  nonempty : p.text.isEmpty = false
  last : p.steps.getLast? ≠ some "."
  noSlash : p.endsInSlash = false

theorem proper_join {directory : Path} {name : String} {layout : Layout}
    (hslash : '/' ∉ name.toList) (hname : Naming.isSidecarName name layout = true) : (directory.join name).Proper := by
  have hextension : (Path.mk name).extension = some layout.extension := by
    simpa [Naming.isSidecarName] using hname
  have hempty : name ≠ "" := by
    rintro rfl
    exact absurd hextension (by cases layout <;> decide)
  have hdot : name ≠ "." := by
    rintro rfl
    exact absurd hextension (by cases layout <;> decide)
  have hup : name ≠ ".." := by
    rintro rfl
    exact absurd hextension (by cases layout <;> decide)
  have hlast := getLast_steps_join directory hslash hempty
  have hjoined := fileName_of_last hlast hdot hup
  have halone : (Path.mk name).fileName = some name := by
    apply fileName_of_last _ hdot hup
    simp [steps, pieces_of_no_slash hslash, hempty]
  refine ⟨⟨layout, ?_⟩, by rw [hjoined]; rfl, ?_, ?_, endsInSlash_join directory hslash hempty⟩
  · rw [← hextension, extension, extension, hjoined, halone]
  · rw [Bool.eq_false_iff]
    intro hnone
    rw [steps, String.isEmpty_iff.mp hnone] at hlast
    simp [pieces] at hlast
  · rw [hlast]
    simpa using hdot

end Path

theorem Segment.proper_of_resolve {segment : Segment} {path : Path}
    (hnames : ∀ name ∈ segment.files, '/' ∉ name.toList)
    (h : segment.resolve = .ok (some path)) : path.Proper := by
  unfold resolve at h
  split at h
  · cases h
  · next name hfiles =>
    cases h
    have hname : name ∈ segment.files.filter (Naming.isSidecarName · segment.layout) := by
      rw [hfiles]
      exact List.mem_singleton_self name
    rw [List.mem_filter] at hname
    exact Path.proper_join (hnames name hname.1) hname.2
  · cases h

/-! ## Loading afresh -/

namespace FlatIndex

/-- Loads a file, unless its index is heavier than the budget. -/
def loadWithin (files : FileTree) (budget : Option Nat) (path : Path) : Except Error FlatIndex :=
  match FlatIndex.load files path with
  | .error e => .error e
  | .ok index => match budget.filter (· < index.size) with
    | some budget => .error (.weightBudgetExceeded path.text index.size budget)
    | none => .ok index

theorem load_of_sameKey {files : FileTree} {p q : Path} {index : FlatIndex} (hq : q.Proper)
    (hshort : q.text.utf8ByteSize < 4096) (hkey : p.sameKey q = true)
    (h : FlatIndex.load files p = .ok index) : FlatIndex.load files q = .ok index := by
  obtain ⟨loc, content, hplaces, hnode, hdecode⟩ := load_eq_ok_iff.mp h
  have hplaces' := hplaces.of_sameKey hkey hq.last hq.noSlash hshort
  exact load_eq_ok_iff.mpr ⟨loc, content, hplaces', hnode, hdecode⟩

theorem error_of_nearest {metric : Metric} {index : FlatIndex} {vector : Embedding} {k : Nat}
    {e : Error} (h : index.nearest metric vector k = .error e) :
    e = .dimensionMismatch index.dimension vector.length := by
  rw [nearest] at h
  split at h
  · cases h
    rfl
  · cases h

end FlatIndex

/-- Searches a segment without a cache. -/
def Executor.searchAfresh (files : FileTree) (metric : Metric) (budget : Option Nat)
    (config : QueryConfig) (segment : Segment) (query : Query) : Except Error Scorer :=
  match checkK config query with
  | .error e => .error e
  | .ok () => match segment.resolve with
    | .error e => .error e
    | .ok none => .ok .empty
    | .ok (some path) => match FlatIndex.loadWithin files budget path with
      | .error e => .error e
      | .ok index => match index.nearest metric query.vector query.k with
        | .error e => .error (asQueryFailure path e)
        | .ok results => .ok (.ofResults results)

/-! ## Undisturbed runs -/

/-- No sidecar is changed or removed: a sidecar's path from which an index can be loaded goes on
giving that index. Files may be added, and whatever is no sidecar may change. -/
def FileTree.Keeps (t t' : FileTree) : Prop :=
  ∀ path index, path.IsSidecar → FlatIndex.load t path = .ok index →
    FlatIndex.load t' path = .ok index

/-- The handle has the weight of its index and, under a sidecar's path, the index of that path. -/
structure Held (t : FileTree) (h : Handle FlatIndex) : Prop where
  size : h.size = h.index.size
  loaded : h.path.IsSidecar → FlatIndex.load t h.path = .ok h.index

theorem Held.keeps {t t' : FileTree} {h : Handle FlatIndex} (hh : Held t h) (hk : t.Keeps t') :
    Held t' h :=
  ⟨hh.size, fun hsidecar => hk _ _ hsidecar (hh.loaded hsidecar)⟩

section Run

variable {env : Environment σ FlatIndex} {files : σ → FileTree} {metric : Metric} {calm : σ → Prop}

/-- What the action does to the world leaves the sidecars alone, and what it puts under a sidecar's
path is the index of that path. An index that was loaded earlier is one: nothing changed since. -/
def Action.Undisturbing (files : σ → FileTree) (calm : σ → Prop) (world : σ) :
    Action σ FlatIndex → Prop
  | .drift world' => calm world' ∧ (files world).Keeps (files world')
  | .put path index => path.IsSidecar → FlatIndex.load (files world) path = .ok index
  | _ => True

/-- No action of the run disturbs the sidecars. -/
def Service.Undisturbed (env : Environment σ FlatIndex) (files : σ → FileTree) (calm : σ → Prop) :
    List (Action σ FlatIndex) → Service σ FlatIndex → Prop
  | [], _ => True
  | action :: rest, s =>
    action.Undisturbing files calm s.world ∧ Undisturbed env files calm rest (s.act env action).2

/-- The world is calm, and the entries are held in its files. -/
structure Settled (files : σ → FileTree) (calm : σ → Prop) (c : Cache FlatIndex) (world : σ) :
    Prop where
  calm : calm world
  held : c.Each (Held (files world))

theorem held_nextHandle (heng : env.Exact files metric calm) {s : σ} (hcalm : calm s) {path : Path}
    {index : FlatIndex} {s' : σ} (hload : env.load path s = (.ok index, s'))
    (c : Cache FlatIndex) : Held (files s) (c.nextHandle env path index) := by
  refine ⟨heng.size index, fun _ => ?_⟩
  exact (heng.faithful.load hcalm hload).2.2 index rfl

/-- A request leaves the files alone. -/
theorem Cache.calm_get (heng : env.Exact files metric calm) {s : σ} (hcalm : calm s)
    (c : Cache FlatIndex) (path : Path) :
    calm (c.get env path s).2.2 ∧ files (c.get env path s).2.2 = files s := by
  rcases Cache.world_get (c := c) env s path with hworld | hworld
  · rw [hworld]
    exact ⟨hcalm, rfl⟩
  · have hload : env.load path s = ((env.load path s).1, (env.load path s).2) := rfl
    obtain ⟨hcalm', hfiles, -⟩ := heng.faithful.load hcalm hload
    rw [hworld]
    exact ⟨hcalm', hfiles⟩

theorem Settled.get (heng : env.Exact files metric calm) {c : Cache FlatIndex} {s : σ}
    (h : Settled files calm c s) (path : Path) :
    Settled files calm (c.get env path s).2.1 (c.get env path s).2.2 ∧
      files (c.get env path s).2.2 = files s := by
  have hworld := Cache.calm_get heng h.calm c path
  have hheld := h.held.get env s path fun index s' => held_nextHandle heng h.calm
  rw [← hworld.2] at hheld
  exact ⟨⟨hworld.1, hheld⟩, hworld.2⟩

theorem Settled.perform (heng : env.Exact files metric calm) {s : Service σ FlatIndex}
    (h : Settled files calm s.cache s.world) {action : Action σ FlatIndex}
    (hquiet : action.Undisturbing files calm s.world) :
    Settled files calm (s.perform env action).2.cache (s.perform env action).2.world := by
  cases action with
  | get path =>
    have hgot := (h.get heng path).1
    simp only [Service.perform, Service.grant]
    split <;> exact hgot
  | put path index =>
    have hheld := h.held.put env s.world path index ⟨heng.size index, hquiet⟩
    simp only [Service.perform, Service.grant]
    split <;> exact ⟨h.calm, hheld⟩
  | query id vector k =>
    simp only [Service.perform]
    split
    · exact h
    · next handle _ =>
      unfold Cache.query
      split
      · exact h
      · obtain ⟨s', hquery, hcalm, hfiles⟩ := heng.query handle.index vector k h.calm
        simp only [hquery]
        refine ⟨hcalm, ?_⟩
        rw [hfiles]
        exact h.held
  | invalidate path => exact ⟨h.calm, h.held.remove path .explicit⟩
  | sweep => exact ⟨h.calm, h.held.sweep _⟩
  | poll => exact ⟨h.calm, h.held.poll _⟩
  | shutdown => exact ⟨h.calm, h.held.shutdown⟩
  | release => exact ⟨h.calm, h.held.of_entries (Cache.frame_runRelease _).entries⟩
  | drain => exact ⟨h.calm, h.held.of_entries (Cache.frame_runReleases _ _).entries⟩
  | drift world =>
    obtain ⟨hcalm, hkeeps⟩ := hquiet
    exact ⟨hcalm, fun e he => (h.held e he).keeps hkeeps⟩
  | share _ | drop _ => exact h
  | lag _ | blind => exact ⟨h.calm, h.held⟩

theorem Settled.run (heng : env.Exact files metric calm) {actions : List (Action σ FlatIndex)}
    {s : Service σ FlatIndex} (h : Settled files calm s.cache s.world)
    (hquiet : Service.Undisturbed env files calm actions s) :
    Settled files calm (s.run env actions).cache (s.run env actions).world := by
  induction actions generalizing s with
  | nil => exact h
  | cons action rest ih =>
    obtain ⟨hfirst, hrest⟩ := hquiet
    have hperformed := h.perform heng hfirst
    have hacted : Settled files calm (s.act env action).2.cache (s.act env action).2.world :=
      ⟨hperformed.calm, hperformed.held.of_entries (Cache.frame_settle _ _).entries⟩
    exact ih hacted hrest

/-! ## One request -/

namespace Cache

variable {c c' : Cache FlatIndex} {s s' : σ} {path : Path}

/-- A request for a sidecar answers as a fresh load, whether it is a hit or a miss, if the entry of the
path is held in its file. -/
theorem get_eq_loadWithin_of_held (heng : env.Exact files metric calm) (hcalm : calm s)
    (hheld : c.Each fun h => h.path.sameKey path = true → Held (files s) h)
    (hsound : c.Sound) (hwithin : c.WithinBudget) (hopen : c.isShutDown = false)
    (hpath : path.Proper) (hshort : path.text.utf8ByteSize < 4096) :
    (c.get env path s).1.map Handle.index
      = FlatIndex.loadWithin (files s) c.config.weightBudget path := by
  have hkey : validateKey path = .ok () := by
    simp [validateKey, hpath.nonempty, hpath.fileName]
  rcases hget : c.get env path s with ⟨e | h, c', s'⟩
  · unfold FlatIndex.loadWithin
    obtain ⟨s₂, hexact, -, -⟩ := heng.load path hcalm
    rcases error_of_get hopen hkey hget with ⟨s₁, hload⟩ |
      ⟨index, s₁, budget, hload, hbudget, hheavy, rfl⟩
    · rw [hexact] at hload
      rw [(Prod.mk.inj hload).1]
      rfl
    · rw [hexact] at hload
      rw [heng.size] at hheavy ⊢
      simp [(Prod.mk.inj hload).1, hbudget, Option.filter, hheavy, Except.map]
  · obtain ⟨hheld, hsame⟩ := Each.of_get env s hheld
      (fun index s' hload c _ => held_nextHandle heng hcalm hload c) hget
    replace hheld : Held (files s) h := hheld hsame
    have hload := FlatIndex.load_of_sameKey hpath hshort hsame
      (hheld.loaded (hpath.isSidecar.of_sameKey hsame))
    have hmoves : Moves ⟨c, [], 0⟩ ⟨c', [], 0⟩ := by
      have hmoves := get_moves (p := []) (n := 0) env path s hsound
      rwa [hget] at hmoves
    have hlight : c.config.weightBudget.filter (· < h.index.size) = none := by
      rw [Option.filter_eq_none_iff]
      intro budget hbudget
      obtain ⟨e, he, rfl⟩ := Service.mem_of_live (s := ⟨c', s', [], []⟩) (live_of_get env hget)
      have hle := (Moves.sound hmoves hsound).size_le he
      have hfits := hmoves.preserve (P := fun t => t.cache.WithinBudget) Move.withinBudget hwithin
      have hbudget' : c'.config.weightBudget = some budget := by
        rw [Moves.config hmoves]
        exact hbudget
      have := hfits budget hbudget'
      rw [hheld.size] at hle
      simp only [decide_eq_true_eq]
      omega
    simp [FlatIndex.loadWithin, hload, hlight, Except.map]

theorem get_eq_loadWithin (heng : env.Exact files metric calm) (hsettled : Settled files calm c s)
    (hsound : c.Sound) (hwithin : c.WithinBudget) (hopen : c.isShutDown = false)
    (hpath : path.Proper) (hshort : path.text.utf8ByteSize < 4096) :
    (c.get env path s).1.map Handle.index
      = FlatIndex.loadWithin (files s) c.config.weightBudget path :=
  get_eq_loadWithin_of_held heng hsettled.calm (fun e he _ => hsettled.held e he) hsound hwithin
    hopen hpath hshort

/-- A handle that was just handed out is live, so a query of it reaches the engine. -/
theorem query_of_granted {ι : Type} {env : Environment σ ι} {c c' : Cache ι} {s s' : σ} {path : Path}
    {h : Handle ι} (hsound : c.Sound) {n : Nat} (hledger : Stage.Ledger ⟨c, [], n⟩)
    (hget : c.get env path s = (.ok h, c', s')) (vector : Embedding) (k : Nat) :
    c'.query env h vector k s' = env.query h.index vector k s' := by
  have hmoves : Moves ⟨c, [], n⟩ ⟨c', [], n⟩ := by
    have hmoves := get_moves (p := []) (n := n) env path s hsound
    rwa [hget] at hmoves
  have hconsistent : Service.Consistent (⟨c', s', [], []⟩ : Service σ ι) n :=
    ⟨Moves.sound hmoves hsound, Moves.ledger hmoves hsound hledger, nofun⟩
  have husable := hconsistent.usable (live_of_get env hget)
  have hvalid : c'.isInvalidated h = false := husable.valid
  have hkept : c'.isReleased h = false := husable.kept
  rw [Cache.query, hvalid, hkept]
  rfl

theorem query_of_calm_get (heng : env.Exact files metric calm) (hcalm : calm s) (hsound : c.Sound)
    {n : Nat} (hledger : Stage.Ledger ⟨c, [], n⟩) {h : Handle FlatIndex}
    (hget : c.get env path s = (.ok h, c', s')) (vector : Embedding) (k : Nat) :
    ∃ s'', c'.query env h vector k s' = (h.index.nearest metric vector k, s'') ∧
      calm s'' ∧ files s'' = files s' := by
  have hcalm' : calm s' := by
    have hgot := (calm_get heng hcalm c path).1
    rwa [hget] at hgot
  obtain ⟨s'', hquery, hafter⟩ := heng.query h.index vector k hcalm'
  exact ⟨s'', by rw [query_of_granted hsound hledger hget, hquery], hafter⟩

theorem query_of_get (heng : env.Exact files metric calm) (hsettled : Settled files calm c s)
    (hsound : c.Sound) {n : Nat} (hledger : Stage.Ledger ⟨c, [], n⟩) {h : Handle FlatIndex}
    (hget : c.get env path s = (.ok h, c', s')) (vector : Embedding) (k : Nat) :
    ∃ s'', c'.query env h vector k s' = (h.index.nearest metric vector k, s'') :=
  (query_of_calm_get heng hsettled.calm hsound hledger hget vector k).imp fun _ h => h.1

end Cache

/-! ## Every search -/

/-- **A search of a segment does not show that there is a cache.** In a run that does not disturb
the sidecars, whatever its actions are, an open cache answers as loading the file afresh does, for
every segment whose sidecar has an address and every number of retries but the largest. A search by
somebody else is a `get`, some queries and a `drop`. -/
theorem searchSegment_eq_searchAfresh (heng : env.Exact files metric calm) (config : CacheConfig)
    (observer : Option (Watcher Unit)) (world : σ) (hcalm : calm world)
    (actions : List (Action σ FlatIndex))
    (hquiet : Service.Undisturbed env files calm actions (Service.start config observer world)) :
    let s := (Service.start config observer world).run env actions
    s.cache.isShutDown = false →
    ∀ (limits : QueryConfig) (segment : Segment) (query : Query),
      limits.evictionRetries + 1 < UInt64.size →
      (∀ name ∈ segment.files, '/' ∉ name.toList) →
      (∀ path, segment.resolve = .ok (some path) → path.text.utf8ByteSize < 4096) →
      (Executor.searchSegment env limits segment query s.cache s.world).1
        = Executor.searchAfresh (files s.world) metric config.weightBudget limits segment
          query := by
  intro s hopen limits segment query hretries hnames hshort
  have hempty : (Cache.new config observer).Each (Held (files world)) := List.forall_mem_nil _
  have hstart : Settled files calm (Cache.new config observer) world := ⟨hcalm, hempty⟩
  have hsettled : Settled files calm s.cache s.world := Settled.run heng (s := Service.start config observer world) hstart hquiet
  have hsound := Service.start_sound (ι := FlatIndex) config observer world
  have hledger := Service.run_ledger env actions hsound (Service.start_ledger config observer world)
  have hmoves := Service.run_moves env actions hsound 0
  have hwithin : s.cache.WithinBudget :=
    hmoves.preserve (P := fun t => t.cache.WithinBudget) Move.withinBudget fun _ _ => Nat.zero_le _
  have hconfig : s.cache.config = config := Moves.config hmoves
  replace hsound : s.cache.Sound := Moves.sound hmoves hsound
  unfold Executor.searchSegment Executor.searchAfresh
  cases Executor.checkK limits query with
  | error e => rfl
  | ok _ =>
    rcases hresolve : segment.resolve with e | _ | path
    · rfl
    · rfl
    · have hproper := Segment.proper_of_resolve hnames hresolve
      have hget := Cache.get_eq_loadWithin heng hsettled hsound hwithin hopen hproper
        (hshort path hresolve)
      rw [hconfig] at hget
      simp only [Executor.queryPath, Executor.attempts_eq hretries, Executor.attempt]
      rcases hcase : s.cache.get env path s.world with ⟨e | h, c', s'⟩
      · rw [hcase] at hget
        simp only [← hget, Except.map]
      · obtain ⟨s'', hquery⟩ := Cache.query_of_get heng hsettled hsound hledger hcase query.vector
          query.k
        rw [hcase] at hget
        simp only [hquery, ← hget, Except.map]
        cases hnearest : h.index.nearest metric query.vector query.k with
        | ok results => rfl
        | error e =>
          rw [FlatIndex.error_of_nearest hnearest]

end Run

/-! ## A path that is too long for a load -/

/-- A path that is too long cannot be loaded. -/
theorem FlatIndex.load_of_long (files : FileTree) {path : Path} (hnul : '\x00' ∉ path.text.toList)
    (hnonempty : path.text.isEmpty = false) (hlong : 4096 ≤ path.text.utf8ByteSize) :
    FlatIndex.load files path = .error (.loadFailed path.text FileError.nameTooLong.message) := by
  have hmap : files.map path = .error .nameTooLong := by
    rw [FileTree.map, FileTree.stat_of_long hnul hnonempty hlong]
    rfl
  rw [FlatIndex.load, hmap]

namespace Alias

def bytes : Bytes := FlatIndex.encode [0] [[⟨3⟩]]

def index : FlatIndex := ⟨bytes, 1, 1⟩

def files : FileTree where
  workingDirectory := ["w"]
  nodes := [(["w"], .directory), (["w", "d"], .directory), (["w", "d", "x.hnsw"], .file bytes)]

/-- The segment of the directory `d`, which is written with some slashes more. -/
def segment (slashes : Nat) : Segment :=
  { directory := ⟨String.ofList ('d' :: List.replicate slashes '/')⟩, name := "x"
    files := ["x.hnsw", "x.doc"] }

def query : Query :=
  { field := "w", vector := [⟨1⟩], k := 3, field_ne := rfl, vector_ne := rfl, finite := rfl,
    k_pos := by decide }

/-- The distance is the first component, whatever the query is. -/
def metric : Metric := fun stored _ => Binary32.decode (stored.take 4)

abbrev env : Environment (FileTree × Nat) FlatIndex := Environment.flat metric

/-- The sidecar is put under one spelling of its path, and some time later it is asked for under
another. -/
def actions : List (Action (FileTree × Nat) FlatIndex) :=
  [.put ⟨"d//x.hnsw"⟩ index, .drift (files, 7), .get ⟨"d/./x.hnsw"⟩]

def service : Service (FileTree × Nat) FlatIndex :=
  (Service.start {} none (files, 0)).run env actions

theorem undisturbed : Service.Undisturbed env Prod.fst (fun _ => True) actions
    (Service.start {} none (files, 0)) := by
  refine ⟨fun _ => ?_, ⟨trivial, fun _ _ _ h => h⟩, trivial, trivial⟩
  decide +kernel

def path (slashes : Nat) : Path :=
  ⟨String.ofList ('d' :: List.replicate slashes '/') ++ "x.hnsw"⟩

variable {n : Nat}

theorem toList_path (n : Nat) :
    (path n).text.toList = 'd' :: List.replicate n '/' ++ "x.hnsw".toList := by
  rw [path, String.toList_append, String.toList_ofList]

theorem resolve_segment : (segment (n + 1)).resolve = .ok (some (path (n + 1))) := by
  have hfiles : (segment (n + 1)).files.filter (Naming.isSidecarName · (segment (n + 1)).layout)
      = ["x.hnsw"] := by
    show ["x.hnsw", "x.doc"].filter (Naming.isSidecarName · .regular) = ["x.hnsw"]
    decide +kernel
  have habsolute : (Path.mk "x.hnsw").isAbsolute = false := by decide +kernel
  have hslash : (segment (n + 1)).directory.endsInSlash = true := by
    unfold segment Path.endsInSlash
    rw [String.toList_ofList, List.replicate_succ', ← List.cons_append, List.getLast?_concat]
    rfl
  rw [Segment.resolve, hfiles]
  simp only [Path.join, habsolute, hslash, Bool.or_true, if_true, Bool.false_eq_true, if_false]
  rfl

theorem components_path (n : Nat) : (path (n + 1)).components = [.name "d", .name "x.hnsw"] := by
  have htext : (path (n + 1)).text.toList
      = ['d'] ++ '/' :: (List.replicate n '/' ++ "x.hnsw".toList) := by
    rw [toList_path, List.replicate_succ]
    rfl
  have hsteps : (path (n + 1)).steps = ["d", "x.hnsw"] := by
    rw [Path.steps, htext, Path.pieces_append_slash, List.filter_append, Path.filter_pieces_slashes]
    decide +kernel
  have habsolute : (path (n + 1)).isAbsolute = false := by
    rw [Path.isAbsolute, htext]
    rfl
  simp [Path.components, hsteps, habsolute, Path.Component.ofStep?]

theorem load_path (h : 4096 ≤ n) : FlatIndex.load files (path n)
    = .error (.loadFailed (path n).text FileError.nameTooLong.message) := by
  have hnul : '\x00' ∉ (path n).text.toList := by
    rw [toList_path]
    simp
  have hnonempty : (path n).text.isEmpty = false := by
    simp [path]
  have hlong : 4096 ≤ (path n).text.utf8ByteSize := by
    have htext : (path n).text = (Path.slashed "d" n).text ++ "x.hnsw" := by
      rw [path, Path.slashed, String.ofList_cons]
      rfl
    rw [htext, String.utf8ByteSize_append, Path.utf8ByteSize_slashed]
    omega
  exact FlatIndex.load_of_long files hnul hnonempty hlong

theorem searchAfresh_path (h : 4096 ≤ n) :
    Executor.searchAfresh files metric none {} (segment (n + 1)) query
      = .error (.loadFailed (path (n + 1)).text FileError.nameTooLong.message) := by
  have hk : Executor.checkK {} query = .ok () := by decide
  have hlong : 4096 ≤ n + 1 := by omega
  simp [Executor.searchAfresh, hk, resolve_segment, FlatIndex.loadWithin, load_path hlong]

theorem lookup_path (c : Cache FlatIndex) (n now : Nat) :
    c.lookup now (path (n + 1)) = c.lookup now ⟨"d/x.hnsw"⟩ := by
  have hsame : (path (n + 1)).components = (Path.mk "d/x.hnsw").components := by
    rw [components_path]
    decide +kernel
  simp only [Cache.lookup, Cache.entry?, Path.sameKey, hsame]

/-- What is found under the key is found under every path with this key, however long it is. -/
theorem searchSegment_of_found {c : Cache FlatIndex} {s : FileTree × Nat} {results : List Match}
    (hopen : c.isShutDown = false)
    (hfound : ((c.lookup s.2 ⟨"d/x.hnsw"⟩).1.map fun h =>
      ((c.lookup s.2 ⟨"d/x.hnsw"⟩).2.query env h query.vector query.k s).1) = some (.ok results))
    (n : Nat) :
    (Executor.searchSegment env {} (segment (n + 1)) query c s).1 = .ok (.ofResults results) := by
  have hkey : Cache.validateKey (path (n + 1)) = .ok () := by
    simp only [Cache.validateKey, Path.fileName, components_path]
    simp [path]
  have hnow : env.now s = s.2 := rfl
  rcases hlookup : c.lookup s.2 ⟨"d/x.hnsw"⟩ with ⟨_ | h, c'⟩
  · rw [hlookup] at hfound
    cases hfound
  · rw [hlookup, Option.map_some, Option.some.injEq] at hfound
    have hget : c.get env (path (n + 1)) s
        = (.ok h, { c' with tally := { c'.tally with hits := c'.tally.hits + 1 } }, s) := by
      simp [Cache.get, Cache.request, hopen, hkey, hnow, lookup_path, hlookup]
    rcases hresult : c'.query env h query.vector query.k s with ⟨result, s'⟩
    rw [hresult] at hfound
    subst hfound
    have hquery : Cache.query env h query.vector query.k
        { c' with tally := { c'.tally with hits := c'.tally.hits + 1 } } s
          = (.ok results, s') := hresult
    have hk : Executor.checkK {} query = .ok () := by decide
    simp [Executor.searchSegment, hk, resolve_segment, Executor.queryPath, Executor.attempt, hget,
      hquery]

theorem searchSegment_path (n : Nat) :
    (Executor.searchSegment env {} (segment (n + 1)) query service.cache service.world).1
      = .ok (.ofResults [⟨0, ⟨3⟩⟩]) :=
  searchSegment_of_found rfl (by decide +kernel) n

end Alias

/-- With the largest number of retries no attempt is made, so nothing is found. -/
theorem Executor.searchSegment_of_no_attempt (env : Environment σ FlatIndex) {limits : QueryConfig}
    {segment : Segment} (query : Query) (c : Cache FlatIndex) (s : σ) {path : Path}
    (hnone : attempts limits = 0) (hk : checkK limits query = .ok ())
    (hresolve : segment.resolve = .ok (some path)) :
    (searchSegment env limits segment query c s).1 = .error (.evictionRace path.text 0) := by
  simp only [searchSegment, hk, hresolve, queryPath, hnone, attempt]

/-- The cache is not seen in any run over the files, for the limits and segments that are meant. -/
def Alias.Unseen (meant : QueryConfig → Segment → Prop) : Prop :=
  ∀ actions : List (Action (FileTree × Nat) FlatIndex),
    Service.Undisturbed Alias.env Prod.fst (fun _ => True) actions
      (Service.start {} none (Alias.files, 0)) →
    let s := (Service.start {} none (Alias.files, 0)).run Alias.env actions
    s.cache.isShutDown = false → ∀ (limits : QueryConfig) (segment : Segment) (query : Query),
      meant limits segment → (∀ name ∈ segment.files, '/' ∉ name.toList) →
      (Executor.searchSegment Alias.env limits segment query s.cache s.world).1
        = Executor.searchAfresh s.world.1 Alias.metric none limits segment query

/-- The cache is seen by whoever writes a path with 4100 slashes, and by whoever has the largest
number of retries: neither condition can be left out. -/
theorem searchSegment_seen :
    ¬ Alias.Unseen (fun limits _ => limits.evictionRetries + 1 < UInt64.size) ∧
    ¬ Alias.Unseen (fun _ segment => ∀ path, segment.resolve = .ok (some path) →
      path.text.utf8ByteSize < 4096) := by
  have hnames (slashes : Nat) : ∀ name ∈ (Alias.segment slashes).files, '/' ∉ name.toList := by
    show ∀ name ∈ ["x.hnsw", "x.doc"], '/' ∉ name.toList
    decide +kernel
  refine ⟨fun h => ?_, fun h => ?_⟩
  · have heq := h Alias.actions Alias.undisturbed rfl {} (Alias.segment 4100) Alias.query
      (by decide) (hnames 4100)
    have hcached := Alias.searchSegment_path 4099
    have hafresh := Alias.searchAfresh_path (n := 4099) (by decide)
    cases hcached.symm.trans (heq.trans hafresh)
  · have hshort : ∀ path, (Alias.segment 1).resolve = .ok (some path) →
        path.text.utf8ByteSize < 4096 := by
      intro path hpath
      rw [Alias.resolve_segment] at hpath
      cases hpath
      decide +kernel
    have hnone : Executor.attempts { evictionRetries := 18446744073709551615 } = 0 := rfl
    have heq := h Alias.actions Alias.undisturbed rfl { evictionRetries := 18446744073709551615 }
      (Alias.segment 1) Alias.query hshort (hnames 1)
    have hcached := Executor.searchSegment_of_no_attempt Alias.env Alias.query Alias.service.cache
      Alias.service.world hnone rfl (Alias.resolve_segment (n := 0))
    have hafresh : (Executor.searchAfresh Alias.files Alias.metric none
        { evictionRetries := 18446744073709551615 } (Alias.segment 1) Alias.query).isOk = true := by
      decide +kernel
    have hfails := congrArg Except.isOk (hcached.symm.trans heq)
    cases hfails.trans hafresh

/-- Written in any of the shorter ways, the path leads to the same answer with and without. -/
theorem searchSegment_of_alias :
    Service.Undisturbed Alias.env Prod.fst (fun _ => True) Alias.actions
      (Service.start {} none (Alias.files, 0)) ∧
    Alias.service.cache.isShutDown = false ∧
    (∀ name ∈ (Alias.segment 3).files, '/' ∉ name.toList) ∧
    (∀ path, (Alias.segment 3).resolve = .ok (some path) → path.text.utf8ByteSize < 4096) ∧
    Executor.searchAfresh Alias.files Alias.metric none {} (Alias.segment 3) Alias.query
      = .ok (.ofResults [⟨0, ⟨3⟩⟩]) := by
  have hnames : ∀ name ∈ (Alias.segment 3).files, '/' ∉ name.toList := by decide +kernel
  have hshort : ∀ path, (Alias.segment 3).resolve = .ok (some path) →
      path.text.utf8ByteSize < 4096 := by
    intro path hpath
    rw [Alias.resolve_segment] at hpath
    cases hpath
    decide +kernel
  have heq := searchSegment_eq_searchAfresh (Environment.flat_exact Alias.metric) {} none
    (Alias.files, 0) trivial Alias.actions Alias.undisturbed rfl {} (Alias.segment 3) Alias.query
    (by decide) hnames hshort
  refine ⟨Alias.undisturbed, rfl, hnames, hshort, ?_⟩
  have hcached := Alias.searchSegment_path 2
  exact heq.symm.trans hcached

end Sidecar
