import Sidecar.Proofs.Cache.WatchTable
import Sidecar.Proofs.Search.Afresh
import Sidecar.Proofs.Search.Verdict
import Sidecar.Proofs.Writer.Sealed

/-!
# Searching a packed segment

When a segment is packed its sidecar is copied to a twin, and from then on the segment is searched by
the twin. What is found is what was found before (`prepareCompound_twins`), because a search of a
segment whose sidecar is not cached answers from the bytes at one path
(`Executor.searchSegment_of_uncached`), and the bytes are the same. Only a failure tells the path, so
a search by the twin fails as one by the sidecar does, but for the path that it names (`Error.about`).

That the sidecar is not cached is needed: an entry may hold what its file held some time ago. And two
things are needed beside it. To prepare a segment again the twins have to be open for writing, and they
are sealed if the sidecars are. And who searches by another spelling of the directory may come to a
path that is too long for the twin, though not for the sidecar (`prepareCompound_undone`).

As everywhere, the files are in a tree without links. Were the twin a link to its sidecar, the copy
would empty both.
-/

set_option autoImplicit false

namespace Sidecar

variable {σ : Type}

/-- The same failure, of another path. -/
def Error.about (path : String) : Error → Error
  | buildFailed _ reason => buildFailed path reason
  | buildTimeout _ milliseconds => buildTimeout path milliseconds
  | buildRejected _ => buildRejected path
  | loadFailed _ reason => loadFailed path reason
  | queryFailed _ reason => queryFailed path reason
  | handleInvalidated _ => handleInvalidated path
  | evictionRace _ attempts => evictionRace path attempts
  | weightBudgetExceeded _ size budget => weightBudgetExceeded path size budget
  | watcherRegistration _ reason => watcherRegistration path reason
  | other => other

section Contents

variable {t : FileTree} {p q : Path} {content : Bytes}
  (hp : t.stat p = .ok (.file content)) (hq : t.stat q = .ok (.file content))

include hp hq

theorem FlatIndex.load_of_stat :
    FlatIndex.load t q = (FlatIndex.load t p).mapError (Error.about q.text) := by
  have hmap := FileTree.map_eq_ok_iff.mpr hp
  have hmap' := FileTree.map_eq_ok_iff.mpr hq
  unfold FlatIndex.load
  simp only [hmap, hmap']
  cases decode content <;> rfl

theorem FlatIndex.loadWithin_of_stat (budget : Option Nat) :
    FlatIndex.loadWithin t budget q
      = (FlatIndex.loadWithin t budget p).mapError (Error.about q.text) := by
  unfold FlatIndex.loadWithin
  rw [load_of_stat hp hq]
  cases FlatIndex.load t p with
  | error e => rfl
  | ok index =>
    simp only [Except.mapError]
    split <;> rfl

theorem Executor.answer_of_stat (metric : Metric) (config : CacheConfig) (limits : QueryConfig)
    (shut : Bool) (query : Query) : answer t metric config limits shut q query
      = (answer t metric config limits shut p query).mapError (Error.about q.text) := by
  unfold answer
  rw [FlatIndex.loadWithin_of_stat hp hq]
  by_cases hnone : attempts limits = 0
  · rw [if_pos hnone, if_pos hnone]
    rfl
  rw [if_neg hnone, if_neg hnone]
  cases shut with
  | true => rfl
  | false =>
    cases FlatIndex.loadWithin t config.weightBudget p with
    | error e => rfl
    | ok index =>
      simp only [Except.mapError]
      cases hnearest : index.nearest metric query.vector query.k with
      | ok results => rfl
      | error e =>
        rw [FlatIndex.error_of_nearest hnearest]
        rfl

end Contents

section Search

variable {env : Environment σ FlatIndex} {files : σ → FileTree} {metric : Metric} {calm : σ → Prop}

theorem Segment.resolve_singleton {segment : Segment} {name : String}
    (hfiles : segment.files = [name]) (hname : Naming.isSidecarName name segment.layout = true) :
    segment.resolve = .ok (some (segment.directory.join name)) := by
  simp [resolve, hfiles, hname]

/-- The answer for a segment whose sidecar is not cached is that for its path. -/
theorem Executor.searchSegment_of_uncached (heng : env.Exact files metric calm)
    {config : CacheConfig} {observer : Option (Watcher Unit)} {world : σ}
    {actions : List (Action σ FlatIndex)} {s : Service σ FlatIndex}
    (hrun : s = (Service.start config observer world).run env actions) (hcalm : calm s.world)
    (limits : QueryConfig) (query : Query) {segment : Segment} {path : Path}
    (hresolve : segment.resolve = .ok (some path)) (hproper : path.Proper)
    (hshort : path.text.utf8ByteSize < 4096) (huncached : s.cache.contains path = false) :
    (searchSegment env limits segment query s.cache s.world).1
      = (checkK limits query).bind fun _ =>
        (answer (files s.world) metric config limits s.cache.isShutDown path query).map
          .ofResults := by
  obtain ⟨hsound, hwithin, ⟨n, hledger⟩, hconfig⟩ := Service.books_of_run hrun
  have hheld : s.cache.Each fun h => h.path.sameKey path = true → Held (files s.world) h := by
    intro e he hsame
    rw [Bool.eq_false_iff] at huncached
    exact absurd (Cache.contains_iff.mpr ⟨e, he, hsame⟩) huncached
  obtain ⟨c'', s'', hquery, -⟩ := queryPath_of_held heng hcalm hheld hsound hwithin hledger limits query
    hproper hshort
  unfold searchSegment
  rw [hconfig] at hquery
  cases checkK limits query with
  | error e => rfl
  | ok _ =>
    simp only [hresolve, hquery, Except.bind]
    cases answer (files s.world) metric config limits s.cache.isShutDown path query <;> rfl

open Writer Naming in
/-- A search by the twin answers from the bytes by which a search by the sidecar answers. -/
theorem Executor.searchSegment_of_twinned (heng : env.Exact files metric calm)
    {config : CacheConfig} {observer : Option (Watcher Unit)} {world : σ}
    {actions actions' : List (Action σ FlatIndex)} {s s' : Service σ FlatIndex}
    (hrun : s = (Service.start config observer world).run env actions)
    (hrun' : s' = (Service.start config observer world).run env actions')
    (hcalm : calm s.world) (hcalm' : calm s'.world) (hfiles : files s'.world = files s.world)
    (hshut : s.cache.isShutDown = s'.cache.isShutDown) (limits : QueryConfig) (query : Query)
    {original packed : Segment} {directory : Path} {name : String} (hslash : '/' ∉ name.toList)
    (hsidecar : isSidecarName name .regular = true)
    (htwinned : Twinned (files s.world) directory name)
    (huncached : s.cache.contains (directory.join name) = false)
    (huncached' : s'.cache.contains (directory.join (name ++ "c")) = false)
    (horiginal : original.resolve = .ok (some (directory.join name)))
    (hpacked : packed.resolve = .ok (some (directory.join (name ++ "c")))) :
    (searchSegment env limits packed query s'.cache s'.world).1
      = (searchSegment env limits original query s.cache s.world).1.mapError
        (Error.about (directory.join (name ++ "c")).text) := by
  have hslash' := noSlash_twin hslash
  have hsidecar' := isSidecarName_twin hslash hsidecar
  obtain ⟨loc, target, content, hsource, hnode, htarget, hnode'⟩ := htwinned
  rw [twin_join hslash hsidecar] at htarget
  have hstat := FileTree.stat_eq_file_iff.mpr ⟨loc, hsource, hnode⟩
  have hstat' := FileTree.stat_eq_file_iff.mpr ⟨target, htarget, hnode'⟩
  rw [searchSegment_of_uncached heng hrun hcalm limits query horiginal
      (Path.proper_join hslash hsidecar) hsource.addressable.short huncached,
    searchSegment_of_uncached heng hrun' hcalm' limits query hpacked
      (Path.proper_join hslash' hsidecar') htarget.addressable.short huncached',
    hfiles, ← hshut, answer_of_stat hstat hstat']
  unfold checkK
  split
  · rfl
  · simp only [Except.bind]
    cases answer (files s.world) metric config limits s.cache.isShutDown (directory.join name) query <;>
      rfl

open Writer Naming in
/-- **A twin stands in for its sidecar.** When the work on a segment succeeds, the sidecars are off
the list of its files, in each case a twin beside the sidecar holds the same bytes, and nothing else
has changed. If no sidecar is sealed, or the user is privileged, doing it again gives the same list
and changes nothing. However the directory is spelled, a search by the twin answers like a search by
the sidecar if the path of the twin is short enough, whatever has happened to the caches of the two, as
long as they are of one configuration, both open or both shut down, and neither holds the file that is
asked for. -/
theorem prepareCompound_twins (heng : env.Exact files metric calm) {t t' : GuardedTree}
    {directory : Path} {names left : List String} (hnames : ∀ name ∈ names, '/' ∉ name.toList)
    (hprepared : prepareCompoundBy GuardedTree.copy t directory names = (.ok left, t')) :
    left = names.filter (fun name => !isSidecarName name .regular) ∧
    (∀ name ∈ names, isSidecarName name .regular = true →
      twin (directory.join name) = directory.join (name ++ "c") ∧
      ∃ content, t.files.read (directory.join name) = .ok content ∧
        t'.files.read (directory.join name) = .ok content ∧
        t'.files.read (directory.join (name ++ "c")) = .ok content) ∧
    (t'.files.workingDirectory = t.files.workingDirectory ∧
      ∀ loc, ¬ TwinPlaces t.files directory names loc →
        t'.files.node? loc = t.files.node? loc ∧ (loc ∈ t'.sealed ↔ loc ∈ t.sealed)) ∧
    ((∀ name ∈ names, isSidecarName name .regular = true → t.denies (directory.join name) = false) →
      ∃ t'', prepareCompoundBy GuardedTree.copy t' directory names = (.ok left, t'') ∧
        t''.files.workingDirectory = t'.files.workingDirectory ∧
        ∀ loc, t''.files.node? loc = t'.files.node? loc ∧ (loc ∈ t''.sealed ↔ loc ∈ t'.sealed)) ∧
    ∀ name ∈ names, isSidecarName name .regular = true →
      ∀ (config : CacheConfig) (observer : Option (Watcher Unit)) (world : σ)
        (actions actions' : List (Action σ FlatIndex)),
      let s := (Service.start config observer world).run env actions
      let s' := (Service.start config observer world).run env actions'
      calm s.world → calm s'.world → files s.world = t'.files → files s'.world = t'.files →
      s.cache.isShutDown = s'.cache.isShutDown →
      ∀ elsewhere : Path, directory.sameKey elsewhere = true →
      (elsewhere.join (name ++ "c")).text.utf8ByteSize < 4096 →
      s.cache.contains (elsewhere.join name) = false →
      s'.cache.contains (elsewhere.join (name ++ "c")) = false →
      ∀ (limits : QueryConfig) (query : Query) (segment : Segment),
        let original := { segment with directory := elsewhere, files := [name], layout := .regular }
        let packed :=
          { segment with directory := elsewhere, files := [name ++ "c"], layout := .compound }
        (Executor.searchSegment env limits packed query s'.cache s'.world).1
          = (Executor.searchSegment env limits original query s.cache s.world).1.mapError
            (Error.about (elsewhere.join (name ++ "c")).text) := by
  obtain ⟨hplain, -, hoff, -⟩ := prepareCompoundBy_run hnames hprepared
  obtain ⟨hleft, hagree, -, htwinned⟩ := prepareCompound_run hnames hplain
  refine ⟨hleft, ?_, ⟨hagree.workingDirectory, fun loc hloc => ⟨hagree.nodes loc id hloc,
    hoff loc hloc⟩⟩, prepareCompoundBy_again hnames hprepared, ?_⟩
  · intro name hname hsidecar
    have htwin := twin_join (hnames name hname) hsidecar directory
    exact ⟨htwin, htwin ▸ read_of_prepared hnames hplain hname hsidecar⟩
  · intro name hname hsidecar config observer world actions actions' s s' hcalm hcalm' hfiles hfiles'
      hshut elsewhere hkey hshort huncached huncached' limits query segment original packed
    have hslash := hnames name hname
    have htwin : Twinned (files s.world) elsewhere name :=
      hfiles ▸ (htwinned name hname hsidecar).elsewhere hslash hsidecar hkey hshort
    exact Executor.searchSegment_of_twinned heng rfl rfl hcalm hcalm' (hfiles'.trans hfiles.symm) hshut
      limits query hslash hsidecar htwin huncached huncached'
      (Segment.resolve_singleton rfl hsidecar)
      (Segment.resolve_singleton rfl (isSidecarName_twin hslash hsidecar))

end Search

/-! ## A small parcel -/

namespace Parcel

/-- One sidecar has two dots in its name, one cannot be loaded, and one is a twin that was left. -/
def files : FileTree where
  workingDirectory := ["w"]
  nodes := [(["w"], .directory), (["w", "d"], .directory), (["w", "d", "a.b.hnsw"], .file Alias.bytes),
    (["w", "d", "x.hnswc"], .file [7]), (["w", "d", "c.hnsw"], .file [1])]

def names : List String := ["a.b.hnsw", "s.si", "x.hnswc", "c.hnsw", "a.b.hnsw"]

/-- The twin that was left is sealed, but no sidecar is. -/
def guarded : GuardedTree := { files, sealed := [["w", "d", "x.hnswc"]], privileged := false }

def prepared : GuardedTree := (Writer.prepareCompoundBy GuardedTree.copy guarded ⟨"d"⟩ names).2

/-- The twin that was left has been asked for. -/
def actions : List (Action (FileTree × Nat) FlatIndex) := [.get ⟨"d/x.hnswc"⟩]

def service : Service (FileTree × Nat) FlatIndex :=
  (Service.start {} none (prepared.files, 0)).run Alias.env actions

def segment (name : String) : Segment :=
  { directory := ⟨"d//"⟩, name := "s", files := [name], layout := .compound }

/-- Both twins are made, the one that was left stays as it is, they are made again, and the search of
each segment answers or fails as that of its sidecar. -/
theorem prepareCompound_twins_of_parcel :
    (∀ name ∈ names, '/' ∉ name.toList) ∧
    Writer.prepareCompoundBy GuardedTree.copy guarded ⟨"d"⟩ names
      = (.ok ["s.si", "x.hnswc"], prepared) ∧
    prepared.files.read ⟨"d/a.b.hnswc"⟩ = .ok Alias.bytes ∧
    prepared.files.read ⟨"d/x.hnswc"⟩ = .ok [7] ∧
    (Writer.prepareCompoundBy GuardedTree.copy prepared ⟨"d"⟩ names).1
      = .ok ["s.si", "x.hnswc"] ∧
    (Executor.searchSegment Alias.env {} (segment "a.b.hnswc") Alias.query service.cache
      service.world).1.map Scorer.hits = .ok [⟨0, ⟨3⟩⟩] ∧
    (Executor.searchSegment Alias.env {} (segment "c.hnswc") Alias.query service.cache
      service.world).1.map Scorer.hits
        = .error (.loadFailed "d//c.hnswc" FlatIndex.LoadFault.tooSmall.reason) := by
  have hnames : ∀ name ∈ names, '/' ∉ name.toList := by decide +kernel
  have hprepared : Writer.prepareCompoundBy GuardedTree.copy guarded ⟨"d"⟩ names
      = (.ok ["s.si", "x.hnswc"], prepared) := by
    decide +kernel
  have hopen : ∀ name ∈ names, Naming.isSidecarName name .regular = true →
      guarded.denies ((Path.mk "d").join name) = false := by decide +kernel
  obtain ⟨-, htwins, -, hagain, hsearch⟩ := prepareCompound_twins
    (Environment.flat_exact Alias.metric) hnames hprepared
  obtain ⟨again, hagain, -⟩ := hagain hopen
  have hfiles : service.world.1 = prepared.files := by decide +kernel
  have hlead : ∀ name ∈ ["a.b.hnsw", "c.hnsw"], name ∈ names ∧
      Naming.isSidecarName name .regular = true ∧
      ((Path.mk "d//").join (name ++ "c")).text.utf8ByteSize < 4096 ∧
      service.cache.contains ((Path.mk "d//").join name) = false ∧
      service.cache.contains ((Path.mk "d//").join (name ++ "c")) = false := by decide +kernel
  have hsearched : ∀ name ∈ ["a.b.hnsw", "c.hnsw"], _ := fun name hname => by
    obtain ⟨hmem, hsidecar, hshort, huncached, huncached'⟩ := hlead name hname
    have hsearched := hsearch name hmem hsidecar {} none (prepared.files, 0) actions actions
    rw [← service] at hsearched
    exact hsearched trivial trivial hfiles hfiles rfl ⟨"d//"⟩ (by decide +kernel) hshort huncached
      huncached' {} Alias.query { directory := ⟨"d"⟩, name := "s", files := [] }
  refine ⟨hnames, hprepared, ?_, by decide +kernel, congrArg Prod.fst hagain, ?_, ?_⟩
  · obtain ⟨-, content, hread, -, htwin⟩ := htwins "a.b.hnsw" (by decide) (by decide +kernel)
    have hbytes : guarded.files.read ⟨"d/a.b.hnsw"⟩ = .ok Alias.bytes := by decide +kernel
    rw [Except.ok.inj (hbytes.symm.trans hread)]
    exact htwin
  · refine (congrArg _ (hsearched "a.b.hnsw" (by decide))).trans ?_
    decide +kernel
  · refine (congrArg _ (hsearched "c.hnsw" (by decide))).trans ?_
    decide +kernel

end Parcel

namespace Offcut

/-- The directory `d`, which is written with some slashes more. -/
def directory (slashes : Nat) : Path := Path.slashed "d" slashes

def segment (slashes : Nat) (name : String) (layout : Layout) : Segment :=
  { directory := directory slashes, name := "s", files := [name], layout }

/-- A sidecar with its twin. -/
def packed : FileTree where
  workingDirectory := ["w"]
  nodes := [(["w"], .directory), (["w", "d"], .directory), (["w", "d", "x.hnsw"], .file Alias.bytes),
    (["w", "d", "x.hnswc"], .file Alias.bytes)]

/-- A sidecar that is read only. -/
def guarded : GuardedTree :=
  { files := Alias.files, sealed := [["w", "d", "x.hnsw"]], privileged := false }

def service : Service (FileTree × Nat) FlatIndex := Service.start {} none (packed, 0)

variable {n : Nat} {name : String}

theorem sameKey_directory (n : Nat) : (Path.mk "d").sameKey (directory (n + 1)) = true := by
  rw [Path.sameKey, directory, Path.components_slashed rfl]
  decide +kernel

theorem utf8ByteSize_join (h : '/' ∉ name.toList) (n : Nat) :
    ((directory (n + 1)).join name).text.utf8ByteSize = n + 2 + name.utf8ByteSize := by
  have hends : (directory (n + 1)).endsInSlash = true := Path.endsInSlash_slashed "d" n
  have hlead : (directory (n + 1)).lead = (directory (n + 1)).text := by
    rw [Path.lead, hends, Bool.or_true, if_pos rfl]
  have hd : "d".utf8ByteSize = 1 := rfl
  rw [Path.join_eq_lead _ h, String.utf8ByteSize_append, hlead, directory,
    Path.utf8ByteSize_slashed, hd]
  omega

/-- The sidecar is found by a spelling that is short enough for it. -/
theorem search_of_sidecar (h : n + 8 < 4096) :
    (Executor.searchSegment Alias.env {} (segment (n + 1) "x.hnsw" .regular) Alias.query
      service.cache service.world).1 = .ok (.ofResults [⟨0, ⟨3⟩⟩]) := by
  have hname : Naming.isSidecarName "x.hnsw" .regular = true := by decide +kernel
  have hslash : '/' ∉ "x.hnsw".toList := by decide
  have hsize : "x.hnsw".utf8ByteSize = 6 := by decide
  have hshort : ((directory (n + 1)).join "x.hnsw").text.utf8ByteSize < 4096 := by
    rw [utf8ByteSize_join hslash, hsize]
    omega
  have hload : FlatIndex.load packed ((directory (n + 1)).join "x.hnsw") = .ok Alias.index := by
    have hplain : FlatIndex.load packed ((Path.mk "d").join "x.hnsw") = .ok Alias.index := by
      decide +kernel
    obtain ⟨loc, content, hplaces, hfound⟩ := FlatIndex.load_eq_ok_iff.mp hplain
    exact FlatIndex.load_eq_ok_iff.mpr ⟨loc, content,
      Writer.places_join_of_sameKey hslash hname (sameKey_directory n) hshort hplaces, hfound⟩
  have hanswer : Executor.answer packed Alias.metric {} {} false
      ((directory (n + 1)).join "x.hnsw") Alias.query = .ok [⟨0, ⟨3⟩⟩] := by
    have hnearest : Alias.index.nearest Alias.metric Alias.query.vector Alias.query.k
        = .ok [⟨0, ⟨3⟩⟩] := by decide +kernel
    have hbudget : ({} : CacheConfig).weightBudget = none := rfl
    simp [Executor.answer, FlatIndex.loadWithin, hbudget, hload, hnearest]
  have hk : Executor.checkK {} Alias.query = .ok () := by decide
  have hfiles : service.world.1 = packed := rfl
  have hconfig : service.cache.isShutDown = false := rfl
  have hresolve : (segment (n + 1) "x.hnsw" .regular).resolve
      = .ok (some ((directory (n + 1)).join "x.hnsw")) := Segment.resolve_singleton rfl hname
  have hrun : service = (Service.start {} none (packed, 0)).run (Environment.flat Alias.metric) [] :=
    rfl
  have hsearch := Executor.searchSegment_of_uncached (Environment.flat_exact Alias.metric) hrun
    trivial {} Alias.query hresolve (Path.proper_join hslash hname) hshort rfl
  rw [hsearch, hk, hfiles, hconfig, Except.bind, hanswer]
  rfl

/-- Its twin is not, if its path is too long by a byte. -/
theorem search_of_twin (h : 4096 ≤ n + 9) :
    (Executor.searchSegment Alias.env {} (segment (n + 1) "x.hnswc" .compound) Alias.query
      service.cache service.world).1
      = .error (.loadFailed ((directory (n + 1)).join "x.hnswc").text
          FileError.nameTooLong.message) := by
  have hname : Naming.isSidecarName "x.hnswc" .compound = true := by decide +kernel
  have hslash : '/' ∉ "x.hnswc".toList := by decide
  have hsize : "x.hnswc".utf8ByteSize = 7 := by decide
  generalize hpath : (directory (n + 1)).join "x.hnswc" = path
  have hlong : 4096 ≤ path.text.utf8ByteSize := by
    rw [← hpath, utf8ByteSize_join hslash, hsize]
    omega
  have hnul : '\x00' ∉ path.text.toList := by
    rw [← hpath, Path.join_eq_lead _ hslash, Path.lead]
    split <;> simp [directory, Path.slashed]
  have hnonempty : path.text.isEmpty = false := by
    rw [Bool.eq_false_iff]
    intro hempty
    rw [String.isEmpty_iff.mp hempty] at hlong
    exact absurd hlong (by decide)
  have hload := FlatIndex.load_of_long packed hnul hnonempty hlong
  have hkey : Cache.validateKey path = .ok () := hpath ▸ Segment.validateKey_sidecar _ hname
  have hresolve : (segment (n + 1) "x.hnswc" .compound).resolve = .ok (some path) :=
    hpath ▸ Segment.resolve_singleton rfl hname
  have hk : Executor.checkK {} Alias.query = .ok () := by decide
  have hlookup : ∀ now, service.cache.lookup now path = (none, service.cache) := fun _ => rfl
  have hopen : service.cache.isShutDown = false := rfl
  have henv : Alias.env.load path service.world = (FlatIndex.load packed path, service.world) := rfl
  simp [Executor.searchSegment, hk, hresolve, Executor.queryPath, Executor.attempt, Cache.get,
    Cache.request, hopen, hkey, hlookup, Cache.loadAndInsert, Cache.fetch, henv, hload]
  rfl

end Offcut

/-- A segment with a sealed sidecar cannot be prepared twice, and a spelling of the directory may leave
room for the sidecar only. -/
theorem prepareCompound_undone :
    ((Writer.prepareCompoundBy GuardedTree.copy Offcut.guarded ⟨"d"⟩ ["x.hnsw"]).1 = .ok [] ∧
      (Writer.prepareCompoundBy GuardedTree.copy
        (Writer.prepareCompoundBy GuardedTree.copy Offcut.guarded ⟨"d"⟩ ["x.hnsw"]).2 ⟨"d"⟩
        ["x.hnsw"]).1 = .error (.io FileError.permissionDenied.message)) ∧
    Writer.prepareCompound Alias.files ⟨"d"⟩ ["x.hnsw"] = (.ok [], Offcut.packed) ∧
    (Path.mk "d").sameKey (Offcut.directory 4088) = true ∧
    (Executor.searchSegment Alias.env {} (Offcut.segment 4088 "x.hnsw" .regular) Alias.query
      Offcut.service.cache Offcut.service.world).1 = .ok (.ofResults [⟨0, ⟨3⟩⟩]) ∧
    (Executor.searchSegment Alias.env {} (Offcut.segment 4088 "x.hnswc" .compound) Alias.query
      Offcut.service.cache Offcut.service.world).1
      = .error (.loadFailed ((Offcut.directory 4088).join "x.hnswc").text
          FileError.nameTooLong.message) := by
  refine ⟨by decide +kernel, by decide +kernel, Offcut.sameKey_directory 4087, ?_, ?_⟩
  · exact Offcut.search_of_sidecar (n := 4087) (by decide)
  · exact Offcut.search_of_twin (n := 4087) (by decide)

end Sidecar
