import Sidecar.Engine.Host
import Sidecar.Proofs.Files.Key

/-!
# What the flat engine answers

The cache and the executor know their engine as an `Environment`, which may answer anything. The
flat engine may not, and there are two ways to say so.

* A *faithful* environment answers with the truth when it answers at all: an index that it loads is
  the index in the file, and the matches of a query are the nearest vectors. It may still fail for
  reasons of its own. This is the flat engine with faults injected.
* An *exact* environment fails only where the file or the index gives the reason. This is the flat
  engine by itself.

Both are about worlds that are `calm`, which is whatever an engine needs to be let alone, and about
any metric. Loading and querying change no file.

An index is *filed* under a path if a path with the same key leads to it. That is what the cache can
promise for a path: there is one such index (`Filed.unique`), and loading the path itself gives it,
unless the path is too long for an address.
-/

set_option autoImplicit false

namespace Sidecar

variable {σ : Type}

/-! ## Filed indexes -/

namespace FlatIndex

variable {files : FileTree} {path : Path} {index : FlatIndex}

theorem load_eq_ok_iff : FlatIndex.load files path = .ok index ↔
    ∃ loc content, files.Places path loc ∧ files.node? loc = some (.file content) ∧
      decode content = .ok index := by
  constructor
  · intro h
    unfold FlatIndex.load at h
    cases hmap : files.map path with
    | error cause =>
      rw [hmap] at h
      cases h
    | ok content =>
      cases hdecode : decode content with
      | error fault =>
        simp only [hmap, hdecode] at h
        cases h
      | ok found =>
        simp only [hmap, hdecode, Except.ok.injEq] at h
        obtain ⟨loc, hplaces, hnode⟩ :=
          FileTree.stat_eq_file_iff.mp (FileTree.map_eq_ok_iff.mp hmap)
        exact ⟨loc, content, hplaces, hnode, by rw [hdecode, h]⟩
  · rintro ⟨loc, content, hplaces, hnode, hdecode⟩
    have hmap : files.map path = .ok content :=
      FileTree.map_eq_ok_iff.mpr (FileTree.stat_eq_file_iff.mpr ⟨loc, hplaces, hnode⟩)
    simp [FlatIndex.load, hmap, hdecode]

/-- Some path with the same key leads to the index. -/
def Filed (files : FileTree) (path : Path) (index : FlatIndex) : Prop :=
  ∃ key : Path, key.sameKey path = true ∧ FlatIndex.load files key = .ok index

theorem filed_of_load (h : FlatIndex.load files path = .ok index) : Filed files path index :=
  ⟨path, by simp [Path.sameKey], h⟩

theorem Filed.unique {other : FlatIndex} (h : Filed files path index)
    (h' : Filed files path other) : index = other := by
  obtain ⟨key, hkey, hload⟩ := h
  obtain ⟨key', hkey', hload'⟩ := h'
  obtain ⟨loc, content, hplaces, hnode, hdecode⟩ := load_eq_ok_iff.mp hload
  obtain ⟨loc', content', hplaces', hnode', hdecode'⟩ := load_eq_ok_iff.mp hload'
  have hsame : key.sameKey key' = true := by
    simp only [Path.sameKey, beq_iff_eq] at hkey hkey' ⊢
    rw [hkey, hkey']
  rw [hplaces.eq_of_sameKey hplaces' hsame, hnode', Option.some.injEq, Node.file.injEq] at hnode
  rw [hnode, hdecode, Except.ok.injEq] at hdecode'
  exact hdecode'

/-- The documents of the vectors, in the order of the file. -/
def docs (index : FlatIndex) : List DocId := (List.range index.count).map index.docAt

theorem map_doc_candidates (metric : Metric) (index : FlatIndex) (vector : Embedding) :
    (index.candidates metric vector).map Match.doc = index.docs := by
  simp [candidates, docs, matchAt, Function.comp_def]

end FlatIndex

/-! ## Engines -/

namespace Environment

variable {env : Environment σ FlatIndex} {files : σ → FileTree} {metric : Metric} {calm : σ → Prop}

structure Faithful (env : Environment σ FlatIndex) (files : σ → FileTree) (metric : Metric)
    (calm : σ → Prop) : Prop where
  load : ∀ {s path result s'}, calm s → env.load path s = (result, s') →
    calm s' ∧ files s' = files s ∧
      ∀ index, result = .ok index → FlatIndex.load (files s) path = .ok index
  query : ∀ {s index vector k result s'}, calm s → env.query index vector k s = (result, s') →
    calm s' ∧ files s' = files s ∧
      ∀ results, result = .ok results → index.nearest metric vector k = .ok results

structure Exact (env : Environment σ FlatIndex) (files : σ → FileTree) (metric : Metric)
    (calm : σ → Prop) : Prop where
  load : ∀ {s} path, calm s → ∃ s', env.load path s = (FlatIndex.load (files s) path, s') ∧
    calm s' ∧ files s' = files s
  query : ∀ {s} index vector k, calm s →
    ∃ s', env.query index vector k s = (index.nearest metric vector k, s') ∧
      calm s' ∧ files s' = files s
  size : ∀ index, env.size index = index.size

theorem Exact.faithful (h : env.Exact files metric calm) : env.Faithful files metric calm := by
  refine ⟨?_, ?_⟩
  · intro s path result s' hcalm heq
    obtain ⟨s'', hload, hcalm', hfiles⟩ := h.load path hcalm
    rw [hload, Prod.mk.injEq] at heq
    obtain ⟨rfl, rfl⟩ := heq
    exact ⟨hcalm', hfiles, fun _ hok => hok⟩
  · intro s index vector k result s' hcalm heq
    obtain ⟨s'', hquery, hcalm', hfiles⟩ := h.query index vector k hcalm
    rw [hquery, Prod.mk.injEq] at heq
    obtain ⟨rfl, rfl⟩ := heq
    exact ⟨hcalm', hfiles, fun _ hok => hok⟩

/-- The flat engine over files and a clock, for any metric. -/
def flat (metric : Metric) : Environment (FileTree × Nat) FlatIndex where
  now world := world.2
  presence world path := (world.1.stat path).map fun _ => ()
  load path world := (FlatIndex.load world.1 path, world)
  query index vector k world := (index.nearest metric vector k, world)
  size := FlatIndex.size

theorem flat_exact (metric : Metric) : (flat metric).Exact Prod.fst metric fun _ => True :=
  ⟨fun _ _ => ⟨_, rfl, trivial, rfl⟩, fun _ _ _ _ => ⟨_, rfl, trivial, rfl⟩, fun _ => rfl⟩

end Environment

namespace Host

/-- No outcome of a query is made up. -/
def Unscripted (host : Host) : Prop := host.instruments.script = []

/-- No fault is injected into loads and queries. -/
structure Calm (host : Host) : Prop where
  script : host.instruments.script = []
  failingLoads : host.instruments.failingLoads = 0
  evictedQueries : host.instruments.evictedQueries = 0

theorem environment_faithful :
    environment.Faithful Prod.fst euclidean fun world => world.2.Unscripted := by
  refine ⟨?_, ?_⟩
  · rintro ⟨files, host⟩ path result s' hcalm heq
    have hload : Host.load path (files, host) = (result, s') := heq
    unfold Host.load at hload
    dsimp only at hload
    split at hload
    · obtain ⟨rfl, rfl⟩ := Prod.mk.inj hload
      exact ⟨hcalm, rfl, nofun⟩
    · obtain ⟨rfl, rfl⟩ := Prod.mk.inj hload
      exact ⟨hcalm, rfl, fun _ hok => hok⟩
  · rintro ⟨files, host⟩ index vector k result s' hcalm heq
    have hquery : Host.query index vector k (files, host) = (result, s') := heq
    have hscript : host.instruments.script = [] := hcalm
    unfold Host.query at hquery
    simp only [hscript] at hquery
    split at hquery
    · obtain ⟨rfl, rfl⟩ := Prod.mk.inj hquery
      exact ⟨rfl, rfl, nofun⟩
    · obtain ⟨rfl, rfl⟩ := Prod.mk.inj hquery
      exact ⟨rfl, rfl, fun _ hok => hok⟩

theorem environment_exact :
    environment.Exact Prod.fst euclidean fun world => world.2.Calm := by
  refine ⟨?_, ?_, fun _ => rfl⟩
  · rintro ⟨files, host⟩ path hcalm
    have hloads : host.instruments.failingLoads = 0 := hcalm.failingLoads
    refine ⟨(Host.load path (files, host)).2, ?_, ?_, ?_⟩
    · simp [environment, Host.load, hloads]
    · simp only [Host.load, hloads]
      exact ⟨hcalm.script, rfl, hcalm.evictedQueries⟩
    · simp [Host.load, hloads]
  · rintro ⟨files, host⟩ index vector k hcalm
    have hscript : host.instruments.script = [] := hcalm.script
    have hqueries : host.instruments.evictedQueries = 0 := hcalm.evictedQueries
    refine ⟨(Host.query index vector k (files, host)).2, ?_, ?_, ?_⟩
    · simp [environment, Host.query, hscript, hqueries]
    · simp only [Host.query, hscript, hqueries]
      exact ⟨rfl, hcalm.failingLoads, rfl⟩
    · simp [Host.query, hscript, hqueries]

end Host

end Sidecar
