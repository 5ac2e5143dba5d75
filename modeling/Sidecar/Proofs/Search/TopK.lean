import Sidecar.Proofs.Cache.Contents
import Sidecar.Proofs.Search.FlatEngine
import Sidecar.Proofs.Search.Ranking
import Sidecar.Search.Executor

/-!
# The best matches of a search

A search answers with the best matches of all vectors in all segments, although nobody ever has
all of them in hand: every index is read with a shortlist, the shortlist is sorted by document and
renumbered, and the best of what is left are taken in the end. Each of these stages keeps the best
`k`, and `Match.best` is what they have in common:

* a scorer rearranges the matches of a segment (`gather_perm`), which is where documents have to
  be distinct;
* renumbering keeps the ranking (`best_renumber`), which is where numbers must not overflow;
* the shortlist of a segment may stand for the segment, as at least `k` were asked for
  (`best_shortlist`).

The other half is about the cache. Whatever it answers a request with, a hit or a fresh load, is the
index filed under the path, as long as its entries hold what is in their files. This is kept up
while a search goes on (`Steady`), because the engine changes no file.
-/

set_option autoImplicit false

namespace Sidecar

variable {σ : Type}

/-! ## The stages of one segment -/

namespace Scorer

theorem add_perm {m : Match} {found : List Match} (h : m.doc ∉ found.map Match.doc) :
    (add found m).Perm (m :: found) := by
  induction found with
  | nil => rfl
  | cons first rest ih =>
    rw [List.map_cons, List.mem_cons, not_or] at h
    unfold add
    split
    · rfl
    · rw [if_neg h.1]
      exact ((ih h.2).cons first).trans (List.Perm.swap m first rest)

theorem foldl_add_perm {ms found : List Match} (h : ((ms ++ found).map Match.doc).Nodup) :
    (ms.foldl add found).Perm (ms ++ found) := by
  induction ms generalizing found with
  | nil => rfl
  | cons m ms ih =>
    have hperm : (m :: ms ++ found).Perm (ms ++ m :: found) := List.perm_middle.symm
    have hnodup : ((ms ++ m :: found).map Match.doc).Nodup := (hperm.map _).nodup_iff.mp h
    have hnew : m.doc ∉ found.map Match.doc := by
      rw [List.map_append, List.map_cons, List.nodup_append] at hnodup
      exact (List.nodup_cons.mp hnodup.2.1).1
    have hadd : (ms ++ add found m).Perm (ms ++ m :: found) := (add_perm hnew).append_left ms
    rw [List.foldl_cons]
    exact (ih ((hadd.map _).nodup_iff.mpr hnodup)).trans (hadd.trans hperm.symm)

/-- With distinct documents there is nothing to merge. -/
theorem gather_perm {ms : List Match} (h : (ms.map Match.doc).Nodup) : (gather ms).Perm ms := by
  have hperm : (ms.foldl add []).Perm (ms ++ []) := foldl_add_perm (by simpa using h)
  simpa [gather] using hperm

end Scorer

namespace Match

def renumber (base : DocId) (m : Match) : Match := { m with doc := base + m.doc }

theorem renumber_key_le {base : DocId} {a b : Match}
    (ha : base.toNat + a.doc.toNat < UInt32.size) (hb : base.toNat + b.doc.toNat < UInt32.size)
    (h : a.key ≤ b.key) : (a.renumber base).key ≤ (b.renumber base).key := by
  rw [key_le_iff] at h ⊢
  apply h.imp_right
  intro ⟨hscore, hdoc⟩
  refine ⟨hscore, ?_⟩
  rw [UInt32.le_iff_toNat_le] at hdoc ⊢
  show (base + a.doc).toNat ≤ (base + b.doc).toNat
  rw [UInt32.toNat_add, UInt32.toNat_add, Nat.mod_eq_of_lt ha, Nat.mod_eq_of_lt hb]
  omega

theorem best_renumber {base : DocId} {ms : List Match} (k : Nat)
    (h : ∀ m ∈ ms, base.toNat + m.doc.toNat < UInt32.size) :
    best k (ms.map (renumber base)) = (best k ms).map (renumber base) := by
  apply best_map
  intro a ha b hb
  exact renumber_key_le (h a ha) (h b hb)

/-- A segment may be represented by its shortlist, in any order. -/
theorem best_shortlist {base : DocId} {ms : List Match} {k q : Nat} (hk : k ≤ q)
    (hdistinct : (ms.map Match.doc).Nodup)
    (hbase : ∀ m ∈ ms, base.toNat + m.doc.toNat < UInt32.size) :
    best k ((Scorer.gather (best q ms)).map (renumber base)) = best k (ms.map (renumber base)) := by
  have hshort : ((best q ms).map Match.doc).Nodup := by
    have hrank : ((rank ms).map Match.doc).Nodup := ((rank_perm ms).map _).nodup_iff.mpr hdistinct
    exact hrank.sublist ((List.take_sublist q _).map _)
  calc best k ((Scorer.gather (best q ms)).map (renumber base))
      = best k ((best q ms).map (renumber base)) :=
        best_congr ((Scorer.gather_perm hshort).map _)
    _ = (best k (best q ms)).map (renumber base) :=
        best_renumber k fun m hm => hbase m (best_subset q ms hm)
    _ = (best k ms).map (renumber base) := by rw [best_best hk]
    _ = best k (ms.map (renumber base)) := (best_renumber k hbase).symm

end Match

/-! ## What a segment holds -/

namespace Segment

/-- The sidecar of the segment, if it has one. -/
def Holds (files : FileTree) (segment : Segment) : Option FlatIndex → Prop
  | none => segment.resolve = .ok none
  | some index => ∃ path, segment.resolve = .ok (some path) ∧ FlatIndex.Filed files path index

theorem Holds.unique {files : FileTree} {segment : Segment} {stored stored' : Option FlatIndex}
    (h : segment.Holds files stored) (h' : segment.Holds files stored') : stored = stored' := by
  rcases stored with _ | index
  · rcases stored' with _ | index'
    · rfl
    · obtain ⟨path, hresolve, -⟩ := h'
      rw [show segment.resolve = .ok none from h] at hresolve
      cases hresolve
  · obtain ⟨path, hresolve, hfiled⟩ := h
    rcases stored' with _ | index'
    · rw [show segment.resolve = .ok none from h'] at hresolve
      cases hresolve
    · obtain ⟨path', hresolve', hfiled'⟩ := h'
      rw [hresolve, Except.ok.injEq, Option.some.injEq] at hresolve'
      rw [hfiled.unique (hresolve' ▸ hfiled')]

/-- Every vector of the segment, with its distance and its global document number. -/
def pairs (metric : Metric) (vector : Embedding) (segment : Segment) :
    Option FlatIndex → List Match
  | none => []
  | some index => (index.candidates metric vector).map (Match.renumber segment.docBase)

/-- No vector of the segment shares its document, and all documents have a global number. -/
structure Numbered (files : FileTree) (segment : Segment) : Prop where
  distinct : ∀ index, segment.Holds files (some index) → index.docs.Nodup
  fits : ∀ index, segment.Holds files (some index) → ∀ doc ∈ index.docs,
    segment.docBase.toNat + doc.toNat < UInt32.size

theorem Numbered.best_hits {files : FileTree} {segment : Segment} (h : segment.Numbered files)
    {index : FlatIndex} (hholds : segment.Holds files (some index)) {metric : Metric}
    {vector : Embedding} {k q : Nat} {results : List Match} (hk : k ≤ q)
    (hnearest : index.nearest metric vector q = .ok results) :
    Match.best k ((Scorer.gather results).map (Match.renumber segment.docBase))
      = Match.best k (segment.pairs metric vector (some index)) := by
  rw [FlatIndex.nearest_eq_best] at hnearest
  split at hnearest
  · cases hnearest
    refine Match.best_shortlist hk ?_ ?_
    · rw [FlatIndex.map_doc_candidates]
      exact h.distinct index hholds
    · intro m hm
      apply h.fits index hholds
      rw [← FlatIndex.map_doc_candidates metric index vector]
      exact List.mem_map_of_mem hm
  · cases hnearest

end Segment

/-! ## The cache during a search -/

/-- The entries of the cache hold what is in their files. -/
def Cache.Current (files : FileTree) (c : Cache FlatIndex) : Prop :=
  c.Each fun h => FlatIndex.load files h.path = .ok h.index

/-- The files are the given ones, and the entries of the cache are loaded from them. -/
structure Steady (files : σ → FileTree) (calm : σ → Prop) (t : FileTree) (c : Cache FlatIndex)
    (s : σ) : Prop where
  calm : calm s
  files : files s = t
  current : c.Current t

section Search

variable {env : Environment σ FlatIndex} {files : σ → FileTree} {metric : Metric} {calm : σ → Prop}
  {t : FileTree} {c c' : Cache FlatIndex} {s s' : σ} {path : Path}

theorem Steady.get (heng : env.Faithful files metric calm) (h : Steady files calm t c s)
    {result : Except Error (Handle FlatIndex)} (hget : c.get env path s = (result, c', s')) :
    Steady files calm t c' s' ∧
      ∀ handle, result = .ok handle → FlatIndex.Filed t path handle.index := by
  have hload : ∀ index s₁, env.load path s = (.ok index, s₁) → ∀ c : Cache FlatIndex,
      FlatIndex.load t (c.nextHandle env path index).path
        = .ok (c.nextHandle env path index).index := by
    intro index s₁ hok c
    rw [← h.files]
    exact (heng.load h.calm hok).2.2 index rfl
  have hkept := Cache.Each.get env s h.current path hload
  rw [hget] at hkept
  have hworld : calm s' ∧ files s' = t := by
    rcases Cache.world_get (c := c) env s path with hw | hw
    · rw [hget] at hw
      rw [show s' = s from hw]
      exact ⟨h.calm, h.files⟩
    · rw [hget] at hw
      have hload : env.load path s = ((env.load path s).1, (env.load path s).2) := rfl
      obtain ⟨hcalm, hfiles, -⟩ := heng.load h.calm hload
      rw [show s' = (env.load path s).2 from hw]
      exact ⟨hcalm, hfiles.trans h.files⟩
  refine ⟨⟨hworld.1, hworld.2, hkept⟩, ?_⟩
  rintro handle rfl
  obtain ⟨hcontent, hkey⟩ := Cache.Each.of_get env s h.current hload hget
  exact ⟨handle.path, hkey, hcontent⟩

theorem Steady.query (heng : env.Faithful files metric calm) (h : Steady files calm t c s)
    {handle : Handle FlatIndex} {vector : Embedding} {k : Nat} {result : Except Error (List Match)}
    (hquery : c.query env handle vector k s = (result, s')) :
    Steady files calm t c s' ∧
      ∀ results, result = .ok results → handle.index.nearest metric vector k = .ok results := by
  unfold Cache.query at hquery
  split at hquery
  · cases hquery
    exact ⟨h, nofun⟩
  · obtain ⟨hcalm, hfiles, hok⟩ := heng.query h.calm hquery
    exact ⟨⟨hcalm, hfiles.trans h.files, h.current⟩, hok⟩

namespace Executor

theorem attempt_steady (heng : env.Faithful files metric calm) {query : Query} {allowed left : Nat}
    (h : Steady files calm t c s) {result : Except Error (List Match)}
    (hrun : attempt env path query allowed left c s = (result, c', s')) :
    Steady files calm t c' s' ∧ ∀ results, result = .ok results →
      ∃ index, FlatIndex.Filed t path index ∧
        index.nearest metric query.vector query.k = .ok results := by
  induction left generalizing c s with
  | zero =>
    cases hrun
    exact ⟨h, nofun⟩
  | succ left ih =>
    unfold attempt at hrun
    rcases hget : c.get env path s with ⟨e | handle, c₁, s₁⟩
    · rw [hget] at hrun
      cases hrun
      exact ⟨(h.get heng hget).1, nofun⟩
    · obtain ⟨hsteady, hfiled⟩ := h.get heng hget
      simp only [hget] at hrun
      rcases hquery : c₁.query env handle query.vector query.k s₁ with ⟨e | results, s₂⟩
      · have hsteady' := (hsteady.query heng hquery).1
        simp only [hquery] at hrun
        split at hrun
        · next hcase => cases hcase
        · next hcase =>
          cases hcase
          exact ih hsteady' hrun
        · next hcase =>
          cases hcase
          cases hrun
          exact ⟨hsteady', nofun⟩
      · obtain ⟨hsteady', hnearest⟩ := hsteady.query heng hquery
        simp only [hquery] at hrun
        cases hrun
        refine ⟨hsteady', ?_⟩
        intro results' hsame
        exact ⟨handle.index, hfiled handle rfl, hnearest results' hsame⟩

theorem searchSegment_steady (heng : env.Faithful files metric calm) {config : QueryConfig}
    {segment : Segment} {query : Query} (h : Steady files calm t c s) {result : Except Error Scorer}
    (hrun : searchSegment env config segment query c s = (result, c', s')) :
    Steady files calm t c' s' ∧ ∀ scorer, result = .ok scorer → segment.Numbered t →
      ∃ stored, segment.Holds t stored ∧ ∀ k ≤ query.k,
        Match.best k (SegmentHits.renumbered ⟨segment.name, segment.docBase, scorer⟩)
          = Match.best k (segment.pairs metric query.vector stored) := by
  unfold searchSegment at hrun
  split at hrun
  · cases hrun
    exact ⟨h, nofun⟩
  · split at hrun
    · cases hrun
      exact ⟨h, nofun⟩
    · next hresolve =>
      cases hrun
      refine ⟨h, ?_⟩
      rintro scorer hsame -
      cases hsame
      exact ⟨none, hresolve, fun k _ => rfl⟩
    · next path hresolve =>
      unfold queryPath at hrun
      rcases hattempt : attempt env path query (attempts config) (attempts config) c s with
        ⟨e | results, c₁, s₁⟩
      · simp only [hattempt] at hrun
        cases hrun
        exact ⟨(attempt_steady heng h hattempt).1, nofun⟩
      · obtain ⟨hsteady, hok⟩ := attempt_steady heng h hattempt
        simp only [hattempt] at hrun
        cases hrun
        refine ⟨hsteady, ?_⟩
        intro scorer hsame hnumbered
        cases hsame
        obtain ⟨index, hfiled, hnearest⟩ := hok results rfl
        have hholds : segment.Holds t (some index) := ⟨path, hresolve, hfiled⟩
        exact ⟨some index, hholds, fun k hk => hnumbered.best_hits hholds hk hnearest⟩

/-- What segments hold, segment by segment. -/
structure Contents (t : FileTree) (segments : List Segment)
    (contents : List (Segment × Option FlatIndex)) : Prop where
  segments : contents.map Prod.fst = segments
  holds : ∀ x ∈ contents, x.1.Holds t x.2

def allPairs (metric : Metric) (vector : Embedding) (contents : List (Segment × Option FlatIndex)) :
    List Match :=
  contents.flatMap fun x => x.1.pairs metric vector x.2

theorem searchAll_steady (heng : env.Faithful files metric calm) {config : QueryConfig}
    {segments : List Segment} {query : Query} {outcome outcome' : SearchOutcome} {k : Nat}
    (hk : k ≤ query.k) (hnumbered : ∀ segment ∈ segments, segment.Numbered t)
    (h : Steady files calm t c s)
    (hrun : searchAll env config query segments outcome c s = (.ok outcome', c', s'))
    (hfull : outcome'.failures = []) :
    outcome.failures = [] ∧ ∃ contents found, Contents t segments contents ∧
      outcome'.hits = outcome.hits ++ found ∧
      Match.best k (found.flatMap SegmentHits.renumbered)
        = Match.best k (allPairs metric query.vector contents) := by
  induction segments generalizing outcome c s with
  | nil =>
    cases hrun
    exact ⟨hfull, [], [], ⟨rfl, nofun⟩, (List.append_nil _).symm, rfl⟩
  | cons segment rest ih =>
    have hrest : ∀ segment ∈ rest, segment.Numbered t :=
      fun segment hmem => hnumbered segment (List.mem_cons_of_mem _ hmem)
    unfold searchAll at hrun
    rcases hsegment : searchSegment env config segment query c s with ⟨e | scorer, c₁, s₁⟩
    · have hsteady := (searchSegment_steady heng h hsegment).1
      simp only [hsegment] at hrun
      split at hrun
      · -- A failure that is noted stays on the record.
        have hnoted := (ih hrest hsteady hrun).1
        simp at hnoted
      · cases hrun
    · obtain ⟨hsteady, hok⟩ := searchSegment_steady heng h hsegment
      simp only [hsegment] at hrun
      obtain ⟨stored, hholds, hbest⟩ := hok scorer rfl (hnumbered segment List.mem_cons_self)
      obtain ⟨hnone, contents, found, hcontents, hhits, hfound⟩ := ih hrest hsteady hrun
      refine ⟨hnone, (segment, stored) :: contents,
        ⟨segment.name, segment.docBase, scorer⟩ :: found, ⟨?_, ?_⟩, ?_, ?_⟩
      · rw [List.map_cons, hcontents.segments]
      · intro x hx
        rcases List.mem_cons.mp hx with rfl | hx
        · exact hholds
        · exact hcontents.holds x hx
      · rw [hhits, List.append_assoc]
        rfl
      · rw [allPairs, List.flatMap_cons, List.flatMap_cons]
        exact Match.best_append (hbest k hk) hfound

/-- What a search of all segments keeps are the best pairs. -/
theorem search_steady (heng : env.Faithful files metric calm) {config : QueryConfig}
    {segments : List Segment} {query : Query} {outcome : SearchOutcome} {k : Nat}
    (hk : k ≤ query.k) (hnumbered : ∀ segment ∈ segments, segment.Numbered t)
    (h : Steady files calm t c s)
    (hsearch : search env config segments query c s = (.ok outcome, c', s'))
    (hfull : outcome.failures = []) :
    ∃ contents, Contents t segments contents ∧
      outcome.topK k = Match.best k (allPairs metric query.vector contents) := by
  unfold search at hsearch
  split at hsearch
  · cases hsearch
  · obtain ⟨-, contents, found, hcontents, hhits, hbest⟩ :=
      searchAll_steady heng hk hnumbered h hsearch hfull
    refine ⟨contents, hcontents, ?_⟩
    calc outcome.topK k
        = Match.best k (outcome.hits.flatMap SegmentHits.renumbered) := rfl
      _ = Match.best k (found.flatMap SegmentHits.renumbered) := by rw [hhits, List.nil_append]
      _ = Match.best k (allPairs metric query.vector contents) := hbest

end Executor

/-! ## Every search -/

/-- **The matches of a search are the first of all pairs of a distance and a document.** The pairs
are those of every vector in every segment, in the order of their distance and, where that is equal,
of their documents. -/
theorem topK_of_search (heng : env.Faithful files metric calm) {config : QueryConfig}
    {segments : List Segment} {query : Query} {outcome : SearchOutcome} {k : Nat}
    (hcalm : calm s) (hcurrent : c.Current (files s))
    (hnumbered : ∀ segment ∈ segments, segment.Numbered (files s)) (hk : k ≤ query.k)
    (hsearch : Executor.search env config segments query c s = (.ok outcome, c', s'))
    (hfull : outcome.failures = []) :
    ∃ contents, ∃ ranked : List Match, Executor.Contents (files s) segments contents ∧
      ranked.Perm (Executor.allPairs metric query.vector contents) ∧
      ranked.Pairwise Match.Precedes ∧ outcome.topK k = ranked.take k := by
  have hsteady : Steady files calm (files s) c s := ⟨hcalm, rfl, hcurrent⟩
  obtain ⟨contents, hcontents, hbest⟩ :=
    Executor.search_steady heng hk hnumbered hsteady hsearch hfull
  have hsorted := Match.rank_ranked (Executor.allPairs metric query.vector contents)
  exact ⟨contents, Match.rank _, hcontents, Match.rank_perm _,
    hsorted.imp Match.key_le_iff.mp, hbest⟩

end Search

/-! The shelf has two segments, and the third vector on it ties with the second. -/

namespace Shelf

def bytesA : Bytes := FlatIndex.encode [0, 1] [[⟨7⟩], [⟨3⟩]]

def bytesB : Bytes := FlatIndex.encode [0] [[⟨3⟩]]

def files : FileTree where
  workingDirectory := ["w"]
  nodes := [(["w"], .directory), (["w", "a.hnsw"], .file bytesA), (["w", "b.hnsw"], .file bytesB)]

def segmentA : Segment := { directory := ⟨"."⟩, name := "a", files := ["a.hnsw"] }

def segmentB : Segment :=
  { directory := ⟨"/w"⟩, name := "b", files := ["b.liv", "b.hnsw"], docBase := 2 }

/-- The distance is the first component, whatever the query is. -/
def metric : Metric := fun stored _ => Binary32.decode (stored.take 4)

def query : Query :=
  { field := "v", vector := [⟨0⟩], k := 2, field_ne := rfl, vector_ne := rfl, finite := rfl,
    k_pos := by decide }

def found : Except Error SearchOutcome × Cache FlatIndex × FileTree × Nat :=
  Executor.search (Environment.flat metric) {} [segmentA, segmentB] query (Cache.new {} none)
    (files, 0)

theorem holdsA : segmentA.Holds files (some ⟨bytesA, 1, 2⟩) :=
  ⟨⟨"./a.hnsw"⟩, by decide +kernel, FlatIndex.filed_of_load (by decide +kernel)⟩

theorem holdsB : segmentB.Holds files (some ⟨bytesB, 1, 1⟩) :=
  ⟨⟨"/w/b.hnsw"⟩, by decide +kernel, FlatIndex.filed_of_load (by decide +kernel)⟩

theorem numbered : ∀ segment ∈ [segmentA, segmentB], segment.Numbered files := by
  have hdocsA : FlatIndex.docs ⟨bytesA, 1, 2⟩ = [0, 1] := by decide +kernel
  have hdocsB : FlatIndex.docs ⟨bytesB, 1, 1⟩ = [0] := by decide +kernel
  intro segment hsegment
  simp only [List.mem_cons, List.not_mem_nil, or_false] at hsegment
  rcases hsegment with rfl | rfl
  · refine ⟨fun index hholds => ?_, fun index hholds => ?_⟩ <;>
      rw [Option.some.inj (hholds.unique holdsA), hdocsA]
    · decide
    · rw [List.forall_mem_cons, List.forall_mem_singleton]
      decide +kernel
  · refine ⟨fun index hholds => ?_, fun index hholds => ?_⟩ <;>
      rw [Option.some.inj (hholds.unique holdsB), hdocsB]
    · decide
    · rw [List.forall_mem_singleton]
      decide +kernel

theorem contents_eq {contents : List (Segment × Option FlatIndex)}
    (h : Executor.Contents files [segmentA, segmentB] contents) :
    contents = [(segmentA, some ⟨bytesA, 1, 2⟩), (segmentB, some ⟨bytesB, 1, 1⟩)] := by
  obtain ⟨hsegments, hholds⟩ := h
  rcases contents with _ | ⟨⟨a, x⟩, _ | ⟨⟨b, y⟩, _ | ⟨_, _⟩⟩⟩
  · cases hsegments
  · cases hsegments
  · cases hsegments
    have hx := (hholds _ List.mem_cons_self).unique holdsA
    have hy := (hholds _ (List.mem_cons_of_mem _ List.mem_cons_self)).unique holdsB
    rw [show x = _ from hx, show y = _ from hy]
    rfl
  · cases hsegments

end Shelf

theorem topK_of_shelf : ∃ outcome, Shelf.found.1 = .ok outcome ∧ outcome.failures = [] ∧
    outcome.topK 2 = [⟨1, ⟨3⟩⟩, ⟨2, ⟨3⟩⟩] := by
  have hempty : Cache.Current Shelf.files (Cache.new {} none) := List.forall_mem_nil _
  have hfound : (match Shelf.found.1 with
      | .ok outcome => outcome.failures.isEmpty
      | .error _ => false) = true := by decide +kernel
  rcases hsearch : Shelf.found with ⟨e | outcome, c', s'⟩
  · simp [hsearch] at hfound
  · have hfull : outcome.failures = [] := by simpa [hsearch] using hfound
    obtain ⟨contents, ranked, hcontents, hperm, hsorted, htop⟩ :=
      topK_of_search (k := 2) (s := (Shelf.files, 0)) (Environment.flat_exact _).faithful trivial
        hempty Shelf.numbered (by decide) hsearch hfull
    refine ⟨outcome, rfl, hfull, ?_⟩
    rw [Shelf.contents_eq hcontents] at hperm
    have hranked : ranked = [⟨1, ⟨3⟩⟩, ⟨2, ⟨3⟩⟩, ⟨0, ⟨7⟩⟩] := by
      rw [Match.eq_rank hperm (hsorted.imp Match.key_le_iff.mpr)]
      symm
      apply Match.eq_rank <;> decide +kernel
    rw [htop, hranked]
    rfl

end Sidecar
