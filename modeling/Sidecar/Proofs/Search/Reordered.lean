import Sidecar.Proofs.Search.Afresh
import Sidecar.Proofs.Search.Verdict

/-!
# The order of the segments

A search goes through its segments one after the other, and what it loads for one may drive out what
the next would have found. So two searches over the same segments in different orders load and evict
differently and leave different caches behind. None of this is seen in what they answer
(`search_of_reordered`), as long as the entries of the cache hold what is in their files.

The reason is that a cache in order answers for a segment what every cache in order answers
(`InOrder.searchSegment_eq`), so the answers do not depend on what was searched before, and a reordered
search has the same answers in another order (`InOrder.answers_eq`). What a search makes of its answers
is then a matter of lists: it fails if one of them is fatal, and else its hits and its failures are two
parts of them (`searchAll_eq_ok_iff`). The best matches are the first of a ranked list, and a ranked
list does not depend on the order in which it was gathered.

Segments whose path is too long for a load are left out. An earlier segment can bring in the entry by
which such a path is found, so for them the order shows (`search_of_long_path`).
-/

set_option autoImplicit false

namespace Sidecar

variable {σ ι : Type}

/-! ## What a search makes of its answers -/

namespace Executor

/-- An answer that ends the search. -/
def Fatal : Except Error Scorer → Prop
  | .ok _ => False
  | .error e => e.isSegmentLocal = false

section Answers

variable {env : Environment σ ι} {limits : QueryConfig} {query : Query} {segments : List Segment}
  {outcome outcome' : SearchOutcome} {c : Cache ι} {s : σ}

/-- A search that is not ended puts every answer in its place. -/
theorem searchAll_eq_ok_iff :
    (searchAll env limits query segments outcome c s).1 = .ok outcome' ↔
      (∀ result ∈ answers env limits query segments c s, ¬ Fatal result) ∧
      outcome' =
        { hits := outcome.hits
            ++ (segments.zip (answers env limits query segments c s)).filterMap hit?
          failures := outcome.failures
            ++ (segments.zip (answers env limits query segments c s)).filterMap failure? } := by
  induction segments generalizing outcome c s with
  | nil => simp [searchAll, answers, eq_comm]
  | cons segment rest ih =>
    rw [searchAll]
    rcases hanswer : searchSegment env limits segment query c s with ⟨e | scorer, c', s'⟩
    · cases hlocal : e.isSegmentLocal with
      | true =>
        have hnot : ¬ Fatal (.error e) := fun hfatal => by
          rw [Fatal, hlocal] at hfatal
          cases hfatal
        simp [answers, hanswer, List.filterMap_cons, hit?, failure?, hlocal, hnot, ih]
      | false =>
        have hfatal : Fatal (.error e) := hlocal
        simp [answers, hanswer, hlocal, hfatal]
    · have hnot : ¬ Fatal (.ok scorer) := id
      simp [answers, hanswer, List.filterMap_cons, hit?, failure?, hnot, ih]

end Answers

/-! ## Answers that do not depend on the order -/

section Reordered

variable {env : Environment σ FlatIndex} {files : σ → FileTree} {metric : Metric} {calm : σ → Prop}
  {t : FileTree} {config : CacheConfig} {shut : Bool} {c c' : Cache FlatIndex} {s s' : σ}

/-- In order, every segment answers as if it came first. -/
theorem InOrder.answers_eq (heng : env.Exact files metric calm)
    (h : Cache.InOrder files calm t config shut c s)
    (h' : Cache.InOrder files calm t config shut c' s') (limits : QueryConfig) (query : Query)
    {segments : List Segment} (hsegments : ∀ segment ∈ segments, segment.Addressed) :
    answers env limits query segments c' s'
      = segments.map fun segment => (searchSegment env limits segment query c s).1 := by
  induction segments generalizing c' s' with
  | nil => rfl
  | cons segment rest ih =>
    obtain ⟨hsame, hkept, -⟩ := InOrder.searchSegment_eq heng h' h limits query
      (hsegments segment List.mem_cons_self)
    have hrest : ∀ segment ∈ rest, segment.Addressed :=
      fun other hother => hsegments other (List.mem_cons_of_mem segment hother)
    rw [answers, List.map_cons, ← ih hkept hrest, ← hsame]

/-- The outcome of a search, told from what each segment answers by itself. -/
theorem InOrder.search_eq_ok_iff (heng : env.Exact files metric calm)
    (h : Cache.InOrder files calm t config shut c s) (limits : QueryConfig) (query : Query)
    {segments : List Segment} (hsegments : ∀ segment ∈ segments, segment.Addressed)
    (outcome : SearchOutcome) :
    let answer := fun segment => (searchSegment env limits segment query c s).1
    (search env limits segments query c s).1 = .ok outcome ↔
      checkK limits query = .ok () ∧ (∀ segment ∈ segments, ¬ Fatal (answer segment)) ∧
      outcome =
        { hits := segments.filterMap fun segment => hit? (segment, answer segment)
          failures := segments.filterMap fun segment => failure? (segment, answer segment) } := by
  intro answer
  unfold search
  cases hk : checkK limits query with
  | error e => simp
  | ok _ =>
    rw [searchAll_eq_ok_iff, InOrder.answers_eq heng h h limits query hsegments,
      ← List.map_prod_left_eq_zip]
    simp [answer, List.filterMap_map]

end Reordered

end Executor

theorem SearchOutcome.topK_congr {outcome outcome' : SearchOutcome}
    (h : outcome.hits.Perm outcome'.hits) (k : Nat) : outcome.topK k = outcome'.topK k := by
  have hmatches := h.flatMap_right SegmentHits.renumbered
  rw [SearchOutcome.topK, SearchOutcome.topK, Match.rank_congr hmatches]

/-! ## Every search -/

section Search

variable {env : Environment σ FlatIndex} {files : σ → FileTree} {metric : Metric} {calm : σ → Prop}

/-- **The order of the segments does not matter.** As long as the entries of a cache hold what is in
their files, whatever has happened to it and whatever its budget is, searches over the same segments
in two orders both fail or both succeed. If they succeed they report the same failures, and the best
matches are the same, as many as are asked for. -/
theorem search_of_reordered (heng : env.Exact files metric calm) (config : CacheConfig)
    (observer : Option (Watcher Unit)) (world : σ) (actions : List (Action σ FlatIndex)) :
    let s := (Service.start config observer world).run env actions
    calm s.world → s.cache.Current (files s.world) →
    ∀ (limits : QueryConfig) (query : Query) (segments segments' : List Segment),
      segments.Perm segments' → (∀ segment ∈ segments, segment.Addressed) →
      let found := (Executor.search env limits segments query s.cache s.world).1
      let found' := (Executor.search env limits segments' query s.cache s.world).1
      ((∃ e, found = .error e) ↔ ∃ e, found' = .error e) ∧
      ∀ outcome outcome', found = .ok outcome → found' = .ok outcome' →
        outcome.failures.Perm outcome'.failures ∧ ∀ k, outcome.topK k = outcome'.topK k := by
  intro s hcalm hcurrent limits query segments segments' hperm hsegments found found'
  have hempty : (Service.start config observer world).cache.Each fun h : Handle FlatIndex =>
      h.size = h.index.size := List.forall_mem_nil _
  have hweighed : s.cache.Each fun h => h.size = h.index.size :=
    hempty.run (fun _ index _ => heng.size index) actions
  have horder := Service.inOrder_of_current (s := s) rfl hcalm hweighed hcurrent
  have hsegments' : ∀ segment ∈ segments', segment.Addressed :=
    fun segment hsegment => hsegments segment (hperm.mem_iff.mpr hsegment)
  have hfound := Executor.InOrder.search_eq_ok_iff heng horder limits query hsegments
  have hfound' := Executor.InOrder.search_eq_ok_iff heng horder limits query hsegments'
  have hsucceeds : (∃ outcome, found = .ok outcome) ↔ ∃ outcome, found' = .ok outcome := by
    simp only [found, found', hfound, hfound', exists_and_left, exists_eq, and_true,
      hperm.mem_iff]
  refine ⟨?_, fun outcome outcome' hok hok' => ?_⟩
  · have hfails : ∀ r : Except Error SearchOutcome,
        (∃ e, r = .error e) ↔ ¬ ∃ outcome, r = .ok outcome := by
      rintro (e | outcome) <;> simp
    rw [hfails, hfails, hsucceeds]
  · obtain ⟨-, -, rfl⟩ := (hfound outcome).mp hok
    obtain ⟨-, -, rfl⟩ := (hfound' outcome').mp hok'
    exact ⟨hperm.filterMap _, fun k => SearchOutcome.topK_congr (hperm.filterMap _) k⟩

end Search

/-! ## A shelf with little room -/

namespace Shelf

/-- There is room for one sidecar at a time. -/
def config : CacheConfig := { weightCircuitBreaker := true, maxWeightBytes := 45 }

/-- One of the sidecars is in the cache. -/
def actions : List (Action (FileTree × Nat) FlatIndex) := [.get ⟨"./a.hnsw"⟩]

def service : Service (FileTree × Nat) FlatIndex :=
  (Service.start config none (files, 0)).run (Environment.flat metric) actions

/-- A segment whose sidecar is not there. -/
def missing (name : String) : Segment :=
  { directory := ⟨"/w"⟩, name, files := [name ++ ".hnsw"], docBase := 9 }

def forward : List Segment := [segmentA, missing "g", segmentB, missing "h"]

def searched (segments : List Segment) :
    Except Error SearchOutcome × Cache FlatIndex × FileTree × Nat :=
  Executor.search (Environment.flat metric) {} segments query service.cache service.world

theorem addressed_forward : ∀ segment ∈ forward, segment.Addressed := by
  have hnames : ∀ segment ∈ forward, ∀ name ∈ segment.files, '/' ∉ name.toList := by
    decide +kernel
  have hshort : ∀ segment ∈ forward, segment.resolve.toOption.join.all
      (·.text.utf8ByteSize < 4096) = true := by decide +kernel
  intro segment hsegment
  refine ⟨hnames segment hsegment, fun path hresolve => ?_⟩
  have hpath := hshort segment hsegment
  rw [hresolve] at hpath
  exact of_decide_eq_true hpath

/-- Searched forward and backward the shelf leaves different sidecars in the cache. The matches and
the failures are the same. -/
theorem search_of_shelf_reversed :
    service.cache.Current service.world.1 ∧ forward.Perm forward.reverse ∧
    (∀ segment ∈ forward, segment.Addressed) ∧
    (searched forward).2.1.entries.map (·.handle.path) = [⟨"/w/b.hnsw"⟩] ∧
    (searched forward.reverse).2.1.entries.map (·.handle.path) = [⟨"./a.hnsw"⟩] ∧
    ∃ outcome outcome', (searched forward).1 = .ok outcome ∧
      (searched forward.reverse).1 = .ok outcome' ∧
      outcome.failures.map (·.segment) = ["g", "h"] ∧
      outcome.failures.Perm outcome'.failures ∧ ∀ k, outcome.topK k = outcome'.topK k := by
  have hcurrent : service.cache.Current service.world.1 := by
    unfold Cache.Current Cache.Each
    decide +kernel
  have horder := search_of_reordered (Environment.flat_exact metric) config none (files, 0) actions
  rw [← service] at horder
  obtain ⟨hfails, hsame⟩ := horder trivial hcurrent {} query forward forward.reverse
    forward.reverse_perm.symm addressed_forward
  have hfound : ((searched forward).1.map fun outcome => outcome.failures.map (·.segment))
      = .ok ["g", "h"] := by decide +kernel
  refine ⟨hcurrent, forward.reverse_perm.symm, addressed_forward, by decide +kernel,
    by decide +kernel, ?_⟩
  rcases hforward : (searched forward).1 with e | outcome
  · rw [hforward] at hfound
    cases hfound
  · rcases hbackward : (searched forward.reverse).1 with e | outcome'
    · obtain ⟨e, he⟩ := hfails.mpr ⟨e, hbackward⟩
      cases hforward.symm.trans he
    · rw [hforward] at hfound
      refine ⟨outcome, outcome', rfl, rfl, Except.ok.inj hfound, hsame _ _ hforward hbackward⟩

end Shelf

/-! ## A path that is too long for a load -/

namespace Alias

/-- A cache with nothing in it, after a failed load. -/
def disappointed : Cache FlatIndex :=
  { Cache.new {} none with tally := { misses := 1, loadFailures := 1 } }

theorem searchSegment_of_empty {n : Nat} (h : 4096 ≤ n + 1) :
    Executor.searchSegment env {} (segment (n + 1)) query (Cache.new {} none) (files, 0)
      = (.error (.loadFailed (path (n + 1)).text FileError.nameTooLong.message),
        disappointed, files, 0) := by
  have hkey : Cache.validateKey (path (n + 1)) = .ok () := by
    simp only [Cache.validateKey, Path.fileName, components_path]
    simp [path]
  have hload : env.load (path (n + 1)) (files, 0)
      = (.error (.loadFailed (path (n + 1)).text FileError.nameTooLong.message), files, 0) :=
    Prod.ext (load_path h) rfl
  have hk : Executor.checkK {} query = .ok () := by decide
  simp [Executor.searchSegment, hk, resolve_segment, Executor.queryPath, Executor.attempt, Cache.get,
    Cache.request, Cache.new, hkey, Cache.lookup, Cache.entry?, Cache.loadAndInsert, Cache.fetch,
    hload, disappointed]

theorem searchSegment_eq (n : Nat) (c : Cache FlatIndex) (s : FileTree × Nat) :
    Executor.searchSegment env {} (segment (n + 1)) query c s
      = ((Executor.queryPath env {} (path (n + 1)) query c s).1.map .ofResults,
        (Executor.queryPath env {} (path (n + 1)) query c s).2) := by
  have hk : Executor.checkK {} query = .ok () := by decide
  rw [Executor.searchSegment, hk, resolve_segment]
  rcases hquery : Executor.queryPath env {} (path (n + 1)) query c s with ⟨_ | _, _, _⟩ <;>
    simp [hquery, Except.map]

theorem answers_pair (first second : Segment) (c : Cache FlatIndex) (s : FileTree × Nat) :
    Executor.answers env {} query [first, second] c s =
      let after := (Executor.searchSegment env {} first query c s).2
      [(Executor.searchSegment env {} first query c s).1,
        (Executor.searchSegment env {} second query after.1 after.2).1] := rfl

/-- What is answered for the sidecar when it can be loaded, or is there. -/
def found : Scorer := .ofResults [⟨0, ⟨3⟩⟩]

theorem answers_short_long :
    Executor.answers env {} query [segment 1, segment 4100] (Cache.new {} none) (files, 0)
      = [.ok found, .ok found] := by
  have hfirst : (Executor.queryPath env {} (path 1) query (Cache.new {} none) (files, 0)).1
      = .ok [⟨0, ⟨3⟩⟩] := by decide +kernel
  have hsecond : (Executor.searchSegment env {} (segment 4100) query
      (Executor.queryPath env {} (path 1) query (Cache.new {} none) (files, 0)).2.1
      (Executor.queryPath env {} (path 1) query (Cache.new {} none) (files, 0)).2.2).1
        = .ok found :=
    searchSegment_of_found (by decide +kernel) (by decide +kernel) 4099
  rw [answers_pair, searchSegment_eq 0]
  simp only [hfirst, hsecond]
  rfl

theorem answers_long_short :
    Executor.answers env {} query [segment 4100, segment 1] (Cache.new {} none) (files, 0)
      = [.error (.loadFailed (path 4100).text FileError.nameTooLong.message), .ok found] := by
  have hquery : (Executor.queryPath env {} (path 1) query disappointed (files, 0)).1
      = .ok [⟨0, ⟨3⟩⟩] := by decide +kernel
  have hsecond : (Executor.searchSegment env {} (segment 1) query disappointed (files, 0)).1
      = .ok found := by
    rw [searchSegment_eq 0, hquery]
    rfl
  rw [answers_pair, searchSegment_of_empty (n := 4099) (by decide)]
  simp only [hsecond]

end Alias

/-- **The order shows to whoever writes a path with 4100 slashes.** After a shorter spelling of the path
the index is found in the cache, and before it a load fails. -/
theorem search_of_long_path :
    ¬ ∀ actions : List (Action (FileTree × Nat) FlatIndex),
      let s := (Service.start {} none (Alias.files, 0)).run Alias.env actions
      s.cache.Current s.world.1 →
      ∀ (limits : QueryConfig) (query : Query) (segments segments' : List Segment),
        segments.Perm segments' →
        (∀ segment ∈ segments, ∀ name ∈ segment.files, '/' ∉ name.toList) →
        let found := (Executor.search Alias.env limits segments query s.cache s.world).1
        let found' := (Executor.search Alias.env limits segments' query s.cache s.world).1
        ((∃ e, found = .error e) ↔ ∃ e, found' = .error e) ∧
        ∀ outcome outcome', found = .ok outcome → found' = .ok outcome' →
          outcome.failures.Perm outcome'.failures ∧ ∀ k, outcome.topK k = outcome'.topK k := by
  intro h
  have hnames : ∀ segment ∈ [Alias.segment 1, Alias.segment 4100],
      ∀ name ∈ segment.files, '/' ∉ name.toList := by
    refine List.forall_mem_cons.mpr ⟨?_, List.forall_mem_singleton.mpr ?_⟩ <;>
    · show ∀ name ∈ ["x.hnsw", "x.doc"], '/' ∉ name.toList
      decide +kernel
  have hk : Executor.checkK {} Alias.query = .ok () := by decide
  have hlaw := h []
  simp only [Service.run, List.foldl_nil, Service.start] at hlaw
  obtain ⟨-, hsame⟩ := hlaw (List.forall_mem_nil _) {} Alias.query
    [Alias.segment 1, Alias.segment 4100] [Alias.segment 4100, Alias.segment 1] (.swap _ _ _) hnames
  simp only [Executor.search, hk, Executor.searchAll_eq_ok_iff, Alias.answers_short_long,
    Alias.answers_long_short] at hsame
  have hfound : ∀ result ∈ [.ok Alias.found, .ok Alias.found], ¬ Executor.Fatal result := by
    simp [Executor.Fatal]
  have hlocal : ∀ result ∈ [.error (.loadFailed (Alias.path 4100).text FileError.nameTooLong.message),
      .ok Alias.found], ¬ Executor.Fatal result := by
    simp [Executor.Fatal, Error.isSegmentLocal]
  have hfailures := (hsame _ _ ⟨hfound, rfl⟩ ⟨hlocal, rfl⟩).1
  simp [Executor.failure?, List.filterMap_cons] at hfailures

end Sidecar
