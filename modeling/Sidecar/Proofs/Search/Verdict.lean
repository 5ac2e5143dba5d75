import Sidecar.Proofs.Cache.Alike
import Sidecar.Proofs.Flat.Bounds
import Sidecar.Search.Executor

/-!
# What ends a search

A search ends without an outcome for three reasons, and they can be read off before it starts: the
query asks for too many matches, a segment has several sidecars, or a segment has a sidecar while
the cache is shut down (`Segment.Fatal`). Everything else that goes wrong is noted in the outcome
and costs one segment (`Missed`).

That there is no fourth reason is a matter of following every error to the place that it comes
from. Two of the errors that end a search cannot come up there. A path that was resolved always
names a file, because its name has the extension of a sidecar, so the cache takes it for a key. And
the cache does not shut down while a search goes on. That the engine blames the path for a load that
fails is all that is asked of it (`Environment.Candid`); what it says about a query is put into
other words anyway.

`Executor.search_verdict` is for every state of the cache, also for states that the cache never
gets into. Two numbers that callers are free to choose can be too large for it. With the largest
number of retries no attempt is made, so a cache that is shut down is not noticed
(`Executor.attempts`). And a query for 2^60 matches is not answered at all: the room for them cannot be
allocated (`Environment.reserving`).
-/

set_option autoImplicit false

namespace Sidecar

variable {σ ι : Type}

/-! ## Engines that blame the path -/

/-- Whatever the reason, a load that fails is reported as a failed load of its path. -/
def Environment.Candid (env : Environment σ ι) : Prop :=
  ∀ path s e s', env.load path s = (.error e, s') → ∃ reason, e = .loadFailed path.text reason

theorem FlatIndex.error_of_load {files : FileTree} {path : Path} {e : Error}
    (h : FlatIndex.load files path = .error e) : ∃ reason, e = .loadFailed path.text reason := by
  unfold FlatIndex.load at h
  split at h
  · cases h
    exact ⟨_, rfl⟩
  · split at h
    · cases h
      exact ⟨_, rfl⟩
    · cases h

theorem Environment.flat_candid (metric : Metric) : (flat metric).Candid := by
  intro path s e s' h
  exact FlatIndex.error_of_load (congrArg Prod.fst h)

theorem Host.environment_candid : environment.Candid := by
  rintro path ⟨files, host⟩ e s' h
  have hload : Host.load path (files, host) = (.error e, s') := h
  unfold Host.load at hload
  dsimp only at hload
  split at hload
  · cases hload
    exact ⟨_, rfl⟩
  · exact FlatIndex.error_of_load (congrArg Prod.fst hload)

/-! ## Engines that need room -/

/-- The engine with a note of the room for the matches that could not be had. There a computer breaks
off, and what is answered later is of no account. -/
def Environment.reserving (env : Environment σ FlatIndex) :
    Environment (σ × Option Trap) FlatIndex where
  now world := env.now world.1
  presence world := env.presence world.1
  load path world := ((env.load path world.1).1, (env.load path world.1).2, world.2)
  query index vector k world :=
    ((env.query index vector k world.1).1, (env.query index vector k world.1).2,
      match index.reserve vector k with
      | .ok () => world.2
      | .error trap => some trap)
  size := env.size

namespace Cache

variable {env : Environment σ FlatIndex} {c : Cache FlatIndex} {s : σ}

theorem fetch_reserving (path : Path) (trap : Option Trap) :
    c.fetch env.reserving path (s, trap)
      = ((c.fetch env path s).1, (c.fetch env path s).2.1, (c.fetch env path s).2.2, trap) := by
  have hload : env.reserving.load path (s, trap)
      = ((env.load path s).1, (env.load path s).2, trap) := rfl
  unfold fetch
  split
  · rfl
  · rw [hload]
    rcases env.load path s with ⟨e | index, s'⟩ <;> rfl

/-- Requests take no room. -/
theorem get_reserving (path : Path) (trap : Option Trap) : c.get env.reserving path (s, trap)
    = ((c.get env path s).1, (c.get env path s).2.1, (c.get env path s).2.2, trap) := by
  have hrequest : c.request env.reserving path (s, trap) = c.request env path s := rfl
  unfold get
  rw [hrequest]
  rcases c.request env path s with ⟨e | _ | h, c₁⟩
  · rfl
  · have hlookup : c₁.lookup (env.reserving.now (s, trap)) path = c₁.lookup (env.now s) path := rfl
    dsimp only
    rw [loadAndInsert, loadAndInsert, hlookup]
    rcases c₁.lookup (env.now s) path with ⟨_ | found, c₂⟩
    · dsimp only
      rw [fetch_reserving]
      rcases c₂.fetch env path s with ⟨e | h, c₃, s₃⟩ <;> rfl
    · rfl
  · rfl

/-- Queries for less than 2^60 matches do, and have it. -/
theorem query_reserving {k : Nat} (hroom : k + 1 < Nat.pow 2 60) (h : Handle FlatIndex)
    (vector : Embedding) (trap : Option Trap) : c.query env.reserving h vector k (s, trap)
      = ((c.query env h vector k s).1, (c.query env h vector k s).2, trap) := by
  have hquery : env.reserving.query h.index vector k (s, trap)
      = ((env.query h.index vector k s).1, (env.query h.index vector k s).2, trap) := by
    simp only [Environment.reserving, h.index.reserve_of_lt hroom]
  unfold query
  split
  · rfl
  · exact hquery

end Cache

/-! ## The sidecars of a segment -/

namespace Segment

/-- The files of the segment that are sidecars by their names. -/
def sidecars (segment : Segment) : List String :=
  segment.files.filter (Naming.isSidecarName · segment.layout)

/-- A sidecar's name is the name of a file wherever it is joined to. -/
theorem validateKey_sidecar {name : String} {layout : Layout} (directory : Path)
    (h : Naming.isSidecarName name layout = true) :
    Cache.validateKey (directory.join name) = .ok () := by
  have hextension : (Path.mk name).extension = some layout.extension := by
    simpa [Naming.isSidecarName] using h
  obtain ⟨file, hfile, -⟩ := Option.bind_eq_some_iff.mp hextension
  have hjoined := Path.fileName_join directory hfile
  have hnonempty : (directory.join name).text.isEmpty = false := by
    rw [Bool.eq_false_iff]
    intro hempty
    rw [Path.fileName_eq_some_iff, Path.named, Path.steps, String.isEmpty_iff.mp hempty] at hjoined
    simp [Path.pieces] at hjoined
  rw [Cache.validateKey, hnonempty, hjoined]
  rfl

theorem resolve_cases (segment : Segment) :
    (segment.sidecars.length = 0 ∧ segment.resolve = .ok none) ∨
    (segment.sidecars.length = 1 ∧ ∃ path, segment.resolve = .ok (some path) ∧
      Cache.validateKey path = .ok ()) ∨
    (2 ≤ segment.sidecars.length ∧
      segment.resolve = .error (.ambiguousSidecar segment.name segment.sidecars.length)) := by
  unfold resolve
  rw [← sidecars]
  rcases hsidecars : segment.sidecars with _ | ⟨name, _ | ⟨other, more⟩⟩
  · exact Or.inl ⟨rfl, rfl⟩
  · have hname : name ∈ segment.sidecars := by
      rw [hsidecars]
      exact List.mem_singleton_self name
    have hmarked := (List.mem_filter.mp hname).2
    exact Or.inr (Or.inl ⟨rfl, _, rfl, validateKey_sidecar segment.directory hmarked⟩)
  · exact Or.inr (Or.inr ⟨by simp, rfl⟩)

/-- The reasons for which a segment ends a search. -/
inductive Fatal (shut : Bool) (segment : Segment) : Error → Prop
  | ambiguous (several : 2 ≤ segment.sidecars.length) :
      Fatal shut segment (.ambiguousSidecar segment.name segment.sidecars.length)
  | shutDown (single : segment.sidecars.length = 1) (closed : shut = true) :
      Fatal shut segment .shutDown

theorem Fatal.not_isSegmentLocal {shut : Bool} {segment : Segment} {e : Error}
    (h : segment.Fatal shut e) : e.isSegmentLocal = false := by
  cases h <;> rfl

theorem Fatal.unique {shut : Bool} {segment : Segment} {e e' : Error} (h : segment.Fatal shut e)
    (h' : segment.Fatal shut e') : e = e' := by
  cases h with
  | ambiguous several =>
    cases h' with
    | ambiguous => rfl
    | shutDown single => omega
  | shutDown single =>
    cases h' with
    | ambiguous several => omega
    | shutDown => rfl

end Segment

/-! ## What may go wrong with one path -/

/-- The failures that cost a search one segment. -/
inductive Missed (path : Path) : Error → Prop
  | load (reason : String) : Missed path (.loadFailed path.text reason)
  | budget (size budget : Nat) : Missed path (.weightBudgetExceeded path.text size budget)
  | query (source reason : String) : Missed path (.queryFailed source reason)
  | race (attempts : Nat) : Missed path (.evictionRace path.text attempts)

theorem Missed.isSegmentLocal {path : Path} {e : Error} (h : Missed path e) :
    e.isSegmentLocal = true := by
  cases h <;> rfl

variable {env : Environment σ ι} {path : Path} {c c' : Cache ι} {s s' : σ} {e : Error}

theorem Environment.Candid.loadAndInsert (hload : env.Candid) (hopen : c.isShutDown = false)
    (h : (c.loadAndInsert env path s).1 = .error e) : Missed path e := by
  have hlookup := (Cache.alike_lookup c (env.now s) path).isShutDown
  unfold Cache.loadAndInsert at h
  rcases hl : c.lookup (env.now s) path with ⟨_ | found, c₁⟩
  · rw [hl, hopen] at hlookup
    have hopen₁ : c₁.isShutDown = false := hlookup
    simp only [hl] at h
    rcases c₁.fetch_cases env path s with ⟨hshut, -⟩ | ⟨-, e', s', hfailed, heq⟩ |
      ⟨-, index, s', -, heq⟩
    · rw [hopen₁] at hshut
      cases hshut
    · obtain ⟨reason, rfl⟩ := hload path s e' s' hfailed
      simp only [heq, Except.error.injEq] at h
      exact h ▸ Missed.load reason
    · simp only [heq] at h
      rcases Cache.accept_cases env _ _ s' with
        ⟨budget, -, -, haccept⟩ | ⟨-, hshut, -⟩ | ⟨-, -, haccept⟩
      · rw [haccept, Except.error.injEq] at h
        exact h ▸ Missed.budget _ budget
      · cases hopen₁.symm.trans hshut
      · rw [haccept] at h
        cases h
  · simp only [hl] at h
    cases h

theorem Environment.Candid.get (hload : env.Candid) (hkey : Cache.validateKey path = .ok ())
    (hopen : c.isShutDown = false) (h : (c.get env path s).1 = .error e) : Missed path e := by
  rcases c.get_cases env path s with ⟨hshut, -⟩ | ⟨-, e', hinvalid, -⟩ | ⟨-, -, found, c₁, -, heq⟩ |
    ⟨-, -, c₁, hlookup, heq⟩
  · rw [hopen] at hshut
    cases hshut
  · rw [hkey] at hinvalid
    cases hinvalid
  · rw [heq] at h
    cases h
  · have hmissed : c₁.isShutDown = false := by
      have hsame := (Cache.alike_lookup c (env.now s) path).isShutDown
      rw [hlookup] at hsame
      exact hsame.trans hopen
    rw [heq] at h
    refine hload.loadAndInsert ?_ h
    exact hmissed

namespace Executor

variable {query : Query} {config : QueryConfig}

theorem isShutDown_attempt (env : Environment σ ι) (path : Path) (query : Query)
    (allowed left : Nat) (c : Cache ι) (s : σ) :
    (attempt env path query allowed left c s).2.1.isShutDown = c.isShutDown := by
  induction left generalizing c s with
  | zero => rfl
  | succ left ih =>
    have hget := Cache.isShutDown_get env c path s
    unfold attempt
    rcases heq : c.get env path s with ⟨e | h, c₁, s₁⟩
    · rw [heq] at hget
      exact hget
    · rw [heq] at hget
      dsimp only
      split
      · exact hget
      · exact (ih _ _).trans hget
      · exact hget

theorem attempt_of_isShutDown (hshut : c.isShutDown = true) (allowed left : Nat) :
    attempt env path query allowed (left + 1) c s = (.error .shutDown, c, s) := by
  have hget : c.get env path s = (.error .shutDown, c, s) := by
    simp [Cache.get, Cache.request, hshut]
  simp [attempt, hget]

theorem error_of_attempt (hload : env.Candid) (hkey : Cache.validateKey path = .ok ())
    {allowed left : Nat} (hopen : c.isShutDown = false)
    (h : (attempt env path query allowed left c s).1 = .error e) : Missed path e := by
  induction left generalizing c s with
  | zero =>
    cases h
    exact Missed.race allowed
  | succ left ih =>
    have hkept := Cache.isShutDown_get env c path s
    unfold attempt at h
    rcases hget : c.get env path s with ⟨e' | handle, c₁, s₁⟩
    · simp only [hget, Except.error.injEq] at h
      subst h
      exact hload.get hkey hopen (congrArg Prod.fst hget)
    · rw [hget] at hkept
      simp only [hget] at h
      split at h
      · cases h
      · exact ih (hkept.trans hopen) h
      · next other _ _ _ =>
        cases h
        cases other <;> exact Missed.query _ _

/-! ## One segment -/

variable {segment : Segment} {segments : List Segment}

theorem checkK_eq_ok (hk : query.k ≤ config.maxK) : checkK config query = .ok () := by
  rw [checkK, if_neg (by omega)]

theorem isShutDown_searchSegment (env : Environment σ ι) (config : QueryConfig) (segment : Segment)
    (query : Query) (c : Cache ι) (s : σ) :
    (searchSegment env config segment query c s).2.1.isShutDown = c.isShutDown := by
  unfold searchSegment
  split
  · rfl
  · split
    · rfl
    · rfl
    · next path _ =>
      have hattempt := isShutDown_attempt env path query (attempts config) (attempts config) c s
      unfold queryPath
      split <;> next heq => simpa [heq] using hattempt

theorem searchSegment_of_fatal (hretries : config.evictionRetries + 1 < UInt64.size)
    (hk : query.k ≤ config.maxK) (h : segment.Fatal c.isShutDown e) :
    searchSegment env config segment query c s = (.error e, c, s) := by
  unfold searchSegment
  rw [checkK_eq_ok hk]
  cases h with
  | ambiguous several =>
    rcases segment.resolve_cases with ⟨hnone, -⟩ | ⟨hone, -⟩ | ⟨-, hresolve⟩
    · omega
    · omega
    · simp [hresolve]
  | shutDown single closed =>
    rcases segment.resolve_cases with ⟨hnone, -⟩ | ⟨-, path, hresolve, -⟩ | ⟨hmany, -⟩
    · omega
    · simp [hresolve, queryPath, attempts_eq hretries, attempt_of_isShutDown closed]
    · omega

/-- Without a reason to end the search a segment is searched or missed. -/
theorem missed_of_searchSegment (hload : env.Candid) (hk : query.k ≤ config.maxK)
    (hfatal : ∀ e, ¬ segment.Fatal c.isShutDown e)
    (h : (searchSegment env config segment query c s).1 = .error e) :
    ∃ path, segment.resolve = .ok (some path) ∧ Missed path e := by
  unfold searchSegment at h
  rw [checkK_eq_ok hk] at h
  rcases segment.resolve_cases with ⟨-, hresolve⟩ | ⟨hone, path, hresolve, hkey⟩ | ⟨hmany, -⟩
  · simp [hresolve] at h
  · have hopen : c.isShutDown = false := by
      rw [Bool.eq_false_iff]
      intro hshut
      exact hfatal _ (Segment.Fatal.shutDown hone hshut)
    refine ⟨path, hresolve, ?_⟩
    simp only [hresolve] at h
    split at h
    · next heq =>
      obtain rfl := Except.error.inj h
      exact error_of_attempt hload hkey hopen (congrArg Prod.fst heq)
    · cases h
  · exact absurd (Segment.Fatal.ambiguous hmany) (hfatal _)

/-! ## The walk over the segments -/

/-- What the segments answer when each is searched after the one before, whatever that answered. -/
def answers (env : Environment σ ι) (config : QueryConfig) (query : Query) :
    List Segment → Cache ι → σ → List (Except Error Scorer)
  | [], _, _ => []
  | segment :: rest, c, s =>
    let (answer, c, s) := searchSegment env config segment query c s
    answer :: answers env config query rest c s

theorem length_answers (env : Environment σ ι) (config : QueryConfig) (query : Query)
    (segments : List Segment) (c : Cache ι) (s : σ) :
    (answers env config query segments c s).length = segments.length := by
  induction segments generalizing c s with
  | nil => rfl
  | cons segment rest ih => simp [answers, ih]

/-- A segment that answers is among the matches. -/
def hit? : Segment × Except Error Scorer → Option SegmentHits
  | (segment, .ok scorer) => some ⟨segment.name, segment.docBase, scorer⟩
  | (_, .error _) => none

/-- A segment that does not is among the failures. -/
def failure? : Segment × Except Error Scorer → Option SegmentFailure
  | (_, .ok _) => none
  | (segment, .error e) => some ⟨segment.name, e⟩

/-- The first segment that has a reason to end the search ends it. -/
def EndsWith (shut : Bool) (segments : List Segment) (e : Error) : Prop :=
  ∃ before segment after, segments = before ++ segment :: after ∧
    (∀ earlier ∈ before, ∀ e, ¬ earlier.Fatal shut e) ∧ segment.Fatal shut e

theorem not_endsWith_nil {shut : Bool} : ¬ EndsWith shut [] e := by
  rintro ⟨before, segment, after, hsplit, -⟩
  simp at hsplit

theorem endsWith_cons_of_fatal {shut : Bool} {e' : Error} (h : segment.Fatal shut e') :
    EndsWith shut (segment :: segments) e ↔ e = e' := by
  constructor
  · rintro ⟨before, first, after, hsplit, hbefore, hfirst⟩
    cases before with
    | nil =>
      obtain ⟨rfl, -⟩ := List.cons.inj hsplit
      exact hfirst.unique h
    | cons other before =>
      obtain ⟨rfl, -⟩ := List.cons.inj hsplit
      exact absurd h (hbefore segment List.mem_cons_self e')
  · rintro rfl
    exact ⟨[], segment, segments, rfl, nofun, h⟩

theorem endsWith_cons_of_not_fatal {shut : Bool} (h : ∀ e, ¬ segment.Fatal shut e) :
    EndsWith shut (segment :: segments) e ↔ EndsWith shut segments e := by
  constructor
  · rintro ⟨before, first, after, hsplit, hbefore, hfirst⟩
    cases before with
    | nil =>
      obtain ⟨rfl, -⟩ := List.cons.inj hsplit
      exact absurd hfirst (h e)
    | cons other before =>
      obtain ⟨rfl, hrest⟩ := List.cons.inj hsplit
      exact ⟨before, first, after, hrest, fun x hx => hbefore x (List.mem_cons_of_mem _ hx), hfirst⟩
  · rintro ⟨before, first, after, rfl, hbefore, hfirst⟩
    exact ⟨segment :: before, first, after, rfl, List.forall_mem_cons.mpr ⟨h, hbefore⟩, hfirst⟩

/-- One segment of the walk: it ends the search, or it takes its place in the outcome. -/
theorem searchAll_cons (hload : env.Candid)
    (hretries : config.evictionRetries + 1 < UInt64.size) (hk : query.k ≤ config.maxK)
    (outcome : SearchOutcome) :
    (∃ e, segment.Fatal c.isShutDown e ∧
      searchAll env config query (segment :: segments) outcome c s = (.error e, c, s)) ∨
    ((∀ e, ¬ segment.Fatal c.isShutDown e) ∧ ∃ answer c' s',
      searchSegment env config segment query c s = (answer, c', s') ∧
      c'.isShutDown = c.isShutDown ∧
      (∀ e, answer = .error e → ∃ path, segment.resolve = .ok (some path) ∧ Missed path e) ∧
      searchAll env config query (segment :: segments) outcome c s
        = searchAll env config query segments
            { hits := outcome.hits ++ (hit? (segment, answer)).toList
              failures := outcome.failures ++ (failure? (segment, answer)).toList } c' s') := by
  by_cases hfatal : ∃ e, segment.Fatal c.isShutDown e
  · obtain ⟨e, he⟩ := hfatal
    refine Or.inl ⟨e, he, ?_⟩
    simp [searchAll, searchSegment_of_fatal hretries hk he, he.not_isSegmentLocal]
  · rw [not_exists] at hfatal
    have hshut := isShutDown_searchSegment env config segment query c s
    have hmissed := fun e => missed_of_searchSegment (e := e) (s := s) hload hk hfatal
    rcases hanswer : searchSegment env config segment query c s with ⟨answer, c', s'⟩
    rw [hanswer] at hshut hmissed
    refine Or.inr ⟨hfatal, answer, c', s', rfl, hshut, hmissed, ?_⟩
    cases answer with
    | ok scorer => simp [searchAll, hanswer, hit?, failure?]
    | error e =>
      obtain ⟨path, -, he⟩ := hmissed e rfl
      simp [searchAll, hanswer, hit?, failure?, he.isSegmentLocal]

theorem searchAll_eq_error_iff (hload : env.Candid)
    (hretries : config.evictionRetries + 1 < UInt64.size) (hk : query.k ≤ config.maxK)
    (outcome : SearchOutcome) :
    (searchAll env config query segments outcome c s).1 = .error e
      ↔ EndsWith c.isShutDown segments e := by
  induction segments generalizing outcome c s with
  | nil => exact ⟨nofun, fun h => absurd h not_endsWith_nil⟩
  | cons segment rest ih =>
    rcases searchAll_cons hload hretries hk outcome with ⟨e', hfatal, heq⟩ |
      ⟨hfatal, answer, c', s', -, hshut, -, heq⟩
    · rw [heq, endsWith_cons_of_fatal hfatal, Except.error.injEq, eq_comm]
    · rw [heq, endsWith_cons_of_not_fatal hfatal, ih, hshut]

theorem searchAll_of_ok (hload : env.Candid)
    (hretries : config.evictionRetries + 1 < UInt64.size) (hk : query.k ≤ config.maxK)
    {outcome outcome' : SearchOutcome}
    (h : (searchAll env config query segments outcome c s).1 = .ok outcome') :
    ∃ found missed, outcome'.hits = outcome.hits ++ found ∧
      outcome'.failures = outcome.failures ++ missed ∧
      found = (segments.zip (answers env config query segments c s)).filterMap hit? ∧
      missed = (segments.zip (answers env config query segments c s)).filterMap failure? ∧
      ∀ failure ∈ missed, ∃ path, Missed path failure.error := by
  induction segments generalizing outcome c s with
  | nil =>
    cases h
    exact ⟨[], [], by simp, by simp, rfl, rfl, nofun⟩
  | cons segment rest ih =>
    rcases searchAll_cons hload hretries hk outcome with ⟨e', -, heq⟩ |
      ⟨-, answer, c', s', hanswer, -, hmissed, heq⟩
    · rw [heq] at h
      cases h
    · rw [heq] at h
      obtain ⟨found, missed, hhits, hfailures, hfound, hrest, hlocal⟩ := ih h
      have hanswers : (segment :: rest).zip (answers env config query (segment :: rest) c s)
          = (segment, answer) :: rest.zip (answers env config query rest c' s') := by
        simp [answers, hanswer]
      refine ⟨(hit? (segment, answer)).toList ++ found,
        (failure? (segment, answer)).toList ++ missed, by simp [hhits], by simp [hfailures],
        ?_, ?_, ?_⟩
      · rw [hanswers, List.filterMap_cons, hfound]
        cases answer <;> rfl
      · rw [hanswers, List.filterMap_cons, hrest]
        cases answer <;> rfl
      · intro failure hfailure
        rcases List.mem_append.mp hfailure with hfirst | hlater
        · cases answer with
          | ok scorer => cases hfirst
          | error e =>
            obtain ⟨path, -, he⟩ := hmissed e rfl
            obtain rfl := List.mem_singleton.mp hfirst
            exact ⟨path, he⟩
        · exact hlocal failure hlater

/-! ## Room for the matches -/

section Room

variable {env : Environment σ FlatIndex} {c : Cache FlatIndex} (hroom : query.k + 1 < Nat.pow 2 60)

include hroom

theorem attempt_reserving (path : Path) (allowed left : Nat) (c : Cache FlatIndex) (s : σ)
    (trap : Option Trap) : attempt env.reserving path query allowed left c (s, trap)
      = ((attempt env path query allowed left c s).1, (attempt env path query allowed left c s).2.1,
          (attempt env path query allowed left c s).2.2, trap) := by
  induction left generalizing c s with
  | zero => rfl
  | succ left ih =>
    unfold attempt
    rw [Cache.get_reserving]
    rcases c.get env path s with ⟨e | h, c₁, s₁⟩
    · rfl
    · dsimp only
      rw [Cache.query_reserving hroom]
      rcases c₁.query env h query.vector query.k s₁ with ⟨e | results, s₂⟩
      · cases e with
        | handleInvalidated => exact ih c₁ s₂
        | _ => rfl
      · rfl

theorem searchSegment_reserving (config : QueryConfig) (segment : Segment) (c : Cache FlatIndex)
    (s : σ) (trap : Option Trap) : searchSegment env.reserving config segment query c (s, trap)
      = ((searchSegment env config segment query c s).1,
          (searchSegment env config segment query c s).2.1,
          (searchSegment env config segment query c s).2.2, trap) := by
  unfold searchSegment
  rcases checkK config query with e | _
  · rfl
  rcases segment.resolve with e | _ | path
  · rfl
  · rfl
  dsimp only [queryPath]
  rw [attempt_reserving hroom]
  rcases attempt env path query (attempts config) (attempts config) c s with ⟨e | results, c₁, s₁⟩ <;>
    rfl

theorem searchAll_reserving (config : QueryConfig) (segments : List Segment)
    (outcome : SearchOutcome) (c : Cache FlatIndex) (s : σ) (trap : Option Trap) :
    searchAll env.reserving config query segments outcome c (s, trap)
      = ((searchAll env config query segments outcome c s).1,
          (searchAll env config query segments outcome c s).2.1,
          (searchAll env config query segments outcome c s).2.2, trap) := by
  induction segments generalizing outcome c s with
  | nil => rfl
  | cons segment rest ih =>
    rw [searchAll, searchAll, searchSegment_reserving hroom]
    rcases searchSegment env config segment query c s with ⟨e | scorer, c₁, s₁⟩
    · dsimp only
      split
      · exact ih _ c₁ s₁
      · rfl
    · exact ih _ c₁ s₁

/-- With room for its matches a search runs to its end. -/
theorem search_reserving (config : QueryConfig) (segments : List Segment) (c : Cache FlatIndex)
    (s : σ) (trap : Option Trap) : search env.reserving config segments query c (s, trap)
      = ((search env config segments query c s).1, (search env config segments query c s).2.1,
          (search env config segments query c s).2.2, trap) := by
  unfold search
  rcases checkK config query with e | _
  · rfl
  · exact searchAll_reserving hroom config segments {} c s trap

end Room

/-- **A search ends as its segments do.** If the retries can be counted and there is room for the
matches, a search does not break off. An error is the refusal of the query or that of the first segment
with a reason. In an outcome each segment has its place in order, by what it answered when its turn
came, and the errors that tell of the cache and not of a segment are not in it. -/
theorem search_verdict {env : Environment σ FlatIndex} (hload : env.Candid) (config : QueryConfig)
    (hretries : config.evictionRetries + 1 < UInt64.size) (segments : List Segment) (query : Query)
    (hroom : query.k + 1 < Nat.pow 2 60) (c : Cache FlatIndex) (s : σ) :
    search env.reserving config segments query c (s, none)
      = ((search env config segments query c s).1, (search env config segments query c s).2.1,
          (search env config segments query c s).2.2, none) ∧
    (∀ e, (search env config segments query c s).1 = .error e ↔
      (config.maxK < query.k ∧
        e = .invalidQuery s!"k = {query.k} exceeds the maximum of {config.maxK}") ∨
      (query.k ≤ config.maxK ∧ EndsWith c.isShutDown segments e)) ∧
    ∀ outcome, (search env config segments query c s).1 = .ok outcome →
      (answers env config query segments c s).length = segments.length ∧
      outcome.hits = (segments.zip (answers env config query segments c s)).filterMap hit? ∧
      outcome.failures
        = (segments.zip (answers env config query segments c s)).filterMap failure? ∧
      ∀ failure ∈ outcome.failures,
        (∀ path, failure.error ≠ .handleInvalidated path) ∧
        (∀ reason, failure.error ≠ .invalidKey reason) ∧ failure.error ≠ .shutDown := by
  refine ⟨search_reserving hroom config segments c s none, ?_⟩
  unfold search
  rcases Nat.lt_or_ge config.maxK query.k with hexcess | hk
  · have hrefused : checkK config query
        = .error (.invalidQuery s!"k = {query.k} exceeds the maximum of {config.maxK}") :=
      if_pos hexcess
    rw [hrefused]
    refine ⟨fun e => ⟨fun h => Or.inl ⟨hexcess, (Except.error.inj h).symm⟩, ?_⟩, nofun⟩
    rintro (⟨-, rfl⟩ | ⟨hk, -⟩)
    · rfl
    · omega
  · rw [checkK_eq_ok hk]
    refine ⟨fun e => ?_, fun outcome h => ?_⟩
    · dsimp only
      rw [searchAll_eq_error_iff hload hretries hk]
      exact ⟨fun h => Or.inr ⟨hk, h⟩, fun h => h.elim (fun h => absurd h.1 (by omega)) And.right⟩
    · obtain ⟨found, missed, hhits, hfailures, hfound, hmissed, hlocal⟩ :=
        searchAll_of_ok hload hretries hk h
      rw [List.nil_append] at hhits hfailures
      refine ⟨length_answers _ _ _ _ _ _, hhits.trans hfound, hfailures.trans hmissed, ?_⟩
      intro failure hfailure
      obtain ⟨path, he⟩ := hlocal failure (hfailures ▸ hfailure)
      refine ⟨?_, ?_, ?_⟩
      all_goals
        intros
        intro heq
        rw [heq] at he
        cases he

/-- A segment whose file is gone is passed over, and the one with two sidecars is reported. -/
theorem search_of_ambiguous_segment :
    (search Host.environment {}
      [{ directory := ⟨"/s"⟩, name := "gone", files := ["gone.hnsw"] },
       { directory := ⟨"/s"⟩, name := "twice", files := ["twice.hnsw", "twice_v2.hnsw", "twice.liv"] }]
      { field := "v", vector := [⟨0⟩], k := 2, field_ne := rfl, vector_ne := rfl, finite := rfl,
        k_pos := by decide }
      (Cache.new {} none) (.empty [], {})).1 = .error (.ambiguousSidecar "twice" 2) := by
  refine ((search_verdict Host.environment_candid _ (by decide) _ _ (by decide) _ _).2.1 _).mpr
    (Or.inr ⟨by decide, ?_⟩)
  refine ⟨[_], _, [], rfl, ?_, Segment.Fatal.ambiguous (by decide +kernel)⟩
  intro earlier hearlier e hfatal
  obtain rfl := List.mem_singleton.mp hearlier
  cases hfatal with
  | ambiguous several => exact absurd several (by decide +kernel)
  | shutDown single closed => cases closed

namespace Shelf

def bytes : Bytes := FlatIndex.encode [0] [[⟨3⟩]]

def files : FileTree where
  workingDirectory := ["w"]
  nodes := [(["w"], .directory), (["w", "a.hnsw"], .file bytes), (["w", "b.hnsw"], .file bytes)]

def emptied : FileTree where
  workingDirectory := ["w"]
  nodes := [(["w"], .directory), (["w", "b.hnsw"], .file bytes)]

def only (name : String) : Segment :=
  { directory := ⟨""⟩, name, files := [name ++ ".hnsw"] }

def asking (k : Nat) (hk : k ≠ 0) : Query :=
  { field := "y", vector := [⟨4⟩], k, field_ne := rfl, vector_ne := rfl, finite := rfl, k_pos := hk }

abbrev engine : Environment (FileTree × Nat) FlatIndex := Environment.flat fun _ _ => ⟨0⟩

/-- A cache for one index, which has that of `a` when the file goes. -/
def service : Service (FileTree × Nat) FlatIndex :=
  (Service.start { weightCircuitBreaker := true, maxWeightBytes := 32 } none (files, 0)).run engine
    [.get ⟨"a.hnsw"⟩, .drift (emptied, 0)]

/-- The segments that answered a search, and the failures of the others. -/
def summary (result : Except Error SearchOutcome) : Except Error (List String × List SegmentFailure) :=
  result.map fun outcome => (outcome.hits.map SegmentHits.segment, outcome.failures)

end Shelf

/-- A search for 2^60 matches breaks off, though that many are allowed. With the largest number of
retries a cache that is shut down goes unnoticed. And a segment that can be searched may fail when its
turn comes, because the segment before it took its place in the cache. -/
theorem search_breaks_verdict :
    (let config : QueryConfig := { maxK := 1152921504606846976 }
     let query := Shelf.asking 1152921504606846976 (by decide)
     query.k ≤ config.maxK ∧ (∀ e, ¬ EndsWith false [Shelf.only "b"] e) ∧
      (search Shelf.engine.reserving config [Shelf.only "b"] query (Cache.new {} none)
        ((Shelf.files, 0), none)).2.2.2 = some .noRoom) ∧
    (let closed : Cache FlatIndex := { Cache.new {} none with isShutDown := true }
     let config : QueryConfig := { evictionRetries := 18446744073709551615 }
     EndsWith true [Shelf.only "b"] .shutDown ∧
      Shelf.summary (search Shelf.engine config [Shelf.only "b"] (Shelf.asking 3 (by decide)) closed
        (Shelf.files, 0)).1 = .ok ([], [⟨"b", .evictionRace "b.hnsw" 0⟩])) ∧
    (searchSegment Shelf.engine {} (Shelf.only "a") (Shelf.asking 3 (by decide)) Shelf.service.cache
      Shelf.service.world).1.isOk = true ∧
    Shelf.summary (search Shelf.engine {} [Shelf.only "b", Shelf.only "a"]
        (Shelf.asking 3 (by decide)) Shelf.service.cache Shelf.service.world).1
      = .ok (["b"], [⟨"a", .loadFailed "a.hnsw" FileError.notFound.message⟩]) := by
  have hsingle : (Shelf.only "b").sidecars.length = 1 := by decide +kernel
  refine ⟨⟨Nat.le_refl _, ?_, by decide +kernel⟩, ⟨?_, by decide +kernel⟩, by decide +kernel,
    by decide +kernel⟩
  · intro e h
    rw [endsWith_cons_of_not_fatal] at h
    · exact not_endsWith_nil h
    · intro e' hfatal
      cases hfatal with
      | ambiguous several =>
        rw [hsingle] at several
        omega
      | shutDown single closed => cases closed
  · exact (endsWith_cons_of_fatal (.shutDown hsingle rfl)).mpr rfl

end Executor

end Sidecar
