import Sidecar.Proofs.Search.Transparency
import Sidecar.Proofs.Search.Verdict
import Mathlib.Data.Nat.Find

/-!
# How often an engine is asked

An engine may find that the index of a handle is gone, and then the executor asks the cache for
another handle and the engine once more, a limited number of times. Which outcomes the engine comes
up with is not known, so here it follows a script: any sequence of outcomes, of which the first
queries take one each (`Environment.scripted`), while the world goes on as it would have.

An attempt is a request to the cache and one query. In an open cache the request succeeds if the
path can be loaded, and the handle that comes back is live, so the query does reach the engine
(`Ready.get`). It does not matter whether the request was a hit, and the next one need not be: time
passes in a query, and an entry may be idle by then. So one attempt takes one outcome of the script
(`Ready.attempt_succ`), and some attempts in a row take as many (`Ready.attempt_of_evicted`).

What is left is to read the script: the first outcome that is no eviction is the last that is taken,
unless it comes too late.
-/

set_option autoImplicit false

namespace Sidecar

variable {σ ι : Type}

/-! ## Scripts -/

namespace Environment

/-- The engine answers its queries by a script, one outcome after the other, and the world counts
them. Everything else is as it was. -/
def scripted (env : Environment σ ι) (script : Nat → Except Error (List Match)) :
    Environment (σ × Nat) ι where
  now world := env.now world.1
  presence world := env.presence world.1
  load path world := ((env.load path world.1).1, (env.load path world.1).2, world.2)
  query index vector k world := (script world.2, (env.query index vector k world.1).2, world.2 + 1)
  size := env.size

/-- As long as the world is calm the path can be loaded, and the index does not exceed the budget.
Loading and querying keep the world calm. -/
structure Loads (env : Environment σ ι) (path : Path) (limits : CacheConfig) (calm : σ → Prop) :
    Prop where
  load : ∀ {s}, calm s → ∃ index s', env.load path s = (.ok index, s') ∧ calm s' ∧
    ∀ budget, limits.weightBudget = some budget → env.size index ≤ budget
  query : ∀ {s} index vector k, calm s → calm (env.query index vector k s).2

end Environment

/-- Whether an engine found that the index was evicted. -/
def isEviction : Except Error (List Match) → Bool
  | .error (.handleInvalidated _) => true
  | _ => false

/-- What a search of one segment makes of an outcome: matches become a scorer, a failed query stays
what it is, and any other error is reported as a failed query of the path. -/
inductive Reported (path : Path) : Except Error (List Match) → Except Error Scorer → Prop
  | scorer (results : List Match) : Reported path (.ok results) (.ok (.ofResults results))
  | failure (source reason : String) :
      Reported path (.error (.queryFailed source reason)) (.error (.queryFailed source reason))
  | other {e : Error} (hother : ∀ source reason, e ≠ .queryFailed source reason) :
      Reported path (.error e) (.error (.queryFailed path.text e.message))

theorem reported (path : Path) (outcome : Except Error (List Match)) : Reported path outcome
    ((outcome.mapError (Executor.asQueryFailure path)).map Scorer.ofResults) := by
  rcases outcome with e | results
  · cases e with
    | queryFailed source reason => exact .failure source reason
    | _ => exact .other nofun
  · exact .scorer results

theorem Reported.not_invalidated {path : Path} {outcome : Except Error (List Match)}
    {answer : Except Error Scorer} (h : Reported path outcome answer) (source : String) :
    answer ≠ .error (.handleInvalidated source) := by
  cases h <;> nofun

namespace Executor

variable {env : Environment σ ι} {script : Nat → Except Error (List Match)} {path : Path}
  {limits : CacheConfig} {calm : σ → Prop} {n : Nat} {c : Cache ι} {s : σ × Nat}

/-! ## One attempt -/

/-- A cache between two attempts, when `n` outcomes have been taken. -/
structure Ready (calm : σ → Prop) (limits : CacheConfig) (n : Nat) (c : Cache ι) (s : σ × Nat) :
    Prop where
  sound : c.Sound
  ledger : ∃ offered, Stage.Ledger ⟨c, [], offered⟩
  config : c.config = limits
  isOpen : c.isShutDown = false
  calm : calm s.1
  taken : s.2 = n

/-- The request of an attempt succeeds, and a query of its handle reaches the engine. -/
theorem Ready.get (h : Ready calm limits n c s) (hloads : env.Loads path limits calm)
    (hkey : Cache.validateKey path = .ok ()) (script : Nat → Except Error (List Match)) :
    ∃ handle c' s', c.get (env.scripted script) path s = (.ok handle, c', s') ∧
      Ready calm limits n c' s' ∧
      ∀ vector k, c'.query (env.scripted script) handle vector k s'
        = (env.scripted script).query handle.index vector k s' := by
  obtain ⟨index, world, hload, hcalm, hfits⟩ := hloads.load h.calm
  have hscripted : (env.scripted script).load path s = (.ok index, world, s.2) := by
    simp only [Environment.scripted, hload]
  obtain ⟨offered, hledger⟩ := h.ledger
  have hmoves := Cache.get_moves (p := []) (n := offered) (env.scripted script) path s h.sound
  have hshut := Cache.isShutDown_get (env.scripted script) c path s
  have hworld := Cache.world_get (c := c) (env.scripted script) s path
  rcases hget : c.get (env.scripted script) path s with ⟨e | handle, c', s'⟩
  · rcases Cache.error_of_get h.isOpen hkey hget with ⟨s₁, hfailed⟩ |
      ⟨index', s₁, budget, hloaded, hbudget, hheavy, -⟩
    · rw [hscripted] at hfailed
      cases hfailed
    · rw [hscripted] at hloaded
      obtain ⟨rfl, -⟩ : index = index' ∧ _ := by simpa using hloaded
      exact absurd (hfits budget (h.config ▸ hbudget)) (Nat.not_le.mpr hheavy)
  · rw [hget] at hmoves hshut hworld
    refine ⟨handle, c', s', rfl, ?_, Cache.query_of_granted h.sound hledger hget⟩
    have hcalm' : calm s'.1 ∧ s'.2 = n := by
      rcases hworld with hsame | hloaded
      · rw [show s' = s from hsame]
        exact ⟨h.calm, h.taken⟩
      · rw [show s' = (world, s.2) from hloaded.trans (by rw [hscripted])]
        exact ⟨hcalm, h.taken⟩
    exact ⟨hmoves.sound h.sound, ⟨offered, hmoves.ledger h.sound hledger⟩,
      hmoves.config.trans h.config, hshut.trans h.isOpen, hcalm'.1, hcalm'.2⟩

/-- An attempt takes one outcome. Another attempt follows an eviction and nothing else. -/
theorem Ready.attempt_succ (h : Ready calm limits n c s) (hloads : env.Loads path limits calm)
    (hkey : Cache.validateKey path = .ok ()) (script : Nat → Except Error (List Match))
    (query : Query) (allowed left : Nat) :
    ∃ c' s', Ready calm limits (n + 1) c' s' ∧
      attempt (env.scripted script) path query allowed (left + 1) c s
        = if isEviction (script n) then attempt (env.scripted script) path query allowed left c' s'
          else ((script n).mapError (asQueryFailure path), c', s') := by
  obtain ⟨handle, c', s', hget, hafter, hquery⟩ := h.get hloads hkey script
  have hasked : c'.query (env.scripted script) handle query.vector query.k s'
      = (script n, (env.query handle.index query.vector query.k s'.1).2, n + 1) := by
    rw [hquery, ← hafter.taken]
    rfl
  refine ⟨c', ((env.query handle.index query.vector query.k s'.1).2, n + 1), ⟨hafter.sound,
    hafter.ledger, hafter.config, hafter.isOpen,
    hloads.query handle.index query.vector query.k hafter.calm, rfl⟩, ?_⟩
  rw [attempt, hget]
  dsimp only
  rw [hasked]
  rcases script n with e | results
  · cases e <;> rfl
  · rfl

/-! ## Some attempts -/

theorem Ready.attempt_of_evicted (hloads : env.Loads path limits calm)
    (hkey : Cache.validateKey path = .ok ()) (query : Query) (allowed left : Nat) (m : Nat)
    (h : Ready calm limits n c s) (hevicted : ∀ i < m, isEviction (script (n + i)) = true) :
    ∃ c' s', Ready calm limits (n + m) c' s' ∧
      attempt (env.scripted script) path query allowed (m + left) c s
        = attempt (env.scripted script) path query allowed left c' s' := by
  induction m generalizing n c s with
  | zero => exact ⟨c, s, h, by rw [Nat.zero_add]⟩
  | succ m ih =>
    obtain ⟨c₁, s₁, hnext, hfirst⟩ := h.attempt_succ hloads hkey script query allowed (m + left)
    have hnow : isEviction (script n) = true := hevicted 0 (Nat.succ_pos m)
    rw [hnow, if_pos rfl] at hfirst
    obtain ⟨c₂, s₂, hlast, hrest⟩ := ih hnext fun i hi => by
      rw [Nat.add_assoc, Nat.add_comm 1 i]
      exact hevicted (i + 1) (Nat.succ_lt_succ hi)
    refine ⟨c₂, s₂, by rwa [Nat.add_assoc, Nat.add_comm 1 m] at hlast, ?_⟩
    rw [Nat.succ_add, hfirst, hrest]

/-! ## One segment -/

theorem searchSegment_eq {config : QueryConfig} {segment : Segment} {query : Query}
    (hk : query.k ≤ config.maxK) (hresolve : segment.resolve = .ok (some path))
    (env : Environment σ ι) (c : Cache ι) (s : σ) :
    searchSegment env config segment query c s
      = ((queryPath env config path query c s).1.map Scorer.ofResults,
          (queryPath env config path query c s).2) := by
  simp only [searchSegment, checkK_eq_ok hk, hresolve]
  rcases queryPath env config path query c s with ⟨_ | _, c', s'⟩ <;> rfl

variable {config : QueryConfig}

/-- The first outcome that is no eviction is the last one that is taken. -/
theorem Ready.queryPath_of_first (h : Ready calm limits 0 c s) (hloads : env.Loads path limits calm)
    (hkey : Cache.validateKey path = .ok ()) (query : Query)
    (hretries : config.evictionRetries + 1 < UInt64.size) (hn : n ≤ config.evictionRetries)
    (hbefore : ∀ i < n, isEviction (script i) = true) (hfirst : isEviction (script n) = false) :
    ∃ c' s', queryPath (env.scripted script) config path query c s
      = ((script n).mapError (asQueryFailure path), c', s') ∧ s'.2 = n + 1 := by
  obtain ⟨left, hleft⟩ : ∃ left, config.evictionRetries + 1 = n + (left + 1) :=
    ⟨config.evictionRetries - n, by omega⟩
  obtain ⟨c₁, s₁, hready, hwasted⟩ := Ready.attempt_of_evicted hloads hkey query
    (config.evictionRetries + 1) (left + 1) n h fun i hi => by
      rw [Nat.zero_add]
      exact hbefore i hi
  rw [Nat.zero_add] at hready
  obtain ⟨c₂, s₂, hlast, hfinal⟩ := hready.attempt_succ hloads hkey script query
    (config.evictionRetries + 1) left
  rw [hfirst, if_neg Bool.false_ne_true] at hfinal
  refine ⟨c₂, s₂, ?_, hlast.taken⟩
  rw [queryPath, attempts_eq hretries, ← hfinal, ← hwasted, ← hleft]

/-- With evictions only, every attempt is made. -/
theorem Ready.queryPath_of_evicted (h : Ready calm limits 0 c s)
    (hloads : env.Loads path limits calm) (hkey : Cache.validateKey path = .ok ()) (query : Query)
    (hretries : config.evictionRetries + 1 < UInt64.size)
    (hall : ∀ i ≤ config.evictionRetries, isEviction (script i) = true) :
    ∃ c' s', queryPath (env.scripted script) config path query c s
      = (.error (.evictionRace path.text (config.evictionRetries + 1)), c', s') ∧
        s'.2 = config.evictionRetries + 1 := by
  obtain ⟨c₁, s₁, hready, hwasted⟩ := Ready.attempt_of_evicted hloads hkey query
    (config.evictionRetries + 1) 0 (config.evictionRetries + 1) h fun i hi => by
      rw [Nat.zero_add]
      exact hall i (Nat.le_of_lt_succ hi)
  refine ⟨c₁, s₁, ?_, by rw [hready.taken, Nat.zero_add]⟩
  rw [queryPath, attempts_eq hretries]
  exact hwasted

theorem ready_of_run {τ : Type} (past : Environment τ ι) (limits : CacheConfig)
    (observer : Option (Watcher Unit)) (start : τ) (actions : List (Action τ ι))
    (hopen : ((Service.start limits observer start).run past actions).cache.isShutDown = false)
    {world : σ} (hcalm : calm world) :
    Ready calm limits 0 ((Service.start limits observer start).run past actions).cache
      (world, 0) := by
  obtain ⟨offered, hs⟩ := (Service.start_consistent limits observer start).run past actions
  have hmoves := Service.run_moves past actions (Service.start_sound limits observer start) 0
  exact ⟨hs.sound, ⟨offered, hs.ledger⟩, hmoves.config, hopen, hcalm, rfl⟩

end Executor

theorem Segment.validateKey_of_resolve (segment : Segment) {path : Path}
    (h : segment.resolve = .ok (some path)) : Cache.validateKey path = .ok () := by
  rcases segment.resolve_cases with ⟨-, hnone⟩ | ⟨-, other, hsome, hkey⟩ | ⟨-, hseveral⟩
  · rw [h] at hnone
    cases hnone
  · rw [h, Except.ok.injEq, Option.some.injEq] at hsome
    exact hsome ▸ hkey
  · rw [h] at hseveral
    cases hseveral

/-- **A segment is searched with as many queries as it takes, within the limit.** The engine is asked
until an outcome is no eviction, and that outcome is reported; if none of the allowed attempts brings
one, that many queries were made and the race is lost. That a handle was invalidated is never what is
reported. -/
theorem searchSegment_attempts {τ : Type} (past : Environment τ ι) (limits : CacheConfig)
    (observer : Option (Watcher Unit)) (start : τ) (actions : List (Action τ ι))
    (hopen : ((Service.start limits observer start).run past actions).cache.isShutDown = false)
    (env : Environment σ ι) (calm : σ → Prop) {world : σ} (hcalm : calm world)
    {segment : Segment} {path : Path} (hresolve : segment.resolve = .ok (some path))
    (hloads : env.Loads path limits calm) {config : QueryConfig} {query : Query}
    (hk : query.k ≤ config.maxK) (hretries : config.evictionRetries + 1 < UInt64.size)
    (script : Nat → Except Error (List Match)) :
    let c := ((Service.start limits observer start).run past actions).cache
    let allowed := config.evictionRetries + 1
    let found := Executor.searchSegment (env.scripted script) config segment query c (world, 0)
    (∀ n < allowed, (∀ i < n, isEviction (script i) = true) → isEviction (script n) = false →
      found.2.2.2 = n + 1 ∧ Reported path (script n) found.1) ∧
    ((∀ i < allowed, isEviction (script i) = true) →
      found.2.2.2 = allowed ∧ found.1 = .error (.evictionRace path.text allowed)) ∧
    ∀ source, found.1 ≠ .error (.handleInvalidated source) := by
  intro c allowed found
  have hkey := segment.validateKey_of_resolve hresolve
  have hready := Executor.ready_of_run past limits observer start actions hopen hcalm
  have hfound : found = _ := Executor.searchSegment_eq hk hresolve _ c (world, 0)
  have hfirst : ∀ n < allowed, (∀ i < n, isEviction (script i) = true) →
      isEviction (script n) = false → found.2.2.2 = n + 1 ∧ Reported path (script n) found.1 := by
    intro n hn hbefore hfirst
    obtain ⟨c', s', hquery, htaken⟩ := hready.queryPath_of_first hloads hkey query
      hretries (Nat.le_of_lt_succ hn) hbefore hfirst
    rw [hfound, hquery]
    exact ⟨htaken, reported path (script n)⟩
  have hnone : (∀ i < allowed, isEviction (script i) = true) →
      found.2.2.2 = allowed ∧ found.1 = .error (.evictionRace path.text allowed) := by
    intro hall
    obtain ⟨c', s', hquery, htaken⟩ := hready.queryPath_of_evicted hloads hkey query
      hretries fun i hi => hall i (Nat.lt_succ_of_le hi)
    rw [hfound, hquery]
    exact ⟨htaken, rfl⟩
  refine ⟨hfirst, hnone, fun source => ?_⟩
  by_cases hall : ∀ i < allowed, isEviction (script i) = true
  · rw [(hnone hall).2]
    nofun
  · -- There is a first outcome that is no eviction.
    have hexists : ∃ n, n < allowed ∧ isEviction (script n) = false := by simpa using hall
    obtain ⟨hn, hstop⟩ := Nat.find_spec hexists
    refine (hfirst _ hn (fun i hi => ?_) hstop).2.not_invalidated source
    have hearlier := Nat.find_min hexists hi
    simpa [Nat.lt_trans hi hn] using hearlier

namespace Contest

/-- A segment with one sidecar. -/
def segment : Segment := { directory := ⟨"s"⟩, name := "s", files := ["x.hnsw", "x.doc"] }

def query : Query :=
  { field := "u", vector := [⟨2⟩], k := 4, field_ne := rfl, vector_ne := rfl, finite := rfl,
    k_pos := by decide }

/-- The engine finds the index evicted twice before it answers. -/
def script (n : Nat) : Except Error (List Match) :=
  if n < 2 then .error (.handleInvalidated "s/x.hnsw") else .ok [⟨7, ⟨1⟩⟩]

/-- A search with some retries, in a cache that has the sidecar. -/
def search (retries : Nat) : Except Error Scorer × Cache Nat × Nat × Nat :=
  Executor.searchSegment (Environment.clock.scripted script) { evictionRetries := retries }
    segment query ((Service.start {} none 0).run Environment.clock [.put ⟨"s/x.hnsw"⟩ 3]).cache
    (5, 0)

end Contest

/-- Three attempts are enough for two evictions, and two attempts are not. -/
theorem searchSegment_attempts_of_two_evictions :
    ((Contest.search 2).2.2.2 = 3 ∧ (Contest.search 2).1 = .ok (.ofResults [⟨7, ⟨1⟩⟩])) ∧
      (Contest.search 1).2.2.2 = 2 ∧ (Contest.search 1).1 = .error (.evictionRace "s/x.hnsw" 2) := by
  have hresolve : Contest.segment.resolve = .ok (some ⟨"s/x.hnsw"⟩) := by decide +kernel
  have hloads : Environment.clock.Loads ⟨"s/x.hnsw"⟩ {} (· = 5) :=
    ⟨fun htime => ⟨_, _, rfl, htime, nofun⟩, fun _ _ _ htime => htime⟩
  have hk (retries : Nat) : Contest.query.k ≤ ({ evictionRetries := retries } : QueryConfig).maxK :=
    show 4 ≤ 10000 by decide
  have hall (retries : Nat) (hretries : retries + 1 < UInt64.size) :=
    searchSegment_attempts Environment.clock {} none 0 [.put ⟨"s/x.hnsw"⟩ 3] rfl Environment.clock
      (· = 5) rfl hresolve hloads (hk retries) hretries Contest.script
  have hevicted : ∀ i < 2, isEviction (Contest.script i) = true := by decide
  obtain ⟨htaken, hreported⟩ := (hall 2 (by decide)).1 2 (by decide) hevicted rfl
  unfold Contest.search
  refine ⟨⟨htaken, ?_⟩, (hall 1 (by decide)).2.1 hevicted⟩
  revert hreported
  generalize (Executor.searchSegment _ _ _ _ _ _).1 = answer
  rintro ⟨⟩
  rfl

end Sidecar
