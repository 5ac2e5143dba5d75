import Sidecar.Proofs.Cache.Accounts
import Sidecar.Proofs.Cache.Idle

/-!
# Requests that fail

A request can fail in many places: before it has looked anything up, in the engine, or when the index
is there and is not let in. Whichever it is, the entries stay as they are (`Cache.Untouched`), since an
admission makes its decision before it touches anything. What may have happened is that a handle was
made and given up again, and its number is a new one.

One thing does happen on the way. A look-up that finds an idle entry removes it, and it does not come
back if the load fails. It leaves with its weight and its watch, and nothing goes with it
(`Cache.Bereft`). No other part of a request removes anything unless the request succeeds.

While the cache is closed, and for a path that names no file, a request does not even get as far as a
look-up. It changes nothing at all then, not even a counter.
-/

set_option autoImplicit false

namespace Sidecar

variable {σ ι : Type}

namespace Cache

variable {c c' c'' : Cache ι} {h : Handle ι} {path : Path} {e : Error}

/-! ## What stays -/

/-- The entries are as they were, with their weight and their watches. Handles may have been made and
given up. -/
structure Untouched (c c' : Cache ι) : Prop where
  entries : c'.entries = c.entries
  weight : c'.weight = c.weight
  departures : c'.departures = c.departures
  observer : c'.observer = c.observer
  made : c.made ≤ c'.made
  invalidated : ∀ id < c.made, id ∈ c'.invalidated ↔ id ∈ c.invalidated

theorem Untouched.trans (hfirst : Untouched c c') (hsecond : Untouched c' c'') :
    Untouched c c'' := by
  refine ⟨hsecond.entries.trans hfirst.entries, hsecond.weight.trans hfirst.weight,
    hsecond.departures.trans hfirst.departures, hsecond.observer.trans hfirst.observer,
    Nat.le_trans hfirst.made hsecond.made, fun id hid => ?_⟩
  rw [hsecond.invalidated id (Nat.lt_of_lt_of_le hid hfirst.made), hfirst.invalidated id hid]

/-- Counting and making handles touches no entry. -/
theorem untouched_update (c : Cache ι) {made : Nat} (hmade : c.made ≤ made) (tally : Tally) :
    Untouched c { c with made, tally } :=
  ⟨rfl, rfl, rfl, rfl, hmade, fun _ _ => Iff.rfl⟩

theorem Untouched.refl (c : Cache ι) : Untouched c c := c.untouched_update (Nat.le_refl _) c.tally

theorem Frame.untouched (hf : Frame c c') : Untouched c c' :=
  ⟨hf.entries, hf.weight, hf.departures, hf.observer, Nat.le_of_eq hf.made.symm,
    fun id _ => by rw [hf.invalidated]⟩

/-- Whoever gives up a new handle invalidates no old one. -/
theorem Untouched.discard (hc : Untouched c c') (hnew : c.made ≤ h.id) :
    Untouched c (c'.discard h) := by
  have hf := c'.frame_discard h
  refine ⟨hf.entries.trans hc.entries, hf.weight.trans hc.weight,
    hf.departures.trans hc.departures, hf.observer.trans hc.observer,
    Nat.le_trans hc.made (Nat.le_of_eq hf.made.symm), fun id hid => ?_⟩
  rw [hf.invalidated, ← hc.invalidated id hid]
  have hother : id ≠ h.id := by omega
  simp [markInvalidated, hother]

/-- An entry has left after it was idle for too long, with its weight and its watch, and the others
are as they were. -/
structure Bereft (idle : Entry ι) (c c' : Cache ι) : Prop where
  entries : c'.entries = c.entries.filter (!·.handle.path.sameKey idle.handle.path)
  weight : c'.weight + idle.handle.size = c.weight
  departures : c'.departures = c.departures ++ [(idle.handle.id, .expired)]
  observer : c'.observer = c.observer.map (·.unregister idle.handle.path)
  made : c.made ≤ c'.made
  invalidated : ∀ id < c.made, id ∈ c'.invalidated ↔ id = idle.handle.id ∨ id ∈ c.invalidated

theorem Sound.bereft_expel (hc : c.Sound) {idle : Entry ι} (hidle : idle ∈ c.entries) :
    Bereft idle c (c.expel .expired idle) := by
  have hf := c.frame_expel .expired idle
  refine ⟨expel_entries c .expired idle, ?_, expel_departures c .expired idle,
    observer_expel c .expired idle, Nat.le_of_eq hf.made.symm, fun id _ => ?_⟩
  · rw [expel_weight, Nat.sub_add_cancel (hc.size_le hidle)]
  · rw [expel_invalidated, List.mem_cons]

theorem Bereft.untouched {idle : Entry ι} (hc : Bereft idle c c') (hc' : Untouched c' c'') :
    Bereft idle c c'' := by
  refine ⟨hc'.entries.trans hc.entries, ?_, hc'.departures.trans hc.departures,
    hc'.observer.trans hc.observer, Nat.le_trans hc.made hc'.made, fun id hid => ?_⟩
  · rw [hc'.weight, hc.weight]
  · rw [hc'.invalidated id (Nat.lt_of_lt_of_le hid hc.made), hc.invalidated id hid]

/-! ## The places where a request fails -/

variable (env : Environment σ ι) {s : σ}

theorem Untouched.accept (hc : Untouched c c') (hnew : c.made ≤ h.id)
    (herror : (c'.accept env h s).1 = .error e) : Untouched c (c'.accept env h s).2 := by
  rcases c'.accept_cases env h s with ⟨_, _, _, heq⟩ | ⟨_, _, heq⟩ | ⟨_, _, heq⟩
  · rw [heq]
    exact hc.discard hnew
  · rw [heq]
    exact hc.discard hnew
  · rw [heq] at herror
    cases herror

theorem untouched_of_put {index : ι} (herror : (c.put env path index s).1 = .error e) :
    Untouched c (c.put env path index s).2 := by
  have hmade : Untouched c { c with made := c.made + 1 } :=
    c.untouched_update (Nat.le_succ _) c.tally
  rcases c.put_cases env path s index with ⟨_, heq⟩ | ⟨_, _, _, heq⟩ | ⟨_, _, heq⟩
  · rw [heq]
    exact hmade.discard (Nat.le_refl _)
  · rw [heq]
    exact hmade.discard (Nat.le_refl _)
  · rw [heq] at herror ⊢
    exact hmade.accept env (Nat.le_refl _) herror

/-- A miss that fails, apart from the look-up before it. -/
theorem untouched_of_loadAndInsert (hvacant : c.entry? path = none)
    (herror : (c.loadAndInsert env path s).1 = .error e) :
    Untouched c (c.loadAndInsert env path s).2.1 := by
  have hagain : c.lookup (env.now s) path = (none, c) := by rw [lookup, hvacant]
  unfold loadAndInsert at herror ⊢
  simp only [hagain] at herror ⊢
  rcases c.fetch_cases env path s with ⟨_, heq⟩ | ⟨_, _, _, _, heq⟩ | ⟨_, index, s', _, heq⟩
  · simp only [heq]
    exact Untouched.refl c
  · simp only [heq]
    exact c.untouched_update (Nat.le_refl _) _
  · have hmade : Untouched c { c with
        made := c.made + 1
        tally := { c.tally with loads := c.tally.loads + 1 } } :=
      c.untouched_update (Nat.le_succ _) _
    simp only [heq] at herror ⊢
    exact hmade.accept env (Nat.le_refl _) herror

/-- A request that fails is refused at once and changes nothing, or it has missed. -/
theorem get_error_cases (herror : (c.get env path s).1 = .error e) :
    ((c.isShutDown = true ∨ validateKey path = .error e) ∧ c.get env path s = (.error e, c, s)) ∨
    (c.isShutDown = false ∧ validateKey path = .ok () ∧ ∃ c', c.lookup (env.now s) path = (none, c') ∧
      c.get env path s = c'.countMiss.loadAndInsert env path s) := by
  rcases c.get_cases env path s with ⟨hshut, heq⟩ | ⟨_, e', hkey, heq⟩ | ⟨_, _, _, _, _, heq⟩ |
    ⟨hopen, hkey, c', hlookup, heq⟩
  · rw [heq, Except.error.injEq] at herror
    exact Or.inl ⟨Or.inl hshut, herror ▸ heq⟩
  · rw [heq, Except.error.injEq] at herror
    exact Or.inl ⟨Or.inr (herror ▸ hkey), herror ▸ heq⟩
  · rw [heq] at herror
    cases herror
  · exact Or.inr ⟨hopen, hkey, c', hlookup, heq⟩

theorem eq_of_missed {now : Nat} (hlookup : c.lookup now path = (none, c'))
    (hfresh : ∀ idle, c.entry? path = some idle → c.isExpired now idle = false) : c' = c := by
  rcases c.lookup_cases path now with ⟨_, heq⟩ | ⟨idle, hfound, hidle, _⟩ | ⟨_, _, _, heq⟩
  · rw [heq] at hlookup
    cases hlookup
    rfl
  · rw [hfresh idle hfound] at hidle
    cases hidle
  · rw [heq] at hlookup
    cases hlookup

theorem untouched_of_get
    (hfresh : ∀ idle, c.entry? path = some idle → c.isExpired (env.now s) idle = false)
    (herror : (c.get env path s).1 = .error e) : Untouched c (c.get env path s).2.1 := by
  rcases get_error_cases env herror with ⟨_, heq⟩ | ⟨_, _, c', hlookup, heq⟩
  · rw [heq]
    exact Untouched.refl c
  · have hvacant : c'.entry? path = none := vacant_of_missed path hlookup
    rw [heq] at herror ⊢
    obtain rfl := eq_of_missed hlookup hfresh
    exact (c'.untouched_update (Nat.le_refl _) _).trans (untouched_of_loadAndInsert env hvacant herror)

/-- An idle entry leaves with the look-up, whatever comes after it. -/
theorem Sound.bereft_of_get (hc : c.Sound) {idle : Entry ι} (hfound : c.entry? path = some idle)
    (hidle : c.isExpired (env.now s) idle = true) (hopen : c.isShutDown = false)
    (hkey : validateKey path = .ok ()) (herror : (c.get env path s).1 = .error e) :
    Bereft idle c (c.get env path s).2.1 := by
  rcases get_error_cases env herror with ⟨hshut | hinvalid, _⟩ | ⟨_, _, c', hlookup, heq⟩
  · rw [hopen] at hshut
    cases hshut
  · rw [hkey] at hinvalid
    cases hinvalid
  · have hvacant : c'.entry? path = none := vacant_of_missed path hlookup
    obtain rfl : c.expel .expired idle = c' := by
      have hexpired : c.lookup (env.now s) path = (none, c.expel .expired idle) := by
        rw [lookup, hfound]
        exact if_pos hidle
      exact (Prod.mk.inj (hexpired.symm.trans hlookup)).2
    rw [heq] at herror ⊢
    exact (hc.bereft_expel (mem_of_found hfound)).untouched
      ((untouched_update _ (Nat.le_refl _) _).trans (untouched_of_loadAndInsert env hvacant herror))

/-! ## Why a request fails -/

variable {env}

/-- In an open cache a request for a key fails in the engine, or because of the budget. -/
theorem error_of_get {s' : σ} (hopen : c.isShutDown = false) (hkey : validateKey path = .ok ())
    (hget : c.get env path s = (.error e, c', s')) :
    (∃ s₁, env.load path s = (.error e, s₁)) ∨
    ∃ index s₁ budget, env.load path s = (.ok index, s₁) ∧
      c.config.weightBudget = some budget ∧ budget < env.size index ∧
      e = .weightBudgetExceeded path.text (env.size index) budget := by
  have herror : (c.get env path s).1 = .error e := congrArg Prod.fst hget
  rcases get_error_cases env herror with ⟨hshut | hinvalid, _⟩ | ⟨_, _, c₁, hlookup, heq⟩
  · rw [hopen] at hshut
    cases hshut
  · rw [hkey] at hinvalid
    cases hinvalid
  have halike := alike_lookup c (env.now s) path
  rw [hlookup] at halike
  have hagain : c₁.countMiss.lookup (env.now s) path = (none, c₁.countMiss) := by
    have hvacant : c₁.entry? path = none := vacant_of_missed path hlookup
    rw [lookup, show c₁.countMiss.entry? path = none from hvacant]
  rw [heq, loadAndInsert, hagain] at herror
  rcases c₁.countMiss.fetch_cases env path s with ⟨hshut, _⟩ | ⟨_, e', s₁, hload, hfetch⟩ |
    ⟨_, index, s₁, hload, hfetch⟩
  · cases hshut.symm.trans (halike.isShutDown.trans hopen)
  · simp only [hfetch, Except.error.injEq] at herror
    exact Or.inl ⟨s₁, herror ▸ hload⟩
  · simp only [hfetch] at herror
    rcases accept_cases env _ (c₁.countMiss.nextHandle env path index) s₁ with
      ⟨budget, hbudget, hheavy, haccept⟩ | ⟨_, hshut, _⟩ | ⟨_, _, haccept⟩
    · rw [haccept, Except.error.injEq] at herror
      have hconfig : c₁.countMiss.config = c.config := halike.config
      exact Or.inr ⟨index, s₁, budget, hload, hconfig ▸ hbudget, hheavy, herror.symm⟩
    · cases hshut.symm.trans (halike.isShutDown.trans hopen)
    · rw [haccept] at herror
      cases herror

/-- That the cache is closed or that a path is no key is found out before anything else, unless it is
the engine that says so. -/
theorem get_of_refused (herror : (c.get env path s).1 = .error e)
    (hrefused : e = .shutDown ∨ ∃ reason, e = .invalidKey reason) :
    c.get env path s = (.error e, c, s) ∨
      (c.isShutDown = false ∧ validateKey path = .ok () ∧ (env.load path s).1 = .error e) := by
  rcases get_error_cases env herror with ⟨_, heq⟩ | ⟨hopen, hkey, _⟩
  · exact Or.inl heq
  · rcases error_of_get hopen hkey (Prod.ext herror rfl) with ⟨s₁, hfailed⟩ |
      ⟨index, s₁, budget, _, _, _, rfl⟩
    · exact Or.inr ⟨hopen, hkey, congrArg Prod.fst hfailed⟩
    · rcases hrefused with hrefused | ⟨_, hrefused⟩ <;> cases hrefused

end Cache

namespace Service

variable {env : Environment σ ι} {s : Service σ ι} {path : Path} {e : Error}

/-! ## Between two actions -/

/-- Nothing is settled twice. -/
theorem settle_eq_self (h : ∀ id ∈ s.cache.orphans, id ∈ s.heldIds) : s.settle = s := by
  have hkept : s.cache.orphans.filter s.heldIds.contains = s.cache.orphans :=
    List.filter_eq_self.mpr fun id hid => List.contains_iff_mem.mpr (h id hid)
  have hnone : s.cache.orphans.filter (!s.heldIds.contains ·) = [] :=
    List.filter_eq_nil_iff.mpr fun id hid => by simpa using h id hid
  rw [settle, Cache.settle, hkept, hnone]
  rfl

theorem heldIds_of_orphan_run (config : CacheConfig) (observer : Option (Watcher Unit)) (world : σ)
    (actions : List (Action σ ι)) :
    ∀ id ∈ ((start config observer world).run env actions).cache.orphans,
      id ∈ ((start config observer world).run env actions).heldIds :=
  run_induction (P := fun s => ∀ id ∈ s.cache.orphans, id ∈ s.heldIds)
    (fun s action _ _ => held_of_orphan env action s) actions nofun

theorem dated_of_run (env : Environment σ ι) (config : CacheConfig)
    (observer : Option (Watcher Unit)) (world : σ) (actions : List (Action σ ι)) :
    Dated (accesses env actions (start config observer world))
      ((start config observer world).run env actions) :=
  (start_dated config observer world).run (start_sound config observer world)

theorem Dated.open_of_mem {log : List (Path × Nat)} (h : Dated log s) {entry : Entry ι}
    (he : entry ∈ s.cache.entries) : s.cache.isShutDown = false := by
  rw [Bool.eq_false_iff]
  intro hshut
  rw [h.closed hshut] at he
  cases he

/-- The entries are untouched, and every handle that was live still is, and can be used. -/
structure Unharmed (s s' : Service σ ι) : Prop where
  untouched : s.cache.Untouched s'.cache
  usable : ∀ path h, s.cache.liveHandle? path = some h → s'.Usable path h

theorem Consistent.unharmed {s' : Service σ ι} {n : Nat} (hs : s'.Consistent n)
    (h : s.cache.Untouched s'.cache) : s.Unharmed s' := by
  refine ⟨h, fun path handle hlive => hs.usable ?_⟩
  rw [Cache.liveHandle?, Cache.entry?, h.entries]
  exact hlive

theorem put_of_act {index : ι} (herror : (s.act env (.put path index)).1 = .handle (.error e)) :
    (s.cache.put env path index s.world).1 = .error e ∧
      (s.act env (.put path index)).2.cache
        = (s.cache.put env path index s.world).2.settle s.heldIds := by
  rcases hput : s.cache.put env path index s.world with ⟨result, c'⟩
  simp only [act, perform, hput, Answer.handle.injEq] at herror
  subst herror
  refine ⟨rfl, ?_⟩
  simp only [act, perform, hput]
  rfl

theorem get_of_act (herror : (s.act env (.get path)).1 = .handle (.error e)) :
    (s.cache.get env path s.world).1 = .error e ∧
      (s.act env (.get path)).2 = settle { s with
        cache := (s.cache.get env path s.world).2.1
        world := (s.cache.get env path s.world).2.2 } := by
  rcases hget : s.cache.get env path s.world with ⟨result, c', world⟩
  simp only [act, perform, hget, Answer.handle.injEq] at herror
  subst herror
  refine ⟨rfl, ?_⟩
  simp only [act, perform, hget]
  rfl

/-! ## Every request that fails -/

/-- **A request that fails leaves the entries alone.** This is so for every `put`, and for every `get`
unless the entry of its own path was idle for too long. That entry has left then, as expired, and
nothing else has happened. If a `get` fails because the cache is closed or because its path is no key,
nothing has happened at all; an engine may say the same, but it is asked only if neither is so. -/
theorem failed_requests_change_no_entry (env : Environment σ ι) (config : CacheConfig)
    (observer : Option (Watcher Unit)) (world : σ) (actions : List (Action σ ι)) :
    let s := (start config observer world).run env actions
    (∀ path index e, (s.act env (.put path index)).1 = .handle (.error e) →
      s.Unharmed (s.act env (.put path index)).2) ∧
    ∀ path e, (s.act env (.get path)).1 = .handle (.error e) →
      ((∀ idle, s.cache.entry? path = some idle →
          s.cache.isExpired (env.now s.world) idle = false) →
        s.Unharmed (s.act env (.get path)).2) ∧
      (∀ idle, s.cache.entry? path = some idle → s.cache.isExpired (env.now s.world) idle = true →
        s.cache.Bereft idle (s.act env (.get path)).2.cache) ∧
      ((e = .shutDown ∨ ∃ reason, e = .invalidKey reason) →
        (s.act env (.get path)).2 = s ∨
          (s.cache.isShutDown = false ∧ Cache.validateKey path = .ok () ∧
            (env.load path s.world).1 = .error e)) := by
  intro s
  obtain ⟨n, hs⟩ : ∃ n, s.Consistent n := (start_consistent config observer world).run env actions
  refine ⟨fun path index e herror => ?_, fun path e herror => ⟨fun hfresh => ?_, ?_, ?_⟩⟩
  · obtain ⟨hput, hcache⟩ := put_of_act herror
    refine (hs.act env (.put path index)).unharmed ?_
    rw [hcache]
    exact (Cache.untouched_of_put env hput).trans (Cache.frame_settle _ _).untouched
  · obtain ⟨hget, hstate⟩ := get_of_act herror
    refine (hs.act env (.get path)).unharmed ?_
    rw [hstate]
    exact (Cache.untouched_of_get env hfresh hget).trans (Cache.frame_settle _ _).untouched
  · intro idle hfound hidle
    obtain ⟨hget, hstate⟩ := get_of_act herror
    have hdated := dated_of_run env config observer world actions
    have hmem := Cache.mem_of_found hfound
    have hopen : s.cache.isShutDown = false := hdated.open_of_mem hmem
    have hkey : Cache.validateKey path = .ok () :=
      Cache.validateKey_of_sameKey (Path.sameKey_comm (Cache.key_of_found hfound))
        (hdated.key idle hmem)
    rw [hstate]
    exact (hs.sound.bereft_of_get env hfound hidle hopen hkey hget).untouched
      (Cache.frame_settle _ _).untouched
  · intro hrefused
    obtain ⟨hget, hstate⟩ := get_of_act herror
    rcases Cache.get_of_refused hget hrefused with heq | hengine
    · left
      rw [hstate, heq]
      exact settle_eq_self (heldIds_of_orphan_run config observer world actions)
    · exact Or.inr hengine

/-- A cache of six bytes in which two entries have been idle for a millisecond. -/
def brimming : Service Nat Nat :=
  (start { weightCircuitBreaker := true, maxWeightBytes := 6, idleTimeoutMs := 1 }
    (some { interval := 1 }) 0).run Environment.clock
      [.put ⟨"abcdefg"⟩ 3, .put ⟨"b"⟩ 1, .drift 1000000]

/-- A heavy index is not put in place of a light one, and a heavy file is not loaded. The idle entry of
the heavy file has left by then. A path without a name is not even looked up. -/
theorem failed_requests_of_brimming :
    brimming.Unharmed (brimming.act Environment.clock (.put ⟨"b"⟩ 9)).2 ∧
    brimming.Unharmed (brimming.act Environment.clock (.get ⟨"hijklmn"⟩)).2 ∧
    brimming.cache.Bereft ⟨⟨0, ⟨"abcdefg"⟩, 3, 3⟩, 0⟩
      (brimming.act Environment.clock (.get ⟨"abcdefg"⟩)).2.cache ∧
    (brimming.act Environment.clock (.get ⟨"a/.."⟩)).2 = brimming := by
  obtain ⟨hput, hget⟩ := failed_requests_change_no_entry Environment.clock
    { weightCircuitBreaker := true, maxWeightBytes := 6, idleTimeoutMs := 1 }
    (some { interval := 1 }) 0 [.put ⟨"abcdefg"⟩ 3, .put ⟨"b"⟩ 1, .drift 1000000]
  have hheavy : (brimming.act Environment.clock (.put ⟨"b"⟩ 9)).1
      = .handle (.error (.weightBudgetExceeded "b" 9 6)) := rfl
  have hlong : (brimming.act Environment.clock (.get ⟨"hijklmn"⟩)).1
      = .handle (.error (.weightBudgetExceeded "hijklmn" 7 6)) := rfl
  have hagain : (brimming.act Environment.clock (.get ⟨"abcdefg"⟩)).1
      = .handle (.error (.weightBudgetExceeded "abcdefg" 7 6)) := rfl
  have hinvalid : (brimming.act Environment.clock (.get ⟨"a/.."⟩)).1
      = .handle (.error (.invalidKey "a/.. does not name a file")) := rfl
  have hvacant : brimming.cache.entry? ⟨"hijklmn"⟩ = none := rfl
  have hfound : brimming.cache.entry? ⟨"abcdefg"⟩ = some ⟨⟨0, ⟨"abcdefg"⟩, 3, 3⟩, 0⟩ := rfl
  have hidle : brimming.cache.isExpired (Environment.clock.now brimming.world)
      ⟨⟨0, ⟨"abcdefg"⟩, 3, 3⟩, 0⟩ = true := by decide +kernel
  refine ⟨hput _ _ _ hheavy, (hget _ _ hlong).1 fun idle hother => ?_,
    (hget _ _ hagain).2.1 _ hfound hidle, ?_⟩
  · cases hvacant.symm.trans hother
  · exact ((hget _ _ hinvalid).2.2 (Or.inr ⟨_, rfl⟩)).resolve_right fun hengine => nomatch hengine.2.1

end Service

end Sidecar
