import Sidecar.Proofs.Cache.Alike
import Sidecar.Proofs.Cache.Order

/-!
# Idle eviction

An entry is given up when nobody has asked for it for as long as the idle timeout says. Two things
have to be right for that: the time that the entry keeps is the time of its last access, and both
the look-up and the sweep compare that time with the same limit, in the same direction.

* The last access is read off the run, not off the entry: `Service.accesses` notes every `get` and
  `put` that was answered with a handle, and `Dated` says that each live entry keeps the last note
  about its path. A step renews one entry, which is the one that was accessed, or none
  (`Service.renewed_of_access`, `Service.sublist_of_no_access`).
* The limit is `Cache.idleLimit`. `Forgetting` says what it is the limit of: a `get` finds the entry
  as long as less time has passed, and a sweep removes the entries for which that time is up, for
  the reason `expired`, and no other.

The limit is the timeout in nanoseconds *as far as 64 bits hold it*. A timeout of more than 584 years
is cut to its lower 64 bits, so `idle_limit` has the limit as it is, and says in its second half that
it is the timeout exactly for the timeouts that fit. The next one already gives up entries after half
a millisecond (`idle_timeout_wraps`).
-/

set_option autoImplicit false

namespace Sidecar

variable {σ ι : Type}

namespace Path

theorem fileName_of_sameKey {p q : Path} (h : p.sameKey q = true) : p.fileName = q.fileName := by
  have hsame : p.components = q.components := sameKey_iff.mp h
  rw [fileName, fileName, hsame]

end Path

namespace Cache

/-! ## Keys -/

/-- A path without a text names no file. -/
theorem validateKey_eq_ok_iff {path : Path} :
    validateKey path = .ok () ↔ path.fileName.isSome = true := by
  unfold validateKey
  by_cases hempty : path.text.isEmpty = true
  · have hnone : path.fileName = none := by
      obtain ⟨text⟩ := path
      obtain rfl : text = "" := String.isEmpty_iff.mp hempty
      rfl
    simp [hempty, hnone]
  · cases hname : path.fileName with
    | none => simp [hempty]
    | some name => simp [hempty]

theorem validateKey_of_sameKey {p q : Path} (h : p.sameKey q = true)
    (hq : validateKey q = .ok ()) : validateKey p = .ok () := by
  rw [validateKey_eq_ok_iff] at hq ⊢
  rw [Path.fileName_of_sameKey h]
  exact hq

section Request

variable {c : Cache ι} {path : Path} {h : Handle ι} (env : Environment σ ι) {s : σ}

theorem open_of_get (hget : (c.get env path s).1 = .ok h) :
    c.isShutDown = false ∧ validateKey path = .ok () := by
  rcases c.get_cases env path s with ⟨_, heq⟩ | ⟨_, e, _, heq⟩ | ⟨hopen, hkey, _⟩ |
    ⟨hopen, hkey, _⟩
  · rw [heq] at hget
    cases hget
  · rw [heq] at hget
    cases hget
  · exact ⟨hopen, hkey⟩
  · exact ⟨hopen, hkey⟩

theorem open_of_put {index : ι} (hput : (c.put env path index s).1 = .ok h) :
    c.isShutDown = false ∧ validateKey path = .ok () := by
  rcases c.put_cases env path s index with ⟨_, heq⟩ | ⟨_, e, _, heq⟩ | ⟨hopen, hkey, _⟩
  · rw [heq] at hput
    cases hput
  · rw [heq] at hput
    cases hput
  · exact ⟨hopen, hkey⟩

/-! ## Hits and misses -/

/-- How many look-ups found something, and how many did not. -/
def visits (c : Cache ι) : Nat × Nat := (c.tally.hits, c.tally.misses)

theorem Alike.visits {c' : Cache ι} (h : Alike c c') : c'.visits = c.visits := by
  obtain ⟨n, hn⟩ := h.tally
  rw [Cache.visits, hn]
  rfl

theorem visits_loadAndInsert (c : Cache ι) (path : Path) (s : σ) :
    (c.loadAndInsert env path s).2.1.visits = c.visits := by
  have hlookup := (alike_lookup c (env.now s) path).visits
  unfold loadAndInsert
  rcases hl : c.lookup (env.now s) path with ⟨_ | h, c₁⟩
  · rw [hl] at hlookup
    rcases c₁.fetch_cases env path s with ⟨_, heq⟩ | ⟨_, e, s', _, heq⟩ | ⟨_, index, s', _, heq⟩
    · simp only [heq]
      exact hlookup
    · simp only [heq]
      exact hlookup
    · simp only [heq]
      exact (alike_accept env _ (c₁.nextHandle env path index) s').visits.trans hlookup
  · rw [hl] at hlookup
    exact hlookup

/-- A `get` finds the entry of a path, unless it is idle. -/
theorem get_of_live {e : Entry ι} (hopen : c.isShutDown = false) (hkey : validateKey path = .ok ())
    (hfound : c.entry? path = some e) (hlive : c.isExpired (env.now s) e = false) :
    (c.get env path s).1 = .ok e.handle ∧ (c.get env path s).2.2 = s ∧
      (c.get env path s).2.1.visits = (c.tally.hits + 1, c.tally.misses) := by
  have hlookup : c.lookup (env.now s) path = (some e.handle, c.touch (env.now s) e) := by
    simp [lookup, hfound, hlive]
  rcases c.get_cases env path s with ⟨hshut, _⟩ | ⟨_, e', hinvalid, _⟩ | ⟨_, _, h, c₁, hl, heq⟩ |
    ⟨_, _, c₁, hl, _⟩
  · rw [hopen] at hshut
    cases hshut
  · rw [hkey] at hinvalid
    cases hinvalid
  · rw [hlookup] at hl
    cases hl
    rw [heq]
    exact ⟨rfl, rfl, rfl⟩
  · rw [hlookup] at hl
    cases hl

theorem get_of_idle {e : Entry ι} (hopen : c.isShutDown = false) (hkey : validateKey path = .ok ())
    (hfound : c.entry? path = some e) (hidle : c.isExpired (env.now s) e = true) :
    (c.get env path s).2.1.visits = (c.tally.hits, c.tally.misses + 1) := by
  have hlookup : c.lookup (env.now s) path = (none, c.expel .expired e) := by
    simp [lookup, hfound, hidle]
  have hvisits := (alike_expel c .expired e).visits
  rcases c.get_cases env path s with ⟨hshut, _⟩ | ⟨_, e', hinvalid, _⟩ | ⟨_, _, h, c₁, hl, _⟩ |
    ⟨_, _, c₁, hl, heq⟩
  · rw [hopen] at hshut
    cases hshut
  · rw [hkey] at hinvalid
    cases hinvalid
  · rw [hlookup] at hl
    cases hl
  · rw [hlookup] at hl
    cases hl
    rw [heq, visits_loadAndInsert]
    obtain ⟨hhits, hmisses⟩ := Prod.mk.inj hvisits
    exact Prod.ext hhits (congrArg (· + 1) hmisses)

end Request

end Cache

namespace Service

/-! ## The accesses of a run -/

/-- The handle that a `get` or a `put` answers with, and the path for which it was wanted. -/
def access? (env : Environment σ ι) (action : Action σ ι) (s : Service σ ι) :
    Option (Path × Handle ι) :=
  match action.path?, (s.act env action).1 with
  | some path, .handle (.ok h) => some (path, h)
  | _, _ => none

/-- Every access of a run, with its time. -/
def accesses (env : Environment σ ι) : List (Action σ ι) → Service σ ι → List (Path × Nat)
  | [], _ => []
  | action :: rest, s =>
    let next := (s.act env action).2
    ((s.access? env action).map fun access => (access.1, env.now next.world)).toList
      ++ accesses env rest next

/-- The time of the last access to a path. -/
def lastAccess? (log : List (Path × Nat)) (path : Path) : Option Nat :=
  (log.reverse.find? (·.1.sameKey path)).map (·.2)

variable {env : Environment σ ι} {s : Service σ ι} {action : Action σ ι} {path : Path}
  {h : Handle ι}

theorem lastAccess?_concat_of_sameKey (log : List (Path × Nat)) {path path' : Path} (now : Nat)
    (hsame : path'.sameKey path = true) : lastAccess? (log ++ [(path', now)]) path = some now := by
  simp [lastAccess?, hsame]

theorem lastAccess?_concat_of_other (log : List (Path × Nat)) {path path' : Path} (now : Nat)
    (hother : path'.sameKey path = false) :
    lastAccess? (log ++ [(path', now)]) path = lastAccess? log path := by
  simp [lastAccess?, hother]

theorem answer_of_access (haccess : s.access? env action = some (path, h)) :
    action.path? = some path ∧ (s.act env action).1 = .handle (.ok h) := by
  unfold access? at haccess
  split at haccess
  · next path' h' hpath hanswer =>
    obtain ⟨rfl, rfl⟩ := Prod.mk.inj (Option.some.inj haccess)
    exact ⟨hpath, hanswer⟩
  · cases haccess

/-- The handle is a live entry of the path that was asked for. -/
theorem sameKey_of_access (haccess : s.access? env action = some (path, h)) :
    h.path.sameKey path = true := by
  obtain ⟨hpath, hanswer⟩ := answer_of_access haccess
  obtain ⟨e, hfound, rfl⟩ := Option.map_eq_some_iff.mp (live_of_act env hpath hanswer)
  exact Cache.key_of_found hfound

theorem isShutdown_of_access (haccess : s.access? env action = some (path, h)) :
    action.isShutdown = false := by
  cases action with
  | shutdown => cases haccess
  | _ => rfl

theorem renewed_of_access (hs : s.cache.Sound) (haccess : s.access? env action = some (path, h)) :
    (s.cache.isShutDown = false ∧ Cache.validateKey path = .ok ()) ∧
      Cache.Renewed path s.cache.entries (s.act env action).2.cache.entries
        ⟨h, env.now (s.act env action).2.world⟩ := by
  have hsettled : (s.act env action).2.cache.entries = (s.perform env action).2.cache.entries :=
    (Cache.frame_settle _ _).entries
  rw [hsettled]
  cases action with
  | get path' =>
    have hentries := hs.answered_get env path' s.world
    have hopen : (s.cache.get env path' s.world).1 = .ok h →
        s.cache.isShutDown = false ∧ Cache.validateKey path' = .ok () := Cache.open_of_get env
    rcases hget : s.cache.get env path' s.world with ⟨_ | h', c', s'⟩
    · simp [access?, Action.path?, act, perform, hget] at haccess
    · simp only [access?, Action.path?, act, perform, hget, Option.some.injEq,
        Prod.mk.injEq] at haccess
      obtain ⟨rfl, rfl⟩ := haccess
      rw [hget] at hentries hopen
      simp only [act, perform, hget]
      exact ⟨hopen rfl, hentries⟩
  | put path' index =>
    have hentries := hs.answered_put env path' index s.world
    have hopen : (s.cache.put env path' index s.world).1 = .ok h →
        s.cache.isShutDown = false ∧ Cache.validateKey path' = .ok () := Cache.open_of_put env
    rcases hput : s.cache.put env path' index s.world with ⟨_ | h', c'⟩
    · simp [access?, Action.path?, act, perform, hput] at haccess
    · simp only [access?, Action.path?, act, perform, hput, Option.some.injEq,
        Prod.mk.injEq] at haccess
      obtain ⟨rfl, rfl⟩ := haccess
      rw [hput] at hentries hopen
      simp only [act, perform, hput]
      exact ⟨hopen rfl, hentries⟩
  | query _ _ _ | invalidate _ | sweep | poll | shutdown | share _ | drop _ | release | drain
  | lag _ | blind | drift _ => cases haccess

theorem sublist_of_no_access (hs : s.cache.Sound) (haccess : s.access? env action = none) :
    (s.act env action).2.cache.entries.Sublist s.cache.entries := by
  have hsettled : (s.act env action).2.cache.entries = (s.perform env action).2.cache.entries :=
    (Cache.frame_settle _ _).entries
  rw [hsettled]
  cases action with
  | get path =>
    have hentries := hs.answered_get env path s.world
    rcases hget : s.cache.get env path s.world with ⟨_ | h', c', s'⟩
    · rw [hget] at hentries
      simp only [perform, hget]
      exact hentries
    · simp [access?, Action.path?, act, perform, hget] at haccess
  | put path index =>
    have hentries := hs.answered_put env path index s.world
    rcases hput : s.cache.put env path index s.world with ⟨_ | h', c'⟩
    · rw [hput] at hentries
      simp only [perform, hput]
      exact hentries
    · simp [access?, Action.path?, act, perform, hput] at haccess
  | query id vector k =>
    simp only [perform]
    split <;> exact List.Sublist.refl _
  | invalidate path =>
    simp only [perform, Cache.invalidate, Cache.entries_remove]
    exact Cache.besides_sublist path _
  | sweep => exact Cache.sweep_sublist s.cache (env.now s.world)
  | poll => exact Cache.poll_sublist s.cache (env.presence s.world)
  | shutdown => exact Cache.shutdown_sublist hs
  | release => exact (Cache.frame_runRelease s.cache).entries ▸ List.Sublist.refl _
  | drain => exact (Cache.frame_runReleases _ s.cache).entries ▸ List.Sublist.refl _
  | share _ | drop _ | lag _ | blind | drift _ => exact List.Sublist.refl _

/-! ## What a run keeps -/

/-- Every live entry has a key for its path and keeps the time of the last access to it; and a cache
that is shut down has none. -/
structure Dated (log : List (Path × Nat)) (s : Service σ ι) : Prop where
  key : ∀ e ∈ s.cache.entries, Cache.validateKey e.handle.path = .ok ()
  last : ∀ e ∈ s.cache.entries, lastAccess? log e.handle.path = some e.lastAccess
  closed : s.cache.isShutDown = true → s.cache.entries = []

theorem Dated.act {log : List (Path × Nat)} (h : Dated log s) (hs : s.cache.Sound)
    (action : Action σ ι) :
    Dated (log ++ ((s.access? env action).map fun access =>
        (access.1, env.now (s.act env action).2.world)).toList) (s.act env action).2 := by
  rcases haccess : s.access? env action with _ | ⟨path, handle⟩
  · have hsub := (sublist_of_no_access hs haccess).subset
    rw [Option.map_none, Option.toList_none, List.append_nil]
    refine ⟨fun e he => h.key e (hsub he), fun e he => h.last e (hsub he), fun hshut => ?_⟩
    cases hopen : s.cache.isShutDown with
    | true =>
      rw [h.closed hopen] at hsub
      exact List.subset_nil.mp hsub
    | false =>
      cases hend : action.isShutdown with
      | true =>
        obtain rfl : action = .shutdown := by
          cases action <;> first | rfl | cases hend
        exact ((Cache.frame_settle _ _).entries).trans (Cache.entries_shutdown hs hopen)
      | false =>
        rw [isShutDown_act env s hend, hopen] at hshut
        cases hshut
  · obtain ⟨⟨hopen, hkey⟩, kept, hkept, hentries⟩ := renewed_of_access hs haccess
    -- The new entry is the last one, and the others are of other paths.
    have hsame := sameKey_of_access haccess
    refine ⟨?_, ?_, fun hshut => ?_⟩
    · intro e he
      rw [hentries, List.mem_append, List.mem_singleton] at he
      rcases he with he | rfl
      · exact h.key e (Cache.mem_besides.mp (hkept.subset he)).1
      · exact Cache.validateKey_of_sameKey hsame hkey
    · intro e he
      rw [hentries, List.mem_append, List.mem_singleton] at he
      rcases he with he | rfl
      · obtain ⟨hold, hother⟩ := Cache.mem_besides.mp (hkept.subset he)
        have hother' : path.sameKey e.handle.path = false := by
          rw [Bool.eq_false_iff] at hother ⊢
          exact fun hcon => hother (Path.sameKey_comm hcon)
        exact (lastAccess?_concat_of_other log _ hother').trans (h.last e hold)
      · exact lastAccess?_concat_of_sameKey log _ (Path.sameKey_comm hsame)
    · rw [isShutDown_act env s (isShutdown_of_access haccess), hopen] at hshut
      cases hshut

theorem Dated.run {log : List (Path × Nat)} {actions : List (Action σ ι)} (h : Dated log s)
    (hs : s.cache.Sound) : Dated (log ++ accesses env actions s) (s.run env actions) := by
  induction actions generalizing s log with
  | nil =>
    rw [accesses, List.append_nil]
    exact h
  | cons action rest ih =>
    have hrest := ih (h.act hs action) ((act_moves env action hs 0).sound hs)
    rw [accesses, ← List.append_assoc]
    exact hrest

/-! ## The law -/

/-- A `get` finds the handle in the cache. -/
structure IsHit (env : Environment σ ι) (s : Service σ ι) (path : Path) (h : Handle ι) : Prop where
  answer : (s.act env (.get path)).1 = .handle (.ok h)
  visits : (s.act env (.get path)).2.cache.visits = (s.cache.tally.hits + 1, s.cache.tally.misses)
  world : (s.act env (.get path)).2.world = s.world

/-- A `get` finds nothing in the cache. -/
def IsMiss (env : Environment σ ι) (s : Service σ ι) (path : Path) : Prop :=
  (s.act env (.get path)).2.cache.visits = (s.cache.tally.hits, s.cache.tally.misses + 1)

/-- How much time has passed since the last access to an entry. -/
def age (env : Environment σ ι) (s : Service σ ι) (e : Entry ι) : Nat :=
  env.now s.world - e.lastAccess

/-- The cache serves entries of less than a certain age, and sweeps the others out. -/
structure Forgetting (env : Environment σ ι) (s : Service σ ι) (limit : Nat) : Prop where
  hit_iff : ∀ e ∈ s.cache.entries, ∀ path, path.sameKey e.handle.path = true →
    (s.IsHit env path e.handle ↔ s.age env e < limit)
  miss_iff : ∀ e ∈ s.cache.entries, ∀ path, path.sameKey e.handle.path = true →
    (s.IsMiss env path ↔ limit ≤ s.age env e)
  left : (s.act env .sweep).2.cache.entries
    = s.cache.entries.filter fun e => s.age env e < limit
  departed : (s.act env .sweep).2.cache.departures = s.cache.departures
    ++ (s.cache.entries.filter fun e => limit ≤ s.age env e).map fun e => (e.handle.id, .expired)

theorem IsHit.not_miss (hit : s.IsHit env path h) : ¬ s.IsMiss env path := by
  intro hmiss
  have hvisits := hit.visits.symm.trans hmiss
  exact absurd (congrArg Prod.fst hvisits) (Nat.succ_ne_self _)

theorem visits_act_get (env : Environment σ ι) (s : Service σ ι) (path : Path) :
    (s.act env (.get path)).2.cache.visits = (s.cache.get env path s.world).2.1.visits := by
  refine ((Cache.frame_settle _ _).alike.visits).trans ?_
  simp only [grant]
  split <;> rfl

theorem isHit_of_live {e : Entry ι} (hopen : s.cache.isShutDown = false)
    (hkey : Cache.validateKey path = .ok ()) (hfound : s.cache.entry? path = some e)
    (hlive : s.cache.isExpired (env.now s.world) e = false) : s.IsHit env path e.handle := by
  obtain ⟨hresult, hworld, hvisits⟩ := Cache.get_of_live env hopen hkey hfound hlive
  refine ⟨?_, (visits_act_get env s path).trans hvisits, ?_⟩
  · simp only [act, perform, hresult]
  · simp only [act, settle, perform, grant, hresult, hworld]

/-- What the limit is the limit of. -/
theorem forgetting_of_limit {limit : Nat} {log : List (Path × Nat)} (hs : s.cache.Sound)
    (hwithin : s.cache.WithinBudget) (hdated : Dated log s)
    (hlimit : s.cache.idleLimit = some limit) : s.Forgetting env limit := by
  have hexpired : ∀ e, s.cache.isExpired (env.now s.world) e = decide (limit ≤ s.age env e) := by
    intro e
    rw [Bool.eq_iff_iff, Cache.isExpired_iff, hlimit, decide_eq_true_iff]
    simp [age]
  have hopen : ∀ e ∈ s.cache.entries, s.cache.isShutDown = false := by
    intro e he
    rw [Bool.eq_false_iff]
    intro hshut
    rw [hdated.closed hshut] at he
    cases he
  have hhit : ∀ e ∈ s.cache.entries, ∀ path, path.sameKey e.handle.path = true →
      s.age env e < limit → s.IsHit env path e.handle := by
    intro e he path hsame hyoung
    have hkey := Cache.validateKey_of_sameKey hsame (hdated.key e he)
    have hfound := hs.found_of_mem he (Path.sameKey_comm hsame)
    exact isHit_of_live (hopen e he) hkey hfound (by rw [hexpired]; simpa using hyoung)
  have hmiss : ∀ e ∈ s.cache.entries, ∀ path, path.sameKey e.handle.path = true →
      limit ≤ s.age env e → s.IsMiss env path := by
    intro e he path hsame hold
    have hkey := Cache.validateKey_of_sameKey hsame (hdated.key e he)
    have hfound := hs.found_of_mem he (Path.sameKey_comm hsame)
    refine (visits_act_get env s path).trans ?_
    exact Cache.get_of_idle env (hopen e he) hkey hfound (by rw [hexpired]; simpa using hold)
  have hleft : (s.act env .sweep).2.cache.entries = (s.cache.sweep (env.now s.world)).2.entries :=
    (Cache.frame_settle _ _).entries
  have hdeparted : (s.act env .sweep).2.cache.departures
      = (s.cache.sweep (env.now s.world)).2.departures :=
    (Cache.frame_settle _ _).departures
  refine ⟨?_, ?_, ?_, ?_⟩
  · intro e he path hsame
    refine ⟨fun hit => ?_, hhit e he path hsame⟩
    exact Nat.lt_of_not_le fun hold => hit.not_miss (hmiss e he path hsame hold)
  · intro e he path hsame
    refine ⟨fun miss => ?_, hmiss e he path hsame⟩
    exact Nat.le_of_not_lt fun hyoung => (hhit e he path hsame hyoung).not_miss miss
  · rw [hleft]
    cases hshut : s.cache.isShutDown with
    | true => simp [Cache.sweep, hshut, hdated.closed hshut]
    | false =>
      rw [hs.entries_sweep hwithin hshut]
      refine List.filter_congr fun e _ => ?_
      simp only [hexpired, ← decide_not, Nat.not_le]
  · rw [hdeparted]
    cases hshut : s.cache.isShutDown with
    | true => simp [Cache.sweep, hshut, hdated.closed hshut]
    | false =>
      rw [hs.sweep_eq hwithin hshut, Cache.expelAll_departures,
        List.filter_congr fun e _ => hexpired e]

/-! ## Every run -/

theorem start_dated (config : CacheConfig) (observer : Option (Watcher Unit)) (world : σ) :
    Dated [] (start (ι := ι) config observer world) :=
  ⟨nofun, nofun, nofun⟩

/-- The limit in nanoseconds, in 64 bits. -/
theorem forgetting_run (env : Environment σ ι) (config : CacheConfig)
    (hidle : config.idleEviction = true) (observer : Option (Watcher Unit)) (world : σ)
    (actions : List (Action σ ι)) :
    let s := (start config observer world).run env actions
    Dated (accesses env actions (start config observer world)) s ∧
      s.Forgetting env (config.idleTimeoutMs * 1000000 % UInt64.size) := by
  intro s
  have hstart := start_sound (ι := ι) config observer world
  have hmoves := run_moves env actions hstart 0
  have hconfig : s.cache.config = config := Moves.config hmoves
  have hwithin : s.cache.WithinBudget :=
    hmoves.preserve (P := fun t => t.cache.WithinBudget) Move.withinBudget fun _ _ => Nat.zero_le _
  have hdated : Dated (accesses env actions (start config observer world)) s :=
    (start_dated config observer world).run hstart
  refine ⟨hdated, forgetting_of_limit (Moves.sound hmoves hstart) hwithin hdated ?_⟩
  rw [Cache.idleLimit, hconfig, CacheConfig.idleTimeout, if_pos hidle]
  rfl

end Service

theorem Service.frame_act_put (env : Environment σ ι) (path : Path) (index : ι) (s : Service σ ι) :
    Cache.Frame (s.cache.put env path index s.world).2 (s.act env (.put path index)).2.cache := by
  refine Cache.Frame.trans ?_ (Cache.frame_settle _ _)
  simp only [grant]
  split <;> exact Cache.Frame.refl _

/-- What fits is put. -/
theorem Service.mem_of_put (env : Environment σ ι) {s : Service σ ι} (path : Path) (index : ι)
    (hs : s.cache.Sound) (hopen : s.cache.isShutDown = false)
    (hkey : Cache.validateKey path = .ok ())
    (hfits : s.cache.Fits (s.cache.nextHandle env path index)) :
    { handle := s.cache.nextHandle env path index, lastAccess := env.now s.world }
      ∈ (s.act env (.put path index)).2.cache.entries := by
  have hentries := hs.answered_put env path index s.world
  have hresult : (s.cache.put env path index s.world).1
      = .ok (s.cache.nextHandle env path index) := by
    rcases s.cache.put_cases env path s.world index with ⟨hshut, _⟩ | ⟨_, e, hinvalid, _⟩ |
      ⟨_, _, heq⟩
    · rw [hopen] at hshut
      cases hshut
    · rw [hkey] at hinvalid
      cases hinvalid
    · rcases Cache.accept_cases env { s.cache with made := s.cache.made + 1 }
        (s.cache.nextHandle env path index) s.world with ⟨budget, hbudget, hheavy, _⟩ |
        ⟨_, hshut, _⟩ | ⟨_, _, heq'⟩
      · exact absurd hheavy (Nat.not_lt.mpr (hfits budget hbudget))
      · rw [show s.cache.isShutDown = true from hshut] at hopen
        cases hopen
      · rw [heq, heq']
  rw [hresult] at hentries
  obtain ⟨kept, -, heq⟩ := hentries
  rw [(frame_act_put env path index s).entries, heq]
  exact List.mem_append_right _ (List.mem_singleton_self _)

/-- The first entry of a cache, which weighs nothing and was put at time zero. -/
def firstEntry : Entry Nat :=
  { handle := { id := 0, path := ⟨"a"⟩, size := 0, index := 0 }, lastAccess := 0 }

/-- Every cache can take what weighs nothing. -/
theorem mem_of_put_first (config : CacheConfig) (time : Nat) :
    firstEntry ∈ ((Service.start config none 0).run Environment.clock
      [.put ⟨"a"⟩ 0, .drift time]).cache.entries := by
  have hput := Service.mem_of_put Environment.clock ⟨"a"⟩ 0
    (Service.start_sound config none 0) rfl rfl fun budget _ => Nat.zero_le budget
  exact (Cache.frame_settle _ _).entries.symm ▸ hput

theorem age_first (config : CacheConfig) (time : Nat) :
    ((Service.start config none 0).run Environment.clock
      [.put ⟨"a"⟩ 0, .drift time]).age Environment.clock firstEntry = time :=
  rfl

/-- **An entry goes when nobody has asked for it for the idle timeout.** After every run each live
entry keeps the time of the last access to its path, a `get` finds it as long as less time than the
limit has passed since, and a sweep removes, as expired, those for which it has not. The limit is the
timeout in nanoseconds, cut to 64 bits. So with the timeout itself for the limit this is a law for all
runs on a clock of 64 bits exactly if the timeout has 64 bits. -/
theorem idle_limit (config : CacheConfig) (hidle : config.idleEviction = true) :
    (∀ (σ ι : Type) (env : Environment σ ι) observer world actions,
      let s := (Service.start config observer world).run env actions
      Service.Dated (Service.accesses env actions (Service.start config observer world)) s ∧
        s.Forgetting env (config.idleTimeoutMs * 1000000 % UInt64.size)) ∧
    ((∀ (σ ι : Type) (env : Environment σ ι) observer world actions,
      let s := (Service.start config observer world).run env actions
      env.now s.world < UInt64.size → s.Forgetting env (config.idleTimeoutMs * 1000000)) ↔
      config.idleTimeoutMs * 1000000 < UInt64.size) := by
  refine ⟨fun σ ι env => Service.forgetting_run env config hidle, ?_, ?_⟩
  · intro hlaw
    by_contra hlong
    -- An entry as old as the limit is idle, and not as old as the timeout.
    generalize hlimit : config.idleTimeoutMs * 1000000 % UInt64.size = limit
    have hcut : limit < UInt64.size := by
      rw [← hlimit]
      exact Nat.mod_lt _ (by decide)
    obtain ⟨-, hreal⟩ := Service.forgetting_run Environment.clock config hidle none 0
      [.put ⟨"a"⟩ 0, .drift limit]
    have hclaimed := hlaw Nat Nat Environment.clock none 0 [.put ⟨"a"⟩ 0, .drift limit] hcut
    have he := mem_of_put_first config limit
    have hreal := hreal.hit_iff firstEntry he ⟨"a"⟩ rfl
    have hclaimed := hclaimed.hit_iff firstEntry he ⟨"a"⟩ rfl
    rw [age_first] at hreal hclaimed
    rw [hlimit] at hreal
    have hhit := hclaimed.mpr (Nat.lt_of_lt_of_le hcut (Nat.le_of_not_lt hlong))
    exact Nat.lt_irrefl limit (hreal.mp hhit)
  · intro hshort σ ι env observer world actions s _
    have hlaw := (Service.forgetting_run env config hidle observer world actions).2
    rw [Nat.mod_eq_of_lt hshort] at hlaw
    exact hlaw

/-- A cache whose only entry was put at time zero. -/
def lonely (config : CacheConfig) (time : Nat) : Service Nat Nat :=
  (Service.start config none 0).run Environment.clock [.put ⟨"a"⟩ 0, .drift time]

/-- With the timeout of ninety minutes it is found until the last nanosecond. -/
theorem idle_limit_ninety_minutes :
    CacheConfig.idleEviction {} = true ∧
    (lonely {} 5399999999999).IsHit Environment.clock ⟨"a"⟩ firstEntry.handle ∧
    (lonely {} 5400000000000).IsMiss Environment.clock ⟨"a"⟩ ∧
    ((lonely {} 5400000000000).act Environment.clock .sweep).2.cache.entries = [] := by
  obtain ⟨-, hlaw⟩ := idle_limit {} rfl
  have hlaw := hlaw.mpr (by decide) Nat Nat Environment.clock none 0
  have hyoung := hlaw [.put ⟨"a"⟩ 0, .drift 5399999999999] (by decide)
  have hold := hlaw [.put ⟨"a"⟩ 0, .drift 5400000000000] (by decide)
  refine ⟨rfl, ?_, ?_, ?_⟩
  · exact (hyoung.hit_iff firstEntry (mem_of_put_first {} _) ⟨"a"⟩ rfl).mpr (by decide)
  · exact (hold.miss_iff firstEntry (mem_of_put_first {} _) ⟨"a"⟩ rfl).mpr (by decide)
  · exact hold.left

/-- The shortest timeout with more than 64 bits of nanoseconds. -/
def tooLong : CacheConfig := { idleTimeoutMs := 18446744073710 }

/-- **A timeout of 584 years is over after half a millisecond.** The configuration is valid and the
entry was put a millisecond ago; yet a `get` does not find it, and a sweep removes it. -/
theorem idle_timeout_wraps :
    Config.validate { cache := tooLong } = .ok () ∧
    tooLong.idleTimeout = some 18446744073710 ∧
    (lonely tooLong 1000000).cache.entries = [firstEntry] ∧
    (lonely tooLong 1000000).age Environment.clock firstEntry < 18446744073710 * 1000000 ∧
    (lonely tooLong 1000000).IsMiss Environment.clock ⟨"a"⟩ ∧
    ((lonely tooLong 1000000).act Environment.clock .sweep).2.cache.entries = [] ∧
    ¬ (lonely tooLong 1000000).Forgetting Environment.clock (18446744073710 * 1000000) := by
  have hmiss : (lonely tooLong 1000000).IsMiss Environment.clock ⟨"a"⟩ := rfl
  refine ⟨rfl, rfl, rfl, by decide, hmiss, rfl, fun hlaw => ?_⟩
  have he : firstEntry ∈ (lonely tooLong 1000000).cache.entries := List.mem_singleton_self _
  exact ((hlaw.hit_iff firstEntry he ⟨"a"⟩ rfl).mpr (by decide)).not_miss hmiss

end Sidecar
