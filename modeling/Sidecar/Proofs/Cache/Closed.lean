import Sidecar.Proofs.Cache.WatchTable

/-!
# Shutting down is final

A cache that is shut down is empty, its release worker has gone home, and no operation brings anything
back (`Cache.Closed`). What makes this last is that every operation asks first whether the cache is
open: before it looks at the key, before it asks the engine, before it weighs anything. So a closed
cache has one answer to everything, and there is one equation per operation that says so
(`Closed.get_eq` and so on).

What a closed cache still does is to take note of indexes that are handed in and to get rid of them.
The release worker refuses them, so they go the other way: they become orphans, and as nobody was
given a handle they are settled at once. That nobody holds them is not a fact about the step. It holds
because every reference is to a handle that was granted (`held_subset_granted`), and nothing is granted
any more.

`Service.Rests` says what is left alone by whatever may happen to a closed cache, and runs compose by
`Rests.trans`.
-/

set_option autoImplicit false

namespace Sidecar

variable {σ ι : Type}

theorem WorkerPool.isShutDown_retire {τ : Type} (pool : WorkerPool τ) :
    pool.close.dismiss.isShutDown = true := by
  unfold dismiss
  split <;> rfl

namespace Cache

/-! ## A closed cache -/

structure Closed (c : Cache ι) : Prop where
  isShutDown : c.isShutDown = true
  entries : c.entries = []
  weight : c.weight = 0
  queue : c.releaser.queue = []
  refusing : c.releaser.isShutDown = true

variable {c : Cache ι} {path q : Path}

theorem isShutDown_shutdown (c : Cache ι) : c.shutdown.isShutDown = true := by
  cases hopen : c.isShutDown with
  | true => rw [Cache.shutdown, if_pos hopen, hopen]
  | false => exact (alike_shutdown hopen).isShutDown

theorem attended_expelAll (reason : RemovalReason) (es : List (Entry ι))
    (h : c.releaser.Attended) : (c.expelAll reason es).releaser.Attended := by
  induction es generalizing c with
  | nil => exact h
  | cons e rest ih =>
    have hexpelled : (c.expel reason e).releaser.Attended := by
      rw [expel_eq_scheduleRelease]
      exact attended_scheduleRelease (c := c.strike reason e) h e.handle.id
    exact ih hexpelled

theorem shutdown_eq (hopen : c.isShutDown = false) : c.shutdown =
    let drained := (Cache.expelAll .shutdown { c with isShutDown := true } c.entries).drainReleases
    { drained with releaser := drained.releaser.close.dismiss } := by
  rw [Cache.shutdown, if_neg (by simp [hopen])]

theorem Sound.closed_shutdown (hc : c.Sound) (ha : c.releaser.Attended)
    (hopen : c.isShutDown = false) : c.shutdown.Closed := by
  have hentries := entries_shutdown hc hopen
  have hsound : c.shutdown.Sound := (shutdown_moves (p := []) (n := 0) hc).sound hc
  have hexpelled : (Cache.expelAll .shutdown { c with isShutDown := true }
      c.entries).releaser.Attended := attended_expelAll .shutdown c.entries ha
  refine ⟨c.isShutDown_shutdown, hentries, ?_, ?_, ?_⟩
  · rw [hsound.weight, hentries, total_nil]
  · rw [shutdown_eq hopen]
    exact (WorkerPool.retire_queue _).trans (queue_drainReleases hexpelled)
  · rw [shutdown_eq hopen]
    exact WorkerPool.isShutDown_retire _

/-- Shutting down drops the watches of the live paths and no others. -/
theorem watches_shutdown (hopen : c.isShutDown = false) : c.shutdown.Watches q ↔
    c.Watches q ∧ ∀ e ∈ c.entries, q.sameKey e.handle.path = false := by
  have hobserver : c.shutdown.observer
      = (Cache.expelAll .shutdown { c with isShutDown := true } c.entries).observer := by
    rw [shutdown_eq hopen]
    exact (frame_runReleases _ _).observer
  exact (watches_of_eq hobserver).trans (watches_expelAll rfl c.entries)

/-! ## What it answers -/

namespace Closed

variable (h : c.Closed) (env : Environment σ ι) (s : σ)
include h

theorem get_eq (path : Path) : c.get env path s = (.error .shutDown, c, s) := by
  simp [Cache.get, request, h.isShutDown]

theorem remove_eq (path : Path) (reason : RemovalReason) : c.remove path reason = (false, c) := by
  simp [Cache.remove, entry?, h.entries]

theorem sweep_eq (now : Nat) : c.sweep now = (0, c) := by
  simp [Cache.sweep, h.isShutDown]

theorem shutdown_eq_self : c.shutdown = c := by
  simp [Cache.shutdown, h.isShutDown]

theorem runRelease_eq_self : c.runRelease = c := by
  refine runRelease_of_none ?_
  cases hnext : c.releaser.runNext with
  | none => rfl
  | some next =>
    have hqueue := WorkerPool.queue_of_runNext hnext
    rw [h.queue] at hqueue
    cases hqueue

theorem drainReleases_eq_self : c.drainReleases = c := by
  rw [drainReleases, h.queue]
  rfl

/-- A handle that is given up becomes an orphan. -/
theorem scheduleRelease_eq (id : Nat) : c.scheduleRelease id =
    { c with lags := c.lags.tail, orphans := c.orphans ++ [id] } := by
  simp [Cache.scheduleRelease, catchUp, h.queue, runReleases, WorkerPool.submit, h.refusing]

theorem put_eq (path : Path) (index : ι) : c.put env path index s = (.error .shutDown,
    { c with
      made := c.made + 1
      invalidated := c.made :: c.invalidated
      lags := c.lags.tail
      orphans := c.orphans ++ [c.made] }) := by
  have hmarked : Closed { c with made := c.made + 1, invalidated := c.made :: c.invalidated } :=
    ⟨h.isShutDown, h.entries, h.weight, h.queue, h.refusing⟩
  unfold Cache.put mint
  dsimp only
  rw [if_pos h.isShutDown]
  exact congrArg (Prod.mk _) (hmarked.scheduleRelease_eq c.made)

theorem poll_eq (presence : Path → Presence) : (c.poll presence).2 =
    { c with observer := c.observer.map fun w => (w.poll presence).2 } := by
  unfold Cache.poll
  cases hw : c.observer with
  | none =>
    have hsame : c = { c with observer := none } := by rw [← hw]
    exact hsame
  | some w =>
    have hnoted : Closed { c with observer := some (w.poll presence).2 } :=
      ⟨h.isShutDown, h.entries, h.weight, h.queue, h.refusing⟩
    dsimp only
    -- Whatever has fired, there is no entry to be removed.
    induction (w.poll presence).1 with
    | nil => rfl
    | cons watch rest ih => rwa [List.foldl_cons, hnoted.remove_eq]

end Closed

/-! ## What is left alone -/

/-- The second cache is closed, and apart from what it was handed in it is the first one. -/
structure Stays (c c' : Cache ι) : Prop where
  closed : c'.Closed
  departures : c'.departures = c.departures
  tally : c'.tally = c.tally
  unwatched : ∀ q, c'.Watches q → c.Watches q

theorem Stays.refl (h : c.Closed) : Stays c c := ⟨h, rfl, rfl, fun _ => id⟩

theorem Stays.trans {a b c : Cache ι} (h : Stays a b) (h' : Stays b c) : Stays a c :=
  ⟨h'.closed, h'.departures.trans h.departures, h'.tally.trans h.tally,
    fun q hq => h.unwatched q (h'.unwatched q hq)⟩

/-- Whatever happens to the fields in which a closed cache keeps what it was handed in. -/
theorem Closed.stays_update (h : c.Closed) (made : Nat) (invalidated released orphans lags : List Nat) :
    Stays c { c with made, invalidated, released, orphans, lags } :=
  ⟨⟨h.isShutDown, h.entries, h.weight, h.queue, h.refusing⟩, rfl, rfl, fun _ => id⟩

theorem Closed.stays_observer (h : c.Closed) {observer : Option (Watcher Unit)}
    (hfewer : ∀ w, observer = some w → ∃ w', c.observer = some w' ∧ w.table ⊆ w'.table) :
    Stays c { c with observer } := by
  refine ⟨⟨h.isShutDown, h.entries, h.weight, h.queue, h.refusing⟩, rfl, rfl, ?_⟩
  rintro q ⟨w, hw, hq⟩
  obtain ⟨w', hw', hsub⟩ := hfewer w hw
  obtain ⟨watch, hwatch, hsame⟩ := Watcher.isWatching_iff.mp hq
  exact ⟨w', hw', Watcher.isWatching_iff.mpr ⟨watch, hsub hwatch, hsame⟩⟩

theorem Closed.stays_put (h : c.Closed) (env : Environment σ ι) (path : Path) (index : ι) (s : σ) :
    Stays c (c.put env path index s).2 := by
  rw [h.put_eq env s path index]
  exact h.stays_update _ _ _ _ _

theorem Closed.stays_settle (h : c.Closed) (held : List Nat) : Stays c (c.settle held) := by
  rw [settle, foldl_free_eq]
  exact h.stays_update _ _ _ _ _

end Cache

namespace Service

open Cache

variable {env : Environment σ ι} {s : Service σ ι}

/-- What happens to a service whose cache is closed. -/
structure Rests (s s' : Service σ ι) : Prop where
  cache : Stays s.cache s'.cache
  granted : s'.granted = s.granted

theorem Rests.trans {a b c : Service σ ι} (h : Rests a b) (h' : Rests b c) : Rests a c :=
  ⟨h.cache.trans h'.cache, h'.granted.trans h.granted⟩

theorem rests_perform (h : s.cache.Closed) (action : Action σ ι) :
    Rests s (s.perform env action).2 := by
  cases action with
  | get path =>
    simp only [perform, h.get_eq env s.world path, grant]
    exact ⟨.refl h, rfl⟩
  | put path index =>
    have hput := h.stays_put env path index s.world
    rw [h.put_eq env s.world path index] at hput
    simp only [perform, h.put_eq env s.world path index, grant]
    exact ⟨hput, rfl⟩
  | query id vector k =>
    simp only [perform]
    split <;> exact ⟨.refl h, rfl⟩
  | invalidate path =>
    simp only [perform, Cache.invalidate, h.remove_eq]
    exact ⟨.refl h, rfl⟩
  | sweep =>
    simp only [perform, h.sweep_eq]
    exact ⟨.refl h, rfl⟩
  | poll =>
    refine ⟨?_, rfl⟩
    show Stays s.cache (s.cache.poll (env.presence s.world)).2
    rw [h.poll_eq]
    refine h.stays_observer fun w hw => ?_
    obtain ⟨w', hw', rfl⟩ := Option.map_eq_some_iff.mp hw
    exact ⟨w', hw', List.filter_subset_self _⟩
  | shutdown =>
    simp only [perform, h.shutdown_eq_self]
    exact ⟨.refl h, rfl⟩
  | release =>
    simp only [perform, h.runRelease_eq_self]
    exact ⟨.refl h, rfl⟩
  | drain =>
    simp only [perform, h.drainReleases_eq_self]
    exact ⟨.refl h, rfl⟩
  | lag lags => exact ⟨h.stays_update _ _ _ _ lags, rfl⟩
  | blind =>
    refine ⟨h.stays_observer fun w hw => ?_, rfl⟩
    obtain ⟨w', hw', rfl⟩ := Option.map_eq_some_iff.mp hw
    exact ⟨w', hw', List.nil_subset _⟩
  | share _ | drop _ | drift _ => exact ⟨.refl h, rfl⟩

theorem rests_act (h : s.cache.Closed) (action : Action σ ι) : Rests s (s.act env action).2 := by
  have hperformed : Rests s (s.perform env action).2 := rests_perform h action
  exact hperformed.trans ⟨hperformed.cache.closed.stays_settle _, rfl⟩

theorem rests_run (h : s.cache.Closed) (actions : List (Action σ ι)) :
    Rests s (s.run env actions) :=
  run_induction (P := fun s' => Rests s s')
    (fun _ action hrests => hrests.trans (rests_act hrests.cache.closed action)) actions
    ⟨.refl h, rfl⟩

/-! ## The engine is not asked -/

/-- With another way to load, a closed cache does the same. -/
theorem act_load (h : s.cache.Closed) (action : Action σ ι)
    (load : Path → σ → Except Error ι × σ) :
    s.act { env with load } action = s.act env action := by
  cases action with
  | get path =>
    simp only [act, perform, h.get_eq]
  | _ => rfl

theorem run_load (h : s.cache.Closed) (actions : List (Action σ ι))
    (load : Path → σ → Except Error ι × σ) :
    s.run { env with load } actions = s.run env actions := by
  induction actions generalizing s with
  | nil => rfl
  | cons action rest ih =>
    have hclosed : (s.act env action).2.cache.Closed := (rests_act h action).cache.closed
    show ((s.act { env with load } action).2).run _ rest = ((s.act env action).2).run env rest
    rw [act_load h, ih hclosed]

/-! ## References -/

theorem held_act (action : Action σ ι) (h : s.held ⊆ s.granted) :
    (s.act env action).2.held ⊆ (s.act env action).2.granted := by
  have hgrant : ∀ (cache : Cache ι) (world : σ) (result : Except Error (Handle ι)),
      ({ s with cache, world }.grant result).held ⊆ ({ s with cache, world }.grant result).granted := by
    intro cache world result
    cases result with
    | error e => exact h
    | ok handle =>
      show s.held ++ [handle] ⊆ s.granted ++ [handle]
      exact List.append_subset.mpr
        ⟨List.subset_append_of_subset_left _ h, List.subset_append_right _ _⟩
  show (s.perform env action).2.held ⊆ (s.perform env action).2.granted
  cases action with
  | get path => exact hgrant _ _ _
  | put path index => exact hgrant _ _ _
  | query id vector k =>
    simp only [perform]
    split <;> exact h
  | share id =>
    refine List.append_subset.mpr ⟨h, fun handle hmem => h ?_⟩
    exact List.mem_of_find?_eq_some (Option.mem_toList.mp hmem)
  | drop id => exact List.Subset.trans List.eraseP_subset h
  | invalidate _ | sweep | poll | shutdown | release | drain | lag _ | blind | drift _ => exact h

/-- Whoever holds a handle was given one. -/
theorem held_subset_granted (h : s.held ⊆ s.granted) (actions : List (Action σ ι)) :
    (s.run env actions).held ⊆ (s.run env actions).granted :=
  run_induction (P := fun s => s.held ⊆ s.granted) (fun _ action h => held_act action h) actions h

theorem Consistent.lt_made_of_granted {n : Nat} (hs : s.Consistent n) {h : Handle ι}
    (hg : h ∈ s.granted) : h.id < s.cache.made := by
  rcases hs.accounted h hg with ⟨e, he, rfl⟩ | ⟨reason, hgone⟩
  · exact hs.lt_made e he
  · have hbehind := (hs.ledger.invalidated _).mp (hs.ledger.departed _ hgone)
    exact List.mem_range.mp (hs.ledger.placed.mem_iff.mp
      (List.mem_append_left _ (List.mem_append_right _ hbehind)))

/-- When nothing is granted any more, what is held was there before. -/
theorem Rests.lt_made_of_held {s' : Service σ ι} {n id : Nat} (hrests : Rests s s')
    (hs : s.Consistent n) (hheld : s'.held ⊆ s'.granted) (hid : id ∈ s'.heldIds) :
    id < s.cache.made := by
  obtain ⟨handle, hmem, rfl⟩ := List.mem_map.mp hid
  have hgranted : handle ∈ s'.granted := hheld hmem
  rw [hrests.granted] at hgranted
  exact hs.lt_made_of_granted hgranted

/-! ## Every cache that is shut down is closed -/

theorem closed_act {n : Nat} (hs : s.Consistent n)
    (h : s.cache.isShutDown = true → s.cache.Closed) (action : Action σ ι)
    (hshut : (s.act env action).2.cache.isShutDown = true) : (s.act env action).2.cache.Closed := by
  cases hopen : s.cache.isShutDown with
  | true => exact (rests_act (h hopen) action).cache.closed
  | false =>
    cases hisShutdown : action.isShutdown with
    | false =>
      rw [isShutDown_act env s hisShutdown, hopen] at hshut
      cases hshut
    | true =>
      cases action with
      | shutdown =>
        have hclosed := hs.sound.closed_shutdown hs.ledger.attended hopen
        exact (hclosed.stays_settle _).closed
      | _ => cases hisShutdown

theorem closed_run (config : CacheConfig) (observer : Option (Watcher Unit)) (world : σ)
    (actions : List (Action σ ι)) :
    let s := (start config observer world).run env actions
    s.cache.isShutDown = true → s.cache.Closed := by
  have hstart : ∃ n, (start (ι := ι) config observer world).Consistent n :=
    ⟨0, start_consistent config observer world⟩
  refine (run_induction (P := fun s => (∃ n, s.Consistent n) ∧
    (s.cache.isShutDown = true → s.cache.Closed)) ?_ actions ⟨hstart, ?_⟩).2
  · rintro s action ⟨⟨n, hs⟩, hclosed⟩
    exact ⟨⟨_, hs.act env action⟩, closed_act hs hclosed action⟩
  · intro hshut
    cases hshut

/-- What is watched after shutting down was watched before, for nobody in the cache. -/
theorem watches_act_shutdown {q : Path} (hclosed : s.cache.isShutDown = true → s.cache.Closed)
    (hwatches : (s.act env .shutdown).2.cache.Watches q) :
    s.cache.Watches q ∧ s.cache.contains q = false := by
  have hshut : s.cache.shutdown.Watches q :=
    (watches_of_eq (frame_settle _ s.cache.shutdown).observer).mp hwatches
  cases hopen : s.cache.isShutDown with
  | true =>
    rw [(hclosed hopen).shutdown_eq_self] at hshut
    exact ⟨hshut, by simp [Cache.contains, entry?, (hclosed hopen).entries]⟩
  | false =>
    obtain ⟨hold, hothers⟩ := (watches_shutdown hopen).mp hshut
    refine ⟨hold, ?_⟩
    rw [Bool.eq_false_iff, Ne, contains_iff]
    rintro ⟨e, he, hsame⟩
    exact Bool.false_ne_true ((hothers e he).symm.trans (Path.sameKey_comm hsame))

/-- When nothing waits, a number is released once, unless its release was refused and somebody holds
it. -/
theorem released_or_held {n id : Nat} (hs : s.Consistent n) (hclosed : s.cache.Closed)
    (hheld : s.cache.orphans ⊆ s.heldIds) (hid : id < s.cache.made) :
    s.cache.released.count id = 1 ∨ id ∈ s.cache.orphans ∧ id ∈ s.heldIds := by
  obtain ⟨fate, hfate, -⟩ := fate_unique hs.ledger hclosed.queue hheld hid
  cases fate with
  | live =>
    have hlive := hfate.1
    rw [liveIds, hclosed.entries] at hlive
    exact absurd hlive List.not_mem_nil
  | released => exact Or.inl hfate
  | orphaned => exact Or.inr ⟨hfate.2.2.1, hfate.2.2.2⟩

/-! ## Every run -/

/-- A cache that is shut down for good. What it watches still, it watches for nobody. -/
structure Over (env : Environment σ ι) (past s : Service σ ι) : Prop where
  entries : s.cache.entries = []
  weight : s.cache.weight = 0
  watches : ∀ q, s.cache.Watches q → past.cache.Watches q ∧ past.cache.contains q = false
  invalidated : ∀ h ∈ s.granted, s.cache.isInvalidated h = true
  get : ∀ path, (s.act env (.get path)).1 = .handle (.error .shutDown)
  put : ∀ path index, (s.act env (.put path index)).1 = .handle (.error .shutDown)
  invalidate : ∀ path, (s.act env (.invalidate path)).1 = .found false
  sweep : (s.act env .sweep).1 = .count 0

theorem over_of_rests {n : Nat} {past shut : Service σ ι} (hrests : Rests shut s)
    (hs : s.Consistent n)
    (hwatches : ∀ q, shut.cache.Watches q → past.cache.Watches q ∧ past.cache.contains q = false) :
    Over env past s := by
  have hclosed := hrests.cache.closed
  refine ⟨hclosed.entries, hclosed.weight, ?_, ?_, ?_, ?_, ?_, ?_⟩
  · exact fun q hq => hwatches q (hrests.cache.unwatched q hq)
  · intro h hg
    have hgone : s.cache.liveHandle? h.path ≠ some h := by
      simp [liveHandle?, entry?, hclosed.entries]
    rw [← Bool.not_eq_false]
    exact fun hvalid => hgone ((hs.valid_iff_live hg).mp hvalid)
  · intro path
    simp only [act, perform, hclosed.get_eq]
  · intro path index
    simp only [act, perform, hclosed.put_eq]
  · intro path
    simp only [act, perform, Cache.invalidate, hclosed.remove_eq]
  · simp only [act, perform, hclosed.sweep_eq]

/-- **Shutting down is final.** Whatever has happened to a cache that is shut down, and whatever
happens to it afterwards, it is empty and refuses everything, and no path that was live is watched;
with a watcher of its own it watches nothing at all. The engine is not asked to load anything. Every
index that is handed in later is released, once, and so are all earlier ones but those whose release
was refused and which somebody still holds. -/
theorem shutdown_is_final (env : Environment σ ι) (config : CacheConfig)
    (observer : Option (Watcher Unit)) (world : σ) (before more : List (Action σ ι)) :
    let past := (start config observer world).run env before
    let shut := (past.act env .shutdown).2
    let s := shut.run env more
    Over env past s ∧
    (∀ interval, observer = some { interval } → ∀ q, ¬ s.cache.Watches q) ∧
    (∀ load, shut.run { env with load } more = s) ∧ s.cache.tally = shut.cache.tally ∧
    s.cache.made = shut.cache.made + more.countP Action.isPut ∧
    (∀ id, shut.cache.made ≤ id → id < s.cache.made → s.cache.released.count id = 1) ∧
    ∀ id < s.cache.made,
      s.cache.released.count id = 1 ∨ id ∈ s.cache.orphans ∧ id ∈ s.heldIds := by
  intro past shut s
  obtain ⟨n, hpast⟩ : ∃ n, past.Consistent n :=
    (start_consistent config observer world).run env before
  have hshut : shut.Consistent n := hpast.act env .shutdown
  obtain ⟨m, hs⟩ : ∃ m, s.Consistent m := hshut.run env more
  have hpastClosed : past.cache.isShutDown = true → past.cache.Closed :=
    closed_run config observer world before
  have hclosed : shut.cache.Closed := closed_act hpast hpastClosed .shutdown
    ((frame_settle _ _).isShutDown.trans past.cache.isShutDown_shutdown)
  have hrests : Rests shut s := rests_run hclosed more
  have hover : Over env past s :=
    over_of_rests hrests hs fun q => watches_act_shutdown hpastClosed
  have horphans : s.cache.orphans ⊆ s.heldIds :=
    run_induction (P := fun s => s.cache.orphans ⊆ s.heldIds)
      (fun s action _ _ => held_of_orphan env action s) more fun _ => held_of_orphan env .shutdown past
  have hfate : ∀ id < s.cache.made,
      s.cache.released.count id = 1 ∨ id ∈ s.cache.orphans ∧ id ∈ s.heldIds := fun _ =>
    released_or_held hs hrests.cache.closed horphans
  refine ⟨hover, ?_, fun load => run_load hclosed more load, hrests.cache.tally, ?_, ?_, hfate⟩
  · rintro interval rfl q hq
    have htracked : Tracked env _ _ past := (start_tracked config interval world).run
      (start_consistent config (some { interval }) world)
    obtain ⟨hold, hgone⟩ := hover.watches q hq
    exact Bool.false_ne_true (hgone.symm.trans (htracked.inStep.live q hold))
  · have hmade : s.cache.made = s.cache.tally.loads + (n + more.countP Action.isPut) :=
      (run_ledger env more hshut.sound hshut.ledger).made
    have hmade' : shut.cache.made = shut.cache.tally.loads + n := hshut.ledger.made
    rw [hrests.cache.tally] at hmade
    omega
  · intro id hnew hid
    have hheld : s.held ⊆ s.granted :=
      held_subset_granted (held_act .shutdown (held_subset_granted (List.nil_subset _) before)) more
    exact (hfate id hid).resolve_right fun ⟨_, hlate⟩ =>
      Nat.not_lt.mpr hnew (hrests.lt_made_of_held hshut hheld hlate)

/-- A cache of two files with a watcher of its own. -/
def staffed : Service Nat Nat :=
  (start {} (some { interval := 1 }) 0).run Environment.clock
    [.put ⟨"a"⟩ 3, .get ⟨"bb"⟩, .put ⟨"a"⟩ 5]

/-- The same cache after a shutdown, and after everybody has called again. -/
def afterHours : Service Nat Nat :=
  (staffed.act Environment.clock .shutdown).2.run Environment.clock
    [.get ⟨"a"⟩, .put ⟨"c"⟩ 7, .put ⟨""⟩ 1, .invalidate ⟨"a"⟩, .sweep, .poll, .shutdown]

/-- The watches are gone and nothing new is let in, but what was handed in late has been released. -/
theorem shutdown_is_final_after_hours :
    staffed.cache.Watches ⟨"a"⟩ ∧ staffed.cache.entries.length = 2 ∧ staffed.cache.made = 3 ∧
    ¬ afterHours.cache.Watches ⟨"a"⟩ ∧ afterHours.granted.length = 3 ∧
    (∀ h ∈ afterHours.granted, afterHours.cache.isInvalidated h = true) ∧
    (afterHours.act Environment.clock (.get ⟨"bb"⟩)).1 = .handle (.error .shutDown) ∧
    afterHours.cache.made = 5 ∧ afterHours.cache.released.count 3 = 1 ∧
    afterHours.cache.released.count 4 = 1 := by
  obtain ⟨hover, hdark, -, -, -, hreleased, -⟩ := shutdown_is_final Environment.clock {}
    (some { interval := 1 }) 0 [.put ⟨"a"⟩ 3, .get ⟨"bb"⟩, .put ⟨"a"⟩ 5]
    [.get ⟨"a"⟩, .put ⟨"c"⟩ 7, .put ⟨""⟩ 1, .invalidate ⟨"a"⟩, .sweep, .poll, .shutdown]
  rw [← staffed, ← afterHours] at hover hdark hreleased
  have hwatched : staffed.cache.observer.any (·.isWatching ⟨"a"⟩) = true := by decide +kernel
  have hmade : afterHours.cache.made = 5 := by decide +kernel
  have hshut : (staffed.act Environment.clock .shutdown).2.cache.made = 3 := by decide +kernel
  refine ⟨(Option.any_eq_true _ _).mp hwatched, by decide +kernel, by decide +kernel, hdark 1 rfl _,
    by decide +kernel, hover.invalidated, hover.get _, hmade, ?_, ?_⟩
  · exact hreleased 3 (Nat.le_of_eq hshut) (by rw [hmade]; decide)
  · exact hreleased 4 (by rw [hshut]; decide) (by rw [hmade]; decide)

end Service

end Sidecar
