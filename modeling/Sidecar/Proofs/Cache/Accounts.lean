import Sidecar.Proofs.Cache.Closed

/-!
# The accounts of a cache

A cache keeps a dozen counters, and they are moved at different moments: a hit or a miss before the
load, a load before the handle is let in, a removal when an entry leaves, a release when the release
worker gets to it. What they add up to is stated in terms of what was asked of the cache while it was
open: the requests with a valid key, the indexes handed in, and the handles that were refused
(`requests`, `offers`, `refusals`).

`Cache.Booked` is the whole account of a step: how many requests it counted, how many loads, and how
many handles it let in. Steps compose by adding up (`Booked.trans`), and of the parts of an operation
only a hit, a miss with what it leads to, and an insertion add anything. Two things are in it besides.
The record of releases and the counter of releases move in step, so that releases by the last reference,
which are not counted, do not matter within an operation. And the orphans only get more, since none is
settled before the operation is over.

The rest is the ledger of handle numbers. Every handle that was made is live or behind, so what has left
the cache or was refused is what is behind, and of this the release worker counts all but what
overflowed its queue (`Balanced.perform`). How many of them wait is counted by hand, up before the queue
is asked and down again if it refuses, and the count is right at all times (`Move.countsWaiting`). When
the cache is shut down the accounts are closed
(`Balanced.of_rests`): an index that is handed in later is discarded, but nobody counts that.
-/

set_option autoImplicit false

namespace Sidecar

variable {σ ι : Type}

namespace Cache

/-! ## What a step adds to the books -/

/-- Between the two states so many requests were counted, indexes loaded and handles let in. -/
structure Booked (asked loaded entered : Nat) (c c' : Cache ι) : Prop where
  asked : c'.tally.hits + c'.tally.misses = c.tally.hits + c.tally.misses + asked
  /-- A miss leads to a load or to a failure. -/
  missed : c'.tally.misses + (c.tally.loads + c.tally.loadFailures)
    = c.tally.misses + (c'.tally.loads + c'.tally.loadFailures)
  loaded : c'.tally.loads = c.tally.loads + loaded
  entered : c'.entries.length + c'.departures.length
    = c.entries.length + c.departures.length + entered
  /-- The release worker counts every release. -/
  counted : c'.tally.releases + c.released.length = c.tally.releases + c'.released.length
  orphans : c.orphans.length ≤ c'.orphans.length

section Booked

variable {c c' : Cache ι} {asked loaded entered : Nat}

theorem Booked.refl (c : Cache ι) : Booked 0 0 0 c c := ⟨rfl, rfl, rfl, rfl, rfl, Nat.le_refl _⟩

theorem Booked.trans {a b c : Cache ι} {asked' loaded' entered' : Nat}
    (h : Booked asked loaded entered a b) (h' : Booked asked' loaded' entered' b c) :
    Booked (asked + asked') (loaded + loaded') (entered + entered') a c := by
  constructor
  · rw [h'.asked, h.asked, Nat.add_assoc]
  · have hmissed := h.missed
    have hmissed' := h'.missed
    omega
  · rw [h'.loaded, h.loaded, Nat.add_assoc]
  · rw [h'.entered, h.entered, Nat.add_assoc]
  · have hcounted := h.counted
    have hcounted' := h'.counted
    omega
  · exact Nat.le_trans h.orphans h'.orphans

/-- A step that is followed by one without an entry in the books. -/
theorem Booked.quietly {a b c : Cache ι} (h : Booked asked loaded entered a b)
    (h' : Booked 0 0 0 b c) : Booked asked loaded entered a c := h.trans h'

/-- Nothing of what the books are about has changed. -/
theorem booked_update (c : Cache ι) (config : CacheConfig) (weight made : Nat)
    (invalidated lags : List Nat) (releaser : WorkerPool Nat) (waiting : UInt64)
    (observer : Option (Watcher Unit)) (isShutDown : Bool) : Booked 0 0 0 c
      { c with config, weight, made, invalidated, lags, releaser, waiting, observer, isShutDown } :=
  ⟨rfl, rfl, rfl, rfl, rfl, Nat.le_refl _⟩

/-! ## Releases -/

theorem booked_runRelease (c : Cache ι) : Booked 0 0 0 c c.runRelease := by
  cases hnext : c.releaser.runNext with
  | none =>
    rw [runRelease_of_none hnext]
    exact .refl c
  | some next =>
    obtain ⟨id, releaser⟩ := next
    by_cases hid : id ∈ c.released
    · have heq : c.runRelease = { c with releaser, waiting := c.waiting - 1 } := by
        simp [runRelease, free, hnext, hid]
      rw [heq]
      exact ⟨rfl, rfl, rfl, rfl, rfl, Nat.le_refl _⟩
    · have heq : c.runRelease = { c with
          releaser
          waiting := c.waiting - 1
          released := c.released ++ [id]
          tally := { c.tally with releases := c.tally.releases + 1 } } := by
        simp [runRelease, free, hnext, hid]
      rw [heq]
      refine ⟨rfl, rfl, rfl, rfl, ?_, Nat.le_refl _⟩
      simp only [List.length_append, List.length_singleton]
      omega

theorem booked_runReleases (n : Nat) (c : Cache ι) : Booked 0 0 0 c (runReleases n c) := by
  induction n generalizing c with
  | zero => exact .refl c
  | succ n ih => exact (booked_runRelease c).quietly (ih _)

theorem booked_scheduleRelease (c : Cache ι) (id : Nat) : Booked 0 0 0 c (c.scheduleRelease id) := by
  have hcaught : Booked 0 0 0 c c.catchUp :=
    (booked_runReleases _ c).quietly (booked_update _ _ _ _ _ _ _ _ _ _)
  refine hcaught.quietly ?_
  unfold scheduleRelease
  dsimp only
  split
  · exact booked_update _ _ _ _ _ _ _ _ _ _
  · exact ⟨rfl, rfl, rfl, rfl, rfl, by simp⟩

theorem booked_discard (c : Cache ι) (h : Handle ι) : Booked 0 0 0 c (c.discard h) :=
  (booked_update c _ _ _ _ _ _ _ _ _).quietly (booked_scheduleRelease _ h.id)

theorem settle_tally (held : List Nat) (c : Cache ι) : (c.settle held).tally = c.tally := by
  unfold settle
  rw [foldl_free_eq]

/-! ## The counter of waiting releases -/

/-- The counter that goes up and down by hand shows how many releases wait. -/
def CountsWaiting (c : Cache ι) : Prop := c.waiting = UInt64.ofNat c.releaser.queue.length

theorem CountsWaiting.runRelease (h : c.CountsWaiting) : c.runRelease.CountsWaiting := by
  cases hnext : c.releaser.runNext with
  | none => rwa [runRelease_of_none hnext]
  | some next =>
    obtain ⟨n, heq⟩ := c.runRelease_eq hnext
    have hqueue := WorkerPool.queue_of_runNext hnext
    rw [CountsWaiting, hqueue, List.length_cons, UInt64.ofNat_add] at h
    rw [heq, CountsWaiting, h]
    exact UInt64.add_sub_cancel _ _

theorem CountsWaiting.runReleases (h : c.CountsWaiting) (n : Nat) :
    (runReleases n c).CountsWaiting := by
  induction n generalizing c with
  | zero => exact h
  | succ n ih => exact ih h.runRelease

/-- A refused release is counted and taken back. -/
theorem CountsWaiting.scheduleRelease (h : c.CountsWaiting) (id : Nat) :
    (c.scheduleRelease id).CountsWaiting := by
  have hcaught : c.catchUp.waiting = UInt64.ofNat c.catchUp.releaser.queue.length :=
    h.runReleases _
  unfold Cache.scheduleRelease
  dsimp only
  split
  · next releaser hsubmit =>
    rw [CountsWaiting, WorkerPool.queue_of_submit hsubmit, List.length_append, UInt64.ofNat_add,
      ← hcaught]
    rfl
  · rw [CountsWaiting, ← hcaught]
    exact UInt64.add_sub_cancel _ _

theorem CountsWaiting.settle (h : c.CountsWaiting) (held : List Nat) :
    (c.settle held).CountsWaiting := by
  unfold Cache.settle
  rw [foldl_free_eq]
  exact h

/-! ## Entries come and go -/

theorem Sound.booked_touch (hc : c.Sound) (now : Nat) {e : Entry ι} (he : e ∈ c.entries) :
    Booked 0 0 0 c (c.touch now e) := by
  have hlength := (hc.liveIds_touch now he).length_eq
  rw [liveIds, liveIds, List.length_map, List.length_map] at hlength
  exact ⟨rfl, rfl, rfl, congrArg (· + c.departures.length) hlength, rfl, Nat.le_refl _⟩

theorem Sound.booked_expel (hc : c.Sound) (reason : RemovalReason) {e : Entry ι}
    (he : e ∈ c.entries) : Booked 0 0 0 c (c.expel reason e) := by
  have hlength := (hc.liveIds_strike reason he).length_eq
  rw [List.length_cons, liveIds, liveIds, List.length_map, List.length_map] at hlength
  have hstruck : Booked 0 0 0 c (c.strike reason e) := by
    refine ⟨rfl, rfl, rfl, ?_, rfl, Nat.le_refl _⟩
    have hdeparted : (c.strike reason e).departures.length = c.departures.length + 1 := by
      simp [strike]
    omega
  rw [expel_eq_scheduleRelease]
  exact hstruck.quietly (booked_scheduleRelease _ _)

theorem Sound.booked_expelAll (hc : c.Sound) (reason : RemovalReason) {es : List (Entry ι)}
    (h : es.Sublist c.entries) : Booked 0 0 0 c (c.expelAll reason es) := by
  induction es generalizing c with
  | nil => exact .refl c
  | cons e rest ih =>
    have he : e ∈ c.entries := h.subset List.mem_cons_self
    exact (hc.booked_expel reason he).quietly (ih (hc.expel reason he) (hc.sublist_expel reason h))

theorem Sound.booked_remove (hc : c.Sound) (path : Path) (reason : RemovalReason) :
    Booked 0 0 0 c (c.remove path reason).2 := by
  unfold remove
  split
  · exact .refl c
  · next e hfound => exact hc.booked_expel reason (mem_of_found hfound)

theorem Sound.booked_makeRoom (hc : c.Sound) (extra : Nat) : Booked 0 0 0 c (c.makeRoom extra) := by
  unfold makeRoom
  split
  · exact .refl c
  · exact hc.booked_expelAll _ (victims_initial _ _ _).sublist

theorem Sound.booked_lookup (hc : c.Sound) (now : Nat) (path : Path) :
    Booked 0 0 0 c (c.lookup now path).2 := by
  rcases c.lookup_cases path now with ⟨_, heq⟩ | ⟨e, hfound, _, heq⟩ | ⟨e, hfound, _, heq⟩
  · rw [heq]
    exact .refl c
  · rw [heq]
    exact hc.booked_expel .expired (mem_of_found hfound)
  · rw [heq]
    exact hc.booked_touch now (mem_of_found hfound)

theorem Sound.booked_sweep (hc : c.Sound) (now : Nat) : Booked 0 0 0 c (c.sweep now).2 := by
  unfold sweep
  split
  · exact .refl c
  · have hidle : (c.entries.filter (c.isExpired now)).Sublist c.entries := List.filter_sublist
    have hswept := (hc.expelAll_moves (p := []) (n := 0) .expired hidle).sound hc
    exact (hc.booked_expelAll .expired hidle).quietly (hswept.booked_makeRoom 0)

theorem Sound.booked_poll (hc : c.Sound) (presence : Path → Presence) :
    Booked 0 0 0 c (c.poll presence).2 := by
  have hpolled : (c.poll presence).2.Sound ∧ Booked 0 0 0 c (c.poll presence).2 := by
    refine poll_keeps (P := fun c' => c'.Sound ∧ Booked 0 0 0 c c') presence
      (fun _ => ⟨hc, .refl c⟩) (fun w _ => ?_) fun c' path h => ?_
    · exact ⟨⟨hc.apart, hc.weight⟩, booked_update c _ _ _ _ _ _ _ _ _⟩
    · have hremoved := remove_moves (p := []) (n := 0) (c := c') path .deleted
      exact ⟨hremoved.sound h.1, h.2.quietly (h.1.booked_remove path .deleted)⟩
  exact hpolled.2

theorem Sound.booked_shutdown (hc : c.Sound) : Booked 0 0 0 c c.shutdown := by
  cases hopen : c.isShutDown with
  | true =>
    rw [Cache.shutdown, if_pos hopen]
    exact .refl c
  | false =>
    have hclosing : ({ c with isShutDown := true } : Cache ι).Sound := ⟨hc.apart, hc.weight⟩
    have hexpelled := hclosing.booked_expelAll .shutdown (List.Sublist.refl _)
    rw [shutdown_eq hopen]
    exact (((booked_update c _ _ _ _ _ _ _ _ _).quietly hexpelled).quietly
      (booked_runReleases _ _)).quietly (booked_update _ _ _ _ _ _ _ _ _ _)

/-! ## Letting a handle in -/

/-- Whether an index of this size is heavier than the whole budget. -/
def exceeds (c : Cache ι) (size : Nat) : Bool := c.config.weightBudget.any (· < size)

/-- A handle that is refused was made all the same. -/
def refusesPut (env : Environment σ ι) (path : Path) (index : ι) (c : Cache ι) : Bool :=
  !(validateKey path).isOk || c.exceeds (env.size index)

/-- Whether what would be loaded now is too heavy. -/
def loadExceeds (env : Environment σ ι) (path : Path) (c : Cache ι) (s : σ) : Bool :=
  match (env.load path s).1 with
  | .ok index => c.exceeds (env.size index)
  | .error _ => false

/-- A request is refused a handle only after a miss. -/
def refusesGet (env : Environment σ ι) (path : Path) (c : Cache ι) (s : σ) : Bool :=
  (validateKey path).isOk && (c.lookup (env.now s) path).1.isNone && c.loadExceeds env path s

variable (env : Environment σ ι) (path : Path) (s : σ)

theorem Sound.booked_insert_clear (hc : c.Sound) (h : Handle ι) (now : Nat) :
    Booked 0 0 1 c ((clear env c h s).insert now h) := by
  have hwatched : (c.watch (env.presence s h.path) h.path).Sound := ⟨hc.apart, hc.weight⟩
  have hremoved := (remove_moves (p := []) (n := 0) h.path .replaced).sound hwatched
  have hcleared : Booked 0 0 0 c (clear env c h s) :=
    ((booked_update c _ _ _ _ _ _ _ _ _).quietly (hwatched.booked_remove h.path .replaced)).quietly
      (hremoved.booked_makeRoom h.size)
  have hinserted : Booked 0 0 1 (clear env c h s) ((clear env c h s).insert now h) := by
    refine ⟨rfl, rfl, rfl, ?_, rfl, Nat.le_refl _⟩
    simp only [Cache.insert, List.length_append, List.length_singleton]
    omega
  exact hcleared.trans hinserted

theorem Sound.booked_accept (hc : c.Sound) (hopen : c.isShutDown = false) (h : Handle ι) :
    Booked 0 0 (if c.exceeds h.size then 0 else 1) c (c.accept env h s).2 := by
  rcases c.accept_cases env h s with ⟨budget, hb, hheavy, heq⟩ | ⟨_, hshut, _⟩ | ⟨hfits, _, heq⟩
  · rw [heq, if_pos (by simp [exceeds, hb, hheavy])]
    exact booked_discard c h
  · rw [hopen] at hshut
    cases hshut
  · have hnot : ¬ c.exceeds h.size = true := by
      rw [exceeds, Option.any_eq_true]
      rintro ⟨budget, hb, hheavy⟩
      exact Nat.not_lt.mpr (hfits budget hb) (of_decide_eq_true hheavy)
    rw [heq, if_neg hnot]
    exact hc.booked_insert_clear env s h _

theorem Sound.booked_put (hc : c.Sound) (hopen : c.isShutDown = false) (index : ι) :
    ∃ entered, Booked 0 0 entered c (c.put env path index s).2 ∧
      1 = entered + if c.refusesPut env path index then 1 else 0 := by
  have hmade : Booked 0 0 0 c { c with made := c.made + 1 } := booked_update c _ _ _ _ _ _ _ _ _
  rcases c.put_cases env path s index with ⟨hshut, _⟩ | ⟨_, e, hkey, heq⟩ | ⟨_, hkey, heq⟩
  · rw [hopen] at hshut
    cases hshut
  · refine ⟨0, heq ▸ hmade.quietly (booked_discard _ _), ?_⟩
    simp [refusesPut, hkey, Except.isOk, Except.toBool]
  · have hsound : ({ c with made := c.made + 1 } : Cache ι).Sound := ⟨hc.apart, hc.weight⟩
    have haccepted := hsound.booked_accept env s hopen (c.nextHandle env path index)
    refine ⟨_, heq ▸ hmade.trans haccepted, ?_⟩
    have hsame : exceeds { c with made := c.made + 1 } (c.nextHandle env path index).size
        = c.exceeds (env.size index) := rfl
    rw [hsame, refusesPut, hkey]
    cases c.exceeds (env.size index) <;> rfl

theorem vacant_of_missed {now : Nat} (hl : c.lookup now path = (none, c')) :
    c'.entry? path = none := by
  rw [vacant_iff, entries_of_missed hl]
  exact fun e he => (mem_besides.mp he).2

def countMiss (c : Cache ι) : Cache ι :=
  { c with tally := { c.tally with misses := c.tally.misses + 1 } }

def countFailure (c : Cache ι) : Cache ι :=
  { c with tally := { c.tally with loadFailures := c.tally.loadFailures + 1 } }

/-- A load is counted and a handle is made. -/
def countLoad (c : Cache ι) : Cache ι :=
  { c with
    made := c.made + 1
    tally := { c.tally with loads := c.tally.loads + 1 } }

/-- After a look-up that has found nothing the second one finds nothing either. -/
theorem loadAndInsert_of_vacant (hvacant : c.entry? path = none) (hopen : c.isShutDown = false) :
    (∃ e, (env.load path s).1 = .error e ∧
      (c.loadAndInsert env path s).2.1 = c.countFailure) ∨
    ∃ index s', (env.load path s).1 = .ok index ∧ (c.loadAndInsert env path s).2.1
      = (accept env (c.nextHandle env path index) c.countLoad s').2 := by
  have hagain : c.lookup (env.now s) path = (none, c) := by rw [lookup, hvacant]
  rcases c.fetch_cases env path s with ⟨hshut, _⟩ | ⟨_, e, s', hload, heq⟩ |
    ⟨_, index, s', hload, heq⟩
  · rw [hopen] at hshut
    cases hshut
  · exact Or.inl ⟨e, by rw [hload], by simp [loadAndInsert, hagain, heq, countFailure]⟩
  · exact Or.inr ⟨index, s', by rw [hload], by simp [loadAndInsert, hagain, heq, countLoad]⟩

/-- The counters of a miss and of what it leads to are in balance only together. -/
theorem Sound.booked_miss (hc : c.Sound) (hopen : c.isShutDown = false)
    (hvacant : c.entry? path = none) : ∃ loaded entered,
      Booked 1 loaded entered c (c.countMiss.loadAndInsert env path s).2.1 ∧
      loaded = entered + if c.loadExceeds env path s then 1 else 0 := by
  rcases loadAndInsert_of_vacant (c := c.countMiss) env path s hvacant hopen with
    ⟨e, hload, hfailed⟩ | ⟨index, s', hload, hloaded⟩
  · refine ⟨0, 0, ?_, by simp [loadExceeds, hload]⟩
    rw [hfailed]
    refine ⟨rfl, ?_, rfl, rfl, rfl, Nat.le_refl _⟩
    simp only [countFailure, countMiss]
    omega
  · have hcounted : Booked 1 1 0 c c.countMiss.countLoad := by
      refine ⟨rfl, ?_, rfl, rfl, rfl, Nat.le_refl _⟩
      simp only [countLoad, countMiss]
      omega
    have hsound : c.countMiss.countLoad.Sound := ⟨hc.apart, hc.weight⟩
    have haccepted := hsound.booked_accept env s' hopen (c.countMiss.nextHandle env path index)
    refine ⟨_, _, hloaded ▸ hcounted.trans haccepted, ?_⟩
    have hsame : c.countMiss.countLoad.exceeds (c.countMiss.nextHandle env path index).size
        = c.exceeds (env.size index) := rfl
    have hheavy : c.loadExceeds env path s = c.exceeds (env.size index) := by
      rw [loadExceeds, hload]
    rw [hsame, hheavy]
    cases c.exceeds (env.size index) <;> rfl

theorem Sound.booked_get (hc : c.Sound) (hopen : c.isShutDown = false) :
    ∃ loaded entered,
      Booked (if (validateKey path).isOk then 1 else 0) loaded entered c (c.get env path s).2.1 ∧
      loaded = entered + if c.refusesGet env path s then 1 else 0 := by
  have hlookup := hc.booked_lookup (env.now s) path
  have hsound := (lookup_moves (p := []) (n := 0) path (env.now s)).sound hc
  have halike := alike_lookup c (env.now s) path
  rcases c.get_cases env path s with ⟨hshut, _⟩ | ⟨_, e, hkey, heq⟩ | ⟨_, hkey, h, c₁, hl, heq⟩ |
    ⟨_, hkey, c₁, hl, heq⟩
  · rw [hopen] at hshut
    cases hshut
  · refine ⟨0, 0, ?_, ?_⟩
    · rw [heq, hkey]
      exact .refl c
    · simp [refusesGet, hkey, Except.isOk, Except.toBool]
  · rw [hl] at hlookup
    have hhit : Booked 1 0 0 c₁
        { c₁ with tally := { c₁.tally with hits := c₁.tally.hits + 1 } } :=
      ⟨Nat.add_right_comm _ _ _, rfl, rfl, rfl, rfl, Nat.le_refl _⟩
    refine ⟨0, 0, ?_, ?_⟩
    · rw [heq, hkey]
      exact hlookup.trans hhit
    · simp [refusesGet, hl]
  · rw [hl] at hlookup hsound halike
    have hvacant := vacant_of_missed path hl
    obtain ⟨loaded, entered, hmiss, hbalance⟩ :=
      hsound.booked_miss env path s (halike.isShutDown.trans hopen) hvacant
    refine ⟨0 + loaded, 0 + entered, ?_, ?_⟩
    · rw [heq, hkey]
      exact hlookup.trans hmiss
    · have hsame : c₁.loadExceeds env path s = c.loadExceeds env path s := by
        unfold loadExceeds exceeds
        rw [halike.config]
      rw [hsame] at hbalance
      simp only [refusesGet, hkey, hl, Option.isNone_none, Bool.and_true, Nat.zero_add]
      exact hbalance

end Booked

/-! ## Removals -/

/-- The number of removals, for whatever reason. -/
def removed (c : Cache ι) : Nat :=
  c.removals .explicit + c.removals .expired + c.removals .weight + c.removals .replaced
    + c.removals .deleted + c.removals .shutdown

/-- Every departure has one of the six reasons. -/
theorem removed_eq_length (c : Cache ι) : c.removed = c.departures.length := by
  unfold removed removals
  induction c.departures with
  | nil => rfl
  | cons departure rest ih =>
    obtain ⟨id, reason⟩ := departure
    simp only [List.countP_cons, List.length_cons, ← ih]
    cases reason <;> simp <;> omega

end Cache

/-- Only scheduling a release and running one have to do with the counter, and each keeps it right. -/
theorem Move.countsWaiting {s t : Stage ι} (h : Move s t) (hs : s.cache.CountsWaiting) :
    t.cache.CountsWaiting := by
  cases h with
  | @expel c _ _ e reason _ =>
    have hstruck : (c.strike reason e).CountsWaiting := hs
    dsimp only
    rw [Cache.expel_eq_scheduleRelease]
    exact hstruck.scheduleRelease _
  | @discard c _ _ h =>
    have hmarked : (c.markInvalidated h.id).CountsWaiting := hs
    exact hmarked.scheduleRelease h.id
  | release => exact hs.runRelease
  | settle held => exact hs.settle held
  | @retire c _ _ =>
    have hqueue := WorkerPool.retire_queue c.releaser
    exact hs.trans (congrArg (fun queue => UInt64.ofNat queue.length) hqueue.symm)
  | touch _ _ | insert _ _ _ | load | offer | note _ _ _ | close => exact hs

theorem Service.countsWaiting_run (env : Environment σ ι) (config : CacheConfig)
    (observer : Option (Watcher Unit)) (world : σ) (actions : List (Action σ ι)) :
    ((Service.start config observer world).run env actions).cache.CountsWaiting :=
  (Service.run_moves env actions (Service.start_sound config observer world) 0).preserve
    (P := fun t => t.cache.CountsWaiting) Move.countsWaiting rfl

theorem Cache.CountsWaiting.pendingReleases_eq_zero {c : Cache ι} (h : c.CountsWaiting)
    (hqueue : c.releaser.queue = []) : c.pendingReleases = 0 := by
  rw [pendingReleases, h, hqueue]
  rfl

namespace Service

open Cache

variable {env : Environment σ ι} {s : Service σ ι}

/-! ## What is asked of an open cache -/

/-- Adds up a count over those actions of a run that happen while the cache is open. -/
def whileOpen (env : Environment σ ι) (count : Action σ ι → Service σ ι → Nat) :
    List (Action σ ι) → Service σ ι → Nat
  | [], _ => 0
  | action :: rest, s =>
    (if s.cache.isShutDown then 0 else count action s)
      + whileOpen env count rest (s.act env action).2

/-- Requests with a valid key. -/
def requests : Action σ ι → Service σ ι → Nat
  | .get path, _ => if (validateKey path).isOk then 1 else 0
  | _, _ => 0

/-- Indexes that are handed in. -/
def offers (action : Action σ ι) (_ : Service σ ι) : Nat := if action.isPut then 1 else 0

/-- Handles that are made and not let in. -/
def refusals (env : Environment σ ι) : Action σ ι → Service σ ι → Nat
  | .get path, s => if s.cache.refusesGet env path s.world then 1 else 0
  | .put path index, s => if s.cache.refusesPut env path index then 1 else 0
  | _, _ => 0

/-- Releases for which the queue has no room. -/
def overflows (env : Environment σ ι) (action : Action σ ι) (s : Service σ ι) : Nat :=
  (s.perform env action).2.cache.orphans.length - s.cache.orphans.length

/-! ## What an action adds to the books -/

theorem booked_perform (hc : s.cache.Sound) (hopen : s.cache.isShutDown = false)
    (action : Action σ ι) : ∃ loaded entered,
      Booked (requests action s) loaded entered s.cache (s.perform env action).2.cache ∧
      loaded + offers action s = entered + refusals env action s := by
  have hquiet : ∀ {c' : Cache ι}, Booked 0 0 0 s.cache c' →
      ∃ loaded entered, Booked 0 loaded entered s.cache c' ∧ loaded + 0 = entered + 0 :=
    fun h => ⟨0, 0, h, rfl⟩
  cases action with
  | get path =>
    obtain ⟨loaded, entered, hget, hbalance⟩ := hc.booked_get env path s.world hopen
    refine ⟨loaded, entered, ?_, hbalance⟩
    simp only [perform, grant]
    split <;> exact hget
  | put path index =>
    obtain ⟨entered, hput, hbalance⟩ := hc.booked_put env path s.world hopen index
    refine ⟨0, entered, ?_, (Nat.zero_add 1).trans hbalance⟩
    simp only [perform, grant]
    split <;> exact hput
  | query id vector k =>
    refine hquiet ?_
    simp only [perform]
    split <;> exact .refl s.cache
  | invalidate path => exact hquiet (hc.booked_remove path .explicit)
  | sweep => exact hquiet (hc.booked_sweep (env.now s.world))
  | poll => exact hquiet (hc.booked_poll (env.presence s.world))
  | shutdown => exact hquiet hc.booked_shutdown
  | release => exact hquiet (booked_runRelease s.cache)
  | drain => exact hquiet (booked_runReleases _ s.cache)
  | lag lags => exact hquiet (booked_update s.cache _ _ _ _ _ _ _ _ _)
  | blind => exact hquiet (booked_update s.cache _ _ _ _ _ _ _ _ _)
  | share _ | drop _ | drift _ => exact hquiet (.refl s.cache)

/-! ## The accounts -/

/-- The counters are those of a cache of which so much was asked while it was open. -/
structure Balanced (s : Service σ ι) (asked offered refused overflowed : Nat) : Prop where
  asked : s.cache.tally.hits + s.cache.tally.misses = asked
  missed : s.cache.tally.misses = s.cache.tally.loads + s.cache.tally.loadFailures
  placed : s.cache.tally.loads + offered
    = s.cache.entries.length + s.cache.departures.length + refused
  scheduled : s.cache.tally.releases + s.cache.releaser.queue.length + overflowed
    = s.cache.departures.length + refused

variable {asked offered refused overflowed n : Nat}

theorem length_of_ledger {c : Cache ι} (h : Stage.Ledger ⟨c, [], n⟩) :
    c.entries.length + (c.releaser.queue.length + c.orphans.length + c.released.length)
      = c.tally.loads + n := by
  have hlength := h.placed.length_eq
  simp only [liveIds, behind, List.length_append, List.length_map, List.length_nil,
    List.length_range] at hlength
  have hmade := h.made
  dsimp only at hmade
  omega

/-- The books of an action on an open cache are the change of its accounts. -/
theorem Balanced.perform (h : Balanced s asked offered refused overflowed)
    (hs : s.Consistent offered) (hopen : s.cache.isShutDown = false) (action : Action σ ι) :
    Balanced (s.perform env action).2 (asked + requests action s) (offered + offers action s)
      (refused + refusals env action s) (overflowed + overflows env action s) := by
  obtain ⟨loaded, entered, hbooked, hbalance⟩ : ∃ loaded entered,
      Booked (requests action s) loaded entered s.cache (s.perform env action).2.cache ∧
      loaded + offers action s = entered + refusals env action s :=
    booked_perform hs.sound hopen action
  have hbefore := length_of_ledger hs.ledger
  have hmoved : Stage.Ledger ⟨(s.perform env action).2.cache, [], offered + offers action s⟩ :=
    Moves.ledger (perform_moves env action s hs.sound offered) hs.sound hs.ledger
  have hafter := length_of_ledger hmoved
  obtain ⟨hasked, hmissed, hplaced, hscheduled⟩ := h
  obtain ⟨hasked', hmissed', hloaded, hentered, hcounted, horphans⟩ := hbooked
  unfold overflows
  constructor <;> omega

theorem Balanced.settle (h : Balanced s asked offered refused overflowed) :
    Balanced s.settle asked offered refused overflowed := by
  have hframe := frame_settle s.heldIds s.cache
  have htally : (s.cache.settle s.heldIds).tally = s.cache.tally := settle_tally s.heldIds s.cache
  constructor
  · rw [Service.settle, htally]
    exact h.asked
  · rw [Service.settle, htally]
    exact h.missed
  · rw [Service.settle, htally, hframe.entries, hframe.departures]
    exact h.placed
  · rw [Service.settle, htally, settle_releaser, hframe.departures]
    exact h.scheduled

theorem Balanced.of_rests {s' : Service σ ι} (h : Balanced s asked offered refused overflowed)
    (hclosed : s.cache.Closed) (hrests : Rests s s') :
    Balanced s' asked offered refused overflowed := by
  have hafter := hrests.cache.closed
  constructor
  · rw [hrests.cache.tally]
    exact h.asked
  · rw [hrests.cache.tally]
    exact h.missed
  · rw [hrests.cache.tally, hrests.cache.departures, hafter.entries, ← hclosed.entries]
    exact h.placed
  · rw [hrests.cache.tally, hrests.cache.departures, hafter.queue, ← hclosed.queue]
    exact h.scheduled

/-- As long as the cache is open, every index that was handed in is counted. -/
theorem Balanced.run (h : Balanced s asked offered refused overflowed) (hs : s.Consistent n)
    (hopen : s.cache.isShutDown = false → n = offered)
    (hclosed : s.cache.isShutDown = true → s.cache.Closed) (actions : List (Action σ ι)) :
    Balanced (s.run env actions) (asked + whileOpen env requests actions s)
      (offered + whileOpen env offers actions s)
      (refused + whileOpen env (refusals env) actions s)
      (overflowed + whileOpen env (overflows env) actions s) := by
  -- On the actions; the accounts go up with the state, so they are generalized.
  induction actions generalizing s asked offered refused overflowed n with
  | nil => exact h
  | cons action rest ih =>
    have hnext := hs.act env action
    have hnextClosed : (s.act env action).2.cache.isShutDown = true →
        (s.act env action).2.cache.Closed := closed_act hs hclosed action
    simp only [whileOpen]
    cases hshut : s.cache.isShutDown with
    | true =>
      have hrests : Rests s (s.act env action).2 := rests_act (hclosed hshut) action
      have hstill : (s.act env action).2.cache.isShutDown = true := hrests.cache.closed.isShutDown
      simp only [if_true, Nat.zero_add]
      refine ih (h.of_rests (hclosed hshut) hrests) hnext (fun hcon => ?_) hnextClosed
      rw [hstill] at hcon
      cases hcon
    | false =>
      obtain rfl := hopen hshut
      simp only [Bool.false_eq_true, if_false, ← Nat.add_assoc]
      exact ih (h.perform hs hshut action).settle hnext (fun _ => rfl) hnextClosed

theorem start_balanced (config : CacheConfig) (observer : Option (Watcher Unit)) (world : σ) :
    Balanced (start (ι := ι) config observer world) 0 0 0 0 := ⟨rfl, rfl, rfl, rfl⟩

/-! ## Every run -/

/-- **The accounts of a cache balance once its queued releases have run.** Its hits and misses are the
requests with a valid key, its misses are loads and failures, every index that was loaded or handed in
is live, removed or was refused, and all that was removed or refused has been released by the release
worker, but for what overflowed its queue. The counter of waiting releases shows at all times how many
wait; after the queued releases have run it is zero, and in a cache that is shut down it stays so. -/
theorem accounts_balance (env : Environment σ ι) (config : CacheConfig)
    (observer : Option (Watcher Unit)) (world : σ) (actions : List (Action σ ι)) :
    let fresh := start config observer world
    let history := actions ++ [.drain]
    let s := fresh.run env history
    let count := fun what => whileOpen env what history fresh
    s.cache.tally.hits + s.cache.tally.misses = count requests ∧
    s.cache.tally.misses = s.cache.tally.loads + s.cache.tally.loadFailures ∧
    s.cache.tally.loads + count offers
      = s.cache.entries.length + s.cache.removed + count (refusals env) ∧
    s.cache.tally.releases + count (overflows env) = s.cache.removed + count (refusals env) ∧
    (count (overflows env) = 0 →
      s.cache.tally.releases = s.cache.removed + count (refusals env)) ∧
    (fresh.run env actions).cache.CountsWaiting ∧
    s.cache.pendingReleases = 0 ∧
    (s.cache.isShutDown = true → ∀ more, (s.run env more).cache.pendingReleases = 0) := by
  intro fresh history s count
  have hfresh : fresh.Consistent 0 := start_consistent config observer world
  have hbalanced : Balanced s (0 + count requests) (0 + count offers) (0 + count (refusals env))
      (0 + count (overflows env)) :=
    (start_balanced config observer world).run hfresh (fun _ => rfl) nofun history
  simp only [Nat.zero_add] at hbalanced
  have hqueue : s.cache.releaser.queue = [] := by
    obtain ⟨n, hbefore⟩ : ∃ n, (fresh.run env actions).Consistent n := hfresh.run env actions
    have hlast : s = ((fresh.run env actions).act env .drain).2 := run_append env actions [.drain] _
    rw [hlast]
    exact (congrArg WorkerPool.queue (settle_releaser _ _)).trans
      (queue_drainReleases hbefore.ledger.attended)
  have hscheduled := hbalanced.scheduled
  rw [hqueue, List.length_nil, Nat.add_zero, ← removed_eq_length] at hscheduled
  refine ⟨hbalanced.asked, hbalanced.missed, ?_, hscheduled, fun hroom => ?_,
    countsWaiting_run env config observer world actions, ?_, fun hshut more => ?_⟩
  · rw [removed_eq_length]
    exact hbalanced.placed
  · rw [← hscheduled, hroom, Nat.add_zero]
  · exact (countsWaiting_run env config observer world history).pendingReleases_eq_zero hqueue
  · have hclosed : s.cache.Closed := closed_run config observer world history hshut
    have hlater : (s.run env more).cache.Closed := (rests_run hclosed more).cache.closed
    have hcounts := countsWaiting_run env config observer world (history ++ more)
    rw [run_append] at hcounts
    exact hcounts.pendingReleases_eq_zero hlater.queue

/-- A world in which one file cannot be loaded. -/
def torn : Environment Nat Nat :=
  { Environment.clock with
    load := fun path time =>
      if path.text = "gone" then (.error (.io "torn"), time) else (.ok path.text.length, time) }

/-- Indexes of three and two bytes are let in, of nine and seven refused; one key is no name. -/
def market : List (Action Nat Nat) :=
  [.put ⟨"a"⟩ 3, .get ⟨"bb"⟩, .get ⟨"bb"⟩, .put ⟨"c"⟩ 9, .put ⟨""⟩ 1, .get ⟨"toolong"⟩, .get ⟨"gone"⟩,
    .get ⟨""⟩, .put ⟨"a"⟩ 3, .invalidate ⟨"a"⟩, .shutdown, .put ⟨"late"⟩ 1, .get ⟨"bb"⟩]

/-- The stall of a market with room for five bytes. -/
def stall : Service Nat Nat := start { weightCircuitBreaker := true, maxWeightBytes := 5 } none 0

theorem accounts_balance_of_market :
    let s := stall.run torn (market ++ [.drain])
    let count := fun what => whileOpen torn what (market ++ [.drain]) stall
    s.cache.tally = ⟨1, 3, 2, 1, 6⟩ ∧ count requests = 4 ∧ count offers = 4 ∧
    count (overflows torn) = 0 ∧
    s.cache.tally.releases = s.cache.removed + count (refusals torn) ∧
    s.cache.removed = 3 ∧ s.cache.isShutDown = true ∧
    (s.run torn [.put ⟨"later"⟩ 2, .sweep]).cache.pendingReleases = 0 := by
  intro s count
  obtain ⟨-, -, -, -, hreleases, -, -, hpending⟩ := accounts_balance torn
    { weightCircuitBreaker := true, maxWeightBytes := 5 } none 0 market
  have hroom : whileOpen torn (overflows torn) (market ++ [.drain]) stall = 0 := by
    decide +kernel
  have hshut : (stall.run torn (market ++ [.drain])).cache.isShutDown = true := by
    decide +kernel
  exact ⟨by decide +kernel, by decide +kernel, by decide +kernel, hroom, hreleases hroom,
    by decide +kernel, hshut, hpending hshut _⟩

end Service

end Sidecar
