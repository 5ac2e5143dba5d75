import Sidecar.Proofs.Cache.Operation

/-!
# Where every index is

The cache makes one handle for every index that it loads or is handed, and numbers them. The ledger
(`Stage.Ledger`) says where these numbers are: those of the live entries, those that are behind (in
the release queue, orphaned or released) and those still pending are, put together, a permutation of
all numbers given out. So none is lost and none is in two places, and "released exactly once" is what
the permutation says of a number among the released.

The invalidated handles are exactly those behind. It is this `↔`, and not one of its halves, that the
moves preserve.

`fate_of_every_index` draws the conclusion: once the release queue is drained, an index is live, or
released once, or an orphan that somebody holds. There is no other way to become an orphan than to have
one's release refused (`Move.refused`).
-/

set_option autoImplicit false

namespace Sidecar

variable {σ ι : Type}

namespace Cache

def liveIds (c : Cache ι) : List Nat := c.entries.map (·.handle.id)

end Cache

/-! ## The ledger -/

/-- Every number that was given out is in one place. -/
structure Stage.Ledger (t : Stage ι) : Prop where
  placed : (t.cache.liveIds ++ t.cache.behind ++ t.pending).Perm (List.range t.cache.made)
  invalidated : ∀ id, id ∈ t.cache.invalidated ↔ id ∈ t.cache.behind
  departed : ∀ d ∈ t.cache.departures, d.1 ∈ t.cache.invalidated
  attended : t.cache.releaser.Attended
  /-- One number for every load, and one for every index that was handed in. -/
  made : t.cache.made = t.cache.tally.loads + t.offered

namespace Stage.Ledger

variable {c c' : Cache ι} {p : List Nat} {n : Nat}

theorem placed_next {placed pending : List Nat} {made : Nat}
    (h : (placed ++ pending).Perm (List.range made)) :
    (placed ++ made :: pending).Perm (List.range (made + 1)) := by
  rw [List.range_succ]
  exact List.perm_middle.trans ((h.cons made).trans (List.perm_append_singleton _ _).symm)

theorem nodup (h : Ledger ⟨c, p, n⟩) : (c.liveIds ++ c.behind ++ p).Nodup :=
  h.placed.nodup_iff.mpr List.nodup_range

theorem behind_nodup (h : Ledger ⟨c, p, n⟩) : c.behind.Nodup :=
  (List.nodup_append.mp (List.nodup_append.mp h.nodup).1).2.1

theorem released_nodup (h : Ledger ⟨c, p, n⟩) : c.released.Nodup :=
  (List.nodup_append.mp h.behind_nodup).2.1

theorem not_behind_of_live (h : Ledger ⟨c, p, n⟩) {id : Nat} (hlive : id ∈ c.liveIds) :
    id ∉ c.behind := fun hbehind =>
  (List.nodup_append.mp (List.nodup_append.mp h.nodup).1).2.2 id hlive id hbehind rfl

/-- Releasing in the background leaves the ledger as it is. -/
theorem of_frame (h : Ledger ⟨c, p, n⟩) (hf : Cache.Frame c c') (hb : c'.behind.Perm c.behind)
    (ha : c'.releaser.Attended) : Ledger ⟨c', p, n⟩ := by
  obtain ⟨k, htally⟩ := hf.tally
  refine ⟨?_, ?_, ?_, ha, ?_⟩
  · show (c'.liveIds ++ c'.behind ++ p).Perm (List.range c'.made)
    rw [Cache.liveIds, hf.entries, hf.made]
    exact ((hb.append_left _).append_right _).trans h.placed
  · intro id
    show id ∈ c'.invalidated ↔ id ∈ c'.behind
    rw [hf.invalidated, hb.mem_iff]
    exact h.invalidated id
  · show ∀ d ∈ c'.departures, d.1 ∈ c'.invalidated
    rw [hf.departures, hf.invalidated]
    exact h.departed
  · show c'.made = c'.tally.loads + n
    rw [hf.made, htally]
    exact h.made

/-- A handle that is given up moves behind: whoever strikes it from the books and marks it may
schedule its release. -/
theorem giveUp {id : Nat} (hplaced : (c.liveIds ++ c.behind ++ id :: p).Perm (List.range c.made))
    (hinv : ∀ i, i ∈ c.invalidated ↔ i = id ∨ i ∈ c.behind)
    (hdep : ∀ d ∈ c.departures, d.1 ∈ c.invalidated) (ha : c.releaser.Attended)
    (hmade : c.made = c.tally.loads + n) : Ledger ⟨c.scheduleRelease id, p, n⟩ := by
  have hbehind : c.behind.Nodup := by
    have hall := hplaced.nodup_iff.mpr List.nodup_range
    exact (List.nodup_append.mp (List.nodup_append.mp hall).1).2.1
  have hb := Cache.behind_scheduleRelease hbehind id
  have hf := c.frame_scheduleRelease id
  obtain ⟨k, htally⟩ := hf.tally
  refine ⟨?_, ?_, ?_, Cache.attended_scheduleRelease ha id, ?_⟩
  · show ((c.scheduleRelease id).liveIds ++ (c.scheduleRelease id).behind ++ p).Perm _
    rw [Cache.liveIds, hf.entries, hf.made]
    refine ((hb.append_left _).append_right _).trans (List.Perm.trans ?_ hplaced)
    rw [List.append_assoc, List.append_assoc]
    exact List.Perm.append_left _ List.perm_middle.symm
  · intro i
    show i ∈ (c.scheduleRelease id).invalidated ↔ i ∈ (c.scheduleRelease id).behind
    rw [hf.invalidated, hb.mem_iff, List.mem_cons]
    exact hinv i
  · show ∀ d ∈ (c.scheduleRelease id).departures, d.1 ∈ (c.scheduleRelease id).invalidated
    rw [hf.departures, hf.invalidated]
    exact hdep
  · show (c.scheduleRelease id).made = (c.scheduleRelease id).tally.loads + n
    rw [hf.made, htally]
    exact hmade

end Stage.Ledger

namespace Cache

variable {c : Cache ι} {e : Entry ι}

theorem Sound.liveIds_touch (hc : c.Sound) (now : Nat) (he : e ∈ c.entries) :
    (c.touch now e).liveIds.Perm c.liveIds := by
  obtain ⟨front, back, hsplit, hfilter⟩ := hc.split he
  have hperm : (front ++ back ++ [e]).Perm (front ++ e :: back) :=
    (List.perm_append_singleton e _).trans List.perm_middle.symm
  rw [liveIds, liveIds, touch_entries, hfilter, hsplit, List.map_append, List.map_singleton]
  have hids := hperm.map (·.handle.id)
  rw [List.map_append, List.map_singleton] at hids
  exact hids

theorem Sound.liveIds_strike (hc : c.Sound) (reason : RemovalReason) (he : e ∈ c.entries) :
    c.liveIds.Perm (e.handle.id :: (c.strike reason e).liveIds) := by
  obtain ⟨front, back, hsplit, hfilter⟩ := hc.split he
  have hids : (c.strike reason e).liveIds = (front ++ back).map (·.handle.id) := by
    rw [← hfilter]
    rfl
  rw [hids, liveIds, hsplit, List.map_append, List.map_append, List.map_cons]
  exact List.perm_middle

end Cache

/-! ## The moves keep the ledger -/

theorem Move.ledger {s t : Stage ι} (h : Move s t) (hc : s.cache.Sound) (hs : s.Ledger) :
    t.Ledger := by
  cases h with
  | @touch c p n e now he =>
    refine ⟨?_, hs.invalidated, hs.departed, hs.attended, hs.made⟩
    exact (((hc.liveIds_touch now he).append_right _).append_right _).trans hs.placed
  | @expel c p n e reason he =>
    -- Once the entry is struck, its handle is like one that found no place.
    rw [Cache.expel_eq_scheduleRelease]
    refine Stage.Ledger.giveUp ?_ ?_ ?_ hs.attended hs.made
    · refine List.Perm.trans ?_ hs.placed
      have hlive := ((hc.liveIds_strike reason he).symm.append_right c.behind).append_right p
      exact List.perm_middle.trans hlive
    · intro i
      exact List.mem_cons.trans (or_congr_right (hs.invalidated i))
    · intro d hd
      rcases List.mem_append.mp hd with hold | hnew
      · exact List.mem_cons_of_mem _ (hs.departed d hold)
      · rw [List.mem_singleton] at hnew
        rw [hnew]
        exact List.mem_cons_self
  | @insert c p n h now _ _ =>
    -- The number moves from the pending ones to the live ones, past everything in between.
    refine ⟨?_, hs.invalidated, hs.departed, hs.attended, hs.made⟩
    refine List.Perm.trans ?_ hs.placed
    have hlive : (c.insert now h).liveIds = c.liveIds ++ [h.id] := List.map_append
    show ((c.insert now h).liveIds ++ c.behind ++ p).Perm (c.liveIds ++ c.behind ++ h.id :: p)
    rw [hlive, List.append_assoc, List.append_assoc, List.append_assoc, List.singleton_append]
    exact List.perm_middle.symm.append_left _
  | @discard c p n h =>
    refine Stage.Ledger.giveUp (c := c.markInvalidated h.id) hs.placed ?_ ?_ hs.attended hs.made
    · intro i
      exact List.mem_cons.trans (or_congr_right (hs.invalidated i))
    · exact fun d hd => List.mem_cons_of_mem _ (hs.departed d hd)
  | @load c p n =>
    refine ⟨?_, hs.invalidated, hs.departed, hs.attended, ?_⟩
    · exact Stage.Ledger.placed_next hs.placed
    · have hmade := hs.made
      dsimp only at hmade ⊢
      omega
  | @offer c p n =>
    refine ⟨?_, hs.invalidated, hs.departed, hs.attended, ?_⟩
    · exact Stage.Ledger.placed_next hs.placed
    · have hmade := hs.made
      dsimp only at hmade ⊢
      omega
  | release =>
    exact hs.of_frame (Cache.frame_runRelease _) (Cache.behind_runRelease hs.behind_nodup)
      (Cache.attended_runRelease hs.attended)
  | settle held =>
    refine hs.of_frame (Cache.frame_settle held _) (Cache.behind_settle held hs.behind_nodup) ?_
    rw [Cache.settle_releaser]
    exact hs.attended
  | note _ _ loads => exact ⟨hs.placed, hs.invalidated, hs.departed, hs.attended, by
      have hmade := hs.made
      dsimp only at hmade ⊢
      omega⟩
  | close => exact ⟨hs.placed, hs.invalidated, hs.departed, hs.attended, hs.made⟩
  | @retire c p n =>
    have hbehind : ({ c with releaser := c.releaser.close.dismiss } : Cache ι).behind
        = c.behind := by
      simp only [Cache.behind, WorkerPool.retire_queue]
    refine ⟨?_, ?_, hs.departed, hs.attended.retire, hs.made⟩
    · rw [hbehind]
      exact hs.placed
    · rw [hbehind]
      exact hs.invalidated

theorem Moves.ledger {s t : Stage ι} (h : Moves s t) (hc : s.cache.Sound) (hs : s.Ledger) :
    t.Ledger :=
  (h.preserve (P := fun s => s.cache.Sound ∧ s.Ledger)
    (fun hstep hp => ⟨hstep.sound hp.1, hstep.ledger hp.1 hp.2⟩) ⟨hc, hs⟩).2

/-! ## How a handle is orphaned -/

namespace Cache

variable {c : Cache ι} {id : Nat}

/-- The release worker does not take the release of the handle. -/
def Refuses (c : Cache ι) (id : Nat) : Prop := c.catchUp.releaser.submit id = none

theorem orphans_runRelease (c : Cache ι) : c.runRelease.orphans = c.orphans := by
  unfold runRelease free
  split
  · rfl
  · dsimp only
    split <;> split <;> rfl

theorem orphans_runReleases (n : Nat) (c : Cache ι) : (runReleases n c).orphans = c.orphans := by
  induction n generalizing c with
  | zero => rfl
  | succ n ih => rw [runReleases, ih, orphans_runRelease]

theorem mem_orphans_scheduleRelease {i : Nat} :
    i ∈ (c.scheduleRelease id).orphans ↔ i ∈ c.orphans ∨ i = id ∧ c.Refuses id := by
  have hkept : c.catchUp.orphans = c.orphans := orphans_runReleases _ c
  unfold scheduleRelease Refuses
  dsimp only
  split
  · next releaser htaken => simp [hkept, htaken]
  · next hrefused => simp [hkept, hrefused]

end Cache

/-- A handle becomes an orphan in a move that schedules its release, which is refused. -/
theorem Move.refused {s t : Stage ι} (h : Move s t) {id : Nat} (ht : id ∈ t.cache.orphans)
    (hs : id ∉ s.cache.orphans) :
    ∃ c : Cache ι, t.cache = c.scheduleRelease id ∧ c.Refuses id := by
  cases h with
  | expel reason he =>
    rw [Cache.expel_eq_scheduleRelease] at ht ⊢
    obtain ⟨rfl, hrefused⟩ := (Cache.mem_orphans_scheduleRelease.mp ht).resolve_left hs
    exact ⟨_, rfl, hrefused⟩
  | discard h =>
    obtain ⟨rfl, hrefused⟩ := (Cache.mem_orphans_scheduleRelease.mp ht).resolve_left hs
    exact ⟨_, rfl, hrefused⟩
  | release => exact absurd (Cache.orphans_runRelease _ ▸ ht) hs
  | settle held =>
    rw [Cache.settle_orphans] at ht
    exact absurd (List.mem_filter.mp ht).1 hs
  | touch _ _ | insert _ _ _ | load | offer | note _ _ _ | close | retire => exact absurd ht hs

/-- An orphan at the end of some moves was one before, or was refused on the way. -/
theorem Moves.refused {s t : Stage ι} (h : Moves s t) {id : Nat} (ht : id ∈ t.cache.orphans)
    (hs : id ∉ s.cache.orphans) :
    ∃ before after, Moves s before ∧ Move before after ∧ Moves after t ∧
      ∃ c : Cache ι, after.cache = c.scheduleRelease id ∧ c.Refuses id := by
  induction h with
  | refl => exact absurd ht hs
  | @tail middle last hmoves hmove ih =>
    by_cases hmiddle : id ∈ middle.cache.orphans
    · obtain ⟨before, after, hbefore, hstep, hafter, hrefused⟩ := ih hmiddle
      exact ⟨before, after, hbefore, hstep, hafter.tail hmove, hrefused⟩
    · exact ⟨middle, last, hmoves, hmove, .refl, hmove.refused ht hmiddle⟩

namespace Service

variable (env : Environment σ ι)

theorem start_ledger (config : CacheConfig) (observer : Option (Watcher Unit)) (world : σ) :
    Stage.Ledger ⟨(start (ι := ι) config observer world).cache, [], 0⟩ :=
  ⟨.refl _, fun _ => Iff.rfl, nofun, ⟨rfl, Or.inl Nat.one_pos⟩, rfl⟩

theorem run_ledger (actions : List (Action σ ι)) {s : Service σ ι} (hc : s.cache.Sound) {n : Nat}
    (hs : Stage.Ledger ⟨s.cache, [], n⟩) :
    Stage.Ledger ⟨(s.run env actions).cache, [], n + actions.countP Action.isPut⟩ :=
  Moves.ledger (run_moves env actions hc n) hc hs

/-! ## Orphans are held -/

theorem held_of_orphan (action : Action σ ι) (s : Service σ ι) {id : Nat}
    (h : id ∈ (s.act env action).2.cache.orphans) : id ∈ (s.act env action).2.heldIds := by
  have horphan : id ∈ ((s.perform env action).2.cache.settle (s.perform env action).2.heldIds).orphans :=
    h
  rw [Cache.settle_orphans, List.mem_filter] at horphan
  exact List.contains_iff_mem.mp horphan.2

theorem heldIds_drop (s : Service σ ι) (id : Nat) :
    (s.act env (.drop id)).2.heldIds = s.heldIds.erase id := by
  show (s.held.eraseP (·.id == id)).map (·.id) = (s.held.map (·.id)).erase id
  rw [List.erase_eq_eraseP', List.eraseP_map]
  rfl

/-- Dropping a reference settles its orphan and touches nothing else of the cache. -/
theorem cache_drop (s : Service σ ι) (id : Nat) :
    (s.act env (.drop id)).2.cache = s.cache.settle (s.heldIds.erase id) := by
  rw [← heldIds_drop env s id]
  rfl

/-! ## Fates -/

/-- What can become of an index. -/
inductive Fate where
  /-- Its handle is a live entry. -/
  | live
  /-- It was released. -/
  | released
  /-- Its release was refused, and it waits for its last reference to go. -/
  | orphaned

/-- What a fate means. A handle that is live was neither invalidated nor released, a released one was
released once, and an orphan is invalidated, not released, and held by somebody. -/
def HasFate (s : Service σ ι) (id : Nat) : Fate → Prop
  | .live => id ∈ s.cache.liveIds ∧ id ∉ s.cache.invalidated ∧ id ∉ s.cache.released
  | .released => s.cache.released.count id = 1
  | .orphaned => id ∈ s.cache.invalidated ∧ id ∉ s.cache.released ∧ id ∈ s.cache.orphans ∧
      id ∈ s.heldIds

/-- No index is orphaned but by a refusal. -/
theorem refused_of_orphaned (config : CacheConfig) (observer : Option (Watcher Unit)) (world : σ)
    (actions : List (Action σ ι)) {id : Nat}
    (h : ((start config observer world).run env actions).HasFate id .orphaned) :
    ∃ before after, Moves ⟨(start config observer world).cache, [], 0⟩ before ∧
      Move before after ∧ ∃ c : Cache ι, after.cache = c.scheduleRelease id ∧ c.Refuses id := by
  have hmoves := run_moves env actions (start_sound config observer world) 0
  obtain ⟨before, after, hbefore, hstep, -, hrefused⟩ := hmoves.refused h.2.2.1 List.not_mem_nil
  exact ⟨before, after, hbefore, hstep, hrefused⟩

/-- When no release waits, every number has one fate. -/
theorem fate_unique {s : Service σ ι} {n : Nat} (hs : Stage.Ledger ⟨s.cache, [], n⟩)
    (hqueue : s.cache.releaser.queue = []) (hheld : s.cache.orphans ⊆ s.heldIds) {id : Nat}
    (hid : id < s.cache.made) : ∃! fate, s.HasFate id fate := by
  have hbehind : s.cache.behind = s.cache.orphans ++ s.cache.released := by
    rw [Cache.behind, hqueue, List.nil_append]
  have hnodup : (s.cache.orphans ++ s.cache.released).Nodup := hbehind ▸ hs.behind_nodup
  have hreleased : ∀ i ∈ s.cache.released, s.cache.released.count i = 1 := fun i hi =>
    List.count_eq_one_of_mem hs.released_nodup hi
  have hmem : id ∈ s.cache.liveIds ++ s.cache.behind ++ [] :=
    hs.placed.mem_iff.mpr (List.mem_range.mpr hid)
  rw [List.append_nil, List.mem_append, hbehind, List.mem_append] at hmem
  -- One case for each place; what rules the other two fates out is that no number is in two places.
  rcases hmem with hlive | horphan | hgone
  · have hnot : id ∉ s.cache.behind := hs.not_behind_of_live hlive
    have hvalid : id ∉ s.cache.invalidated := fun h => hnot ((hs.invalidated id).mp h)
    have hkept : id ∉ s.cache.released := fun h => hnot (List.mem_append_right _ h)
    refine ⟨.live, ⟨hlive, hvalid, hkept⟩, ?_⟩
    intro fate hfate
    cases fate with
    | live => rfl
    | released => exact absurd (List.count_pos_iff.mp (hfate ▸ Nat.one_pos)) hkept
    | orphaned => exact absurd hfate.1 hvalid
  · have hkept : id ∉ s.cache.released := fun h =>
      (List.nodup_append.mp hnodup).2.2 id horphan id h rfl
    have hmarked : id ∈ s.cache.invalidated := by
      refine (hs.invalidated id).mpr ?_
      show id ∈ s.cache.behind
      rw [hbehind]
      exact List.mem_append_left _ horphan
    refine ⟨.orphaned, ⟨hmarked, hkept, horphan, hheld horphan⟩, ?_⟩
    intro fate hfate
    cases fate with
    | live => exact absurd hmarked hfate.2.1
    | released => exact absurd (List.count_pos_iff.mp (hfate ▸ Nat.one_pos)) hkept
    | orphaned => rfl
  · refine ⟨.released, hreleased id hgone, ?_⟩
    intro fate hfate
    cases fate with
    | live => exact absurd hgone hfate.2.2
    | released => rfl
    | orphaned => exact absurd hgone hfate.2.1

theorem released_drop {s : Service σ ι} {n : Nat} (hs : Stage.Ledger ⟨s.cache, [], n⟩) {id : Nat}
    (horphan : id ∈ s.cache.orphans) (hlast : s.heldIds.count id = 1) :
    id ∈ (s.act env (.drop id)).2.cache.released := by
  -- With the only reference gone the handle is not held, so settling frees it.
  have hgone : id ∉ s.heldIds.erase id := by
    rw [← List.count_pos_iff, List.count_erase_self, hlast]
    exact Nat.lt_irrefl 0
  have hunheld : id ∈ s.cache.unheld (s.heldIds.erase id) := by
    refine List.mem_filter.mpr ⟨horphan, ?_⟩
    simpa using hgone
  have hnodup := Cache.unheld_nodup (s.heldIds.erase id) hs.behind_nodup
  rw [cache_drop, Cache.settle_released _ hnodup]
  exact List.mem_append_right _ hunheld

end Service

/-! ## Every run -/

/-- **Once the queue is drained, every index has one fate.** There is an index for every load and
every `put`; it is live and untouched, or released exactly once, or its release was refused and
somebody still holds it. The last such reference then releases it, and nothing ever does so again. -/
theorem fate_of_every_index (env : Environment σ ι) (config : CacheConfig)
    (observer : Option (Watcher Unit)) (world : σ) (actions : List (Action σ ι)) :
    let s := (Service.start config observer world).run env (actions ++ [.drain])
    s.cache.made = s.cache.tally.loads + actions.countP Action.isPut ∧
    (∀ id < s.cache.made, ∃! fate, s.HasFate id fate) ∧
    ∀ id, s.HasFate id .orphaned → s.heldIds.count id = 1 → ∀ more,
      ((s.act env (.drop id)).2.run env more).cache.released.count id = 1 := by
  intro s
  have hstart := Service.start_sound (ι := ι) config observer world
  have hempty := Service.start_ledger (ι := ι) config observer world
  have hc : s.cache.Sound := Service.run_sound env (actions ++ [.drain]) hstart
  have hs := Service.run_ledger env (actions ++ [.drain]) hstart hempty
  have hbefore := Service.run_ledger env actions hstart hempty
  have hlast : s = (((Service.start config observer world).run env actions).act env .drain).2 :=
    Service.run_append env actions [.drain] _
  have hqueue : s.cache.releaser.queue = [] := by
    rw [hlast]
    exact (congrArg WorkerPool.queue (Cache.settle_releaser _ _)).trans
      (Cache.queue_drainReleases hbefore.attended)
  have hheld : s.cache.orphans ⊆ s.heldIds := by
    rw [hlast]
    exact fun id => Service.held_of_orphan env .drain _
  refine ⟨?_, fun id hid => Service.fate_unique hs hqueue hheld hid, ?_⟩
  · have hmade := hs.made
    rw [Nat.zero_add, List.countP_append] at hmade
    exact hmade
  · intro id horphan hcount more
    have hdropped := Service.released_drop env hs horphan.2.2.1 hcount
    have hact := Service.act_moves env (.drop id) hc 0
    have hmore := Service.run_moves env more (Moves.sound hact hc) 0
    have hend := Service.run_ledger env (.drop id :: more) hc hs
    exact List.count_eq_one_of_mem hend.released_nodup (hmore.released.subset hdropped)

/-- A cache that cannot queue any release, from which a held index was invalidated. -/
def stranded : Service Nat Nat :=
  (Service.start { releaseQueueDepth := 0 } none 0).run Environment.clock
    ([.put ⟨"a"⟩ 3, .invalidate ⟨"a"⟩] ++ [.drain])

/-- The index is an orphan until its caller lets go of it, and after that it stays released. -/
theorem fate_of_stranded :
    0 < stranded.cache.made ∧ (∃! fate, stranded.HasFate 0 fate) ∧ stranded.HasFate 0 .orphaned ∧
    stranded.heldIds.count 0 = 1 ∧
    ((stranded.act Environment.clock (.drop 0)).2.run Environment.clock [.get ⟨"a"⟩]
      ).cache.released.count 0 = 1 := by
  have hmade : stranded.cache.made = 1 := rfl
  have hheld : stranded.heldIds = [0] := rfl
  have horphan : stranded.HasFate 0 .orphaned :=
    ⟨List.mem_singleton.mpr rfl, List.not_mem_nil, List.mem_singleton.mpr rfl,
      List.mem_singleton.mpr rfl⟩
  obtain ⟨-, hfate, hdrop⟩ := fate_of_every_index Environment.clock { releaseQueueDepth := 0 } none 0
    [.put ⟨"a"⟩ 3, .invalidate ⟨"a"⟩]
  rw [← stranded] at hfate hdrop
  have hcount : stranded.heldIds.count 0 = 1 := by rw [hheld]; rfl
  exact ⟨by rw [hmade]; exact Nat.one_pos, hfate 0 (by rw [hmade]; exact Nat.one_pos), horphan,
    hcount, hdrop 0 horphan hcount _⟩

end Sidecar
