import Sidecar.Cache.Operations
import Mathlib.Data.List.Basic

/-!
# What releasing changes

`Cache.free`, `runRelease`, `drainReleases`, `catchUp`, `scheduleRelease` and `settle` move handle
numbers between three lists: the queue of the release worker, the orphans and the released. This
file says so twice.

* **Nothing else changes** (`Frame`): the entries, their weight, what is invalidated and what has
  departed are as before. One frame fact per function, and the facts about `expel` and `discard`,
  which release as well, follow from it.
* **Nothing gets lost** (`behind`): the three lists together, which are the handles that the cache
  has left behind, are a permutation of what they were, with the scheduled handle added.

The second fact needs that no handle is behind twice, since `free` passes over a handle that has
been released already. It is the only place where that test matters: on handles that are behind once
it never fires.
-/

set_option autoImplicit false

namespace Sidecar

/-! ## Tasks of a pool -/

namespace WorkerPool

variable {τ : Type}

@[simp] theorem finish_queue (pool : WorkerPool τ) (place : Nat) :
    (pool.finish place).queue = pool.queue := by
  unfold finish
  split <;> rfl

theorem queue_of_runNext {pool pool' : WorkerPool τ} {task : τ}
    (h : pool.runNext = some (task, pool')) : pool.queue = task :: pool'.queue := by
  unfold runNext start at h
  split at h
  · split at h
    · exact absurd h nofun
    · next hq =>
      simp only [Option.map_some, Option.some.injEq, Prod.mk.injEq] at h
      obtain ⟨rfl, rfl⟩ := h
      rw [finish_queue]
      exact hq
  · exact absurd h nofun

theorem queue_of_submit {pool pool' : WorkerPool τ} {task : τ}
    (h : pool.submit task = some pool') : pool'.queue = pool.queue ++ [task] := by
  unfold submit push at h
  split at h
  · exact absurd h nofun
  · split at h
    · exact absurd h nofun
    · rw [Option.some.injEq] at h
      rw [← h]

/-- Whoever waits is served: no task is in progress between two steps, and the worker leaves only
when nothing waits and nothing will. -/
structure Attended (pool : WorkerPool τ) : Prop where
  idle : pool.active = []
  present : pool.departed < pool.workers ∨ (pool.isShutDown = true ∧ pool.queue = [])

theorem Attended.runNext_cons {pool : WorkerPool τ} (h : pool.Attended) {task : τ} {rest : List τ}
    (hq : pool.queue = task :: rest) :
    pool.runNext = some (task, { pool with queue := rest, completed := pool.completed + 1 }) := by
  have hpresent : pool.departed < pool.workers := by
    rcases h.present with hp | ⟨_, hempty⟩
    · exact hp
    · rw [hempty] at hq
      exact absurd hq nofun
  simp [runNext, start, hasIdleWorker, finish, h.idle, hq, hpresent]

theorem Attended.of_runNext {pool pool' : WorkerPool τ} {task : τ} (h : pool.Attended)
    (hr : pool.runNext = some (task, pool')) : pool'.Attended := by
  have hq := queue_of_runNext hr
  rw [h.runNext_cons hq, Option.some.injEq, Prod.mk.injEq] at hr
  rw [← hr.2]
  refine ⟨h.idle, ?_⟩
  rcases h.present with hp | ⟨_, hempty⟩
  · exact Or.inl hp
  · rw [hempty] at hq
    exact absurd hq nofun

theorem Attended.of_submit {pool pool' : WorkerPool τ} {task : τ} (h : pool.Attended)
    (hs : pool.submit task = some pool') : pool'.Attended := by
  unfold submit push at hs
  split at hs
  · exact absurd hs nofun
  · next hopen =>
    split at hs
    · exact absurd hs nofun
    · rw [Option.some.injEq] at hs
      rw [← hs]
      refine ⟨h.idle, ?_⟩
      rcases h.present with hp | ⟨hclosed, _⟩
      · exact Or.inl hp
      · exact absurd hclosed hopen

theorem retire_queue (pool : WorkerPool τ) : pool.close.dismiss.queue = pool.queue := by
  unfold dismiss
  split <;> rfl

theorem Attended.retire {pool : WorkerPool τ} (h : pool.Attended) :
    pool.close.dismiss.Attended := by
  unfold dismiss close
  cases hq : pool.queue with
  | nil => exact ⟨by simpa using h.idle, Or.inr ⟨by simp, by simp⟩⟩
  | cons task rest =>
    refine ⟨by simpa using h.idle, ?_⟩
    rcases h.present with hp | ⟨_, hempty⟩
    · exact Or.inl (by simpa using hp)
    · rw [hempty] at hq
      exact absurd hq nofun

end WorkerPool

namespace Cache

variable {ι : Type}

/-! ## Nothing else changes -/

/-- The two caches differ in their releases only. -/
structure Frame (c c' : Cache ι) : Prop where
  config : c'.config = c.config
  entries : c'.entries = c.entries
  weight : c'.weight = c.weight
  made : c'.made = c.made
  invalidated : c'.invalidated = c.invalidated
  departures : c'.departures = c.departures
  observer : c'.observer = c.observer
  isShutDown : c'.isShutDown = c.isShutDown
  /-- The record of releases only grows. -/
  released : c.released <+: c'.released
  /-- Of the counters, only that of the release worker moves. -/
  tally : ∃ n, c'.tally = { c.tally with releases := n }

/-- Whatever happens to the fields that releasing is about. -/
theorem frame_update (c : Cache ι) (releaser : WorkerPool Nat) (waiting : UInt64)
    {released : List Nat} (hgrow : c.released <+: released) (orphans lags : List Nat) (n : Nat) :
    Frame c { c with
      releaser, waiting, released, orphans, lags, tally := { c.tally with releases := n } } :=
  ⟨rfl, rfl, rfl, rfl, rfl, rfl, rfl, rfl, hgrow, n, rfl⟩

theorem Frame.refl (c : Cache ι) : Frame c c :=
  frame_update c _ _ (List.prefix_refl _) _ _ _

theorem Frame.trans {a b c : Cache ι} (h : Frame a b) (h' : Frame b c) : Frame a c := by
  refine ⟨h'.config.trans h.config, h'.entries.trans h.entries, h'.weight.trans h.weight,
    h'.made.trans h.made, h'.invalidated.trans h.invalidated, h'.departures.trans h.departures,
    h'.observer.trans h.observer, h'.isShutDown.trans h.isShutDown,
    h.released.trans h'.released, ?_⟩
  obtain ⟨n, hn⟩ := h.tally
  obtain ⟨n', hn'⟩ := h'.tally
  exact ⟨n', by rw [hn', hn]⟩

theorem frame_free (c : Cache ι) (id : Nat) : Frame c (c.free id) := by
  unfold free
  split
  · exact Frame.refl c
  · exact frame_update c _ _ (List.prefix_append _ _) _ _ _

/-- A worker that runs a release takes it off its queue, frees the handle, may count that, and has one
release less that waits. -/
theorem runRelease_eq (c : Cache ι) {id : Nat} {releaser : WorkerPool Nat}
    (h : c.releaser.runNext = some (id, releaser)) :
    ∃ n, c.runRelease = { c with
      releaser, waiting := c.waiting - 1, released := (c.free id).released,
      tally := { c.tally with releases := n } } := by
  by_cases hid : id ∈ c.released
  · exact ⟨c.tally.releases, by simp [runRelease, free, h, hid]⟩
  · exact ⟨c.tally.releases + 1, by simp [runRelease, free, h, hid]⟩

theorem runRelease_of_none {c : Cache ι} (h : c.releaser.runNext = none) : c.runRelease = c := by
  unfold runRelease
  rw [h]

theorem frame_runRelease (c : Cache ι) : Frame c c.runRelease := by
  cases h : c.releaser.runNext with
  | none => rw [runRelease_of_none h]; exact Frame.refl c
  | some next =>
    obtain ⟨n, hn⟩ := c.runRelease_eq h
    rw [hn]
    exact frame_update c _ _ (frame_free c _).released _ _ _

theorem frame_runReleases (n : Nat) (c : Cache ι) : Frame c (runReleases n c) := by
  induction n generalizing c with
  | zero => exact Frame.refl c
  | succ n ih => exact (frame_runRelease c).trans (ih _)

theorem frame_catchUp (c : Cache ι) : Frame c c.catchUp :=
  (frame_runReleases _ c).trans (frame_update _ _ _ (List.prefix_refl _) _ _ _)

theorem frame_scheduleRelease (c : Cache ι) (id : Nat) : Frame c (c.scheduleRelease id) := by
  unfold scheduleRelease
  refine (frame_catchUp c).trans ?_
  dsimp only
  split
  · exact frame_update _ _ _ (List.prefix_refl _) _ _ _
  · exact frame_update _ _ _ (List.prefix_refl _) _ _ _

theorem frame_foldl_free (ids : List Nat) (c : Cache ι) : Frame c (ids.foldl free c) := by
  induction ids generalizing c with
  | nil => exact Frame.refl c
  | cons id rest ih => exact (frame_free c id).trans (ih _)

theorem frame_settle (held : List Nat) (c : Cache ι) : Frame c (c.settle held) :=
  (frame_update c _ _ (List.prefix_refl _) _ _ _).trans (frame_foldl_free _ _)

/-! ## Giving up a handle -/

section GivingUp

variable (c : Cache ι) (h : Handle ι) (reason : RemovalReason) (e : Entry ι)

/-- To discard a handle is to mark it and to schedule its release. -/
theorem frame_discard : Frame (c.markInvalidated h.id) (c.discard h) := frame_scheduleRelease _ _

/-- What `expel` has done when it comes to the release. -/
def strike : Cache ι :=
  { c with
    entries := c.entries.filter (!·.handle.path.sameKey e.handle.path)
    weight := c.weight - e.handle.size
    invalidated := e.handle.id :: c.invalidated
    departures := c.departures ++ [(e.handle.id, reason)]
    observer := if reason.dropsWatch then c.observer.map (·.unregister e.handle.path)
      else c.observer }

theorem expel_eq_scheduleRelease :
    c.expel reason e = (c.strike reason e).scheduleRelease e.handle.id := by
  unfold expel strike markInvalidated unwatch
  cases reason.dropsWatch <;> rfl

theorem frame_expel : Frame (c.strike reason e) (c.expel reason e) := by
  rw [expel_eq_scheduleRelease]
  exact frame_scheduleRelease _ _

@[simp] theorem expel_entries :
    (c.expel reason e).entries = c.entries.filter (!·.handle.path.sameKey e.handle.path) :=
  (c.frame_expel reason e).entries

@[simp] theorem expel_weight : (c.expel reason e).weight = c.weight - e.handle.size :=
  (c.frame_expel reason e).weight

@[simp] theorem expel_config : (c.expel reason e).config = c.config :=
  (c.frame_expel reason e).config

@[simp] theorem expel_invalidated :
    (c.expel reason e).invalidated = e.handle.id :: c.invalidated :=
  (c.frame_expel reason e).invalidated

@[simp] theorem expel_departures :
    (c.expel reason e).departures = c.departures ++ [(e.handle.id, reason)] :=
  (c.frame_expel reason e).departures

end GivingUp

/-! ## Nothing gets lost -/

/-- The handles that left the cache: their release waits, or only their last reference keeps them,
or they are released. -/
def behind (c : Cache ι) : List Nat := c.releaser.queue ++ c.orphans ++ c.released

theorem free_released {c : Cache ι} {id : Nat} (h : id ∉ c.released) :
    (c.free id).released = c.released ++ [id] := by
  simp [free, h]

theorem foldl_free_released (ids : List Nat) {c : Cache ι} (h : (c.released ++ ids).Nodup) :
    (ids.foldl free c).released = c.released ++ ids := by
  induction ids generalizing c with
  | nil => simp
  | cons id rest ih =>
    have hid : id ∉ c.released := fun hmem =>
      (List.nodup_append.mp h).2.2 id hmem id List.mem_cons_self rfl
    have hrest : ((c.free id).released ++ rest).Nodup := by
      rw [free_released hid, List.append_assoc]
      exact h
    rw [List.foldl_cons, ih hrest, free_released hid, List.append_assoc]
    rfl

theorem foldl_free_eq (ids : List Nat) (c : Cache ι) :
    ids.foldl free c = { c with released := (ids.foldl free c).released } := by
  induction ids generalizing c with
  | nil => rfl
  | cons id rest ih =>
    rw [List.foldl_cons, ih]
    unfold free
    split <;> rfl

theorem behind_runRelease {c : Cache ι} (h : c.behind.Nodup) : c.runRelease.behind.Perm c.behind := by
  cases hn : c.releaser.runNext with
  | none => rw [runRelease_of_none hn]
  | some next =>
    obtain ⟨id, releaser⟩ := next
    obtain ⟨n, heq⟩ := c.runRelease_eq hn
    have hq : c.releaser.queue = id :: releaser.queue := WorkerPool.queue_of_runNext hn
    rw [behind, hq, List.append_assoc, List.cons_append, List.nodup_cons] at h
    have hid : id ∉ c.released := fun hmem =>
      h.1 (List.mem_append_right _ (List.mem_append_right _ hmem))
    rw [heq, behind, behind, hq, free_released hid, ← List.append_assoc]
    exact List.perm_append_singleton _ _

theorem behind_runReleases (n : Nat) {c : Cache ι} (h : c.behind.Nodup) :
    (runReleases n c).behind.Perm c.behind := by
  induction n generalizing c with
  | zero => exact List.Perm.refl _
  | succ n ih =>
    have hp := behind_runRelease h
    exact (ih (hp.nodup_iff.mpr h)).trans hp

theorem behind_catchUp {c : Cache ι} (h : c.behind.Nodup) : c.catchUp.behind.Perm c.behind :=
  behind_runReleases _ h

theorem behind_scheduleRelease {c : Cache ι} (h : c.behind.Nodup) (id : Nat) :
    (c.scheduleRelease id).behind.Perm (id :: c.behind) := by
  refine List.Perm.trans ?_ ((behind_catchUp h).cons id)
  -- Taken or refused, the handle is behind afterwards; only its place differs.
  unfold scheduleRelease
  dsimp only
  split
  · next releaser hs =>
    simp only [behind, WorkerPool.queue_of_submit hs, List.append_assoc]
    exact List.perm_middle
  · simp only [behind, List.append_assoc, List.singleton_append]
    rw [← List.append_assoc, ← List.append_assoc]
    exact List.perm_middle

/-- The orphans that nobody holds. -/
def unheld (held : List Nat) (c : Cache ι) : List Nat := c.orphans.filter (!held.contains ·)

theorem settle_orphans (held : List Nat) (c : Cache ι) :
    (c.settle held).orphans = c.orphans.filter held.contains := by
  unfold settle
  rw [foldl_free_eq]

theorem settle_releaser (held : List Nat) (c : Cache ι) :
    (c.settle held).releaser = c.releaser := by
  unfold settle
  rw [foldl_free_eq]

theorem settle_released (held : List Nat) {c : Cache ι} (h : (c.released ++ c.unheld held).Nodup) :
    (c.settle held).released = c.released ++ c.unheld held :=
  foldl_free_released _ h

theorem unheld_nodup (held : List Nat) {c : Cache ι} (h : c.behind.Nodup) :
    (c.released ++ c.unheld held).Nodup := by
  have hright : (c.orphans ++ c.released).Nodup := by
    rw [behind, List.append_assoc] at h
    exact (List.nodup_append.mp h).2.1
  exact (List.perm_append_comm.nodup_iff.mp hright).sublist
    (List.Sublist.append_left List.filter_sublist _)

theorem behind_settle (held : List Nat) {c : Cache ι} (h : c.behind.Nodup) :
    (c.settle held).behind.Perm c.behind := by
  have horphans : (c.orphans.filter held.contains ++ c.unheld held).Perm c.orphans :=
    List.filter_append_perm _ _
  rw [behind, behind, settle_orphans, settle_releaser, settle_released held (unheld_nodup held h),
    List.append_assoc, List.append_assoc]
  refine List.Perm.append_left _ ?_
  calc (c.orphans.filter held.contains ++ (c.released ++ c.unheld held)).Perm
        (c.orphans.filter held.contains ++ (c.unheld held ++ c.released)) :=
        List.Perm.append_left _ List.perm_append_comm
    _ = (c.orphans.filter held.contains ++ c.unheld held) ++ c.released :=
        (List.append_assoc ..).symm
    List.Perm _ (c.orphans ++ c.released) := horphans.append_right _

/-! ## The release worker is there -/

theorem attended_runRelease {c : Cache ι} (h : c.releaser.Attended) :
    c.runRelease.releaser.Attended := by
  cases hn : c.releaser.runNext with
  | none => rw [runRelease_of_none hn]; exact h
  | some next =>
    obtain ⟨n, heq⟩ := c.runRelease_eq hn
    rw [heq]
    exact h.of_runNext hn

theorem attended_runReleases (n : Nat) {c : Cache ι} (h : c.releaser.Attended) :
    (runReleases n c).releaser.Attended := by
  induction n generalizing c with
  | zero => exact h
  | succ n ih => exact ih (attended_runRelease h)

theorem attended_scheduleRelease {c : Cache ι} (h : c.releaser.Attended) (id : Nat) :
    (c.scheduleRelease id).releaser.Attended := by
  have hc : c.catchUp.releaser.Attended := attended_runReleases _ h
  unfold scheduleRelease
  dsimp only
  split
  · next releaser hs => exact hc.of_submit hs
  · exact hc

theorem queue_runReleases {c : Cache ι} (h : c.releaser.Attended) (n : Nat) :
    (runReleases n c).releaser.queue = c.releaser.queue.drop n := by
  induction n generalizing c with
  | zero => rfl
  | succ n ih =>
    have hnext : c.runRelease.releaser.queue = c.releaser.queue.drop 1 := by
      cases hq : c.releaser.queue with
      | nil =>
        cases hn : c.releaser.runNext with
        | none => rw [runRelease_of_none hn, hq]; rfl
        | some next =>
          have hcons := WorkerPool.queue_of_runNext hn
          rw [hq] at hcons
          exact absurd hcons nofun
      | cons task rest =>
        obtain ⟨n, heq⟩ := c.runRelease_eq (h.runNext_cons hq)
        rw [heq]
        rfl
    rw [runReleases, ih (attended_runRelease h), hnext, List.drop_drop, Nat.add_comm]

/-- Draining runs every release that waits. -/
theorem queue_drainReleases {c : Cache ι} (h : c.releaser.Attended) :
    c.drainReleases.releaser.queue = [] := by
  rw [drainReleases, queue_runReleases h, List.drop_length]

end Cache

end Sidecar
