import Sidecar.Proofs.Cache.Alike
import Sidecar.Proofs.Cache.Order

/-!
# The watches of the entries

A cache with a running watcher watches the path of every entry, under some spelling of it
(`Cache.Guarded`). A watch comes with the entry that it is for: `accept` renews it before the entry
of the same key leaves, and a replacement leaves it alone. It goes with its entry, because an entry
that leaves takes the watch of its own key and no other; the watch that fires is gone before its entry
is.

What is known of the watched paths (`known`) is known of every path for which an index was let in,
since nobody else registers any.
-/

set_option autoImplicit false

namespace Sidecar

namespace Watcher

variable {known S S' : Path → Prop} {w : Watcher Unit} {path : Path}

/-- The watcher is running, knows something of what it watches, and watches some paths at least. -/
structure Guards (known S : Path → Prop) (w : Watcher Unit) : Prop where
  running : w.isShutDown = false
  known : ∀ watch ∈ w.table, known watch.1
  watching : ∀ path, S path → w.isWatching path = true

theorem isWatching_iff : w.isWatching path = true ↔
    ∃ watch ∈ w.table, watch.1.sameKey path = true := by
  simp [isWatching]

theorem isWatching_unregister {q : Path} : (w.unregister path).isWatching q = true ↔
    w.isWatching q = true ∧ q.sameKey path = false := by
  rw [isWatching_iff, isWatching_iff]
  constructor
  · rintro ⟨watch, hwatch, hsame⟩
    obtain ⟨hin, hother⟩ := List.mem_filter.mp hwatch
    exact ⟨⟨watch, hin, hsame⟩, by rw [← Path.sameKey_congr hsame]; simpa using hother⟩
  · rintro ⟨⟨watch, hin, hsame⟩, hother⟩
    refine ⟨watch, List.mem_filter.mpr ⟨hin, ?_⟩, hsame⟩
    rw [Path.sameKey_congr hsame, hother]
    rfl

/-- A path stays watched in a poll if no watch of its key fires. -/
theorem isWatching_poll_of_quiet (presence : Path → Presence) (h : w.isWatching path = true)
    (hquiet : (w.poll presence).1.any (path.sameKey ·.1) = false) :
    (w.poll presence).2.isWatching path = true := by
  obtain ⟨watch, hwatch, hsame⟩ := isWatching_iff.mp h
  refine isWatching_iff.mpr ⟨watch, List.mem_filter.mpr ⟨hwatch, ?_⟩, hsame⟩
  by_contra hgone
  have hfired : watch ∈ (w.poll presence).1 := List.mem_filter.mpr ⟨hwatch, by simpa using hgone⟩
  rw [List.any_eq_false] at hquiet
  exact hquiet watch hfired (Path.sameKey_comm hsame)

theorem Guards.mono (h : Guards known S w) (hsub : ∀ path, S' path → S path) :
    Guards known S' w :=
  ⟨h.running, h.known, fun path hpath => h.watching path (hsub path hpath)⟩

theorem Guards.unregister (h : Guards known S w)
    (hsub : ∀ q, S' q → S q ∧ q.sameKey path = false) : Guards known S' (w.unregister path) := by
  refine ⟨h.running, fun watch hwatch => h.known watch (List.mem_filter.mp hwatch).1, ?_⟩
  intro q hq
  obtain ⟨hin, hother⟩ := hsub q hq
  exact isWatching_unregister.mpr ⟨h.watching q hin, hother⟩

/-- A watch that is renewed keeps the spelling that it had. -/
theorem Guards.register (h : Guards known S w) (hpath : known path) :
    Guards known (fun q => S q ∨ q = path) (w.register (.ok ()) path ()).2 := by
  have hrunning : ¬ w.isShutDown = true := by simp [h.running]
  unfold Watcher.register
  rw [if_neg hrunning]
  dsimp only
  by_cases hold : w.isWatching path = true
  · have hsame : (w.table.map fun watch =>
        if watch.1.sameKey path then (watch.1, ()) else watch) = w.table :=
      List.map_id'' (fun watch => by split <;> rfl) w.table
    rw [if_pos hold, hsame]
    refine ⟨h.running, h.known, ?_⟩
    rintro q (hq | rfl)
    · exact h.watching q hq
    · exact hold
  · rw [if_neg hold]
    refine ⟨h.running, ?_, ?_⟩
    · intro watch hwatch
      rcases List.mem_append.mp hwatch with hwatch | hwatch
      · exact h.known watch hwatch
      · rw [List.mem_singleton.mp hwatch]
        exact hpath
    · rintro q (hq | rfl)
      · obtain ⟨watch, hwatch, hsame⟩ := isWatching_iff.mp (h.watching q hq)
        exact isWatching_iff.mpr ⟨watch, List.mem_append_left _ hwatch, hsame⟩
      · exact isWatching_iff.mpr ⟨_, List.mem_append_right _ (List.mem_singleton_self _),
          Path.sameKey_refl _⟩

theorem Guards.poll (h : Guards known S w) (presence : Path → Presence)
    (hsub : ∀ q, S' q → S q ∧ (w.poll presence).1.any (q.sameKey ·.1) = false) :
    Guards known S' (w.poll presence).2 := by
  refine ⟨h.running, fun watch hwatch => h.known watch (List.mem_filter.mp hwatch).1, ?_⟩
  intro q hq
  obtain ⟨hin, hquiet⟩ := hsub q hq
  exact isWatching_poll_of_quiet presence (h.watching q hin) hquiet

end Watcher

namespace Cache

variable {σ ι : Type} {known S S' : Path → Prop} {c c' : Cache ι} {path : Path}

open Watcher

/-- The watcher of the cache watches the paths. -/
def Watched (known S : Path → Prop) (c : Cache ι) : Prop :=
  ∃ w, c.observer = some w ∧ Guards known S w

/-- The paths of the entries. -/
def HasEntry (c : Cache ι) (path : Path) : Prop := ∃ e ∈ c.entries, e.handle.path = path

/-- The watcher of the cache watches the path of every entry. -/
def Guarded (known : Path → Prop) (c : Cache ι) : Prop := c.Watched known c.HasEntry

theorem Watched.mono (h : c.Watched known S) (hobserver : c'.observer = c.observer)
    (hsub : ∀ path, S' path → S path) : c'.Watched known S' := by
  obtain ⟨w, hw, hguards⟩ := h
  exact ⟨w, hobserver.trans hw, hguards.mono hsub⟩

theorem Guarded.of_subset (h : c.Guarded known) (hobserver : c'.observer = c.observer)
    (hsub : c'.entries ⊆ c.entries) : c'.Guarded known := by
  apply h.mono hobserver
  rintro path ⟨e, he, hpath⟩
  exact ⟨e, hsub he, hpath⟩

theorem Guarded.of_frame (h : c.Guarded known) (hf : Frame c c') : c'.Guarded known :=
  h.of_subset hf.observer (by rw [hf.entries]; exact List.Subset.refl _)

/-! ## Entries that leave -/

theorem observer_expel (c : Cache ι) (reason : RemovalReason) (e : Entry ι) :
    (c.expel reason e).observer = if reason.dropsWatch
      then c.observer.map (·.unregister e.handle.path) else c.observer :=
  (c.frame_expel reason e).observer

theorem observer_remove (c : Cache ι) (path : Path) {reason : RemovalReason}
    (hkeeps : reason.dropsWatch = false) : (c.remove path reason).2.observer = c.observer := by
  unfold Cache.remove
  split
  · rfl
  · next e _ => rw [observer_expel c reason e, hkeeps, if_neg Bool.false_ne_true]

theorem Watched.expel (h : c.Watched known S) (reason : RemovalReason) (e : Entry ι)
    (hsub : ∀ q, S' q → S q ∧ q.sameKey e.handle.path = false) :
    (c.expel reason e).Watched known S' := by
  obtain ⟨w, hw, hguards⟩ := h
  have hobserver := observer_expel c reason e
  cases hdrops : reason.dropsWatch with
  | true =>
    rw [hdrops, if_pos rfl, hw] at hobserver
    exact ⟨_, hobserver, hguards.unregister hsub⟩
  | false =>
    rw [hdrops, if_neg Bool.false_ne_true, hw] at hobserver
    exact ⟨w, hobserver, hguards.mono fun q hq => (hsub q hq).1⟩

theorem Watched.expelAll (h : c.Watched known S) (reason : RemovalReason) (es : List (Entry ι))
    (hsub : ∀ q, S' q → S q ∧ ∀ e ∈ es, q.sameKey e.handle.path = false) :
    (c.expelAll reason es).Watched known S' := by
  induction es generalizing c S with
  | nil => exact h.mono rfl fun q hq => (hsub q hq).1
  | cons e rest ih =>
    have hfirst : (c.expel reason e).Watched known
        fun q => S q ∧ q.sameKey e.handle.path = false :=
      h.expel reason e fun _ => id
    apply ih hfirst
    intro q hq
    obtain ⟨hin, hothers⟩ := hsub q hq
    exact ⟨⟨hin, hothers e List.mem_cons_self⟩,
      fun e' he' => hothers e' (List.mem_cons_of_mem e he')⟩

/-- The entries that stay have other keys than those that leave. -/
theorem hasEntry_expelAll {reason : RemovalReason} {es : List (Entry ι)}
    (h : (c.expelAll reason es).HasEntry path) :
    c.HasEntry path ∧ ∀ e ∈ es, path.sameKey e.handle.path = false := by
  obtain ⟨e, he, rfl⟩ := h
  rw [entries_expelAll, List.mem_filter, decide_eq_true_iff] at he
  refine ⟨⟨e, he.1, rfl⟩, ?_⟩
  intro e' he'
  rw [Bool.eq_false_iff]
  intro hsame
  exact he.2 (Entry.sameKey_iff.mp hsame ▸ List.mem_map_of_mem he')

theorem Guarded.expelAll (h : c.Guarded known) (reason : RemovalReason) (es : List (Entry ι)) :
    (c.expelAll reason es).Guarded known :=
  Watched.expelAll h reason es fun _ => hasEntry_expelAll

theorem Guarded.expel (h : c.Guarded known) (reason : RemovalReason) (e : Entry ι) :
    (c.expel reason e).Guarded known :=
  h.expelAll reason [e]

theorem Guarded.remove (h : c.Guarded known) (path : Path) (reason : RemovalReason) :
    (c.remove path reason).2.Guarded known := by
  unfold Cache.remove
  split
  · exact h
  · exact h.expel reason _

theorem Guarded.makeRoom (h : c.Guarded known) (extra : Nat) : (c.makeRoom extra).Guarded known := by
  unfold Cache.makeRoom
  split
  · exact h
  · exact h.expelAll .weight _

theorem Guarded.sweep (h : c.Guarded known) (now : Nat) : (c.sweep now).2.Guarded known := by
  unfold Cache.sweep
  split
  · exact h
  · exact (h.expelAll .expired _).makeRoom 0

theorem Guarded.shutdown (h : c.Guarded known) : c.shutdown.Guarded known := by
  unfold Cache.shutdown
  split
  · exact h
  · have hclosed : ({ c with isShutDown := true } : Cache ι).Guarded known := h
    have hdrained : (Cache.expelAll .shutdown { c with isShutDown := true }
        c.entries).drainReleases.Guarded known :=
      (hclosed.expelAll .shutdown c.entries).of_frame (frame_runReleases _ _)
    exact hdrained

theorem Guarded.discard (h : c.Guarded known) (handle : Handle ι) :
    (c.discard handle).Guarded known := by
  have hmarked : (c.markInvalidated handle.id).Guarded known := h
  exact hmarked.of_frame (c.frame_discard handle)

theorem Guarded.lookup (h : c.Guarded known) (now : Nat) (path : Path) :
    (c.lookup now path).2.Guarded known := by
  rcases c.lookup_cases path now with ⟨_, heq⟩ | ⟨e, _, _, heq⟩ | ⟨e, hfound, _, heq⟩
  · rw [heq]
    exact h
  · rw [heq]
    exact h.expel .expired e
  · rw [heq]
    apply h.mono rfl
    rintro q ⟨e', he', rfl⟩
    rw [touch_entries, List.mem_append, List.mem_singleton] at he'
    rcases he' with he' | rfl
    · exact ⟨e', (List.mem_filter.mp he').1, rfl⟩
    · exact ⟨e, mem_of_found hfound, rfl⟩

/-! ## Entries that come -/

variable (env : Environment σ ι) (s : σ)

/-- The watch that is renewed outlives the entries that leave for the new one. -/
theorem Guarded.clear (h : c.Guarded known) {handle : Handle ι}
    (hpresent : env.presence s handle.path = .ok ()) (hknown : known handle.path) :
    (clear env c handle s).Watched known
      fun q => (clear env c handle s).HasEntry q ∨ q = handle.path := by
  obtain ⟨w, hw, hguards⟩ := h
  have hwatched : (c.watch (env.presence s handle.path) handle.path).Watched known
      fun q => c.HasEntry q ∨ q = handle.path := by
    rw [hpresent]
    exact ⟨_, by rw [watch, hw, Option.map_some], hguards.register hknown⟩
  have hentries := entries_remove (c.watch (env.presence s handle.path) handle.path) handle.path
    .replaced
  have hremoved : ((c.watch (env.presence s handle.path) handle.path).remove handle.path
      .replaced).2.Watched known fun q => c.HasEntry q ∨ q = handle.path :=
    hwatched.mono (observer_remove _ handle.path rfl) fun _ => id
  unfold Cache.clear
  generalize ((c.watch (env.presence s handle.path) handle.path).remove handle.path .replaced).2
    = removed at hentries hremoved
  have hleft : ∀ e ∈ removed.entries,
      e ∈ c.entries ∧ e.handle.path.sameKey handle.path = false := by
    intro e he
    rw [hentries] at he
    exact mem_besides.mp he
  have hold : ∀ q, removed.HasEntry q → c.HasEntry q :=
    fun q ⟨e, he, hq⟩ => ⟨e, (hleft e he).1, hq⟩
  unfold Cache.makeRoom
  split
  · exact hremoved.mono rfl fun q hq => hq.imp_left (hold q)
  · next budget _ =>
    apply hremoved.expelAll
    rintro q (hq | rfl)
    · obtain ⟨hin, hothers⟩ := hasEntry_expelAll hq
      exact ⟨Or.inl (hold q hin), hothers⟩
    · refine ⟨Or.inr rfl, fun e he => ?_⟩
      have hvictim := (victims_initial budget (removed.weight + handle.size) removed.entries).subset he
      rw [Bool.eq_false_iff]
      intro hsame
      have hother := (hleft e hvictim).2
      rw [Path.sameKey_comm hsame] at hother
      cases hother

theorem Guarded.accept (h : c.Guarded known) {handle : Handle ι}
    (hpresent : env.presence s handle.path = .ok ()) (hknown : known handle.path) :
    (c.accept env handle s).2.Guarded known := by
  rcases c.accept_cases env handle s with ⟨_, _, _, heq⟩ | ⟨_, _, heq⟩ | ⟨_, _, heq⟩
  · rw [heq]
    exact h.discard handle
  · rw [heq]
    exact h.discard handle
  · rw [heq]
    apply (h.clear env s hpresent hknown).mono rfl
    rintro q ⟨e, he, rfl⟩
    rcases List.mem_append.mp he with he | he
    · exact Or.inl ⟨e, he, rfl⟩
    · exact Or.inr (by rw [List.mem_singleton.mp he])

theorem Guarded.put (h : c.Guarded known) (index : ι)
    (hpresent : env.presence s path = .ok ()) (hknown : known path) :
    (c.put env path index s).2.Guarded known := by
  have hmade : ({ c with made := c.made + 1 } : Cache ι).Guarded known := h
  rcases c.put_cases env path s index with ⟨_, heq⟩ | ⟨_, e, _, heq⟩ | ⟨_, _, heq⟩
  · rw [heq]
    exact hmade.discard _
  · rw [heq]
    exact hmade.discard _
  · rw [heq]
    exact hmade.accept env s hpresent hknown

theorem Guarded.get (h : c.Guarded known) (path : Path)
    (hload : ∀ index s', env.load path s = (.ok index, s') →
      env.presence s' path = .ok () ∧ known path) :
    (c.get env path s).2.1.Guarded known := by
  refine get_keeps env h (fun _ h => h.lookup (env.now s) path) (fun _ _ => id) ?_
  intro c' index s' _ hok h
  have hmade : ({ c' with made := c'.made + 1 } : Cache ι).Guarded known := h
  obtain ⟨hpresent, hknown⟩ := hload index s' hok
  exact hmade.accept env s' hpresent hknown

/-! ## Watches that fire -/

theorem observer_poll {w : Watcher Unit} (hw : c.observer = some w) (presence : Path → Presence) :
    (c.poll presence).2.observer = some (w.poll presence).2 := by
  refine poll_keeps (P := fun c' => c'.observer = some (w.poll presence).2) presence
    (fun hnone => ?_) (fun w' hw' => ?_) fun c' path h => (observer_remove c' path rfl).trans h
  · rw [hw] at hnone
    cases hnone
  · obtain rfl := Option.some.inj (hw.symm.trans hw')
    rfl

theorem Guarded.poll (h : c.Guarded known) (presence : Path → Presence) :
    (c.poll presence).2.Guarded known := by
  obtain ⟨w, hw, hguards⟩ := h
  refine ⟨_, observer_poll hw presence, hguards.poll presence ?_⟩
  rintro _ ⟨e, he, rfl⟩
  rw [entries_poll hw, List.mem_filter, Bool.not_eq_true'] at he
  exact ⟨⟨e, he.1, rfl⟩, he.2⟩

end Cache

end Sidecar
