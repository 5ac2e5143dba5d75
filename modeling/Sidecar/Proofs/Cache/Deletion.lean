import Sidecar.Engine.Host
import Sidecar.Proofs.Cache.Refusal
import Sidecar.Proofs.Cache.WatchTable
import Sidecar.Proofs.Files.Presence

/-!
# Files that are deleted

A poll takes the watches out whose file is gone, and then removes the entries of their paths, one after
the other. Every watch that has fired meets a live entry when its turn comes, because the table and the
entries are in step and no two watches are of one key, so removing the entry of one leaves the others
alone (`Sound.removals_of_fired`). The entries that leave are those that are *lost*
(`Cache.isLost`), and there are as many of them as of the watches that have fired. Nothing else changes
(`Cache.Polled`), and the next poll finds nothing to do.

A poll looks where the watch is, and an entry may have come later and spell its path differently. For
files this makes no difference as long as the system takes both spellings. It takes that of the watch,
since a path is watched only if something was there (`Cache.WatchesSeen`). That of the entry it does
not take if it is too long, and then the entry leaves though it is not said that nothing is there
(`Service.poll_removes_unaddressed`). The files are in any tree without links.
-/

set_option autoImplicit false

namespace Sidecar

variable {σ ι : Type}

namespace Cache

variable {c c' : Cache ι} {presence : Path → Presence} {w : Watcher Unit} {e : Entry ι}

/-! ## Watches that fire -/

theorem mem_invalidated_expelAll {reason : RemovalReason} {es : List (Entry ι)} {id : Nat} :
    id ∈ (c.expelAll reason es).invalidated ↔
      id ∈ c.invalidated ∨ id ∈ es.map (·.handle.id) := by
  induction es generalizing c with
  | nil => simp [expelAll]
  | cons e rest ih =>
    rw [expelAll, List.foldl_cons, ← expelAll, ih, expel_invalidated, List.mem_cons, List.map_cons,
      List.mem_cons]
    tauto

/-- Of every watch that has fired the entry leaves, and it is still there when its turn comes. -/
theorem Sound.removals_of_fired (hc : c.Sound) {fired : List (Path × Unit)}
    (hapart : (fired.map fun watch => watch.1.components).Nodup)
    (hlive : ∀ watch ∈ fired, c.contains watch.1 = true) :
    ∃ es ⊆ c.entries, es.map Entry.key = fired.map (fun watch => watch.1.components) ∧
      fired.foldl (fun c watch => (c.remove watch.1 .deleted).2) c = c.expelAll .deleted es := by
  induction fired generalizing c with
  | nil => exact ⟨[], List.nil_subset _, rfl, rfl⟩
  | cons watch rest ih =>
    rw [List.map_cons, List.nodup_cons] at hapart
    obtain ⟨e, hfound⟩ := Option.isSome_iff_exists.mp (hlive watch List.mem_cons_self)
    have he : e ∈ c.entries := mem_of_found hfound
    have hkey : e.key = watch.1.components := Path.sameKey_iff.mp (key_of_found hfound)
    have hothers : ∀ other ∈ rest, (c.expelAll .deleted [e]).contains other.1 = true := by
      intro other hother
      refine contains_expelAll.mpr ⟨hlive other (List.mem_cons_of_mem _ hother), fun e' he' => ?_⟩
      obtain rfl := List.mem_singleton.mp he'
      rw [Bool.eq_false_iff]
      intro hsame
      refine hapart.1 (List.mem_map.mpr ⟨other, hother, ?_⟩)
      exact (Path.sameKey_iff.mp hsame).trans hkey
    obtain ⟨es, hes, hkeys, heq⟩ := ih (hc.expel .deleted he) hapart.2 hothers
    have hsubset : (c.expel .deleted e).entries ⊆ c.entries := expelAll_subset .deleted [e]
    refine ⟨e :: es, List.cons_subset.mpr ⟨he, List.Subset.trans hes hsubset⟩, ?_, ?_⟩
    · rw [List.map_cons, List.map_cons, hkey, hkeys]
    · have hremoved : (c.remove watch.1 .deleted).2 = c.expel .deleted e := by rw [remove, hfound]
      rw [List.foldl_cons, hremoved, heq]
      rfl

/-- The entry is watched, and where the watch looks nothing is found. -/
def isLost (w : Watcher Unit) (presence : Path → Presence) (e : Entry ι) : Bool :=
  w.table.any fun watch => watch.1.sameKey e.handle.path && (presence watch.1).isGone

theorem isLost_eq (w : Watcher Unit) (presence : Path → Presence) (e : Entry ι) :
    isLost w presence e = (w.poll presence).1.any (e.handle.path.sameKey ·.1) := by
  simp only [isLost, Watcher.poll, List.any_filter, Bool.and_comm, Path.sameKey_symm]

theorem isLost_iff : isLost w presence e = true ↔
    e.key ∈ (w.poll presence).1.map fun watch => watch.1.components := by
  rw [isLost_eq, List.any_eq_true, List.mem_map]
  refine exists_congr fun watch => and_congr_right fun _ => ?_
  exact Path.sameKey_iff.trans eq_comm

/-- The lost entries have left, with their watches and for being deleted, and everything else about the
entries and the watches is as it was. -/
structure Polled (w : Watcher Unit) (presence : Path → Presence) (lost : List (Entry ι))
    (c c' : Cache ι) : Prop where
  perm : lost.Perm (c.entries.filter (isLost w presence))
  entries : c'.entries = c.entries.filter (!isLost w presence ·)
  weight : c'.weight + total lost = c.weight
  departures : c'.departures = c.departures ++ lost.map fun e => (e.handle.id, .deleted)
  invalidated : ∀ id, id ∈ c'.invalidated ↔ id ∈ c.invalidated ∨ id ∈ lost.map (·.handle.id)
  observer : c'.observer = some { w with
    table := w.table.filter fun watch => !lost.any (·.handle.path.sameKey watch.1) }

theorem Polled.of_frame {c'' : Cache ι} {lost : List (Entry ι)} (h : Polled w presence lost c c')
    (hf : Frame c' c'') : Polled w presence lost c c'' := by
  refine ⟨h.perm, hf.entries.trans h.entries, ?_, hf.departures.trans h.departures, fun id => ?_,
    hf.observer.trans h.observer⟩
  · rw [hf.weight, h.weight]
  · rw [hf.invalidated, h.invalidated]

theorem total_filter_add (lost : Entry ι → Bool) (es : List (Entry ι)) :
    total (es.filter (!lost ·)) + total (es.filter lost) = total es := by
  rw [Nat.add_comm, ← total_append]
  exact ((List.filter_append_perm lost es).map fun e : Entry ι => e.handle.size).sum_eq

section Fired

variable {lost : List (Entry ι)}

theorem Sound.lost_perm (hc : c.Sound) (hsubset : lost ⊆ c.entries)
    (hkeys : lost.map Entry.key = (w.poll presence).1.map fun watch => watch.1.components)
    (hapart : (lost.map Entry.key).Nodup) : lost.Perm (c.entries.filter (isLost w presence)) := by
  refine (List.perm_ext_iff_of_nodup hapart.of_map (hc.apart.of_map.filter _)).mpr fun e => ?_
  rw [List.mem_filter, isLost_iff, ← hkeys]
  constructor
  · exact fun he => ⟨hsubset he, List.mem_map_of_mem he⟩
  · rintro ⟨he, hmem⟩
    obtain ⟨e', he', hkey⟩ := List.mem_map.mp hmem
    exact hc.eq_of_key he (hsubset he') hkey ▸ he'

/-- The watches that go are those of the entries that go. -/
theorem table_poll_of_keys {blind : Bool} (horderly : w.Orderly blind)
    (hkeys : lost.map Entry.key = (w.poll presence).1.map fun watch => watch.1.components) :
    (w.poll presence).2 = { w with
      table := w.table.filter fun watch => !lost.any (·.handle.path.sameKey watch.1) } := by
  have hfires : ∀ watch ∈ w.table,
      (presence watch.1).isGone = lost.any (·.handle.path.sameKey watch.1) := by
    intro watch hwatch
    have hlost : lost.any (·.handle.path.sameKey watch.1) = true ↔
        watch.1.components ∈ lost.map Entry.key := by
      rw [List.any_eq_true, List.mem_map]
      exact exists_congr fun e => and_congr_right fun _ => Path.sameKey_iff
    rw [Bool.eq_iff_iff, hlost, hkeys, List.mem_map]
    constructor
    · exact fun hgone => ⟨watch, List.mem_filter.mpr ⟨hwatch, hgone⟩, rfl⟩
    · rintro ⟨fired, hfired, hkey⟩
      obtain ⟨hin, hgone⟩ := List.mem_filter.mp hfired
      exact List.inj_on_of_nodup_map horderly.apart hin hwatch hkey ▸ hgone
  have htable : w.table.filter (fun watch => !(presence watch.1).isGone)
      = w.table.filter fun watch => !lost.any (·.handle.path.sameKey watch.1) :=
    List.filter_congr fun watch hwatch => congrArg _ (hfires watch hwatch)
  unfold Watcher.poll
  rw [htable]

end Fired

/-- What a poll does to a cache that is in step with its watcher. -/
theorem Sound.polled (hc : c.Sound) {blind : Bool} {S : Handle ι → Prop} (hs : c.InStep blind S)
    (presence : Path → Presence) :
    ∃ w lost, c.observer = some w ∧ Polled w presence lost c (c.poll presence).2 ∧
      (c.poll presence).1 = lost.length := by
  obtain ⟨w, hw, horderly⟩ := hs.observed
  have hsublist : (w.poll presence).1.Sublist w.table := List.filter_sublist
  have hapart := horderly.apart.sublist (hsublist.map fun watch => watch.1.components)
  have hlive : ∀ watch ∈ (w.poll presence).1, c.contains watch.1 = true := fun watch hwatch =>
    hs.live watch.1 ⟨w, hw, Watcher.isWatching_iff.mpr
      ⟨watch, hsublist.subset hwatch, Path.sameKey_refl _⟩⟩
  have hnoted : ({ c with observer := some (w.poll presence).2 } : Cache ι).Sound :=
    ⟨hc.apart, hc.weight⟩
  obtain ⟨lost, hsubset, hkeys, hfolded⟩ := hnoted.removals_of_fired hapart hlive
  have hpoll : c.poll presence = ((w.poll presence).1.length,
      expelAll .deleted { c with observer := some (w.poll presence).2 } lost) := by
    unfold Cache.poll
    rw [hw, ← hfolded]
  have hperm : lost.Perm (c.entries.filter (isLost w presence)) :=
    hc.lost_perm hsubset hkeys (hkeys ▸ hapart)
  have hentries : (c.poll presence).2.entries = c.entries.filter (!isLost w presence ·) := by
    rw [entries_poll hw]
    exact List.filter_congr fun e _ => by rw [isLost_eq]
  refine ⟨w, lost, hw, ⟨hperm, hentries, ?_, ?_, ?_, ?_⟩, ?_⟩
  · have hpolled : (c.poll presence).2.Sound := (poll_moves (p := []) (n := 0) presence).sound hc
    have hweighed : total lost = total (c.entries.filter (isLost w presence)) :=
      (hperm.map fun e : Entry ι => e.handle.size).sum_eq
    rw [hpolled.weight, hentries, hc.weight, hweighed, total_filter_add]
  · rw [hpoll, expelAll_departures]
  · intro id
    rw [hpoll, mem_invalidated_expelAll]
  · rw [observer_poll hw, table_poll_of_keys horderly hkeys]
  · rw [hpoll, ← List.length_map Entry.key, hkeys, List.length_map]

/-! ## Where a watch looks -/

theorem mem_register {watch : Path × Unit} {presence : Presence} {path : Path}
    (h : watch ∈ (w.register presence path ()).2.table) :
    (∃ old ∈ w.table, old.1 = watch.1) ∨ presence = .ok () ∧ watch.1 = path := by
  unfold Watcher.register at h
  split at h
  · exact Or.inl ⟨watch, h, rfl⟩
  · split at h
    · exact Or.inl ⟨watch, h, rfl⟩
    · split at h
      · -- A watch that is there already keeps its spelling.
        obtain ⟨old, hold, rfl⟩ := List.mem_map.mp h
        refine Or.inl ⟨old, hold, ?_⟩
        split <;> rfl
      · refine (List.mem_append.mp h).imp (fun hold => ⟨watch, hold, rfl⟩) fun hnew => ⟨rfl, ?_⟩
        rw [List.mem_singleton.mp hnew]

section Seen

variable {env : Environment σ ι} {s : σ}

/-- There was something at every watched path once. -/
def WatchesSeen (env : Environment σ ι) (c : Cache ι) : Prop :=
  ∀ w, c.observer = some w → ∀ watch ∈ w.table, ∃ world, env.presence world watch.1 = .ok ()

theorem WatchesSeen.of_eq (h : c.WatchesSeen env) (hobserver : c'.observer = c.observer) :
    c'.WatchesSeen env := by
  rw [WatchesSeen, hobserver]
  exact h

theorem WatchesSeen.of_frame (h : c.WatchesSeen env) (hf : Frame c c') : c'.WatchesSeen env :=
  h.of_eq hf.observer

/-- Fewer watches than before have all been seen, too. -/
theorem WatchesSeen.of_subset (h : c.WatchesSeen env)
    (hsub : ∀ w', c'.observer = some w' → ∃ w, c.observer = some w ∧ w'.table ⊆ w.table) :
    c'.WatchesSeen env := by
  intro w' hw' watch hwatch
  obtain ⟨w, hw, hin⟩ := hsub w' hw'
  exact h w hw watch (hin hwatch)

theorem WatchesSeen.expel (h : c.WatchesSeen env) (reason : RemovalReason) (e : Entry ι) :
    (c.expel reason e).WatchesSeen env := by
  have hobserver := observer_expel c reason e
  split at hobserver
  · refine h.of_subset fun w' hw' => ?_
    obtain ⟨w, hw, rfl⟩ := Option.map_eq_some_iff.mp (hobserver.symm.trans hw')
    exact ⟨w, hw, List.filter_sublist.subset⟩
  · exact h.of_eq hobserver

theorem WatchesSeen.expelAll (h : c.WatchesSeen env) (reason : RemovalReason)
    (es : List (Entry ι)) : (c.expelAll reason es).WatchesSeen env := by
  induction es generalizing c with
  | nil => exact h
  | cons e rest ih => exact ih (h.expel reason e)

theorem WatchesSeen.remove (h : c.WatchesSeen env) (path : Path) (reason : RemovalReason) :
    (c.remove path reason).2.WatchesSeen env := by
  unfold Cache.remove
  split
  · exact h
  · exact h.expel reason _

theorem WatchesSeen.makeRoom (h : c.WatchesSeen env) (extra : Nat) :
    (c.makeRoom extra).WatchesSeen env := by
  obtain ⟨es, -, heq⟩ := c.makeRoom_eq extra
  rw [heq]
  exact h.expelAll .weight es

theorem WatchesSeen.sweep (h : c.WatchesSeen env) (now : Nat) :
    (c.sweep now).2.WatchesSeen env := by
  unfold Cache.sweep
  split
  · exact h
  · exact (h.expelAll .expired _).makeRoom 0

theorem WatchesSeen.shutdown (h : c.WatchesSeen env) : c.shutdown.WatchesSeen env := by
  unfold Cache.shutdown
  split
  · exact h
  · have hclosed : ({ c with isShutDown := true } : Cache ι).WatchesSeen env := h.of_eq rfl
    have hdrained : (Cache.expelAll .shutdown { c with isShutDown := true }
        c.entries).drainReleases.WatchesSeen env :=
      (hclosed.expelAll .shutdown c.entries).of_frame (frame_runReleases _ _)
    exact hdrained.of_eq rfl

theorem WatchesSeen.discard (h : c.WatchesSeen env) (handle : Handle ι) :
    (c.discard handle).WatchesSeen env :=
  h.of_eq (c.frame_discard handle).observer

theorem WatchesSeen.lookup (h : c.WatchesSeen env) (now : Nat) (path : Path) :
    (c.lookup now path).2.WatchesSeen env := by
  rcases c.lookup_cases path now with ⟨_, heq⟩ | ⟨e, _, _, heq⟩ | ⟨e, _, _, heq⟩
  · rw [heq]
    exact h
  · rw [heq]
    exact h.expel .expired e
  · rw [heq]
    exact h.of_eq rfl

theorem WatchesSeen.watch (h : c.WatchesSeen env) (s : σ) (path : Path) :
    (c.watch (env.presence s path) path).WatchesSeen env := by
  intro w' hw' watch hwatch
  obtain ⟨w, hw, rfl⟩ := Option.map_eq_some_iff.mp hw'
  rcases mem_register hwatch with ⟨old, hold, heq⟩ | ⟨hpresent, heq⟩
  · rw [← heq]
    exact h w hw old hold
  · rw [heq]
    exact ⟨s, hpresent⟩

theorem WatchesSeen.accept (h : c.WatchesSeen env) (handle : Handle ι) :
    (c.accept env handle s).2.WatchesSeen env := by
  rcases c.accept_cases env handle s with ⟨_, _, _, heq⟩ | ⟨_, _, heq⟩ | ⟨_, _, heq⟩
  · rw [heq]
    exact h.discard handle
  · rw [heq]
    exact h.discard handle
  · rw [heq]
    have hcleared : (clear env c handle s).WatchesSeen env :=
      ((h.watch s handle.path).remove handle.path .replaced).makeRoom handle.size
    exact hcleared.of_eq rfl

theorem WatchesSeen.put (h : c.WatchesSeen env) (path : Path) (index : ι) :
    (c.put env path index s).2.WatchesSeen env := by
  have hmade : ({ c with made := c.made + 1 } : Cache ι).WatchesSeen env := h.of_eq rfl
  rcases c.put_cases env path s index with ⟨_, heq⟩ | ⟨_, _, _, heq⟩ | ⟨_, _, heq⟩
  · rw [heq]
    exact hmade.discard _
  · rw [heq]
    exact hmade.discard _
  · rw [heq]
    exact hmade.accept _

theorem WatchesSeen.get (h : c.WatchesSeen env) (path : Path) :
    (c.get env path s).2.1.WatchesSeen env := by
  refine get_keeps env h (fun _ h => h.lookup (env.now s) path) (fun _ _ h => h.of_eq rfl) ?_
  intro c' index s' _ _ h
  have hmade : ({ c' with made := c'.made + 1 } : Cache ι).WatchesSeen env := h.of_eq rfl
  exact hmade.accept _

theorem WatchesSeen.poll (h : c.WatchesSeen env) (presence : Path → Presence) :
    (c.poll presence).2.WatchesSeen env := by
  refine poll_keeps presence (fun _ => h) (fun w hw => ?_) fun _ path h => h.remove path .deleted
  refine h.of_subset fun w' hw' => ⟨w, hw, ?_⟩
  obtain rfl := Option.some.inj hw'
  exact List.filter_sublist.subset

end Seen

/-! ## An entry that is put again unseen -/

/-- A path of which nothing can be seen is not watched. -/
theorem watch_of_error (cause : FileError) (path : Path) : c.watch (.error cause) path = c := by
  have hregister : ∀ w : Watcher Unit, (w.register (.error cause) path ()).2 = w := by
    intro w
    unfold Watcher.register
    split <;> rfl
  simp [watch, hregister]

theorem put_of_fits (env : Environment σ ι) {s : σ} {path : Path} (index : ι)
    (hopen : c.isShutDown = false) (hvalid : validateKey path = .ok ())
    (hfits : c.Fits (c.nextHandle env path index)) :
    c.put env path index s = (.ok (c.nextHandle env path index),
      (clear env { c with made := c.made + 1 } (c.nextHandle env path index) s).insert (env.now s)
        (c.nextHandle env path index)) := by
  rcases c.put_cases env path s index with ⟨hshut, _⟩ | ⟨_, _, hinvalid, _⟩ | ⟨_, _, heq⟩
  · rw [hopen] at hshut
    cases hshut
  · rw [hvalid] at hinvalid
    cases hinvalid
  rw [heq]
  rcases accept_cases env { c with made := c.made + 1 } (c.nextHandle env path index) s with
    ⟨budget, hbudget, hlarge, _⟩ | ⟨_, hshut, _⟩ | ⟨_, _, heq'⟩
  · exact absurd (hfits budget hbudget) (Nat.not_le.mpr hlarge)
  · rw [show c.isShutDown = true from hshut] at hopen
    cases hopen
  · exact heq'

/-- If the only entry is put once more in a spelling of which nothing can be seen, its watch stays. -/
theorem put_of_unseen (env : Environment σ ι) {s : σ} {path : Path} (index : ι) {cause : FileError}
    (hopen : c.isShutDown = false) (hbudget : c.config.weightBudget = none)
    (hentries : c.entries = [e]) (hw : c.observer = some w)
    (hsame : e.handle.path.sameKey path = true) (hvalid : validateKey path = .ok ())
    (hpresence : env.presence s path = .error cause) :
    (c.put env path index s).2.entries = [⟨c.nextHandle env path index, env.now s⟩] ∧
    (c.put env path index s).2.observer = some w := by
  have hfits : c.Fits (c.nextHandle env path index) := by
    intro budget hsome
    rw [hbudget] at hsome
    cases hsome
  have hfound : entry? { c with made := c.made + 1 } path = some e := by
    simp [Cache.entry?, hentries, hsame]
  have hclear : clear env { c with made := c.made + 1 } (c.nextHandle env path index) s
      = expel .replaced { c with made := c.made + 1 } e := by
    show makeRoom (remove (watch _ (env.presence s path) path) path .replaced).2 _ = _
    rw [hpresence, watch_of_error, remove, hfound]
    unfold makeRoom
    rw [expel_config, hbudget]
  rw [put_of_fits env index hopen hvalid hfits, hclear]
  constructor
  · simp [insert, hentries, Path.sameKey_refl]
  · exact (observer_expel _ .replaced e).trans hw

end Cache

namespace Service

variable {env : Environment σ ι} {s : Service σ ι}

/-! ## In every run -/

theorem watchesSeen_act (h : s.cache.WatchesSeen env) (action : Action σ ι) :
    (s.act env action).2.cache.WatchesSeen env := by
  have hperformed : (s.perform env action).2.cache.WatchesSeen env := by
    cases action with
    | get path =>
      have hgot := h.get (s := s.world) path
      simp only [perform, grant]
      split <;> exact hgot
    | put path index =>
      have hput := h.put (s := s.world) path index
      simp only [perform, grant]
      split <;> exact hput
    | query id vector k =>
      simp only [perform]
      split <;> exact h
    | invalidate path => exact h.remove path .explicit
    | sweep => exact h.sweep _
    | poll => exact h.poll _
    | shutdown => exact h.shutdown
    | release => exact h.of_frame (Cache.frame_runRelease _)
    | drain => exact h.of_frame (Cache.frame_runReleases _ _)
    | blind =>
      refine h.of_subset fun w' hw' => ?_
      obtain ⟨w, hw, rfl⟩ := Option.map_eq_some_iff.mp hw'
      exact ⟨w, hw, List.nil_subset _⟩
    | share _ | drop _ | lag _ | drift _ => exact h
  exact hperformed.of_frame (Cache.frame_settle _ _)

theorem watchesSeen_run (config : CacheConfig) (interval : Nat) (world : σ)
    (actions : List (Action σ ι)) :
    ((start config (some { interval }) world).run env actions).cache.WatchesSeen env := by
  refine run_induction (P := fun s => s.cache.WatchesSeen env)
    (fun _ action h => watchesSeen_act h action) actions fun w hw watch hwatch => ?_
  obtain rfl := Option.some.inj hw
  cases hwatch

/-- If there is something at every watched path, a poll changes nothing. -/
theorem act_poll_of_quiet {w : Watcher Unit} (hw : s.cache.observer = some w)
    (hquiet : ∀ watch ∈ w.table, (env.presence s.world watch.1).isGone = false)
    (hheld : ∀ id ∈ s.cache.orphans, id ∈ s.heldIds) : s.act env .poll = (.count 0, s) := by
  have hnone : w.poll (env.presence s.world) = ([], w) := by
    have hfired : w.table.filter (fun watch => (env.presence s.world watch.1).isGone) = [] :=
      List.filter_eq_nil_iff.mpr fun watch hwatch => by simp [hquiet watch hwatch]
    have hkept : w.table.filter (fun watch => !(env.presence s.world watch.1).isGone) = w.table :=
      List.filter_eq_self.mpr fun watch hwatch => by simp [hquiet watch hwatch]
    rw [Watcher.poll, hfired, hkept]
  have hpoll : s.cache.poll (env.presence s.world) = (0, s.cache) := by
    unfold Cache.poll
    simp only [hw, hnone, List.length_nil, List.foldl_nil]
    rw [← hw]
  have hperformed : s.perform env .poll = (.count 0, s) := by simp only [perform, hpoll]
  rw [act, hperformed]
  exact congrArg (Answer.count 0, ·) (settle_eq_self hheld)

/-- What is lost is what the files say. -/
theorem isLost_iff_of_sighted {files : σ → FileTree} {w : Watcher Unit} {e : Entry ι}
    (hsight : env.Sighted files) (hseen : s.cache.WatchesSeen env)
    (hw : s.cache.observer = some w) (hkey : Cache.validateKey e.handle.path = .ok ())
    (hshort : e.handle.path.text.utf8ByteSize < 4096) :
    Cache.isLost w (env.presence s.world) e = true ↔ w.isWatching e.handle.path = true ∧
      (files s.world).stat e.handle.path = .error .notFound := by
  obtain ⟨name, hname⟩ := Option.isSome_iff_exists.mp (Cache.validateKey_eq_ok_iff.mp hkey)
  have hnonempty : e.handle.path.text.isEmpty = false := by
    rw [Bool.eq_false_iff]
    intro hempty
    simp [Cache.validateKey, hempty] at hkey
  have hgone : ∀ watch ∈ w.table, watch.1.sameKey e.handle.path = true →
      ((env.presence s.world watch.1).isGone = true ↔
        (files s.world).stat e.handle.path = .error .notFound) := by
    intro watch hwatch hsame
    obtain ⟨world, hpresent⟩ := hseen w hw watch hwatch
    have hwatched := hsight.addressable hpresent
    have hpath : FileTree.Addressable e.handle.path :=
      ⟨Path.nul_of_sameKey hsame hwatched.nul, hnonempty, hshort⟩
    rw [hsight.isGone_iff]
    exact (FileTree.stat_notFound_of_sameKey hpath hwatched hname (Path.sameKey_comm hsame)).symm
  rw [Cache.isLost, List.any_eq_true, Watcher.isWatching_iff]
  simp only [Bool.and_eq_true]
  constructor
  · rintro ⟨watch, hwatch, hsame, hfires⟩
    exact ⟨⟨watch, hwatch, hsame⟩, (hgone watch hwatch hsame).mp hfires⟩
  · rintro ⟨⟨watch, hwatch, hsame⟩, hnothing⟩
    exact ⟨watch, hwatch, hsame, (hgone watch hwatch hsame).mpr hnothing⟩

/-! ## Every poll -/

/-- **A poll removes the entries whose files have been deleted.** In every state and for all that the
watched paths may look like by then, the entries that leave are the watched ones of which the watch
finds nothing. They leave for being deleted and with their watches; the other entries and watches stay
as they are. The answer is how many have left, and a poll right after it changes nothing. If the watcher
looks at files, an entry whose path has less than 4096 bytes is lost exactly if it is watched and its
own path leads to nothing, whichever spelling the watch has. -/
theorem poll_removes_deleted (env : Environment σ ι) (config : CacheConfig) (interval : Nat)
    (world : σ) (actions : List (Action σ ι)) :
    let s := (start config (some { interval }) world).run env actions
    let polled := (s.act env .poll).2
    ∃ w lost, s.cache.observer = some w ∧
      Cache.Polled w (env.presence s.world) lost s.cache polled.cache ∧
      (s.act env .poll).1 = .count lost.length ∧
      polled.act env .poll = (.count 0, polled) ∧
      ∀ files, env.Sighted files → ∀ e ∈ s.cache.entries,
        e.handle.path.text.utf8ByteSize < 4096 →
        (Cache.isLost w (env.presence s.world) e = true ↔ w.isWatching e.handle.path = true ∧
          (files s.world).stat e.handle.path = .error .notFound) := by
  intro s polled
  have htracked : Tracked env _ _ s :=
    (start_tracked config interval world).run (start_consistent config (some { interval }) world)
  have hsound : s.cache.Sound := run_sound env actions (start_sound config (some { interval }) world)
  obtain ⟨w, lost, hw, hpolled, hcount⟩ :=
    hsound.polled htracked.inStep (env.presence s.world)
  refine ⟨w, lost, hw, hpolled.of_frame (Cache.frame_settle _ _), ?_, ?_, ?_⟩
  · show Answer.count (s.cache.poll (env.presence s.world)).1 = .count lost.length
    rw [hcount]
  · have hobserver : polled.cache.observer = some (w.poll (env.presence s.world)).2 :=
      (Cache.frame_settle _ _).observer.trans (Cache.observer_poll hw _)
    refine act_poll_of_quiet hobserver (fun watch hwatch => ?_) fun id => held_of_orphan env .poll s
    have hthere := (List.mem_filter.mp hwatch).2
    rw [Bool.not_eq_true'] at hthere
    exact hthere
  · intro files hsight e he hshort
    have hkey := (dated_of_run env config (some { interval }) world actions).key e he
    exact isLost_iff_of_sighted hsight (watchesSeen_run config interval world actions) hw hkey hshort

/-- The working directory is the root, and in it are some empty files. -/
def drawer (names : List String) : World :=
  ({ workingDirectory := [], nodes := names.map fun name => ([name], .file []) }, {})

/-- Two indexes are put under the paths of files. One of the files is deleted, and its path is put
once more in another spelling. -/
def cleared : Service World FlatIndex :=
  (start {} (some { interval := 1 }) (drawer ["a", "b"])).run Host.environment
    [.put ⟨"a"⟩ default, .put ⟨"b"⟩ default, .drift (drawer ["a"]), .put ⟨"b//."⟩ default]

/-- The entry that was put last leaves, which the watch of its predecessor is for. -/
theorem poll_removes_deleted_of_cleared :
    (cleared.act Host.environment .poll).1 = .count 1 ∧
    (cleared.act Host.environment .poll).2.cache.entries.map (·.handle.id) = [0] ∧
    ((cleared.act Host.environment .poll).2.act Host.environment .poll).1 = .count 0 := by
  have hsight : Host.environment.Sighted Prod.fst := fun _ _ => rfl
  obtain ⟨w, lost, hw, hpolled, hcount, hagain, hfiles⟩ := poll_removes_deleted Host.environment {} 1
    (drawer ["a", "b"])
    [.put ⟨"a"⟩ default, .put ⟨"b"⟩ default, .drift (drawer ["a"]), .put ⟨"b//."⟩ default]
  rw [← cleared] at hw hpolled hcount hagain hfiles
  have hentries : cleared.cache.entries
      = [⟨⟨0, ⟨"a"⟩, 0, default⟩, 0⟩, ⟨⟨2, ⟨"b//."⟩, 0, default⟩, 0⟩] := rfl
  obtain rfl : { interval := 1, table := [(⟨"a"⟩, ()), (⟨"b"⟩, ())] } = w := Option.some.inj hw
  rw [hentries] at hfiles
  obtain ⟨hfirst, hsecond⟩ := List.forall_mem_cons.mp (hfiles Prod.fst hsight)
  have hstays := mt (hfirst (by decide)).mp fun hlost => nomatch hlost.2
  have hleaves := (List.forall_mem_singleton.mp hsecond (by decide)).mpr ⟨rfl, rfl⟩
  have hlength := hpolled.perm.length_eq
  have hleft := hpolled.entries
  rw [hentries, List.filter_cons_of_neg hstays, List.filter_cons_of_pos hleaves] at hlength
  rw [hentries, List.filter_cons_of_pos (by simpa using hstays),
    List.filter_cons_of_neg (by simpa using hleaves)] at hleft
  refine ⟨?_, ?_, congrArg Prod.fst hagain⟩
  · rw [hcount, hlength]
    rfl
  · rw [hleft]
    rfl

/-- The path of a file is put, and put once more in another spelling. Then the file is deleted. -/
def respelled (path : Path) : Service World FlatIndex :=
  (start {} (some { interval := 1 }) (drawer ["b"])).run Host.environment
    [.put ⟨"b"⟩ default, .put path default, .drift (drawer [])]

/-- A spelling that the system does not take is not watched, but it comes under the watch of the path,
which finds that the file is gone. -/
theorem respelled_of_unaddressed {path : Path} (hkey : (Path.mk "b").sameKey path = true)
    (hstat : ∀ files : FileTree, files.stat path = .error .nameTooLong) :
    (respelled path).cache.entries = [⟨⟨1, path, 0, default⟩, 0⟩] ∧
    ((respelled path).act Host.environment .poll).1 = .count 1 ∧
    ((respelled path).act Host.environment .poll).2.cache.entries = [] := by
  have hvalid : Cache.validateKey path = .ok () :=
    Cache.validateKey_of_sameKey (Path.sameKey_comm hkey) rfl
  have hpresence : Host.environment.presence (drawer ["b"]) path = .error .nameTooLong := by
    show (((drawer ["b"]).1.stat path).map fun _ => ()) = _
    rw [hstat]
    rfl
  have hframe : Cache.Frame (Cache.put Host.environment path default
      ((start {} (some { interval := 1 }) (drawer ["b"])).act Host.environment
        (.put ⟨"b"⟩ default)).2.cache (drawer ["b"])).2 (respelled path).cache :=
    (frame_act_put Host.environment path default _).trans (Cache.frame_settle _ _)
  obtain ⟨hentries, hobserver⟩ := Cache.put_of_unseen Host.environment
    (c := ((start {} (some { interval := 1 }) (drawer ["b"])).act Host.environment
      (.put ⟨"b"⟩ default)).2.cache) default rfl rfl rfl rfl hkey hvalid hpresence
  have hleft : (respelled path).cache.entries = [⟨⟨1, path, 0, default⟩, 0⟩] :=
    hframe.entries.trans hentries
  have hwatched : (respelled path).cache.observer
      = some { interval := 1, table := [(⟨"b"⟩, ())] } := hframe.observer.trans hobserver
  have hfired : (Watcher.poll { interval := 1, table := [(⟨"b"⟩, ())] }
      (Host.environment.presence (respelled path).world)).1 = [(⟨"b"⟩, ())] := rfl
  have hcount : ((respelled path).cache.poll
      (Host.environment.presence (respelled path).world)).1 = 1 := by
    unfold Cache.poll
    rw [hwatched]
    exact congrArg List.length hfired
  refine ⟨hleft, congrArg Answer.count hcount, (Cache.frame_settle _ _).entries.trans ?_⟩
  refine (Cache.entries_poll hwatched _).trans ?_
  rw [hfired, hleft]
  simp [Path.sameKey_comm hkey]

theorem sameKey_slashed (n : Nat) : (Path.mk "b").sameKey (.slashed "b" n) = true := by
  rw [Path.sameKey, Path.components_slashed rfl]
  decide +kernel

theorem stat_slashed (files : FileTree) {n : Nat} (hlong : 4096 ≤ n) :
    files.stat (.slashed "b" n) = .error .nameTooLong := by
  refine FileTree.stat_of_long (Path.nul_of_sameKey (sameKey_slashed n) (by decide))
    (Path.isEmpty_slashed rfl n) ?_
  rw [Path.utf8ByteSize_slashed]
  omega

/-- An entry whose path is too long for the system leaves as deleted, though a look at its path says
that the path is too long, and not that nothing is there. -/
theorem poll_removes_unaddressed :
    (respelled (.slashed "b" 4096)).cache.entries
      = [⟨⟨1, .slashed "b" 4096, 0, default⟩, 0⟩] ∧
    (respelled (.slashed "b" 4096)).world.1.stat (.slashed "b" 4096) = .error .nameTooLong ∧
    ((respelled (.slashed "b" 4096)).act Host.environment .poll).1 = .count 1 ∧
    ((respelled (.slashed "b" 4096)).act Host.environment .poll).2.cache.entries = [] := by
  have hlong : 4096 ≤ 4096 := Nat.le_refl _
  obtain ⟨hentries, hcount, hnone⟩ := respelled_of_unaddressed (sameKey_slashed 4096)
    fun files => stat_slashed files hlong
  exact ⟨hentries, stat_slashed _ hlong, hcount, hnone⟩

end Service

end Sidecar
