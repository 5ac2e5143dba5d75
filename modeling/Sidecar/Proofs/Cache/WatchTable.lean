import Sidecar.Proofs.Cache.Contents
import Sidecar.Proofs.Cache.Idle
import Sidecar.Proofs.Cache.Watched

/-!
# The table of watches and the entries

The watcher's table and the cache go in step (`Cache.InStep`): every watched path has a live entry, and
an entry is watched if its file was seen when it was let in. Between two operations this is so whatever
has happened, as long as the watcher runs. Inside of one it is not, and three things bring it about.

An entry that leaves takes the watches of its key with it, so expelling takes the same keys out of the
table as out of the entries (`watches_expelAll`, `contains_expelAll`). Two reasons are exceptions, and
both make up for it: a replaced entry leaves its watch to the entry that comes in its place, and for a
deleted one the watch has gone before it. There a fired watch must not leave another one of its key
behind, which is why the watches of a table have to be apart (`Watcher.Orderly`). And an admission
watches first: the watch is not dropped by the entries that leave for the new one, since they have other
keys (`Observed.clear`).

A watch that could not be had is not made up for later, so an entry whose file was not there when it was
let in may be unwatched for as long as it lives. It is watched if an entry of its key was.

Which handles were let in, and in which world, is the log of a run (`Service.admissions`). A handle that
is let in is new, so what is written about the entries before does not change (`Tracked.act`).
-/

set_option autoImplicit false

namespace Sidecar

namespace Watcher

variable {blind : Bool} {w : Watcher Unit} {path q : Path}

/-- The watcher is shut down or not; it watches no path twice, and none at all if it is shut down. -/
structure Orderly (blind : Bool) (w : Watcher Unit) : Prop where
  isShutDown : w.isShutDown = blind
  apart : (w.table.map fun watch => watch.1.components).Nodup
  dark : blind = true → w.table = []

theorem Orderly.not_watching (h : w.Orderly true) (q : Path) : w.isWatching q = false := by
  rw [isWatching, h.dark rfl]
  rfl

/-- Taking watches out leaves a watcher in order. -/
theorem Orderly.filter (h : w.Orderly blind) (keep : Path × Unit → Bool) :
    Orderly blind { w with table := w.table.filter keep } :=
  ⟨h.isShutDown, h.apart.sublist (List.filter_sublist.map _), fun hblind => by
    show w.table.filter keep = []
    rw [h.dark hblind]
    rfl⟩

theorem Orderly.unregister (h : w.Orderly blind) (path : Path) :
    (w.unregister path).Orderly blind :=
  h.filter _

theorem orderly_shutdown (w : Watcher Unit) : w.shutdown.Orderly true :=
  ⟨rfl, List.nodup_nil, fun _ => rfl⟩

/-- A watch that is there already is not changed, since all watches want the same. -/
theorem Orderly.register_eq (h : w.Orderly blind) (presence : Presence) (path : Path) :
    (w.register presence path ()).2 =
      if blind = false ∧ presence = .ok () ∧ w.isWatching path = false
      then { w with table := w.table ++ [(path, ())] } else w := by
  have hsame : (w.table.map fun watch =>
      if watch.1.sameKey path then (watch.1, ()) else watch) = w.table :=
    List.map_id'' (fun watch => by split <;> rfl) w.table
  unfold register
  rw [hsame]
  cases blind with
  | true => rw [if_pos h.isShutDown, if_neg (by simp)]
  | false =>
    rw [if_neg (by simp [h.isShutDown])]
    rcases presence with cause | ⟨⟩
    · simp
    · cases w.isWatching path <;> simp

theorem Orderly.isWatching_register (h : w.Orderly blind) (presence : Presence) :
    (w.register presence path ()).2.isWatching q = true ↔
      w.isWatching q = true ∨ blind = false ∧ presence = .ok () ∧ q.sameKey path = true := by
  rw [h.register_eq]
  by_cases hable : blind = false ∧ presence = .ok ()
  · by_cases hold : w.isWatching path = true
    · have hquiet : q.sameKey path = true → w.isWatching q = true := by
        intro hsame
        obtain ⟨watch, hwatch, hsame'⟩ := isWatching_iff.mp hold
        exact isWatching_iff.mpr ⟨watch, hwatch, Path.sameKey_trans hsame' (Path.sameKey_comm hsame)⟩
      simpa [hold, hable] using hquiet
    · rw [if_pos ⟨hable.1, hable.2, by simpa using hold⟩]
      simp [isWatching, hable, Path.sameKey_symm path q]
  · rw [if_neg fun hnew => hable ⟨hnew.1, hnew.2.1⟩]
    exact ⟨Or.inl, fun hwatched => hwatched.resolve_right fun hnew => hable ⟨hnew.1, hnew.2.1⟩⟩

theorem Orderly.register (h : w.Orderly blind) (presence : Presence) (path : Path) :
    (w.register presence path ()).2.Orderly blind := by
  rw [h.register_eq]
  split
  · next hnew =>
    obtain ⟨hrunning, -, hnone⟩ := hnew
    rw [isWatching, List.any_eq_false] at hnone
    refine ⟨h.isShutDown, ?_, fun hblind => absurd hblind (by simp [hrunning])⟩
    rw [List.map_append]
    refine (List.perm_append_singleton _ _).nodup_iff.mpr (List.nodup_cons.mpr ⟨?_, h.apart⟩)
    intro hmem
    obtain ⟨watch, hwatch, hkey⟩ := List.mem_map.mp hmem
    exact hnone watch hwatch (Path.sameKey_iff.mpr hkey)
  · exact h

/-- What is still watched after a poll: the paths for which no watch has fired. -/
theorem Orderly.isWatching_poll (h : w.Orderly blind) (presence : Path → Presence) :
    (w.poll presence).2.isWatching q = true ↔
      w.isWatching q = true ∧ (w.poll presence).1.any (q.sameKey ·.1) = false := by
  constructor
  · intro hwatching
    obtain ⟨watch, hwatch, hsame⟩ := isWatching_iff.mp hwatching
    obtain ⟨hin, hquiet⟩ := List.mem_filter.mp hwatch
    refine ⟨isWatching_iff.mpr ⟨watch, hin, hsame⟩, List.any_eq_false.mpr ?_⟩
    intro fired hfired hfiredSame
    obtain ⟨hfiredIn, hgone⟩ := List.mem_filter.mp hfired
    -- One watch stays and one of the same key has fired, but there are no two.
    have hboth := Path.sameKey_trans hsame hfiredSame
    rw [List.inj_on_of_nodup_map h.apart hin hfiredIn (Path.sameKey_iff.mp hboth), hgone] at hquiet
    cases hquiet
  · rintro ⟨hold, hquiet⟩
    exact isWatching_poll_of_quiet presence hold hquiet

theorem Orderly.poll (h : w.Orderly blind) (presence : Path → Presence) :
    (w.poll presence).2.Orderly blind :=
  h.filter _

end Watcher

namespace Cache

variable {σ ι : Type} {blind : Bool} {c c' : Cache ι} {path q : Path} {reason : RemovalReason}
  {S : Handle ι → Prop}

open Watcher

/-! ## What is watched, and what is live -/

/-- The watcher of the cache watches the path. -/
def Watches (c : Cache ι) (q : Path) : Prop := ∃ w, c.observer = some w ∧ w.isWatching q = true

/-- The cache has a watcher in good order, which is shut down or not. -/
def Observed (blind : Bool) (c : Cache ι) : Prop := ∃ w, c.observer = some w ∧ w.Orderly blind

theorem contains_iff : c.contains q = true ↔ ∃ e ∈ c.entries, e.handle.path.sameKey q = true := by
  simp [contains, entry?]

theorem watches_of_eq (h : c'.observer = c.observer) : c'.Watches q ↔ c.Watches q := by
  rw [Watches, Watches, h]

theorem watches_expel (c : Cache ι) (reason : RemovalReason) (e : Entry ι) :
    (c.expel reason e).Watches q ↔
      c.Watches q ∧ (reason.dropsWatch = true → q.sameKey e.handle.path = false) := by
  have hobserver := observer_expel c reason e
  cases hdrops : reason.dropsWatch with
  | true =>
    rw [hdrops, if_pos rfl] at hobserver
    unfold Watches
    rw [hobserver]
    cases c.observer with
    | none => simp
    | some w => simp [isWatching_unregister]
  | false =>
    rw [hdrops, if_neg Bool.false_ne_true] at hobserver
    simp [watches_of_eq hobserver]

theorem Observed.of_eq (h : c.Observed blind) (hobserver : c'.observer = c.observer) : c'.Observed blind := by
  obtain ⟨w, hw, hw'⟩ := h
  exact ⟨w, hobserver.trans hw, hw'⟩

theorem Observed.expel (h : c.Observed blind) (reason : RemovalReason) (e : Entry ι) :
    (c.expel reason e).Observed blind := by
  obtain ⟨w, hw, hw'⟩ := h
  have hobserver := observer_expel c reason e
  split at hobserver
  · exact ⟨_, by rw [hobserver, hw, Option.map_some], hw'.unregister _⟩
  · exact ⟨w, hobserver.trans hw, hw'⟩

theorem mem_expelAll {es : List (Entry ι)} {e : Entry ι} : e ∈ (c.expelAll reason es).entries ↔
    e ∈ c.entries ∧ ∀ e' ∈ es, e.handle.path.sameKey e'.handle.path = false := by
  rw [entries_expelAll, List.mem_filter, decide_eq_true_iff]
  refine and_congr_right fun _ => ?_
  simp only [List.mem_map, not_exists, not_and, ← Bool.not_eq_true, Entry.sameKey_iff]
  exact ⟨fun h e' he' hkey => h e' he' hkey.symm, fun h e' he' hkey => h e' he' hkey.symm⟩

theorem contains_expelAll {es : List (Entry ι)} : (c.expelAll reason es).contains q = true ↔
    c.contains q = true ∧ ∀ e ∈ es, q.sameKey e.handle.path = false := by
  simp only [contains_iff, mem_expelAll]
  constructor
  · rintro ⟨e, ⟨he, hothers⟩, hsame⟩
    exact ⟨⟨e, he, hsame⟩, fun e' he' => Path.sameKey_congr hsame _ ▸ hothers e' he'⟩
  · rintro ⟨⟨e, he, hsame⟩, hothers⟩
    exact ⟨e, ⟨he, fun e' he' => (Path.sameKey_congr hsame _).trans (hothers e' he')⟩, hsame⟩

theorem watches_expelAll (hdrops : reason.dropsWatch = true) (es : List (Entry ι)) :
    (c.expelAll reason es).Watches q ↔
      c.Watches q ∧ ∀ e ∈ es, q.sameKey e.handle.path = false := by
  induction es generalizing c with
  | nil => simp [expelAll]
  | cons e rest ih =>
    rw [expelAll, List.foldl_cons, ← expelAll, ih, watches_expel, and_assoc]
    simp [hdrops]

theorem Observed.expelAll (h : c.Observed blind) (reason : RemovalReason) (es : List (Entry ι)) :
    (c.expelAll reason es).Observed blind := by
  induction es generalizing c with
  | nil => exact h
  | cons e rest ih => exact ih (h.expel reason e)

/-! ## In step -/

/-- The watched paths are live, and the entries with one of the handles are watched, unless the
watcher is shut down. -/
structure InStep (blind : Bool) (S : Handle ι → Prop) (c : Cache ι) : Prop where
  observed : c.Observed blind
  live : ∀ q, c.Watches q → c.contains q = true
  seen : blind = false → ∀ e ∈ c.entries, S e.handle → c.Watches e.handle.path

theorem InStep.mono (h : c.InStep blind S) (hobserver : c'.observer = c.observer)
    (hkeys : ∀ q, c.contains q = true → c'.contains q = true)
    (hentries : ∀ e ∈ c'.entries, ∃ e' ∈ c.entries, e'.handle = e.handle) : c'.InStep blind S := by
  refine ⟨?_, ?_, ?_⟩
  · exact h.observed.of_eq hobserver
  · intro q hq
    exact hkeys q (h.live q ((watches_of_eq hobserver).mp hq))
  · intro hrunning e he hseen
    obtain ⟨e', he', heq⟩ := hentries e he
    rw [watches_of_eq hobserver, ← heq]
    exact h.seen hrunning e' he' (heq ▸ hseen)

theorem InStep.of_eq (h : c.InStep blind S) (hobserver : c'.observer = c.observer)
    (hentries : c'.entries = c.entries) : c'.InStep blind S := by
  refine h.mono hobserver (fun q => ?_) (fun e he => ⟨e, hentries ▸ he, rfl⟩)
  rw [contains_iff, contains_iff, hentries]
  exact id

theorem InStep.of_frame (h : c.InStep blind S) (hf : Frame c c') : c'.InStep blind S :=
  h.of_eq hf.observer hf.entries

/-- Entries that leave take their watches with them, and no others. -/
theorem InStep.expelAll (h : c.InStep blind S) (hdrops : reason.dropsWatch = true)
    (es : List (Entry ι)) : (c.expelAll reason es).InStep blind S := by
  refine ⟨h.observed.expelAll reason es, ?_, ?_⟩
  · intro q hq
    rw [watches_expelAll hdrops] at hq
    exact contains_expelAll.mpr ⟨h.live q hq.1, hq.2⟩
  · intro hrunning e he hseen
    obtain ⟨hin, hothers⟩ := mem_expelAll.mp he
    exact (watches_expelAll hdrops es).mpr ⟨h.seen hrunning e hin hseen, hothers⟩

theorem InStep.remove (h : c.InStep blind S) (hdrops : reason.dropsWatch = true) (path : Path) :
    (c.remove path reason).2.InStep blind S := by
  unfold Cache.remove
  split
  · exact h
  · next e _ => exact h.expelAll hdrops [e]

/-- Making room is expelling some of the entries. -/
theorem makeRoom_eq (c : Cache ι) (extra : Nat) :
    ∃ es ⊆ c.entries, c.makeRoom extra = c.expelAll .weight es := by
  unfold Cache.makeRoom
  split
  · exact ⟨[], List.nil_subset _, rfl⟩
  · exact ⟨_, (victims_initial _ _ _).subset, rfl⟩

theorem InStep.makeRoom (h : c.InStep blind S) (extra : Nat) : (c.makeRoom extra).InStep blind S := by
  obtain ⟨es, -, heq⟩ := c.makeRoom_eq extra
  rw [heq]
  exact h.expelAll rfl es

theorem InStep.sweep (h : c.InStep blind S) (now : Nat) : (c.sweep now).2.InStep blind S := by
  unfold Cache.sweep
  split
  · exact h
  · exact (h.expelAll rfl _).makeRoom 0

theorem InStep.shutdown (h : c.InStep blind S) : c.shutdown.InStep blind S := by
  unfold Cache.shutdown
  split
  · exact h
  · have hclosed : ({ c with isShutDown := true } : Cache ι).InStep blind S := h.of_eq rfl rfl
    have hdrained : (Cache.expelAll .shutdown { c with isShutDown := true }
        c.entries).drainReleases.InStep blind S :=
      (hclosed.expelAll rfl c.entries).of_frame (frame_runReleases _ _)
    exact hdrained.of_eq rfl rfl

theorem InStep.discard (h : c.InStep blind S) (handle : Handle ι) : (c.discard handle).InStep blind S := by
  have hmarked : (c.markInvalidated handle.id).InStep blind S := h.of_eq rfl rfl
  exact hmarked.of_frame (c.frame_discard handle)

theorem InStep.lookup (h : c.InStep blind S) (now : Nat) (path : Path) :
    (c.lookup now path).2.InStep blind S := by
  rcases c.lookup_cases path now with ⟨_, heq⟩ | ⟨e, _, _, heq⟩ | ⟨e, hfound, _, heq⟩
  · rw [heq]
    exact h
  · rw [heq]
    exact h.expelAll rfl [e]
  · rw [heq]
    refine h.mono rfl (fun q hq => ?_) (fun e' he' => ?_)
    · obtain ⟨e', he', hsame⟩ := contains_iff.mp hq
      refine contains_iff.mpr ?_
      by_cases hkey : e'.handle.path.sameKey e.handle.path = true
      · refine ⟨{ e with lastAccess := now }, List.mem_append_right _ (List.mem_singleton_self _), ?_⟩
        exact Path.sameKey_trans (Path.sameKey_comm hkey) hsame
      · exact ⟨e', List.mem_append_left _ (List.mem_filter.mpr ⟨he', by simpa using hkey⟩), hsame⟩
    · rw [touch_entries, List.mem_append, List.mem_singleton] at he'
      rcases he' with he' | rfl
      · exact ⟨e', (List.mem_filter.mp he').1, rfl⟩
      · exact ⟨e, mem_of_found hfound, rfl⟩

/-! ## Entries that come -/

theorem Observed.watch (h : c.Observed blind) (presence : Presence) (path : Path) :
    (c.watch presence path).Observed blind := by
  obtain ⟨w, hw, hw'⟩ := h
  exact ⟨_, by rw [Cache.watch, hw, Option.map_some], hw'.register presence path⟩

theorem Observed.watches_watch (h : c.Observed blind) (presence : Presence) :
    (c.watch presence path).Watches q ↔
      c.Watches q ∨ blind = false ∧ presence = .ok () ∧ q.sameKey path = true := by
  obtain ⟨w, hw, hw'⟩ := h
  unfold Watches Cache.watch
  rw [hw]
  simpa using hw'.isWatching_register presence

variable (env : Environment σ ι) (s : σ)

/-- What is left when everything has left for a new handle: the entry of its key, which leaves its
watch behind, and some of the others (`es`), which do not. -/
theorem Observed.clear (h : c.Observed blind) (handle : Handle ι) :
    ∃ es ⊆ besides handle.path c.entries, (clear env c handle s).Observed blind ∧
      (∀ q, (clear env c handle s).Watches q ↔
        (c.Watches q ∨
          blind = false ∧ env.presence s handle.path = .ok () ∧ q.sameKey handle.path = true) ∧
          ∀ e ∈ es, q.sameKey e.handle.path = false) ∧
      ∀ e, e ∈ (clear env c handle s).entries ↔
        e ∈ besides handle.path c.entries ∧
          ∀ e' ∈ es, e.handle.path.sameKey e'.handle.path = false := by
  have hobserver := observer_remove (c.watch (env.presence s handle.path) handle.path) handle.path
    (show RemovalReason.dropsWatch .replaced = false from rfl)
  have hentries : ((c.watch (env.presence s handle.path) handle.path).remove handle.path
      .replaced).2.entries = besides handle.path c.entries :=
    entries_remove (c.watch (env.presence s handle.path) handle.path) handle.path .replaced
  have hobserved := (h.watch (env.presence s handle.path) handle.path).of_eq hobserver
  have hwatches := fun q => (watches_of_eq (q := q) hobserver).trans
    (h.watches_watch (env.presence s handle.path))
  unfold Cache.clear
  generalize ((c.watch (env.presence s handle.path) handle.path).remove handle.path .replaced).2
    = removed at hentries hobserved hwatches
  obtain ⟨es, hes, heq⟩ := removed.makeRoom_eq handle.size
  rw [heq, ← hentries]
  refine ⟨es, hes, hobserved.expelAll .weight es, fun q => ?_, fun e => mem_expelAll⟩
  rw [watches_expelAll rfl, hwatches]

/-- A new entry is watched if its file is there. If it is not, a watch that served the entry of the
same key before serves the new one. -/
theorem InStep.accept (h : c.InStep blind S) {handle : Handle ι}
    (hnew : S handle → env.presence s handle.path = .ok ()) :
    (c.accept env handle s).2.InStep blind S := by
  rcases c.accept_cases env handle s with ⟨_, _, _, heq⟩ | ⟨_, _, heq⟩ | ⟨_, _, heq⟩
  · rw [heq]
    exact h.discard handle
  · rw [heq]
    exact h.discard handle
  rw [heq]
  obtain ⟨es, hes, hobserved, hwatches, hentries⟩ := h.observed.clear env s handle
  have hothers : ∀ e ∈ es, handle.path.sameKey e.handle.path = false := fun e he => by
    rw [Path.sameKey_symm]
    exact (mem_besides.mp (hes he)).2
  refine ⟨hobserved, ?_, ?_⟩
  · -- A watch under another key than the new one is old, and so it has its entry.
    intro q hq
    rw [contains_iff]
    by_cases hkey : q.sameKey handle.path = true
    · exact ⟨_, List.mem_append_right _ (List.mem_singleton_self _), Path.sameKey_comm hkey⟩
    · obtain ⟨hold, hstays⟩ := (hwatches q).mp hq
      have hlive := h.live q (hold.resolve_right fun hpresent => hkey hpresent.2.2)
      obtain ⟨e, he, hsame⟩ := contains_iff.mp hlive
      refine ⟨e, List.mem_append_left _ ((hentries e).mpr ⟨mem_besides.mpr ⟨he, ?_⟩, ?_⟩), hsame⟩
      · rw [Path.sameKey_congr hsame]
        simpa using hkey
      · exact fun e' he' => (Path.sameKey_congr hsame _).trans (hstays e' he')
  · intro hrunning e he hseen
    refine (hwatches e.handle.path).mpr ?_
    rcases List.mem_append.mp he with he | he
    · obtain ⟨hold, hstays⟩ := (hentries e).mp he
      exact ⟨Or.inl (h.seen hrunning e (mem_besides.mp hold).1 hseen), hstays⟩
    · obtain rfl := List.mem_singleton.mp he
      exact ⟨Or.inr ⟨hrunning, hnew hseen, Path.sameKey_refl _⟩, hothers⟩

theorem InStep.put (h : c.InStep blind S) (path : Path) (index : ι)
    (hnew : S (c.nextHandle env path index) → env.presence s path = .ok ()) :
    (c.put env path index s).2.InStep blind S := by
  have hmade : ({ c with made := c.made + 1 } : Cache ι).InStep blind S := h.of_eq rfl rfl
  rcases c.put_cases env path s index with ⟨_, heq⟩ | ⟨_, e, _, heq⟩ | ⟨_, _, heq⟩
  · rw [heq]
    exact hmade.discard _
  · rw [heq]
    exact hmade.discard _
  · rw [heq]
    exact hmade.accept env s hnew

theorem InStep.get (h : c.InStep blind S) (path : Path)
    (hnew : ∀ index s', env.load path s = (.ok index, s') →
      S (c.nextHandle env path index) → env.presence s' path = .ok ()) :
    (c.get env path s).2.1.InStep blind S := by
  refine get_keeps env h (fun _ h => h.lookup (env.now s) path) (fun _ _ h => h.of_eq rfl rfl) ?_
  intro c' index s' hmade hok h
  have hcounted : ({ c' with made := c'.made + 1 } : Cache ι).InStep blind S := h.of_eq rfl rfl
  refine hcounted.accept env s' fun hseen => ?_
  rw [nextHandle_congr env hmade] at hseen
  exact hnew index s' hok hseen

/-! ## Watches that fire -/

theorem InStep.poll (h : c.InStep blind S) (presence : Path → Presence) :
    (c.poll presence).2.InStep blind S := by
  obtain ⟨w, hw, hw'⟩ := h.observed
  have hobserver := observer_poll hw presence
  have hwatches : ∀ q, (c.poll presence).2.Watches q ↔
      c.Watches q ∧ (w.poll presence).1.any (q.sameKey ·.1) = false := by
    intro q
    unfold Watches
    rw [hobserver, hw]
    simpa using hw'.isWatching_poll presence
  have hentries := entries_poll hw presence
  refine ⟨⟨_, hobserver, hw'.poll presence⟩, ?_, ?_⟩
  · -- Of a path that is still watched no watch has fired, so its entry is still there.
    intro q hq
    obtain ⟨hold, hquiet⟩ := (hwatches q).mp hq
    obtain ⟨e, he, hsame⟩ := contains_iff.mp (h.live q hold)
    refine contains_iff.mpr ⟨e, ?_, hsame⟩
    rw [hentries, List.mem_filter]
    refine ⟨he, ?_⟩
    simp only [Path.sameKey_congr hsame, hquiet, Bool.not_false]
  · intro hrunning e he hseen
    rw [hentries, List.mem_filter, Bool.not_eq_true'] at he
    exact (hwatches _).mpr ⟨h.seen hrunning e he.1 hseen, he.2⟩

/-! ## What a request answers with -/

variable {P : Handle ι → Prop} {handle : Handle ι} {s' : σ}

theorem Each.of_lookup {now : Nat} (hc : c.Each P) (hl : c.lookup now path = (some handle, c')) :
    P handle := by
  have heach := hc.lookup now path
  rw [hl] at heach
  obtain ⟨e, hfound, rfl⟩ := Option.map_eq_some_iff.mp (live_of_lookup hl)
  exact heach e (mem_of_found hfound)

/-- The handle in the answer is one of the entries, or it has just been made for the index that was
loaded. -/
theorem Each.or_loaded_of_loadAndInsert (hc : c.Each P)
    (hload : c.loadAndInsert env path s = (.ok handle, c', s')) :
    P handle ∨ ∃ index, env.load path s = (.ok index, s') ∧ handle = c.nextHandle env path index := by
  have hmade := (alike_lookup c (env.now s) path).made
  unfold Cache.loadAndInsert at hload
  rcases hl : c.lookup (env.now s) path with ⟨_ | found, c₁⟩
  · rw [hl] at hmade
    simp only [hl] at hload
    rcases c₁.fetch_cases env path s with ⟨_, heq⟩ | ⟨_, e, s₁, _, heq⟩ | ⟨_, index, s₁, hok, heq⟩
    · simp only [heq] at hload
      exact absurd hload nofun
    · simp only [heq] at hload
      exact absurd hload nofun
    · simp only [heq, Prod.mk.injEq] at hload
      obtain ⟨haccept, rfl, rfl⟩ := hload
      refine Or.inr ⟨index, hok, ?_⟩
      rw [← (live_of_accept env (Prod.ext haccept rfl)).1, nextHandle_congr env hmade]
  · simp only [hl, Prod.mk.injEq, Except.ok.injEq] at hload
    obtain ⟨rfl, -, -⟩ := hload
    exact Or.inl (hc.of_lookup hl)

theorem Each.or_loaded_of_get (hc : c.Each P) (hget : c.get env path s = (.ok handle, c', s')) :
    P handle ∨ ∃ index, env.load path s = (.ok index, s') ∧ handle = c.nextHandle env path index := by
  have hlookup := hc.lookup (env.now s) path
  have hmade := (alike_lookup c (env.now s) path).made
  rcases c.get_cases env path s with ⟨_, heq⟩ | ⟨_, e, _, heq⟩ | ⟨_, _, found, c₁, hl, heq⟩ |
    ⟨_, _, c₁, hl, heq⟩
  · rw [heq] at hget
    exact absurd hget nofun
  · rw [heq] at hget
    exact absurd hget nofun
  · rw [heq, Prod.mk.injEq, Except.ok.injEq] at hget
    rw [← hget.1]
    exact Or.inl (hc.of_lookup hl)
  · rw [hl] at hlookup hmade
    have hcounted : ({ c₁ with tally := { c₁.tally with misses := c₁.tally.misses + 1 } } :
        Cache ι).Each P := hlookup
    rw [heq] at hget
    refine (hcounted.or_loaded_of_loadAndInsert env s hget).imp_right ?_
    rintro ⟨index, hok, hnext⟩
    exact ⟨index, hok, hnext.trans (nextHandle_congr env hmade path index)⟩

theorem made_of_put {index : ι} (hput : c.put env path index s = (.ok handle, c')) :
    handle = c.nextHandle env path index := by
  rcases c.put_cases env path s index with ⟨_, heq⟩ | ⟨_, e, _, heq⟩ | ⟨_, _, heq⟩
  · rw [heq] at hput
    exact absurd hput nofun
  · rw [heq] at hput
    exact absurd hput nofun
  · rw [heq] at hput
    exact (live_of_accept env hput).1.symm

end Cache

/-- A world that is a list of files, in which time stands still. Every path has an index. -/
def Environment.shelf : Environment (List Path) Nat where
  now _ := 0
  presence files path := if files.any (·.sameKey path) then .ok () else .error .notFound
  load _ files := (.ok 2, files)
  query _ _ _ files := (.ok [], files)
  size index := index

/-- Whether the action shuts the watcher down. -/
def Action.isBlind {σ ι : Type} : Action σ ι → Bool
  | blind => true
  | _ => false

namespace Service

variable {σ ι : Type} {env : Environment σ ι} {action : Action σ ι} {s : Service σ ι}
  {blind : Bool} {S : Handle ι → Prop} {h : Handle ι}

/-! ## Who was let in -/

/-- The handle that an action lets in: one that it answers with and that was not there before. With
it comes the world in which it was let in. -/
def admission? (env : Environment σ ι) (action : Action σ ι) (s : Service σ ι) :
    Option (Handle ι × σ) :=
  ((s.access? env action).filter (s.cache.made ≤ ·.2.id)).map fun access =>
    (access.2, (s.act env action).2.world)

/-- Every handle that a run lets in. -/
def admissions (env : Environment σ ι) : List (Action σ ι) → Service σ ι → List (Handle ι × σ)
  | [], _ => []
  | action :: rest, s =>
    (s.admission? env action).toList ++ admissions env rest (s.act env action).2

theorem admission?_eq_some {world : σ} : s.admission? env action = some (h, world) ↔
    ∃ path, s.access? env action = some (path, h) ∧ s.cache.made ≤ h.id ∧
      (s.act env action).2.world = world := by
  simp only [admission?, Option.map_eq_some_iff, Option.filter_eq_some_iff, Prod.exists,
    decide_eq_true_iff, Prod.mk.injEq]
  constructor
  · rintro ⟨path, h, ⟨haccess, hnew⟩, rfl, hworld⟩
    exact ⟨path, haccess, hnew, hworld⟩
  · rintro ⟨path, haccess, hnew, hworld⟩
    exact ⟨path, h, ⟨haccess, hnew⟩, rfl, hworld⟩

/-- A handle that is not new was there before. -/
theorem live_or_new_of_access {path : Path} (haccess : s.access? env action = some (path, h)) :
    (∃ e ∈ s.cache.entries, e.handle = h) ∨ s.cache.made = h.id := by
  obtain ⟨hpath, hanswer⟩ := answer_of_access haccess
  have hlive : s.cache.Each fun h => ∃ e ∈ s.cache.entries, e.handle = h :=
    fun e he => ⟨e, he, rfl⟩
  cases action with
  | get path' =>
    rcases hget : s.cache.get env path' s.world with ⟨result, c', s'⟩
    simp only [act, perform, hget, Answer.handle.injEq] at hanswer
    rw [hanswer] at hget
    refine (hlive.or_loaded_of_get env s.world hget).imp_right ?_
    rintro ⟨index, -, rfl⟩
    rfl
  | put path' index =>
    rcases hput : s.cache.put env path' index s.world with ⟨result, c'⟩
    simp only [act, perform, hput, Answer.handle.injEq] at hanswer
    rw [hanswer] at hput
    rw [Cache.made_of_put env s.world hput]
    exact Or.inr rfl
  | query _ _ _ | invalidate _ | sweep | poll | shutdown | share _ | drop _ | release | drain
  | lag _ | blind | drift _ => cases hpath

theorem Consistent.lt_made {n : Nat} (hs : s.Consistent n) :
    s.cache.Each (·.id < s.cache.made) := by
  intro e he
  refine List.mem_range.mp (hs.ledger.placed.mem_iff.mp ?_)
  exact List.mem_append_left _ (List.mem_append_left _ (List.mem_map.mpr ⟨e, he, rfl⟩))

/-- A new handle that `get` answers with was made for a load, and the world is the one that the load
has left. -/
theorem world_of_new {path : Path} (hids : s.cache.Each (·.id < s.cache.made))
    (hanswer : (s.act env (.get path)).1 = .handle (.ok h)) (hnew : s.cache.made ≤ h.id) :
    (s.act env (.get path)).2.world = (env.load path s.world).2 := by
  rcases hget : s.cache.get env path s.world with ⟨result, c', s'⟩
  simp only [act, perform, hget, Answer.handle.injEq] at hanswer ⊢
  rw [hanswer] at hget ⊢
  rcases hids.or_loaded_of_get env s.world hget with hold | ⟨index, hload, -⟩
  · exact absurd hold (Nat.not_lt.mpr hnew)
  · rw [hload]
    rfl

theorem world_of_put (env : Environment σ ι) (s : Service σ ι) (path : Path) (index : ι) :
    (s.act env (.put path index)).2.world = s.world := by
  rcases hput : s.cache.put env path index s.world with ⟨_ | _, c'⟩ <;>
    simp only [act, perform, hput, grant, settle]

/-! ## What an action keeps in step -/

/-- An action keeps the table and the entries in step, if of the handles that have to be watched only
the one is new that is let in, and its file is there. -/
theorem inStep_perform (hs : s.cache.InStep blind S) (hids : s.cache.Each (·.id < s.cache.made))
    (hnew : ∀ h, S h → s.cache.made ≤ h.id → (s.act env action).1 = .handle (.ok h) ∧
      env.presence (s.act env action).2.world h.path = .ok ()) :
    (s.perform env action).2.cache.InStep (action.isBlind || blind) S := by
  cases action with
  | get path =>
    have hget := hs.get env s.world path fun index s' hok hseen => by
      obtain ⟨hanswer, hpresent⟩ := hnew _ hseen (Nat.le_refl _)
      rw [world_of_new hids hanswer (Nat.le_refl _), hok] at hpresent
      exact hpresent
    simp only [perform, grant]
    split <;> exact hget
  | put path index =>
    have hput := hs.put env s.world path index fun hseen => by
      obtain ⟨-, hpresent⟩ := hnew _ hseen (Nat.le_refl _)
      rw [world_of_put] at hpresent
      exact hpresent
    simp only [perform, grant]
    split <;> exact hput
  | query id vector k =>
    simp only [perform]
    split <;> exact hs
  | invalidate path => exact hs.remove rfl path
  | sweep => exact hs.sweep (env.now s.world)
  | poll => exact hs.poll (env.presence s.world)
  | shutdown => exact hs.shutdown
  | share id => exact hs
  | drop id => exact hs
  | release => exact hs.of_frame (Cache.frame_runRelease _)
  | drain => exact hs.of_frame (Cache.frame_runReleases _ _)
  | lag lags => exact hs.of_eq rfl rfl
  | blind =>
    obtain ⟨w, hw, -⟩ := hs.observed
    have hdark : ({ s.cache with observer := s.cache.observer.map (·.shutdown) } :
        Cache ι).observer = some w.shutdown := by rw [hw, Option.map_some]
    refine ⟨⟨w.shutdown, hdark, w.orderly_shutdown⟩, ?_, fun hrunning => by cases hrunning⟩
    rintro q ⟨w', hw', hq⟩
    obtain rfl := Option.some.inj (hdark.symm.trans hw')
    rw [w.orderly_shutdown.not_watching q] at hq
    cases hq
  | drift world => exact hs

/-! ## What a run keeps in step -/

/-- The handle was let in while its file was there. -/
def LetInSeen (env : Environment σ ι) (log : List (Handle ι × σ)) (h : Handle ι) : Prop :=
  ∃ world, (h, world) ∈ log ∧ env.presence world h.path = .ok ()

/-- The table and the entries are in step, and the log tells when every entry was let in. -/
structure Tracked (env : Environment σ ι) (blind : Bool) (log : List (Handle ι × σ))
    (s : Service σ ι) : Prop where
  inStep : s.cache.InStep blind (LetInSeen env log)
  admitted : ∀ e ∈ s.cache.entries, ∃ world, (e.handle, world) ∈ log
  numbered : ∀ admission ∈ log, admission.1.id < s.cache.made

variable {log : List (Handle ι × σ)} {n : Nat}

/-- For the entries that are there already it makes no difference who is let in next. -/
theorem Tracked.inStep_concat (hs : Tracked env blind log s)
    (hids : s.cache.Each (·.id < s.cache.made)) (action : Action σ ι) :
    s.cache.InStep blind (LetInSeen env (log ++ (s.admission? env action).toList)) := by
  refine ⟨hs.inStep.observed, hs.inStep.live, fun hrunning e he hseen => ?_⟩
  obtain ⟨world, hworld, hpresent⟩ := hseen
  refine hs.inStep.seen hrunning e he ⟨world, ?_, hpresent⟩
  refine (List.mem_append.mp hworld).resolve_right fun hnew => ?_
  obtain ⟨-, -, hnew, -⟩ := admission?_eq_some.mp (Option.mem_toList.mp hnew)
  exact absurd (hids e he) (Nat.not_lt.mpr hnew)

/-- An entry that was not there before is let in by the action. -/
theorem Tracked.admitted_act (hs : Tracked env blind log s) (hsound : s.cache.Sound)
    (action : Action σ ι) : ∀ e ∈ (s.act env action).2.cache.entries,
      ∃ world, (e.handle, world) ∈ log ++ (s.admission? env action).toList := by
  have hkept : ∀ e ∈ s.cache.entries,
      ∃ world, (e.handle, world) ∈ log ++ (s.admission? env action).toList := by
    intro e he
    obtain ⟨world, hworld⟩ := hs.admitted e he
    exact ⟨world, List.mem_append_left _ hworld⟩
  intro e he
  rcases haccess : s.access? env action with _ | ⟨path, h⟩
  · exact hkept e ((sublist_of_no_access hsound haccess).subset he)
  · obtain ⟨-, kept, hsub, hentries⟩ := renewed_of_access hsound haccess
    rw [hentries, List.mem_append, List.mem_singleton] at he
    rcases he with he | rfl
    · exact hkept e (Cache.mem_besides.mp (hsub.subset he)).1
    · rcases live_or_new_of_access haccess with ⟨e, he, rfl⟩ | hnew
      · exact hkept e he
      · have hadmitted := admission?_eq_some.mpr ⟨path, haccess, Nat.le_of_eq hnew, rfl⟩
        exact ⟨_, List.mem_append_right _ (Option.mem_toList.mpr hadmitted)⟩

theorem Consistent.lt_made_of_admission {world : σ} (hc : s.Consistent n)
    (hadmitted : s.admission? env action = some (h, world)) :
    h.id < (s.act env action).2.cache.made := by
  obtain ⟨path, haccess, -, -⟩ := admission?_eq_some.mp hadmitted
  obtain ⟨hpath, hanswer⟩ := answer_of_access haccess
  obtain ⟨e, he, rfl⟩ := mem_of_live (live_of_act env hpath hanswer)
  exact (hc.act env action).lt_made e he

theorem Tracked.act (hs : Tracked env blind log s) (hc : s.Consistent n) (action : Action σ ι) :
    Tracked env (action.isBlind || blind) (log ++ (s.admission? env action).toList)
      (s.act env action).2 := by
  refine ⟨?_, hs.admitted_act hc.sound action, ?_⟩
  · have hbefore := hs.inStep_concat hc.lt_made action
    refine (inStep_perform hbefore hc.lt_made ?_).of_frame (Cache.frame_settle _ _)
    rintro h ⟨world, hworld, hpresent⟩ hnew
    rcases List.mem_append.mp hworld with hold | hnew
    · exact absurd (hs.numbered _ hold) (Nat.not_lt.mpr hnew)
    · obtain ⟨path, haccess, -, rfl⟩ := admission?_eq_some.mp (Option.mem_toList.mp hnew)
      exact ⟨(answer_of_access haccess).2, hpresent⟩
  · intro admission hadmission
    rcases List.mem_append.mp hadmission with hold | hnew
    · exact Nat.lt_of_lt_of_le (hs.numbered _ hold) (act_moves env action hc.sound 0).made
    · exact hc.lt_made_of_admission (Option.mem_toList.mp hnew)

theorem Tracked.run {actions : List (Action σ ι)} (hs : Tracked env blind log s)
    (hc : s.Consistent n) :
    Tracked env (actions.any Action.isBlind || blind) (log ++ admissions env actions s)
      (s.run env actions) := by
  -- On the actions; the log gets longer and the watcher may be shut down, so both are generalized.
  induction actions generalizing s log blind n with
  | nil =>
    rw [admissions, List.append_nil]
    exact hs
  | cons action rest ih =>
    have hrest := ih (hs.act hc action) (hc.act env action)
    rw [admissions, ← List.append_assoc, List.any_cons, Bool.or_comm action.isBlind, Bool.or_assoc]
    exact hrest

theorem start_tracked (config : CacheConfig) (interval : Nat) (world : σ) :
    Tracked env false [] (start (ι := ι) config (some { interval }) world) := by
  refine ⟨⟨⟨_, rfl, rfl, List.nodup_nil, fun _ => rfl⟩, ?_, nofun⟩, nofun, nofun⟩
  rintro q ⟨w, hw, hq⟩
  obtain rfl := Option.some.inj hw
  cases hq

theorem isBlind_iff : action.isBlind = true ↔ action = .blind := by
  cases action <;> simp [Action.isBlind]

/-! ## Every run -/

/-- **The table of watches and the entries are in step after every run.** While the watcher runs, every
watched path has a live entry. Every live entry was let in by some action of the run, and if its file
was there then, its path is watched. Once the watcher is shut down no path is ever watched again. -/
theorem watch_table_in_step (env : Environment σ ι) (config : CacheConfig) (interval : Nat)
    (world : σ) (actions : List (Action σ ι)) :
    let fresh := start config (some { interval }) world
    let s := fresh.run env actions
    ∃ w, s.cache.observer = some w ∧
      (.blind ∉ actions →
        w.isShutDown = false ∧
        (∀ path, w.isWatching path = true → s.cache.contains path = true) ∧
        ∀ path e, s.cache.entry? path = some e →
          (∃ past, (e.handle, past) ∈ admissions env actions fresh) ∧
          ∀ past, (e.handle, past) ∈ admissions env actions fresh →
            env.presence past e.handle.path = .ok () → w.isWatching path = true) ∧
      (.blind ∈ actions → ∀ path, w.isWatching path = false) := by
  intro fresh s
  have hs : Tracked env (actions.any Action.isBlind || false) ([] ++ admissions env actions fresh) s :=
    (start_tracked config interval world).run (start_consistent config (some { interval }) world)
  rw [Bool.or_false, List.nil_append] at hs
  obtain ⟨w, hw, horderly⟩ := hs.inStep.observed
  refine ⟨w, hw, fun hrunning => ?_, fun hblind => ?_⟩
  · have hrunning : actions.any Action.isBlind = false := by
      rw [List.any_eq_false]
      exact fun action haction hblind => hrunning (isBlind_iff.mp hblind ▸ haction)
    refine ⟨horderly.isShutDown.trans hrunning, fun path hpath => hs.inStep.live path ⟨w, hw, hpath⟩,
      fun path e hfound => ⟨hs.admitted e (Cache.mem_of_found hfound), fun past hpast hpresent => ?_⟩⟩
    obtain ⟨w', hw', hwatching⟩ := hs.inStep.seen hrunning e (Cache.mem_of_found hfound)
      ⟨past, hpast, hpresent⟩
    obtain rfl := Option.some.inj (hw.symm.trans hw')
    obtain ⟨watch, hwatch, hsame⟩ := Watcher.isWatching_iff.mp hwatching
    exact Watcher.isWatching_iff.mpr
      ⟨watch, hwatch, Path.sameKey_trans hsame (Cache.key_of_found hfound)⟩
  · have hblind : actions.any Action.isBlind = true :=
      List.any_eq_true.mpr ⟨.blind, hblind, rfl⟩
    rw [hblind] at horderly
    exact horderly.not_watching

/-- A file is put into the cache before it is there, and again when it is; another one is loaded and
deleted. -/
def shelving : List (Action (List Path) Nat) :=
  [.put ⟨"a"⟩ 3, .drift [⟨"a"⟩, ⟨"b"⟩], .get ⟨"b"⟩, .put ⟨"a"⟩ 5, .drift [⟨"a"⟩], .poll]

/-- A cache for files that are not there yet, after some actions. -/
def shelved (actions : List (Action (List Path) Nat)) : Service (List Path) Nat :=
  (start {} (some { interval := 1 }) []).run Environment.shelf actions

/-- The first entry of the first file is live and unwatched, and the second is watched. The other file
is neither live nor watched. Once the watcher is shut down, none is. -/
theorem watch_table_of_shelf :
    ((shelved (shelving.take 1)).cache.contains ⟨"a"⟩ = true ∧
      ∃ w, (shelved (shelving.take 1)).cache.observer = some w ∧ w.isWatching ⟨"a"⟩ = false) ∧
    (∃ w, (shelved shelving).cache.observer = some w ∧
      w.isWatching ⟨"a"⟩ = true ∧ w.isWatching ⟨"b"⟩ = false) ∧
    ∃ w, (shelved (shelving ++ [.blind])).cache.observer = some w ∧ w.isWatching ⟨"a"⟩ = false := by
  refine ⟨⟨rfl, _, rfl, rfl⟩, ?_, ?_⟩
  · have hfound : (shelved shelving).cache.entry? ⟨"a"⟩ = some ⟨⟨2, ⟨"a"⟩, 5, 5⟩, 0⟩ := rfl
    have hgone : (shelved shelving).cache.contains ⟨"b"⟩ = false := rfl
    have hadmitted : ((⟨2, ⟨"a"⟩, 5, 5⟩ : Handle Nat), [⟨"a"⟩, ⟨"b"⟩]) ∈
        admissions Environment.shelf shelving (start {} (some { interval := 1 }) []) :=
      List.mem_cons_of_mem _ (List.mem_cons_of_mem _ List.mem_cons_self)
    obtain ⟨w, hw, hrunning, -⟩ := watch_table_in_step Environment.shelf {} 1 [] shelving
    obtain ⟨-, hlive, hseen⟩ := hrunning (by simp [shelving])
    refine ⟨w, hw, (hseen ⟨"a"⟩ _ hfound).2 _ hadmitted rfl, ?_⟩
    rw [Bool.eq_false_iff]
    intro hwatching
    exact Bool.false_ne_true (hgone.symm.trans (hlive ⟨"b"⟩ hwatching))
  · obtain ⟨w, hw, -, hdark⟩ := watch_table_in_step Environment.shelf {} 1 [] (shelving ++ [.blind])
    exact ⟨w, hw, hdark (List.mem_append_right _ (List.mem_singleton_self _)) ⟨"a"⟩⟩

end Service

end Sidecar
