import Sidecar.Proofs.Cache.Alike
import Sidecar.Proofs.Cache.Contents
import Sidecar.Proofs.Cache.Order

/-!
# Sweeps are not seen

Two runs are compared, one of which sweeps from time to time. Their caches differ: the cache that is
not swept keeps entries that have been idle for too long, and their weight with them, so that it
evicts more. `Lagging` says how far they differ, and that it makes no difference:

* on a clock that does not run backwards the entries stand in the order of their last accesses, so
  what has been idle for too long stands at the front, and the two lists are the same but for a
  front of idle entries;
* a look-up that meets one of these removes it and misses, as it misses without it;
* to make room the cache takes entries from the front. As long as it takes idle ones, the weight that
  goes is weight that the other cache does not have, and as soon as it takes another entry the two
  have the same weight (`spared_append`).

So the relation survives every action but two. A query tells a handle whose entry is idle from one
whose entry was swept, and a poll fires for watches of idle entries. `Service.Smooth` excludes both.

The cache does not read the clock itself but a counter of its nanoseconds in 64 bits
(`Environment.Counts`), and that one does run backwards, once in 584 years. What was idle before it
does is not idle after it, unless it was swept in between (`views_of_overrun`).
-/

set_option autoImplicit false

namespace Sidecar

variable {σ ι : Type}

namespace Cache

/-! ## Making room in the presence of idle entries -/

/-- Entries that stand before the others leave before the others, and when the last of them has left
the weight is that of the others alone. -/
theorem spared_append (budget extra : Nat) (idle es : List (Entry ι)) :
    ∃ idle', idle'.Sublist idle ∧
      spared budget (total (idle ++ es) + extra) (idle ++ es)
        = idle' ++ spared budget (total es + extra) es := by
  induction idle with
  | nil => exact ⟨[], List.Sublist.refl _, rfl⟩
  | cons e rest ih =>
    by_cases hfits : total (e :: rest ++ es) + extra ≤ budget
    · have hothers : total es + extra ≤ budget := by
        rw [total_append] at hfits
        omega
      exact ⟨e :: rest, List.Sublist.refl _, by rw [spared_of_le hfits, spared_of_le hothers]⟩
    · obtain ⟨idle', hsub, heq⟩ := ih
      have hweight : total (e :: rest ++ es) + extra - e.handle.size
          = total (rest ++ es) + extra := by
        rw [List.cons_append, total_cons]
        omega
      refine ⟨idle', hsub.trans (List.sublist_cons_self e rest), ?_⟩
      rw [List.cons_append, spared, if_neg (by rwa [← List.cons_append]), ← List.cons_append,
        hweight, heq]

theorem roomy_append (config : CacheConfig) (extra : Nat) (idle es : List (Entry ι)) :
    ∃ idle', idle'.Sublist idle ∧
      roomy config extra (idle ++ es) = idle' ++ roomy config extra es := by
  unfold roomy
  cases config.weightBudget with
  | none => exact ⟨idle, List.Sublist.refl _, rfl⟩
  | some budget => exact spared_append budget extra idle es

/-! ## One cache that is swept and one that is not -/

/-- The second cache has idle entries before those of the first, and is like it otherwise. -/
structure Lagging (now : Nat) (c c' : Cache ι) : Prop where
  alike : Alike c c'
  ordered : Ordered now c'.entries
  idle : ∃ idle, c'.entries = idle ++ c.entries ∧ ∀ e ∈ idle, c.isExpired now e = true

section Lagging

variable {c c' : Cache ι} {now : Nat} (path : Path)

theorem Lagging.later {now' : Nat} (h : Lagging now c c') (hle : now ≤ now') :
    Lagging now' c c' := by
  obtain ⟨idle, hentries, hidle⟩ := h.idle
  refine ⟨h.alike, h.ordered.later hle, idle, hentries, fun e he => ?_⟩
  exact isExpired_of_le (hidle e he) (Nat.sub_le_sub_right hle _)

/-- What becomes of the two lists, if it is the same but for idle entries, is all there is to
show. -/
theorem Lagging.carry {d d' : Cache ι} (h : Lagging now c c') (hd : Alike c d) (hd' : Alike c' d')
    (idle : List (Entry ι)) (hentries : d'.entries = idle ++ d.entries)
    (hidle : ∀ e ∈ idle, c.isExpired now e = true) (hordered : Ordered now d'.entries) :
    Lagging now d d' := by
  refine ⟨h.alike.carry hd hd', hordered, idle, hentries, ?_⟩
  rw [isExpired_congr hd.config]
  exact hidle

theorem Lagging.note {d d' : Cache ι} (h : Lagging now c c') (hd : d.entries = c.entries)
    (hd' : d'.entries = c'.entries) (hconfig : d.config = c.config) (halike : Alike d d') :
    Lagging now d d' := by
  obtain ⟨idle, hentries, hidle⟩ := h.idle
  refine ⟨halike, by rw [hd']; exact h.ordered, idle, by rw [hd, hd', hentries], ?_⟩
  rw [isExpired_congr hconfig]
  exact hidle

theorem Lagging.frame {d d' : Cache ι} (h : Lagging now c c') (hd : Frame c d)
    (hd' : Frame c' d') : Lagging now d d' :=
  h.note hd.entries hd'.entries hd.config (h.alike.carry hd.alike hd'.alike)

/-- A removal takes the same entry from both, or an idle one. -/
theorem Lagging.remove (h : Lagging now c c') (reason reason' : RemovalReason) :
    Lagging now (c.remove path reason).2 (c'.remove path reason').2 := by
  obtain ⟨idle, hentries, hidle⟩ := h.idle
  refine h.carry (alike_remove c path reason) (alike_remove c' path reason')
    (besides path idle) ?_ ?_ ?_
  · rw [entries_remove, entries_remove, hentries, besides_append]
  · exact fun e he => hidle e (mem_besides.mp he).1
  · rw [entries_remove]
    exact h.ordered.sublist (besides_sublist path _)

/-- What is found in one of the caches and not idle is found in the other. -/
theorem Lagging.found_iff (h : Lagging now c c') (hc : c.Sound) (hc' : c'.Sound) {e : Entry ι}
    (hlive : c.isExpired now e = false) : c'.entry? path = some e ↔ c.entry? path = some e := by
  obtain ⟨idle, hentries, hidle⟩ := h.idle
  constructor
  · intro hfound
    have he : e ∈ idle ++ c.entries := by
      rw [← hentries]
      exact mem_of_found hfound
    rcases List.mem_append.mp he with he | he
    · rw [hidle e he] at hlive
      cases hlive
    · exact hc.found_of_mem he (key_of_found hfound)
  · intro hfound
    have he : e ∈ c'.entries := by
      rw [hentries]
      exact List.mem_append_right _ (mem_of_found hfound)
    exact hc'.found_of_mem he (key_of_found hfound)

/-- A look-up finds the same in both. -/
theorem Lagging.lookup (h : Lagging now c c') (hc : c.Sound) (hc' : c'.Sound) :
    (c'.lookup now path).1 = (c.lookup now path).1 ∧
      Lagging now (c.lookup now path).2 (c'.lookup now path).2 := by
  have hexpired := isExpired_congr h.alike.config
  obtain ⟨idle, hentries, hidle⟩ := h.idle
  have halike := alike_lookup c now path
  have halike' := alike_lookup c' now path
  have hidle' : ∀ e ∈ besides path idle, c.isExpired now e = true :=
    fun e he => hidle e (mem_besides.mp he).1
  have hordered : Ordered now (besides path c'.entries) :=
    h.ordered.sublist (besides_sublist path _)
  by_cases hhit : ∃ e, c.entry? path = some e ∧ c.isExpired now e = false
  · obtain ⟨e, hfound, hlive⟩ := hhit
    have hfound' := (h.found_iff path hc hc' hlive).mpr hfound
    have heq : c.lookup now path = (some e.handle, c.touch now e) := by
      simp [Cache.lookup, hfound, hlive]
    have heq' : c'.lookup now path = (some e.handle, c'.touch now e) := by
      simp [Cache.lookup, hfound', hexpired, hlive]
    rw [heq] at halike ⊢
    rw [heq'] at halike' ⊢
    refine ⟨rfl, h.carry halike halike' (besides path idle) ?_ hidle' ?_⟩
    · rw [entries_touch_of_found hfound, entries_touch_of_found hfound', hentries, besides_append,
        List.append_assoc]
    · rw [entries_touch_of_found hfound']
      exact hordered.concat rfl
  · -- Both miss, so both are left with the entries of other paths.
    have hmissed : ∃ c₁, c.lookup now path = (none, c₁) := by
      rcases c.lookup_cases path now with ⟨_, heq⟩ | ⟨e, _, _, heq⟩ | ⟨e, hfound, hlive, _⟩
      · exact ⟨_, heq⟩
      · exact ⟨_, heq⟩
      · exact absurd ⟨e, hfound, hlive⟩ hhit
    have hmissed' : ∃ c₁', c'.lookup now path = (none, c₁') := by
      rcases c'.lookup_cases path now with ⟨_, heq⟩ | ⟨e, _, _, heq⟩ | ⟨e, hfound, hlive, _⟩
      · exact ⟨_, heq⟩
      · exact ⟨_, heq⟩
      · rw [hexpired] at hlive
        exact absurd ⟨e, (h.found_iff path hc hc' hlive).mp hfound, hlive⟩ hhit
    obtain ⟨c₁, heq⟩ := hmissed
    obtain ⟨c₁', heq'⟩ := hmissed'
    have hleft := entries_of_missed heq
    have hleft' := entries_of_missed heq'
    rw [heq] at halike ⊢
    rw [heq'] at halike' ⊢
    refine ⟨rfl, h.carry halike halike' (besides path idle) ?_ hidle' ?_⟩
    · rw [hleft, hleft', hentries, besides_append]
    · rw [hleft']
      exact hordered

variable (env : Environment σ ι) {s : σ}

theorem Lagging.discard (h : Lagging now c c') (handle : Handle ι) :
    Lagging now (c.discard handle) (c'.discard handle) :=
  h.note (c.frame_discard handle).entries (c'.frame_discard handle).entries
    (c.frame_discard handle).config
    (h.alike.carry (alike_discard c handle) (alike_discard c' handle))

theorem Lagging.insert_clear (h : Lagging (env.now s) c c') (hc : c.Sound) (hc' : c'.Sound)
    (handle : Handle ι) :
    Lagging (env.now s) ((clear env c handle s).insert (env.now s) handle)
      ((clear env c' handle s).insert (env.now s) handle) := by
  obtain ⟨idle, hentries, hidle⟩ := h.idle
  obtain ⟨idle', hsub, hroomy⟩ := roomy_append c.config handle.size (besides handle.path idle)
    (besides handle.path c.entries)
  have hcleared := hc.entries_clear env handle s
  have hcleared' := hc'.entries_clear env handle s
  rw [h.alike.config] at hcleared'
  refine h.carry (alike_insert_clear env c handle s) (alike_insert_clear env c' handle s)
    idle' ?_ ?_ ?_
  · rw [Cache.insert, Cache.insert]
    dsimp only
    rw [hcleared, hcleared', hentries, besides_append, hroomy, List.append_assoc]
  · exact fun e he => hidle e (mem_besides.mp (hsub.subset he)).1
  · rw [Cache.insert]
    dsimp only
    rw [hcleared']
    have hleft := (roomy_sublist c.config handle.size _).trans
      (besides_sublist handle.path c'.entries)
    exact (h.ordered.sublist hleft).concat rfl

theorem Lagging.accept (h : Lagging (env.now s) c c') (hc : c.Sound) (hc' : c'.Sound)
    (handle : Handle ι) :
    (c'.accept env handle s).1 = (c.accept env handle s).1 ∧
      Lagging (env.now s) (c.accept env handle s).2 (c'.accept env handle s).2 := by
  have hexceeded : c'.exceededBudget? handle = c.exceededBudget? handle := by
    unfold exceededBudget?
    rw [h.alike.config]
  have hinserted := h.insert_clear env hc hc' handle
  unfold Cache.accept
  rw [hexceeded, h.alike.isShutDown]
  cases c.exceededBudget? handle with
  | some budget => exact ⟨rfl, h.discard handle⟩
  | none =>
    cases c.isShutDown with
    | true => exact ⟨rfl, h.discard handle⟩
    | false => exact ⟨rfl, hinserted⟩

/-- Both operations answer the same and leave the same world, and the caches go on as before. -/
structure Matching {α : Type} (r r' : α × Cache ι × σ) : Prop where
  answer : r'.1 = r.1
  world : r'.2.2 = r.2.2
  lagging : Lagging (env.now r.2.2) r.2.1 r'.2.1

theorem fetch_sound (hc : c.Sound) : (c.fetch env path s).2.1.Sound := by
  rcases c.fetch_cases env path s with ⟨_, heq⟩ | ⟨_, _, _, _, heq⟩ | ⟨_, _, _, _, heq⟩
  · rw [heq]
    exact hc
  · rw [heq]
    exact ⟨hc.apart, hc.weight⟩
  · rw [heq]
    exact ⟨hc.apart, hc.weight⟩

/-! ### Requests, during which the counter does not fall back -/

theorem Lagging.fetch (h : Lagging (env.now s) c c')
    (hlater : env.now s ≤ env.now (c.fetch env path s).2.2) :
    Matching env (c.fetch env path s) (c'.fetch env path s) := by
  obtain ⟨n, hn⟩ := h.alike.tally
  revert hlater
  unfold Cache.fetch
  rw [h.alike.isShutDown]
  by_cases hshut : c.isShutDown = true
  · rw [if_pos hshut, if_pos hshut]
    exact fun _ => ⟨rfl, rfl, h⟩
  · rw [if_neg hshut, if_neg hshut]
    rcases env.load path s with ⟨e | index, s'⟩
    · intro hlater
      refine ⟨rfl, rfl, (h.later hlater).note rfl rfl rfl ?_⟩
      exact ⟨h.alike.config, h.alike.made, rfl, n, by rw [hn]⟩
    · intro hlater
      dsimp only [mint]
      rw [h.alike.made]
      refine ⟨rfl, rfl, (h.later hlater).note rfl rfl rfl ?_⟩
      exact ⟨h.alike.config, rfl, rfl, n, by rw [hn]⟩

theorem Lagging.loadAndInsert (h : Lagging (env.now s) c c') (hc : c.Sound) (hc' : c'.Sound)
    (hlater : env.now s ≤ env.now (c.loadAndInsert env path s).2.2) :
    Matching env (c.loadAndInsert env path s) (c'.loadAndInsert env path s) := by
  obtain ⟨hfound, hlagging⟩ := h.lookup path hc hc'
  have hsound := (lookup_moves (p := []) (n := 0) path (env.now s)).sound hc
  have hsound' := (lookup_moves (p := []) (n := 0) path (env.now s)).sound hc'
  revert hlater
  unfold Cache.loadAndInsert
  revert hfound hlagging hsound hsound'
  rcases c.lookup (env.now s) path with ⟨found, c₁⟩
  rcases c'.lookup (env.now s) path with ⟨found', c₁'⟩
  rintro ⟨⟩ hlagging (hc₁ : c₁.Sound) (hc₁' : c₁'.Sound)
  cases found with
  | some handle => exact fun _ => ⟨rfl, rfl, hlagging⟩
  | none =>
    have hfetched := hlagging.fetch path env
    have hsound := fetch_sound path env (s := s) hc₁
    have hsound' := fetch_sound path env (s := s) hc₁'
    revert hfetched hsound hsound'
    dsimp only
    rcases c₁.fetch env path s with ⟨fetched, c₂, s₁⟩
    rcases c₁'.fetch env path s with ⟨fetched', c₂', s₁'⟩
    intro hfetched (hc₂ : c₂.Sound) (hc₂' : c₂'.Sound) hlater
    cases fetched with
    | error e =>
      obtain ⟨⟨⟩, ⟨⟩, hlagging⟩ := hfetched hlater
      exact ⟨rfl, rfl, hlagging⟩
    | ok handle =>
      obtain ⟨⟨⟩, ⟨⟩, hlagging⟩ := hfetched hlater
      obtain ⟨haccepted, hlagging⟩ := hlagging.accept env hc₂ hc₂' handle
      exact ⟨haccepted, rfl, hlagging⟩

/-- A `get` answers the same from both. -/
theorem Lagging.get (h : Lagging (env.now s) c c') (hc : c.Sound) (hc' : c'.Sound)
    (hlater : env.now s ≤ env.now (c.get env path s).2.2) :
    Matching env (c.get env path s) (c'.get env path s) := by
  obtain ⟨hfound, hlagging⟩ := h.lookup path hc hc'
  have hsound := (lookup_moves (p := []) (n := 0) path (env.now s)).sound hc
  have hsound' := (lookup_moves (p := []) (n := 0) path (env.now s)).sound hc'
  revert hlater
  unfold Cache.get Cache.request
  rw [h.alike.isShutDown]
  by_cases hshut : c.isShutDown = true
  · rw [if_pos hshut, if_pos hshut]
    exact fun _ => ⟨rfl, rfl, h⟩
  · rw [if_neg hshut, if_neg hshut]
    cases validateKey path with
    | error e => exact fun _ => ⟨rfl, rfl, h⟩
    | ok _ =>
      revert hfound hlagging hsound hsound'
      dsimp only
      rcases c.lookup (env.now s) path with ⟨found, c₁⟩
      rcases c'.lookup (env.now s) path with ⟨found', c₁'⟩
      rintro ⟨⟩ (hlagging : Lagging (env.now s) c₁ c₁') (hc₁ : c₁.Sound) (hc₁' : c₁'.Sound)
      obtain ⟨n, hn⟩ := hlagging.alike.tally
      cases found with
      | some handle =>
        have hcounted : Lagging (env.now s)
            { c₁ with tally := { c₁.tally with hits := c₁.tally.hits + 1 } }
            { c₁' with tally := { c₁'.tally with hits := c₁'.tally.hits + 1 } } :=
          hlagging.note rfl rfl rfl ⟨hlagging.alike.config, hlagging.alike.made,
            hlagging.alike.isShutDown, n, by rw [hn]⟩
        exact fun _ => ⟨rfl, rfl, hcounted⟩
      | none =>
        have hcounted : Lagging (env.now s)
            { c₁ with tally := { c₁.tally with misses := c₁.tally.misses + 1 } }
            { c₁' with tally := { c₁'.tally with misses := c₁'.tally.misses + 1 } } :=
          hlagging.note rfl rfl rfl ⟨hlagging.alike.config, hlagging.alike.made,
            hlagging.alike.isShutDown, n, by rw [hn]⟩
        exact hcounted.loadAndInsert path env ⟨hc₁.apart, hc₁.weight⟩ ⟨hc₁'.apart, hc₁'.weight⟩

theorem Lagging.put (h : Lagging (env.now s) c c') (hc : c.Sound) (hc' : c'.Sound) (index : ι) :
    (c'.put env path index s).1 = (c.put env path index s).1 ∧
      Lagging (env.now s) (c.put env path index s).2 (c'.put env path index s).2 := by
  have hmade : Lagging (env.now s) { c with made := c.made + 1 } { c' with made := c.made + 1 } :=
    h.note rfl rfl rfl ⟨h.alike.config, rfl, h.alike.isShutDown, h.alike.tally⟩
  unfold Cache.put mint
  dsimp only
  rw [h.alike.made]
  by_cases hshut : c.isShutDown = true
  · rw [if_pos hshut, if_pos (h.alike.isShutDown.trans hshut)]
    exact ⟨rfl, hmade.discard _⟩
  · have hshut' : ¬ c'.isShutDown = true := by rwa [h.alike.isShutDown]
    rw [if_neg hshut, if_neg hshut']
    cases validateKey path with
    | error e => exact ⟨rfl, hmade.discard _⟩
    | ok _ => exact hmade.accept env ⟨hc.apart, hc.weight⟩ ⟨hc'.apart, hc'.weight⟩ _

/-! ## The sweep, and the end -/

/-- What a sweep removes joins the idle entries that the other cache keeps. -/
theorem Lagging.sweep (h : Lagging now c c') (hc : c.Sound) (hwithin : c.WithinBudget) :
    Lagging now (c.sweep now).2 c' := by
  cases hopen : c.isShutDown with
  | true =>
    rw [Cache.sweep, if_pos hopen]
    exact h
  | false =>
    obtain ⟨idle, hentries, hidle⟩ := h.idle
    have hordered : Ordered now c.entries := by
      apply h.ordered.sublist
      rw [hentries]
      exact List.sublist_append_right idle c.entries
    refine h.carry (alike_sweep c now) (Alike.refl c')
      (idle ++ c.entries.filter (c.isExpired now)) ?_ ?_ h.ordered
    · rw [hc.entries_sweep hwithin hopen, List.append_assoc, ← hordered.idle_append, hentries]
    · intro e he
      rcases List.mem_append.mp he with he | he
      · exact hidle e he
      · exact (List.mem_filter.mp he).2

theorem Lagging.shutdown (h : Lagging now c c') (hc : c.Sound) (hc' : c'.Sound) :
    Lagging now c.shutdown c'.shutdown := by
  cases hopen : c.isShutDown with
  | true =>
    rw [Cache.shutdown, if_pos hopen, Cache.shutdown, if_pos (h.alike.isShutDown.trans hopen)]
    exact h
  | false =>
    have hopen' : c'.isShutDown = false := h.alike.isShutDown.trans hopen
    have hclosed : Alike { c with isShutDown := true } { c' with isShutDown := true } :=
      ⟨h.alike.config, h.alike.made, rfl, h.alike.tally⟩
    refine ⟨hclosed.carry (alike_shutdown hopen) (alike_shutdown hopen'), ?_, [], ?_, ?_⟩
    · rw [entries_shutdown hc' hopen']
      exact ordered_nil now
    · rw [entries_shutdown hc hopen, entries_shutdown hc' hopen']
      rfl
    · intro e he
      cases he

end Lagging

end Cache

/-! ## The clock and its counter -/

/-- The cache counts the nanoseconds of a clock in 64 bits. The clock does not run backwards while an
index is loaded. -/
structure Environment.Counts (env : Environment σ ι) (time : σ → Nat) : Prop where
  now : ∀ s, env.now s = time s % UInt64.size
  load : ∀ path s, time s ≤ time (env.load path s).2

/-- As long as 64 bits are enough the counter does not fall back either. -/
theorem Environment.Counts.now_le {env : Environment σ ι} {time : σ → Nat} (h : env.Counts time)
    {s s' : σ} (hlater : time s ≤ time s') (hcounted : time s' < UInt64.size) :
    env.now s ≤ env.now s' := by
  rw [h.now, h.now, Nat.mod_eq_of_lt (hlater.trans_lt hcounted), Nat.mod_eq_of_lt hcounted]
  exact hlater

/-- Whether the action is a sweep. -/
def Action.isSweep : Action σ ι → Bool
  | sweep => true
  | _ => false

/-- The action does not turn the clock back, and it is no query and no poll. -/
def Action.Smooth (time : σ → Nat) (world : σ) : Action σ ι → Prop
  | .drift world' => time world ≤ time world'
  | .query .. | .poll => False
  | _ => True

namespace Service

/-! ## Two services -/

/-- The worlds agree, and the second cache lags behind the first, which may have been swept. -/
structure Trailing (env : Environment σ ι) (s s' : Service σ ι) : Prop where
  world : s'.world = s.world
  sound : s.cache.Sound
  sound' : s'.cache.Sound
  withinBudget : s.cache.WithinBudget
  lagging : Cache.Lagging (env.now s.world) s.cache s'.cache

/-- What the caller and the engine see of an action: the handle or the error that it answers with,
the counters of hits, misses and loads, and the world, in which a load leaves its traces. -/
structure View (σ ι : Type) where
  result : Option (Except Error (Handle ι))
  hits : Nat
  misses : Nat
  loads : Nat
  loadFailures : Nat
  world : σ

/-- The answer to a `get` or a `put`. -/
def handleOf : Answer ι → Option (Except Error (Handle ι))
  | .handle result => some result
  | _ => none

def view (after : Answer ι × Service σ ι) : View σ ι where
  result := handleOf after.1
  hits := after.2.cache.tally.hits
  misses := after.2.cache.tally.misses
  loads := after.2.cache.tally.loads
  loadFailures := after.2.cache.tally.loadFailures
  world := after.2.world

/-- What is seen of a run, action by action. Sweeps are not looked at. -/
def views (env : Environment σ ι) : List (Action σ ι) → Service σ ι → List (View σ ι)
  | [], _ => []
  | action :: rest, s =>
    if action.isSweep then views env rest (s.act env action).2
    else view (s.act env action) :: views env rest (s.act env action).2

/-- Every action of the run is smooth. -/
def Smooth (env : Environment σ ι) (time : σ → Nat) : List (Action σ ι) → Service σ ι → Prop
  | [], _ => True
  | action :: rest, s => action.Smooth time s.world ∧ Smooth env time rest (s.act env action).2

variable {env : Environment σ ι} {time : σ → Nat} {s s' : Service σ ι}

theorem world_perform_get (env : Environment σ ι) (path : Path) (s : Service σ ι) :
    (s.perform env (.get path)).2.world = (s.cache.get env path s.world).2.2 := by
  simp only [Service.perform, grant]
  split <;> rfl

/-- A smooth action does not turn the clock back. -/
theorem time_le_act (hclock : env.Counts time) {action : Action σ ι}
    (hsmooth : action.Smooth time s.world) : time s.world ≤ time (s.act env action).2.world := by
  change time s.world ≤ time (s.perform env action).2.world
  cases action with
  | get path =>
    rw [world_perform_get]
    rcases Cache.world_get (c := s.cache) env s.world path with hworld | hworld
    · rw [hworld]
    · rw [hworld]
      exact hclock.load path s.world
  | put path index =>
    simp only [Service.perform, grant]
    split <;> exact Nat.le_refl _
  | query _ _ _ => cases hsmooth
  | poll => cases hsmooth
  | drift world => exact hsmooth
  | _ => exact Nat.le_refl _

theorem Smooth.time_le_run (hclock : env.Counts time) {actions : List (Action σ ι)}
    (h : Smooth env time actions s) : time s.world ≤ time (s.run env actions).world := by
  induction actions generalizing s with
  | nil => exact Nat.le_refl _
  | cons action rest ih => exact (time_le_act hclock h.1).trans (ih h.2)

theorem Trailing.view_eq (h : Trailing env s s') {answer answer' : Answer ι}
    (hanswer : handleOf answer' = handleOf answer) : view (answer', s') = view (answer, s) := by
  obtain ⟨n, hn⟩ := h.lagging.alike.tally
  simp only [view, hanswer, hn, h.world]

/-- After an action the caches are settled, and sound and within the budget because they made
moves. -/
theorem Trailing.act_of_perform (h : Trailing env s s') {action action' : Action σ ι}
    (hworld : (s'.perform env action').2.world = (s.perform env action).2.world)
    (hlagging : Cache.Lagging (env.now (s.perform env action).2.world)
      (s.perform env action).2.cache (s'.perform env action').2.cache) :
    Trailing env (s.act env action).2 (s'.act env action').2 := by
  have hmoves := act_moves env action h.sound 0
  refine ⟨hworld, hmoves.sound h.sound, (act_moves env action' h.sound' 0).sound h.sound', ?_, ?_⟩
  · exact hmoves.preserve (P := fun t => t.cache.WithinBudget) Move.withinBudget h.withinBudget
  · exact hlagging.frame (Cache.frame_settle _ _) (Cache.frame_settle _ _)

theorem Trailing.perform (h : Trailing env s s') {action : Action σ ι}
    (hsmooth : action.Smooth time s.world) (hother : action.isSweep = false)
    (hlater : env.now s.world ≤ env.now (s.perform env action).2.world) :
    handleOf (s'.perform env action).1 = handleOf (s.perform env action).1 ∧
      (s'.perform env action).2.world = (s.perform env action).2.world ∧
      Cache.Lagging (env.now (s.perform env action).2.world) (s.perform env action).2.cache
        (s'.perform env action).2.cache := by
  have hlagging := h.lagging
  have hworld := h.world
  cases action with
  | get path =>
    rw [world_perform_get] at hlater
    obtain ⟨hanswer, hworld', hlagging⟩ := hlagging.get path env h.sound h.sound' hlater
    simp only [Service.perform, hworld]
    revert hanswer hworld' hlagging
    rcases s.cache.get env path s.world with ⟨r, c, w⟩
    rcases s'.cache.get env path s.world with ⟨r', c', w'⟩
    rintro ⟨⟩ ⟨⟩ hlagging
    cases r <;> exact ⟨rfl, rfl, hlagging⟩
  | put path index =>
    obtain ⟨hanswer, hlagging⟩ := hlagging.put path env h.sound h.sound' index
    simp only [Service.perform, hworld]
    revert hanswer hlagging
    rcases s.cache.put env path index s.world with ⟨r, c⟩
    rcases s'.cache.put env path index s.world with ⟨r', c'⟩
    rintro ⟨⟩ hlagging
    cases r <;> exact ⟨rfl, rfl, hlagging⟩
  | query _ _ _ => cases hsmooth
  | invalidate path => exact ⟨rfl, hworld, hlagging.remove path .explicit .explicit⟩
  | sweep => cases hother
  | poll => cases hsmooth
  | shutdown => exact ⟨rfl, hworld, hlagging.shutdown h.sound h.sound'⟩
  | release =>
    exact ⟨rfl, hworld, hlagging.frame (Cache.frame_runRelease _) (Cache.frame_runRelease _)⟩
  | drain =>
    exact ⟨rfl, hworld, hlagging.frame (Cache.frame_runReleases _ _) (Cache.frame_runReleases _ _)⟩
  | lag lags =>
    exact ⟨rfl, hworld, hlagging.note rfl rfl rfl
      ⟨hlagging.alike.config, hlagging.alike.made, hlagging.alike.isShutDown,
        hlagging.alike.tally⟩⟩
  | blind =>
    exact ⟨rfl, hworld, hlagging.note rfl rfl rfl
      ⟨hlagging.alike.config, hlagging.alike.made, hlagging.alike.isShutDown,
        hlagging.alike.tally⟩⟩
  | drift world => exact ⟨rfl, rfl, hlagging.later hlater⟩
  | share _ | drop _ => exact ⟨rfl, hworld, hlagging⟩

/-- Only the first of the two services is swept. -/
theorem Trailing.sweep (h : Trailing env s s') : Trailing env (s.act env .sweep).2 s' := by
  have hmoves := act_moves env .sweep h.sound 0
  have hswept := h.lagging.sweep h.sound h.withinBudget
  refine ⟨h.world, hmoves.sound h.sound, h.sound', ?_, ?_⟩
  · exact hmoves.preserve (P := fun t => t.cache.WithinBudget) Move.withinBudget h.withinBudget
  · exact hswept.frame (Cache.frame_settle _ _) (Cache.Frame.refl _)

theorem Trailing.views_eq (hclock : env.Counts time) {actions : List (Action σ ι)}
    (h : Trailing env s s') (hsmooth : Smooth env time actions s)
    (hcounted : time (s.run env actions).world < UInt64.size) :
    views env actions s = views env (actions.filter (!·.isSweep)) s' := by
  induction actions generalizing s s' with
  | nil => rfl
  | cons action rest ih =>
    obtain ⟨hfirst, hrest⟩ := hsmooth
    cases hsweep : action.isSweep with
    | true =>
      obtain rfl : action = .sweep := by
        cases action <;> first | rfl | cases hsweep
      rw [views, if_pos hsweep, List.filter_cons_of_neg (by simp [hsweep])]
      exact ih h.sweep hrest hcounted
    | false =>
      have hrun := (Smooth.time_le_run hclock hrest).trans_lt hcounted
      have hlater := hclock.now_le (time_le_act hclock hfirst) hrun
      obtain ⟨hanswer, hworld, hlagging⟩ := h.perform hfirst hsweep hlater
      have hacted := h.act_of_perform hworld hlagging
      rw [views, if_neg (by simp [hsweep]), List.filter_cons_of_pos (by simp [hsweep]), views,
        if_neg (by simp [hsweep])]
      exact congrArg₂ _ (hacted.view_eq hanswer).symm (ih hacted hrest hcounted)

end Service

/-! ## Every run -/

/-- **Sweeps are not seen.** Leave the sweeps out of a run, and every other action answers with the
same handle or the same error, after as many hits, misses and loads, in the same world. The clock
must not run backwards, and its nanoseconds must still have 64 bits when the run ends; the idle
timeout, the budget and the files may be any. -/
theorem views_without_sweeps (env : Environment σ ι) (time : σ → Nat) (hclock : env.Counts time)
    (config : CacheConfig) (observer : Option (Watcher Unit)) (world : σ)
    (actions : List (Action σ ι))
    (hsmooth : Service.Smooth env time actions (Service.start config observer world))
    (hcounted : time ((Service.start config observer world).run env actions).world
      < UInt64.size) :
    Service.views env actions (Service.start config observer world)
      = Service.views env (actions.filter (!·.isSweep)) (Service.start config observer world) := by
  have hsound := Service.start_sound (ι := ι) config observer world
  have hempty : (Service.start (ι := ι) config observer world).cache.entries = [] := rfl
  refine Service.Trailing.views_eq hclock ⟨rfl, hsound, hsound, fun _ _ => Nat.zero_le _, ?_⟩
    hsmooth hcounted
  exact ⟨Cache.Alike.refl _, by rw [hempty]; exact Cache.ordered_nil _, [], rfl, nofun⟩

/-- A world that is nothing but the time, of which the cache sees 64 bits. -/
def Environment.counter : Environment Nat Nat :=
  { Environment.clock with now := fun time => time % UInt64.size }

theorem Environment.counter_counts : Environment.counter.Counts id where
  now _ := rfl
  load _ s := Nat.le_refl s

/-- A cache of five bytes that gives up what has been idle for a millisecond. -/
def forgetful : CacheConfig :=
  { weightCircuitBreaker := true, maxWeightBytes := 5, idleTimeoutMs := 1 }

/-- Three bytes are put, swept, and driven out by four if they were not swept; then both paths are
asked for. -/
def dozing : List (Action Nat Nat) :=
  [.put ⟨"a"⟩ 3, .drift 1000000, .sweep, .put ⟨"b"⟩ 4, .sweep, .get ⟨"a"⟩, .get ⟨"b"⟩]

/-- The three bytes leave for another reason, and nobody sees it. -/
theorem views_of_dozing :
    Environment.counter.Counts id ∧
    Service.Smooth Environment.counter id dozing (Service.start forgetful none 0) ∧
    ((Service.start forgetful none 0).run Environment.counter dozing).world < UInt64.size ∧
    ((Service.start forgetful none 0).run Environment.counter dozing).cache.departures
      = [(0, .expired)] ∧
    ((Service.start forgetful none 0).run Environment.counter
      (dozing.filter (!·.isSweep))).cache.departures = [(0, .weight)] ∧
    Service.views Environment.counter dozing (Service.start forgetful none 0)
      = Service.views Environment.counter (dozing.filter (!·.isSweep))
        (Service.start forgetful none 0) := by
  have hclock := Environment.counter_counts
  have hsmooth : Service.Smooth Environment.counter id dozing (Service.start forgetful none 0) :=
    ⟨trivial, Nat.zero_le _, trivial, trivial, trivial, trivial, trivial, trivial⟩
  have hcounted : ((Service.start forgetful none 0).run Environment.counter dozing).world
      < UInt64.size := by decide +kernel
  exact ⟨hclock, hsmooth, hcounted, by decide +kernel, by decide +kernel,
    views_without_sweeps Environment.counter id hclock forgetful none 0 dozing hsmooth hcounted⟩

/-- A path is asked for, goes idle, and is asked for again when the counter stands where it stood. -/
def overrun : List (Action Nat Nat) :=
  [.get ⟨"a"⟩, .drift 1000000, .sweep, .drift UInt64.size, .get ⟨"a"⟩]

/-- Once the nanoseconds have more than 64 bits a sweep is seen: after it the index is loaded again,
and without it the idle entry is a hit. -/
theorem views_of_overrun :
    Environment.counter.Counts id ∧
    Service.Smooth Environment.counter id overrun (Service.start forgetful none 0) ∧
    ((Service.start forgetful none 0).run Environment.counter overrun).cache.tally.loads = 2 ∧
    ((Service.start forgetful none 0).run Environment.counter
      (overrun.filter (!·.isSweep))).cache.tally.loads = 1 ∧
    Service.views Environment.counter overrun (Service.start forgetful none 0)
      ≠ Service.views Environment.counter (overrun.filter (!·.isSweep))
        (Service.start forgetful none 0) := by
  have hsmooth : Service.Smooth Environment.counter id overrun (Service.start forgetful none 0) :=
    ⟨trivial, Nat.zero_le _, trivial, (by decide : 1000000 ≤ UInt64.size), trivial, trivial⟩
  refine ⟨Environment.counter_counts, hsmooth, by decide +kernel, by decide +kernel, ?_⟩
  intro hsame
  have hloads := congrArg (List.map Service.View.loads) hsame
  revert hloads
  decide +kernel

end Sidecar
