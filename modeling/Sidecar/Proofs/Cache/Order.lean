import Sidecar.Proofs.Cache.Validity
import Sidecar.Proofs.Cache.Weight

/-!
# The entries in their order

What the operations make of the list of entries, as a list. Removing a path leaves everything
`besides` it, where it stood; making room leaves what is `spared` of the list, which is an end of it,
because the entries that leave are the first. So an operation takes some entries out, and puts at most
one in, at the end.

The times of the last accesses rise along the list as long as the clock does not run backwards, since
the entry that is accessed is moved to the end (`Cache.Ordered`).
-/

set_option autoImplicit false

namespace Sidecar.Cache

variable {σ ι : Type} {c : Cache ι} {path : Path} {es idle : List (Entry ι)}

/-! ## Taking a path out -/

/-- The entries of other paths. -/
def besides (path : Path) (es : List (Entry ι)) : List (Entry ι) :=
  es.filter (!·.handle.path.sameKey path)

@[simp] theorem besides_append (es es' : List (Entry ι)) :
    besides path (es ++ es') = besides path es ++ besides path es' := by
  rw [besides, List.filter_append]
  rfl

theorem besides_sublist (path : Path) (es : List (Entry ι)) : (besides path es).Sublist es :=
  List.filter_sublist

theorem mem_besides {e : Entry ι} :
    e ∈ besides path es ↔ e ∈ es ∧ e.handle.path.sameKey path = false := by
  simp [besides, List.mem_filter]

theorem besides_eq_self (h : ∀ e ∈ es, e.handle.path.sameKey path = false) :
    besides path es = es := by
  rw [besides, List.filter_eq_self]
  intro e he
  rw [h e he]
  rfl

theorem besides_of_vacant (h : c.entry? path = none) : besides path c.entries = c.entries :=
  besides_eq_self (vacant_iff.mp h)

theorem besides_congr {other : Path} (h : path.sameKey other = true) (es : List (Entry ι)) :
    besides path es = besides other es := by
  have hsame : path.components = other.components := Path.sameKey_iff.mp h
  unfold besides Path.sameKey
  rw [hsame]

/-- Whichever spelling of its path an entry is found by, it is the one that leaves. -/
theorem entries_expel_of_found {e : Entry ι} (h : c.entry? path = some e)
    (reason : RemovalReason) : (c.expel reason e).entries = besides path c.entries := by
  rw [expel_entries]
  exact besides_congr (key_of_found h) c.entries

theorem entries_touch_of_found {e : Entry ι} (h : c.entry? path = some e) (now : Nat) :
    (c.touch now e).entries = besides path c.entries ++ [{ e with lastAccess := now }] := by
  rw [touch_entries]
  exact congrArg (· ++ _) (besides_congr (key_of_found h) c.entries)

theorem entries_remove (c : Cache ι) (path : Path) (reason : RemovalReason) :
    (c.remove path reason).2.entries = besides path c.entries := by
  unfold remove
  split
  · next hnone => exact (besides_of_vacant hnone).symm
  · next e hfound => exact entries_expel_of_found hfound reason

/-! ## Taking several entries out -/

theorem entries_expelAll (c : Cache ι) (reason : RemovalReason) (es : List (Entry ι)) :
    (c.expelAll reason es).entries
      = c.entries.filter fun e => decide (e.key ∉ es.map Entry.key) := by
  induction es generalizing c with
  | nil => simp [expelAll]
  | cons e rest ih =>
    rw [expelAll, List.foldl_cons, ← expelAll, ih, expel_entries, List.filter_filter]
    congr 1
    funext e'
    have hsame : e'.handle.path.sameKey e.handle.path = decide (e'.key = e.key) := by
      rw [Bool.eq_iff_iff, Entry.sameKey_iff, decide_eq_true_iff]
    simp only [hsame, List.map_cons, List.mem_cons, not_or, Bool.decide_and, decide_not]
    exact Bool.and_comm _ _

theorem expelAll_sublist (c : Cache ι) (reason : RemovalReason) (es : List (Entry ι)) :
    (c.expelAll reason es).entries.Sublist c.entries := by
  rw [entries_expelAll]
  exact List.filter_sublist

theorem Sound.entries_expelAll_filter (hc : c.Sound) (reason : RemovalReason)
    (p : Entry ι → Bool) :
    (c.expelAll reason (c.entries.filter p)).entries = c.entries.filter (!p ·) := by
  rw [entries_expelAll]
  apply List.filter_congr
  intro e he
  cases hp : p e with
  | true =>
    have hmem : e.key ∈ (c.entries.filter p).map Entry.key :=
      List.mem_map_of_mem (List.mem_filter.mpr ⟨he, hp⟩)
    rw [Bool.not_true, decide_eq_false_iff_not, not_not]
    exact hmem
  | false =>
    simp only [Bool.not_false, decide_eq_true_eq]
    intro hmem
    obtain ⟨e', he', hkey⟩ := List.mem_map.mp hmem
    obtain ⟨hin, hp'⟩ := List.mem_filter.mp he'
    rw [hc.eq_of_key he hin hkey, hp] at hp'
    cases hp'

theorem Sound.entries_expelAll_prefix (hc : c.Sound) (reason : RemovalReason)
    {rest : List (Entry ι)} (h : c.entries = es ++ rest) :
    (c.expelAll reason es).entries = rest := by
  have hkeys := hc.apart
  rw [h, List.map_append, List.nodup_append] at hkeys
  rw [entries_expelAll, h, List.filter_append, List.filter_eq_nil_iff.mpr, List.nil_append,
    List.filter_eq_self]
  · intro e he
    simp only [decide_eq_true_eq]
    intro hmem
    exact hkeys.2.2 _ hmem _ (List.mem_map_of_mem he) rfl
  · intro e he
    simp only [decide_eq_true_eq, not_not]
    exact List.mem_map_of_mem he

/-! ## Making room -/

/-- What is left when the least recently used entries have left until the weight fits. -/
def spared (budget : Nat) : Nat → List (Entry ι) → List (Entry ι)
  | _, [] => []
  | weight, e :: rest =>
    if weight ≤ budget then e :: rest else spared budget (weight - e.handle.size) rest

theorem victims_append_spared (budget weight : Nat) (es : List (Entry ι)) :
    victims budget weight es ++ spared budget weight es = es := by
  fun_induction victims budget weight es with
  | case1 => rfl
  | case2 weight e rest hfits => rw [spared, if_pos hfits, List.nil_append]
  | case3 weight e rest hfits ih => rw [spared, if_neg hfits, List.cons_append, ih]

theorem spared_of_le {budget weight : Nat} (h : weight ≤ budget) (es : List (Entry ι)) :
    spared budget weight es = es := by
  have hall := victims_append_spared budget weight es
  rwa [victims_of_le h, List.nil_append] at hall

/-- What is left when there is room for some more weight. -/
def roomy (config : CacheConfig) (extra : Nat) (es : List (Entry ι)) : List (Entry ι) :=
  match config.weightBudget with
  | none => es
  | some budget => spared budget (total es + extra) es

theorem roomy_sublist (config : CacheConfig) (extra : Nat) (es : List (Entry ι)) :
    (roomy config extra es).Sublist es := by
  unfold roomy
  split
  · exact List.Sublist.refl _
  · next budget _ =>
    have hsuffix := List.sublist_append_right (victims budget (total es + extra) es)
      (spared budget (total es + extra) es)
    rwa [victims_append_spared] at hsuffix

theorem makeRoom_sublist (c : Cache ι) (extra : Nat) :
    (c.makeRoom extra).entries.Sublist c.entries := by
  unfold makeRoom
  split
  · exact List.Sublist.refl _
  · exact expelAll_sublist c .weight _

theorem Sound.entries_makeRoom (hc : c.Sound) (extra : Nat) :
    (c.makeRoom extra).entries = roomy c.config extra c.entries := by
  unfold makeRoom roomy
  cases c.config.weightBudget with
  | none => rfl
  | some budget =>
    dsimp only
    rw [hc.weight]
    apply hc.entries_expelAll_prefix
    exact (victims_append_spared _ _ _).symm

theorem Sound.entries_clear (env : Environment σ ι) (hc : c.Sound) (h : Handle ι) (s : σ) :
    (clear env c h s).entries = roomy c.config h.size (besides h.path c.entries) := by
  have hwatched : (c.watch (env.presence s h.path) h.path).Sound := ⟨hc.apart, hc.weight⟩
  have hmoves := remove_moves (c := c.watch (env.presence s h.path) h.path) (p := []) (n := 0)
    h.path .replaced
  have hremoved : ((c.watch (env.presence s h.path) h.path).remove h.path .replaced).2.Sound :=
    hmoves.sound hwatched
  have hconfig : ((c.watch (env.presence s h.path) h.path).remove h.path .replaced).2.config
      = c.config := hmoves.config
  rw [clear, hremoved.entries_makeRoom, entries_remove, hconfig]
  rfl

/-- A sweep removes what has been idle for too long, and nothing else. -/
theorem Sound.sweep_eq (hc : c.Sound) (hwithin : c.WithinBudget) (hopen : c.isShutDown = false)
    (now : Nat) :
    (c.sweep now).2 = c.expelAll .expired (c.entries.filter (c.isExpired now)) := by
  have hidle := hc.expelAll_moves (p := []) (n := 0) .expired
    (List.filter_sublist (p := c.isExpired now))
  have hlight := hidle.preserve (P := fun t => t.cache.WithinBudget) Move.withinBudget hwithin
  rw [sweep, if_neg (by simp [hopen])]
  exact hlight.makeRoom_zero

theorem Sound.entries_sweep (hc : c.Sound) (hwithin : c.WithinBudget)
    (hopen : c.isShutDown = false) (now : Nat) :
    (c.sweep now).2.entries = c.entries.filter (!c.isExpired now ·) := by
  rw [hc.sweep_eq hwithin hopen]
  exact hc.entries_expelAll_filter .expired _

theorem entries_shutdown (hc : c.Sound) (hopen : c.isShutDown = false) :
    c.shutdown.entries = [] := by
  have hclosed : ({ c with isShutDown := true } : Cache ι).Sound := ⟨hc.apart, hc.weight⟩
  rw [Cache.shutdown, if_neg (by simp [hopen])]
  refine ((frame_runReleases _ _).entries).trans ?_
  exact hclosed.entries_expelAll_prefix .shutdown (List.append_nil _).symm

theorem shutdown_sublist (hc : c.Sound) : c.shutdown.entries.Sublist c.entries := by
  cases hopen : c.isShutDown with
  | true =>
    rw [Cache.shutdown, if_pos hopen]
  | false =>
    rw [entries_shutdown hc hopen]
    exact List.nil_sublist _

theorem sweep_sublist (c : Cache ι) (now : Nat) : (c.sweep now).2.entries.Sublist c.entries := by
  unfold sweep
  split
  · exact List.Sublist.refl _
  · exact (makeRoom_sublist _ 0).trans (expelAll_sublist c .expired _)

/-- What a poll leaves: the entries for whose path no watch has fired. -/
theorem entries_poll {w : Watcher Unit} (hw : c.observer = some w) (presence : Path → Presence) :
    (c.poll presence).2.entries
      = c.entries.filter fun e => !(w.poll presence).1.any (e.handle.path.sameKey ·.1) := by
  unfold poll
  rw [hw]
  dsimp only
  have hnoted : ({ c with observer := some (w.poll presence).2 } : Cache ι).entries = c.entries := rfl
  revert hnoted
  generalize ({ c with observer := some (w.poll presence).2 } : Cache ι) = noted
  intro hnoted
  rw [← hnoted]
  clear hnoted
  induction (w.poll presence).1 generalizing noted with
  | nil => simp
  | cons watch rest ih =>
    rw [List.foldl_cons, ih, entries_remove, besides, List.filter_filter]
    apply List.filter_congr
    intro e _
    rw [List.any_cons, Bool.not_or, Bool.and_comm]

theorem poll_sublist (c : Cache ι) (presence : Path → Presence) :
    (c.poll presence).2.entries.Sublist c.entries := by
  cases hw : c.observer with
  | none =>
    unfold poll
    rw [hw]
  | some w =>
    rw [entries_poll hw]
    exact List.filter_sublist

/-! ## What a request makes of the list -/

section Request

variable {c' : Cache ι} {h : Handle ι} {now : Nat} (env : Environment σ ι) {s s' : σ}

theorem entries_of_missed (hl : c.lookup now path = (none, c')) :
    c'.entries = besides path c.entries := by
  rcases c.lookup_cases path now with ⟨hvacant, heq⟩ | ⟨e, hfound, _, heq⟩ | ⟨e, _, _, heq⟩
  · rw [heq] at hl
    cases hl
    exact (besides_of_vacant hvacant).symm
  · rw [heq] at hl
    cases hl
    exact entries_expel_of_found hfound .expired
  · rw [heq] at hl
    cases hl

theorem entries_of_hit (hl : c.lookup now path = (some h, c')) :
    c'.entries = besides path c.entries ++ [⟨h, now⟩] := by
  rcases c.lookup_cases path now with ⟨_, heq⟩ | ⟨e, _, _, heq⟩ | ⟨e, hfound, _, heq⟩
  · rw [heq] at hl
    cases hl
  · rw [heq] at hl
    cases hl
  · rw [heq] at hl
    cases hl
    exact entries_touch_of_found hfound now

/-- The list ends in a new entry, and before it stand old entries of other paths, in their order. -/
def Renewed (path : Path) (es es' : List (Entry ι)) (e : Entry ι) : Prop :=
  ∃ kept, kept.Sublist (besides path es) ∧ es' = kept ++ [e]

theorem Renewed.of_sublist {es' es'' : List (Entry ι)} {e : Entry ι}
    (h : Renewed path es' es'' e) (hsub : es'.Sublist es) : Renewed path es es'' e := by
  obtain ⟨kept, hkept, heq⟩ := h
  exact ⟨kept, hkept.trans (hsub.filter _), heq⟩

/-- What becomes of the entries when a request for a path is answered. -/
def Answered (path : Path) (now : Nat) (es es' : List (Entry ι)) :
    Except Error (Handle ι) → Prop
  | .ok h => Renewed path es es' ⟨h, now⟩
  | .error _ => es'.Sublist es

theorem Answered.of_sublist {es' es'' : List (Entry ι)} {r : Except Error (Handle ι)}
    (h : Answered path now es' es'' r) (hsub : es'.Sublist es) : Answered path now es es'' r := by
  cases r with
  | error e => exact List.Sublist.trans h hsub
  | ok handle => exact Renewed.of_sublist h hsub

theorem discard_sublist (c : Cache ι) (h : Handle ι) :
    (c.discard h).entries.Sublist c.entries := by
  rw [(c.frame_discard h).entries]
  exact List.Sublist.refl _

theorem Sound.answered_accept (hc : c.Sound) (h : Handle ι) (s : σ) :
    Answered h.path (env.now s) c.entries (c.accept env h s).2.entries (c.accept env h s).1 := by
  rcases c.accept_cases env h s with ⟨_, _, _, heq⟩ | ⟨_, _, heq⟩ | ⟨_, _, heq⟩
  · rw [heq]
    exact discard_sublist c h
  · rw [heq]
    exact discard_sublist c h
  · rw [heq]
    refine ⟨_, ?_, rfl⟩
    rw [hc.entries_clear env h s]
    exact roomy_sublist _ _ _

theorem Sound.answered_loadAndInsert (hc : c.Sound) (path : Path) (s : σ) :
    Answered path (env.now (c.loadAndInsert env path s).2.2) c.entries
      (c.loadAndInsert env path s).2.1.entries (c.loadAndInsert env path s).1 := by
  have hsound := (lookup_moves (p := []) (n := 0) path (env.now s)).sound hc
  unfold loadAndInsert
  rcases hl : c.lookup (env.now s) path with ⟨_ | h, c₁⟩
  · rw [hl] at hsound
    have hleft : c₁.entries.Sublist c.entries := by
      rw [entries_of_missed hl]
      exact besides_sublist path _
    rcases c₁.fetch_cases env path s with ⟨_, heq⟩ | ⟨_, e, s', _, heq⟩ | ⟨_, index, s', _, heq⟩
    · simp only [heq]
      exact hleft
    · simp only [heq]
      exact hleft
    · simp only [heq]
      have hloaded : ({ c₁ with
          made := c₁.made + 1
          tally := { c₁.tally with loads := c₁.tally.loads + 1 } } : Cache ι).Sound :=
        ⟨hsound.apart, hsound.weight⟩
      exact (hloaded.answered_accept env (c₁.nextHandle env path index) s').of_sublist hleft
  · exact ⟨_, List.Sublist.refl _, entries_of_hit hl⟩

theorem Sound.answered_get (hc : c.Sound) (path : Path) (s : σ) :
    Answered path (env.now (c.get env path s).2.2) c.entries (c.get env path s).2.1.entries
      (c.get env path s).1 := by
  rcases c.get_cases env path s with ⟨_, heq⟩ | ⟨_, e, _, heq⟩ | ⟨_, _, h, c₁, hl, heq⟩ |
    ⟨_, _, c₁, hl, heq⟩
  · rw [heq]
    exact List.Sublist.refl _
  · rw [heq]
    exact List.Sublist.refl _
  · have hhit : Renewed path c.entries c₁.entries ⟨h, env.now s⟩ :=
      ⟨_, List.Sublist.refl _, entries_of_hit hl⟩
    rw [heq]
    exact hhit
  · have hsound := (lookup_moves (p := []) (n := 0) path (env.now s)).sound hc
    rw [hl] at hsound
    have hleft : c₁.entries.Sublist c.entries := by
      rw [entries_of_missed hl]
      exact besides_sublist path _
    have hcounted : ({ c₁ with tally := { c₁.tally with misses := c₁.tally.misses + 1 } } :
        Cache ι).Sound := ⟨hsound.apart, hsound.weight⟩
    rw [heq]
    exact (hcounted.answered_loadAndInsert env path s).of_sublist hleft

theorem Sound.answered_put (hc : c.Sound) (path : Path) (index : ι) (s : σ) :
    Answered path (env.now s) c.entries (c.put env path index s).2.entries
      (c.put env path index s).1 := by
  have hmade : ({ c with made := c.made + 1 } : Cache ι).Sound := ⟨hc.apart, hc.weight⟩
  rcases c.put_cases env path s index with ⟨_, heq⟩ | ⟨_, e, _, heq⟩ | ⟨_, _, heq⟩
  · rw [heq]
    exact discard_sublist _ _
  · rw [heq]
    exact discard_sublist _ _
  · rw [heq]
    exact hmade.answered_accept env (c.nextHandle env path index) s

end Request

/-! ## The order of accesses -/

/-- The entries stand in the order of their last accesses, none of which is still to come. -/
structure Ordered (now : Nat) (es : List (Entry ι)) : Prop where
  rising : es.Pairwise (·.lastAccess ≤ ·.lastAccess)
  past : ∀ e ∈ es, e.lastAccess ≤ now

theorem ordered_nil (now : Nat) : Ordered now ([] : List (Entry ι)) :=
  ⟨List.Pairwise.nil, List.forall_mem_nil _⟩

theorem Ordered.later {now now' : Nat} (h : Ordered now es) (hle : now ≤ now') :
    Ordered now' es :=
  ⟨h.rising, fun e he => Nat.le_trans (h.past e he) hle⟩

theorem Ordered.sublist {now : Nat} (h : Ordered now es) (hsub : idle.Sublist es) :
    Ordered now idle :=
  ⟨h.rising.sublist hsub, fun e he => h.past e (hsub.subset he)⟩

theorem Ordered.concat {now : Nat} (h : Ordered now es) {e : Entry ι}
    (he : e.lastAccess = now) : Ordered now (es ++ [e]) := by
  refine ⟨?_, ?_⟩
  · rw [List.pairwise_append]
    refine ⟨h.rising, List.pairwise_singleton _ _, ?_⟩
    intro a ha b hb
    rw [List.mem_singleton.mp hb, he]
    exact h.past a ha
  · intro a ha
    rcases List.mem_append.mp ha with ha | ha
    · exact h.past a ha
    · rw [List.mem_singleton.mp ha, he]

/-! ## Idle entries -/

theorem isExpired_congr {c' : Cache ι} (h : c'.config = c.config) : c'.isExpired = c.isExpired := by
  funext now e
  unfold isExpired idleLimit
  rw [h]

theorem isExpired_iff {now : Nat} {e : Entry ι} :
    c.isExpired now e = true ↔
      ∃ limit, c.idleLimit = some limit ∧ limit ≤ now - e.lastAccess := by
  unfold isExpired
  cases c.idleLimit with
  | none => simp
  | some limit => simp

theorem isExpired_of_le {now now' : Nat} {e e' : Entry ι} (hidle : c.isExpired now e = true)
    (hle : now - e.lastAccess ≤ now' - e'.lastAccess) : c.isExpired now' e' = true := by
  rw [isExpired_iff] at hidle ⊢
  obtain ⟨limit, hlimit, hle'⟩ := hidle
  exact ⟨limit, hlimit, Nat.le_trans hle' hle⟩

/-- In the order of accesses the idle entries come first. -/
theorem Ordered.idle_append {now : Nat} (h : Ordered now es) :
    es = es.filter (c.isExpired now) ++ es.filter (!c.isExpired now ·) := by
  induction es with
  | nil => rfl
  | cons e rest ih =>
    have hrest : Ordered now rest := h.sublist (List.sublist_cons_self e rest)
    cases hidle : c.isExpired now e with
    | true =>
      rw [List.filter_cons_of_pos hidle, List.filter_cons_of_neg (by simp [hidle]),
        List.cons_append, ← ih hrest]
    | false =>
      have hlater : ∀ e' ∈ rest, c.isExpired now e' = false := by
        intro e' he'
        have hle : e.lastAccess ≤ e'.lastAccess := List.rel_of_pairwise_cons h.rising he'
        by_contra hidle'
        rw [Bool.not_eq_false] at hidle'
        have hcon := isExpired_of_le hidle' (Nat.sub_le_sub_left hle now)
        rw [hidle] at hcon
        cases hcon
      rw [List.filter_cons_of_neg (by simp [hidle]), List.filter_cons_of_pos (by simp [hidle]),
        List.filter_eq_nil_iff.mpr (by simpa using hlater), List.nil_append,
        List.filter_eq_self.mpr (by simpa using hlater)]

end Sidecar.Cache
