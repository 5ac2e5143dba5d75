import Sidecar.Proofs.Cache.Custody

/-!
# Which handles are valid

A handle that was handed out is the live one under its key, or it has departed, and no third thing
(`Cache.Accounted`). This is what a move preserves: only `expel` takes an entry away, and it writes a
departure for the very entry that it takes. Together with the ledger, which says that a departed
handle is invalidated and that a live one is not, it makes the flag, the map and the record of
departures three ways to say one thing.

That a `get` or a `put` answers with a live handle is no invariant but a fact about the operations,
and it is proved from what they do last: they touch an entry or insert one, and the key of either is
found again (`found_of_touch`, `found_of_insert`).
-/

set_option autoImplicit false

namespace Sidecar

variable {σ ι : Type}

namespace Cache

variable {c : Cache ι} {e : Entry ι} {h : Handle ι} {path : Path}

/-- The live handle of a path. -/
def liveHandle? (c : Cache ι) (path : Path) : Option (Handle ι) :=
  (c.entry? path).map (·.handle)

/-- A handle is a live entry, or it has left. -/
def Accounted (c : Cache ι) (h : Handle ι) : Prop :=
  (∃ e ∈ c.entries, e.handle = h) ∨ ∃ reason, (h.id, reason) ∈ c.departures

/-! ## Finding what is there -/

theorem Sound.eq_of_key (hc : c.Sound) {e' : Entry ι} (he : e ∈ c.entries) (he' : e' ∈ c.entries)
    (hkey : e'.key = e.key) : e' = e :=
  List.inj_on_of_nodup_map hc.apart he' he hkey

theorem Sound.found_of_mem (hc : c.Sound) (he : e ∈ c.entries)
    (hsame : e.handle.path.sameKey path = true) : c.entry? path = some e := by
  cases hfound : c.entry? path with
  | none =>
    have hno := vacant_iff.mp hfound e he
    rw [hsame] at hno
    exact absurd hno nofun
  | some e' =>
    have hkey : e'.handle.path.sameKey e.handle.path = true :=
      Path.sameKey_trans (key_of_found hfound) (Path.sameKey_comm hsame)
    rw [hc.eq_of_key he (mem_of_found hfound) (Entry.sameKey_iff.mp hkey)]

theorem found_of_touch (hfound : c.entry? path = some e) (now : Nat) :
    entry? (c.touch now e) path = some { e with lastAccess := now } := by
  have hother := vacant_filter hfound
  have hkey : e.handle.path.sameKey path = true := key_of_found hfound
  unfold entry?
  rw [touch_entries, List.find?_append, List.find?_eq_none.mpr (by simpa using hother),
    Option.none_or]
  exact List.find?_cons_of_pos hkey

theorem found_of_insert (hfree : c.entry? h.path = none) (now : Nat) :
    entry? (c.insert now h) h.path = some { handle := h, lastAccess := now } := by
  have hnone : c.entries.find? (·.handle.path.sameKey h.path) = none := hfree
  unfold entry? insert
  rw [List.find?_append, hnone, Option.none_or]
  exact List.find?_cons_of_pos (Path.sameKey_refl _)

theorem Sound.mem_handles_touch (hc : c.Sound) (now : Nat) (he : e ∈ c.entries) {e' : Entry ι}
    (he' : e' ∈ c.entries) : ∃ e'' ∈ (c.touch now e).entries, e''.handle = e'.handle := by
  obtain ⟨front, back, hsplit, hfilter⟩ := hc.split he
  rw [hsplit, List.mem_append, List.mem_cons] at he'
  rw [touch_entries, hfilter]
  rcases he' with hfront | rfl | hback
  · exact ⟨e', List.mem_append_left _ (List.mem_append_left _ hfront), rfl⟩
  · exact ⟨_, List.mem_append_right _ (List.mem_singleton_self _), rfl⟩
  · exact ⟨e', List.mem_append_left _ (List.mem_append_right _ hback), rfl⟩

theorem Sound.accounted_expel (hc : c.Sound) (reason : RemovalReason) (he : e ∈ c.entries)
    (hacc : c.Accounted h) : (c.expel reason e).Accounted h := by
  obtain ⟨front, back, hsplit, hfilter⟩ := hc.split he
  unfold Accounted
  rw [expel_entries, expel_departures, hfilter]
  rcases hacc with ⟨e', he', rfl⟩ | ⟨other, hgone⟩
  · rw [hsplit, List.mem_append, List.mem_cons] at he'
    rcases he' with hfront | rfl | hback
    · exact Or.inl ⟨e', List.mem_append_left _ hfront, rfl⟩
    · exact Or.inr ⟨reason, List.mem_append_right _ (List.mem_singleton_self _)⟩
    · exact Or.inl ⟨e', List.mem_append_right _ hback, rfl⟩
  · exact Or.inr ⟨other, List.mem_append_left _ hgone⟩

theorem Accounted.of_frame {c' : Cache ι} (hacc : c.Accounted h) (hf : Frame c c') :
    c'.Accounted h := by
  unfold Accounted
  rw [hf.entries, hf.departures]
  exact hacc

end Cache

/-! ## The moves account for every handle -/

theorem Move.accounted {s t : Stage ι} {h : Handle ι} (hmove : Move s t) (hc : s.cache.Sound)
    (hs : s.cache.Accounted h) : t.cache.Accounted h := by
  cases hmove with
  | touch now he =>
    rcases hs with ⟨e', he', rfl⟩ | hgone
    · exact Or.inl (hc.mem_handles_touch now he he')
    · exact Or.inr hgone
  | expel reason he => exact hc.accounted_expel reason he hs
  | insert now _ _ =>
    rcases hs with ⟨e', he', heq⟩ | hgone
    · exact Or.inl ⟨e', List.mem_append_left _ he', heq⟩
    · exact Or.inr hgone
  | @discard c _ _ h' =>
    have hmarked : (c.markInvalidated h'.id).Accounted h := hs
    exact hmarked.of_frame (c.frame_discard h')
  | release => exact hs.of_frame (Cache.frame_runRelease _)
  | settle held => exact hs.of_frame (Cache.frame_settle held _)
  | load | offer | note _ _ _ | close | retire => exact hs

theorem Moves.accounted {s t : Stage ι} {h : Handle ι} (hmoves : Moves s t) (hc : s.cache.Sound)
    (hs : s.cache.Accounted h) : t.cache.Accounted h :=
  (hmoves.preserve (P := fun s => s.cache.Sound ∧ s.cache.Accounted h)
    (fun hstep hp => ⟨hstep.sound hp.1, hstep.accounted hp.1 hp.2⟩) ⟨hc, hs⟩).2

/-! ## What the operations answer -/

namespace Cache

variable {c c' : Cache ι} {h : Handle ι} {path : Path} (env : Environment σ ι) {s s' : σ}

theorem live_of_lookup {now : Nat} (hl : c.lookup now path = (some h, c')) :
    c'.liveHandle? path = some h := by
  rcases c.lookup_cases path now with ⟨_, heq⟩ | ⟨e, _, _, heq⟩ | ⟨e, hfound, _, heq⟩
  · rw [heq] at hl
    exact absurd hl nofun
  · rw [heq] at hl
    exact absurd hl nofun
  · rw [heq, Prod.mk.injEq, Option.some.injEq] at hl
    rw [← hl.1, ← hl.2, liveHandle?, found_of_touch hfound]
    rfl

theorem live_of_accept {made : Handle ι} (ha : c.accept env made s = (.ok h, c')) :
    made = h ∧ c'.liveHandle? made.path = some h := by
  rcases c.accept_cases env made s with ⟨_, _, _, heq⟩ | ⟨_, _, heq⟩ | ⟨_, _, heq⟩
  · rw [heq] at ha
    exact absurd ha nofun
  · rw [heq] at ha
    exact absurd ha nofun
  · rw [heq, Prod.mk.injEq, Except.ok.injEq] at ha
    rw [← ha.1, ← ha.2, liveHandle?, found_of_insert (clear_vacant env s made)]
    exact ⟨rfl, rfl⟩

theorem live_of_loadAndInsert (hl : c.loadAndInsert env path s = (.ok h, c', s')) :
    c'.liveHandle? path = some h := by
  unfold loadAndInsert at hl
  rcases hlook : c.lookup (env.now s) path with ⟨_ | h₀, c₁⟩
  · simp only [hlook] at hl
    rcases c₁.fetch_cases env path s with ⟨_, heq⟩ | ⟨_, e, s₁, _, heq⟩ | ⟨_, index, s₁, _, heq⟩
    · simp only [heq] at hl
      exact absurd hl nofun
    · simp only [heq] at hl
      exact absurd hl nofun
    · simp only [heq, Prod.mk.injEq] at hl
      exact (live_of_accept env (Prod.ext hl.1 hl.2.1)).2
  · simp only [hlook, Prod.mk.injEq, Except.ok.injEq] at hl
    rw [← hl.1, ← hl.2.1]
    exact live_of_lookup hlook

theorem live_of_get (hget : c.get env path s = (.ok h, c', s')) :
    c'.liveHandle? path = some h := by
  rcases c.get_cases env path s with ⟨_, heq⟩ | ⟨_, e, _, heq⟩ | ⟨_, _, h₁, c₁, hl, heq⟩ |
    ⟨_, _, c₁, _, heq⟩
  · rw [heq] at hget
    exact absurd hget nofun
  · rw [heq] at hget
    exact absurd hget nofun
  · rw [heq, Prod.mk.injEq, Prod.mk.injEq, Except.ok.injEq] at hget
    have hlive : c₁.liveHandle? path = some h₁ := live_of_lookup hl
    rw [← hget.1, ← hget.2.1]
    exact hlive
  · rw [heq] at hget
    exact live_of_loadAndInsert env hget

theorem live_of_put {index : ι} (hput : c.put env path index s = (.ok h, c')) :
    c'.liveHandle? path = some h := by
  rcases c.put_cases env path s index with ⟨_, heq⟩ | ⟨_, e, _, heq⟩ | ⟨_, _, heq⟩
  · rw [heq] at hput
    exact absurd hput nofun
  · rw [heq] at hput
    exact absurd hput nofun
  · rw [heq] at hput
    exact (live_of_accept env hput).2

end Cache

namespace Service

/-! ## Handles that were handed out -/

/-- What a caller may expect of the answer to a `get` or a `put` for a path. -/
structure Usable (s : Service σ ι) (path : Path) (h : Handle ι) : Prop where
  live : s.cache.liveHandle? path = some h
  valid : s.cache.isInvalidated h = false
  kept : s.cache.isReleased h = false

/-- No `get` answers with the handle, whatever its path, and no query through the handle reaches an
engine, whichever it is. -/
structure Dead (env : Environment σ ι) (s : Service σ ι) (h : Handle ι) : Prop where
  gone : ∀ path h', (s.act env (.get path)).1 = .handle (.ok h') → h'.id ≠ h.id
  refused : ∀ (env' : Environment σ ι) vector k world,
    s.cache.query env' h vector k world = (.error (.handleInvalidated h.path.text), world)

/-- What a cache in service keeps up between two actions. -/
structure Consistent (s : Service σ ι) (n : Nat) : Prop where
  sound : s.cache.Sound
  ledger : Stage.Ledger ⟨s.cache, [], n⟩
  accounted : ∀ h ∈ s.granted, s.cache.Accounted h

variable {s : Service σ ι} {n : Nat} {h : Handle ι} {path : Path}

theorem Consistent.not_invalidated (hs : s.Consistent n) {e : Entry ι} (he : e ∈ s.cache.entries) :
    e.handle.id ∉ s.cache.invalidated := fun hmem =>
  hs.ledger.not_behind_of_live (List.mem_map.mpr ⟨e, he, rfl⟩) ((hs.ledger.invalidated _).mp hmem)

theorem mem_of_live (hlive : s.cache.liveHandle? path = some h) :
    ∃ e ∈ s.cache.entries, e.handle = h := by
  obtain ⟨e, hfound, rfl⟩ := Option.map_eq_some_iff.mp hlive
  exact ⟨e, Cache.mem_of_found hfound, rfl⟩

theorem Consistent.usable (hs : s.Consistent n) (hlive : s.cache.liveHandle? path = some h) :
    s.Usable path h := by
  obtain ⟨e, he, rfl⟩ := mem_of_live hlive
  have hvalid := hs.not_invalidated he
  refine ⟨hlive, by simpa [Cache.isInvalidated] using hvalid, ?_⟩
  have hkept : e.handle.id ∉ s.cache.released := fun hmem =>
    hvalid ((hs.ledger.invalidated _).mpr (List.mem_append_right _ hmem))
  simpa [Cache.isReleased] using hkept

theorem Consistent.valid_iff_live (hs : s.Consistent n) (hg : h ∈ s.granted) :
    s.cache.isInvalidated h = false ↔ s.cache.liveHandle? h.path = some h := by
  constructor
  · intro hvalid
    rcases hs.accounted h hg with ⟨e, he, rfl⟩ | ⟨reason, hgone⟩
    · rw [Cache.liveHandle?, hs.sound.found_of_mem he (Path.sameKey_refl _)]
      rfl
    · have hmarked : h.id ∈ s.cache.invalidated := hs.ledger.departed _ hgone
      exact absurd hmarked (by simpa [Cache.isInvalidated] using hvalid)
  · exact fun hlive => (hs.usable hlive).valid

theorem Consistent.invalidated_iff_departed (hs : s.Consistent n) (hg : h ∈ s.granted) :
    s.cache.isInvalidated h = true ↔ ∃ reason, (h.id, reason) ∈ s.cache.departures := by
  have hmem : s.cache.isInvalidated h = true ↔ h.id ∈ s.cache.invalidated :=
    List.contains_iff_mem
  rw [hmem]
  constructor
  · intro hmarked
    rcases hs.accounted h hg with ⟨e, he, rfl⟩ | hgone
    · exact absurd hmarked (hs.not_invalidated he)
    · exact hgone
  · rintro ⟨reason, hgone⟩
    exact hs.ledger.departed _ hgone

/-! ## What an action answers, and what it grants -/

variable (env : Environment σ ι) {action : Action σ ι}

theorem live_settle (s : Service σ ι) (path : Path) :
    s.settle.cache.liveHandle? path = s.cache.liveHandle? path := by
  unfold Cache.liveHandle? Cache.entry? settle
  rw [(Cache.frame_settle s.heldIds s.cache).entries]

theorem live_of_act (hpath : action.path? = some path)
    (hanswer : (s.act env action).1 = .handle (.ok h)) :
    (s.act env action).2.cache.liveHandle? path = some h := by
  refine (live_settle (s.perform env action).2 path).trans ?_
  cases action with
  | get path' =>
    obtain rfl : path' = path := Option.some.inj hpath
    rcases hget : s.cache.get env path' s.world with ⟨result, c', s'⟩
    simp only [act, perform, hget, Answer.handle.injEq] at hanswer ⊢
    rw [hanswer] at hget ⊢
    exact Cache.live_of_get env hget
  | put path' index =>
    obtain rfl : path' = path := Option.some.inj hpath
    rcases hput : s.cache.put env path' index s.world with ⟨result, c'⟩
    simp only [act, perform, hput, Answer.handle.injEq] at hanswer ⊢
    rw [hanswer] at hput ⊢
    exact Cache.live_of_put env hput
  | query _ _ _ | invalidate _ | sweep | poll | shutdown | share _ | drop _ | release | drain
  | lag _ | blind | drift _ => cases hpath

theorem granted_act (hg : h ∈ (s.act env action).2.granted) :
    h ∈ s.granted ∨ ∃ path, action.path? = some path ∧
      (s.act env action).1 = .handle (.ok h) := by
  have hg : h ∈ (s.perform env action).2.granted := hg
  cases action with
  | get path =>
    rcases hget : s.cache.get env path s.world with ⟨e | h', c', s'⟩
    · simp only [perform, hget, grant] at hg
      exact Or.inl hg
    · simp only [perform, hget, grant, List.mem_append, List.mem_singleton] at hg
      refine hg.imp_right fun heq => ⟨path, rfl, ?_⟩
      simp only [act, perform, hget, heq]
  | put path index =>
    rcases hput : s.cache.put env path index s.world with ⟨e | h', c'⟩
    · simp only [perform, hput, grant] at hg
      exact Or.inl hg
    · simp only [perform, hput, grant, List.mem_append, List.mem_singleton] at hg
      refine hg.imp_right fun heq => ⟨path, rfl, ?_⟩
      simp only [act, perform, hput, heq]
  | query id vector k =>
    simp only [perform] at hg
    split at hg <;> exact Or.inl hg
  | invalidate _ | sweep | poll | shutdown | share _ | drop _ | release | drain | lag _ | blind
  | drift _ => exact Or.inl hg

theorem Consistent.act (hs : s.Consistent n) (action : Action σ ι) :
    (s.act env action).2.Consistent (n + if action.isPut then 1 else 0) := by
  have hmoves := act_moves env action hs.sound n
  refine ⟨Moves.sound hmoves hs.sound, Moves.ledger hmoves hs.sound hs.ledger, ?_⟩
  intro h hg
  rcases granted_act env hg with hold | ⟨path, hpath, hanswer⟩
  · exact Moves.accounted hmoves hs.sound (hs.accounted h hold)
  · exact Or.inl (mem_of_live (live_of_act env hpath hanswer))

theorem start_consistent (config : CacheConfig) (observer : Option (Watcher Unit)) (world : σ) :
    (start (ι := ι) config observer world).Consistent 0 :=
  ⟨start_sound config observer world, start_ledger config observer world, nofun⟩

theorem Consistent.run (hs : s.Consistent n) (actions : List (Action σ ι)) :
    ∃ m, (s.run env actions).Consistent m :=
  run_induction (P := fun s => ∃ m, s.Consistent m)
    (fun _ action hstep => hstep.imp' _ fun _ hs => hs.act env action) actions ⟨n, hs⟩

theorem Consistent.invalidated_run (hs : s.Consistent n) (actions : List (Action σ ι))
    (hmarked : s.cache.isInvalidated h = true) :
    (s.run env actions).cache.isInvalidated h = true := by
  have hgrow := (run_moves env actions hs.sound 0).invalidated
  exact List.contains_iff_mem.mpr (hgrow (List.contains_iff_mem.mp hmarked))

theorem Consistent.dead (hs : s.Consistent n) (hmarked : s.cache.isInvalidated h = true) :
    s.Dead env h := by
  refine ⟨?_, ?_⟩
  · intro path h' hanswer heq
    -- The answer is valid, and an invalidated handle stays invalidated through the `get`.
    have hpath : (Action.get path : Action σ ι).path? = some path := rfl
    have hlive := live_of_act env hpath hanswer
    have hvalid := ((hs.act env (.get path)).usable hlive).valid
    have hstays := hs.invalidated_run env [.get path] hmarked
    have hcon : (s.act env (.get path)).2.cache.isInvalidated h' = true := by
      unfold Cache.isInvalidated
      rw [heq]
      exact hstays
    rw [hvalid] at hcon
    exact absurd hcon nofun
  · intro env' vector k world
    unfold Cache.query
    rw [hmarked]
    rfl

end Service

/-! ## Every run -/

/-- **A handle is valid as long as it is the live one under its key.** Of the handles that were
handed out, those that are not invalidated are the live ones and the others have departed; so a path
has at most one that is valid. What is invalidated stays so. Every `get` and every `put` answers with
a handle that is usable then and there; and a handle that departed, for whatever reason, is dead in
every later state. -/
theorem validity_of_handles (env : Environment σ ι) (config : CacheConfig)
    (observer : Option (Watcher Unit)) (world : σ) (actions : List (Action σ ι)) :
    let s := (Service.start config observer world).run env actions
    (∀ h ∈ s.granted,
      (s.cache.isInvalidated h = false ↔ s.cache.liveHandle? h.path = some h) ∧
      (s.cache.isInvalidated h = true ↔ ∃ reason, (h.id, reason) ∈ s.cache.departures)) ∧
    (∀ h ∈ s.granted, ∀ h' ∈ s.granted, h.path.sameKey h'.path = true →
      s.cache.isInvalidated h = false → s.cache.isInvalidated h' = false → h = h') ∧
    (∀ h more, s.cache.isInvalidated h = true → (s.run env more).cache.isInvalidated h = true) ∧
    (∀ action path h, action.path? = some path → (s.act env action).1 = .handle (.ok h) →
      (s.act env action).2.Usable path h) ∧
    ∀ h reason, (h.id, reason) ∈ s.cache.departures → ∀ more, (s.run env more).Dead env h := by
  intro s
  obtain ⟨n, hs⟩ : ∃ n, s.Consistent n :=
    (Service.start_consistent config observer world).run env actions
  refine ⟨fun h hg => ⟨hs.valid_iff_live hg, hs.invalidated_iff_departed hg⟩, ?_, ?_, ?_, ?_⟩
  · intro h hg h' hg' hsame hvalid hvalid'
    obtain ⟨e, hfound, rfl⟩ := Option.map_eq_some_iff.mp ((hs.valid_iff_live hg).mp hvalid)
    obtain ⟨e', hfound', rfl⟩ := Option.map_eq_some_iff.mp ((hs.valid_iff_live hg').mp hvalid')
    have hkey : e.key = e'.key := Entry.sameKey_iff.mp hsame
    rw [hs.sound.eq_of_key (Cache.mem_of_found hfound') (Cache.mem_of_found hfound) hkey]
  · exact fun h more hmarked => hs.invalidated_run env more hmarked
  · intro action path h hpath hanswer
    exact (hs.act env action).usable (Service.live_of_act env hpath hanswer)
  · intro h reason hgone more
    obtain ⟨m, hmore⟩ := hs.run env more
    have hmarked : s.cache.isInvalidated h = true :=
      List.contains_iff_mem.mpr (hs.ledger.departed _ hgone)
    exact hmore.dead env (hs.invalidated_run env more hmarked)

/-- A cache in which a handle was replaced by another. -/
def succession : Service Nat Nat :=
  (Service.start {} none 0).run Environment.clock [.put ⟨"a"⟩ 3, .put ⟨"a"⟩ 5]

/-- The successor is live, and a `get` answers with it; the predecessor is dead from then on. -/
theorem validity_of_succession :
    let first : Handle Nat := ⟨0, ⟨"a"⟩, 3, 3⟩
    let second : Handle Nat := ⟨1, ⟨"a"⟩, 5, 5⟩
    succession.granted = [first, second] ∧
    (0, .replaced) ∈ succession.cache.departures ∧
    succession.cache.isInvalidated first = true ∧
    succession.cache.isInvalidated second = false ∧
    (succession.act Environment.clock (.get ⟨"a"⟩)).2.Usable ⟨"a"⟩ second ∧
    (succession.run Environment.clock [.get ⟨"a"⟩]).Dead Environment.clock first := by
  intro first second
  have hgranted : succession.granted = [first, second] := rfl
  have hgone : (0, .replaced) ∈ succession.cache.departures := List.mem_singleton.mpr rfl
  have hlive : succession.cache.liveHandle? ⟨"a"⟩ = some second := rfl
  have hanswer : (succession.act Environment.clock (.get ⟨"a"⟩)).1 = .handle (.ok second) := rfl
  obtain ⟨hflag, -, -, husable, hdead⟩ := validity_of_handles Environment.clock {} none 0
    [.put ⟨"a"⟩ 3, .put ⟨"a"⟩ 5]
  rw [← succession] at hflag husable hdead
  have hfirst : first ∈ succession.granted := by simp [hgranted]
  have hsecond : second ∈ succession.granted := by simp [hgranted]
  exact ⟨hgranted, hgone, (hflag first hfirst).2.mpr ⟨_, hgone⟩, (hflag second hsecond).1.mpr hlive,
    husable (.get ⟨"a"⟩) ⟨"a"⟩ second rfl hanswer, hdead first .replaced hgone _⟩

end Sidecar
