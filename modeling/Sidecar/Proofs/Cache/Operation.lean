import Sidecar.Proofs.Cache.Move

/-!
# Every operation is a sequence of moves

For the parts of a miss there is first a lemma that says everything the part can do, with the guards
under which it does it (`lookup_cases`, `fetch_cases`, `accept_cases`); whoever needs one of these
functions splits on that and never unfolds it. From them come `get` and `put`, then sweeping, polling
and shutting down, and then whatever an `Action` does to a cache in service. The last two statements
are the ones that invariants are proved with: `Service.act_moves` for one action and
`Service.run_moves` for a run.

All operations take a `Sound` cache. What they need of it is that several entries can be expelled in
a row (`Sound.expelAll_moves`) and that making room makes enough room (`Sound.makeRoom_fits`).
-/

set_option autoImplicit false

namespace Sidecar

open Relation

variable {σ ι : Type}

namespace Cache

section Miss

variable (env : Environment σ ι) (c : Cache ι) (h : Handle ι) (path : Path) (s : σ)

/-! ## The parts of a miss -/

def nextHandle (index : ι) : Handle ι := { id := c.made, path, size := env.size index, index }

theorem lookup_cases (now : Nat) :
    (c.entry? path = none ∧ c.lookup now path = (none, c)) ∨
    (∃ e, c.entry? path = some e ∧ c.isExpired now e = true ∧
      c.lookup now path = (none, c.expel .expired e)) ∨
    (∃ e, c.entry? path = some e ∧ c.isExpired now e = false ∧
      c.lookup now path = (some e.handle, c.touch now e)) := by
  unfold lookup
  cases he : c.entry? path with
  | none => exact Or.inl ⟨rfl, rfl⟩
  | some e =>
    cases hexp : c.isExpired now e with
    | true => exact Or.inr (Or.inl ⟨e, rfl, hexp, by simp [hexp]⟩)
    | false => exact Or.inr (Or.inr ⟨e, rfl, hexp, by simp [hexp]⟩)

theorem fetch_cases :
    (c.isShutDown = true ∧ c.fetch env path s = (.error .shutDown, c, s)) ∨
    (c.isShutDown = false ∧ ∃ e s', env.load path s = (.error e, s') ∧
      c.fetch env path s = (.error e,
        { c with tally := { c.tally with loadFailures := c.tally.loadFailures + 1 } }, s')) ∨
    (c.isShutDown = false ∧ ∃ index s', env.load path s = (.ok index, s') ∧
      c.fetch env path s = (.ok (c.nextHandle env path index),
        { c with
          made := c.made + 1
          tally := { c.tally with loads := c.tally.loads + 1 } }, s')) := by
  unfold fetch
  cases hs : c.isShutDown with
  | true => exact Or.inl ⟨rfl, rfl⟩
  | false =>
    rcases hl : env.load path s with ⟨e | index, s'⟩
    · exact Or.inr (Or.inl ⟨rfl, e, s', rfl, rfl⟩)
    · exact Or.inr (Or.inr ⟨rfl, index, s', rfl, rfl⟩)

/-- What `accept` does before it inserts. -/
def clear : Cache ι :=
  ((c.watch (env.presence s h.path) h.path).remove h.path .replaced).2.makeRoom h.size

/-- Whether a handle is not too heavy by itself. -/
def Fits : Prop := ∀ budget, c.config.weightBudget = some budget → h.size ≤ budget

theorem fits_iff : c.Fits h ↔ c.exceededBudget? h = none := by
  unfold Fits exceededBudget?
  cases c.config.weightBudget with
  | none => simp
  | some budget => simp [Option.filter_eq_none_iff]

theorem accept_cases :
    (∃ budget, c.config.weightBudget = some budget ∧ budget < h.size ∧
      c.accept env h s = (.error (.weightBudgetExceeded h.path.text h.size budget), c.discard h)) ∨
    (c.Fits h ∧ c.isShutDown = true ∧ c.accept env h s = (.error .shutDown, c.discard h)) ∨
    (c.Fits h ∧ c.isShutDown = false ∧
      c.accept env h s = (.ok h, (clear env c h s).insert (env.now s) h)) := by
  unfold accept
  cases hb : c.exceededBudget? h with
  | some budget =>
    unfold exceededBudget? at hb
    rw [Option.filter_eq_some_iff] at hb
    exact Or.inl ⟨budget, hb.1, by simpa using hb.2, rfl⟩
  | none =>
    have hfits := (c.fits_iff h).mpr hb
    cases hs : c.isShutDown with
    | true => exact Or.inr (Or.inl ⟨hfits, rfl, rfl⟩)
    | false => exact Or.inr (Or.inr ⟨hfits, rfl, rfl⟩)

/-! ## The two ways to a handle -/

theorem get_cases :
    (c.isShutDown = true ∧ c.get env path s = (.error .shutDown, c, s)) ∨
    (c.isShutDown = false ∧ ∃ e, validateKey path = .error e ∧
      c.get env path s = (.error e, c, s)) ∨
    (c.isShutDown = false ∧ validateKey path = .ok () ∧
      ∃ h c₁, c.lookup (env.now s) path = (some h, c₁) ∧
        c.get env path s
          = (.ok h, { c₁ with tally := { c₁.tally with hits := c₁.tally.hits + 1 } }, s)) ∨
    (c.isShutDown = false ∧ validateKey path = .ok () ∧
      ∃ c₁, c.lookup (env.now s) path = (none, c₁) ∧
        c.get env path s = loadAndInsert env path
          { c₁ with tally := { c₁.tally with misses := c₁.tally.misses + 1 } } s) := by
  unfold get request
  cases hs : c.isShutDown with
  | true => exact Or.inl ⟨rfl, rfl⟩
  | false =>
    refine Or.inr ?_
    rcases hk : validateKey path with e | ⟨⟩
    · exact Or.inl ⟨rfl, e, rfl, rfl⟩
    · refine Or.inr ?_
      rcases hl : c.lookup (env.now s) path with ⟨_ | h, c₁⟩
      · exact Or.inr ⟨rfl, rfl, c₁, rfl, rfl⟩
      · exact Or.inl ⟨rfl, rfl, h, c₁, rfl, rfl⟩

theorem put_cases (index : ι) :
    (c.isShutDown = true ∧ c.put env path index s
      = (.error .shutDown, discard { c with made := c.made + 1 } (c.nextHandle env path index))) ∨
    (c.isShutDown = false ∧ ∃ e, validateKey path = .error e ∧ c.put env path index s
      = (.error e, discard { c with made := c.made + 1 } (c.nextHandle env path index))) ∨
    (c.isShutDown = false ∧ validateKey path = .ok () ∧ c.put env path index s
      = accept env (c.nextHandle env path index) { c with made := c.made + 1 } s) := by
  unfold put mint
  cases hs : c.isShutDown with
  | true => exact Or.inl ⟨rfl, rfl⟩
  | false =>
    rcases hk : validateKey path with e | ⟨⟩
    · exact Or.inr (Or.inl ⟨rfl, e, rfl, rfl⟩)
    · exact Or.inr (Or.inr ⟨rfl, rfl, rfl⟩)

end Miss

/-! ## Operations as moves -/

section Operations

variable {c : Cache ι} {p : List Nat} {n : Nat} (env : Environment σ ι) (path : Path) (s : σ)

theorem lookup_moves (now : Nat) : Moves ⟨c, p, n⟩ ⟨(c.lookup now path).2, p, n⟩ := by
  rcases c.lookup_cases path now with ⟨_, heq⟩ | ⟨e, he, _, heq⟩ | ⟨e, he, _, heq⟩
  · rw [heq]
  · rw [heq]
    exact .one (.expel _ (mem_of_found he))
  · rw [heq]
    exact .one (.touch now (mem_of_found he))

theorem clear_moves (hc : c.Sound) (h : Handle ι) :
    Moves ⟨c, p, n⟩ ⟨clear env c h s, p, n⟩ := by
  have hwatch : Moves ⟨c, p, n⟩ ⟨c.watch (env.presence s h.path) h.path, p, n⟩ :=
    .one (.note _ c.lags rfl)
  have hremove := hwatch.trans (remove_moves h.path .replaced)
  exact hremove.trans ((Moves.sound hremove hc).makeRoom_moves h.size)

theorem clear_config (h : Handle ι) : (clear env c h s).config = c.config := by
  unfold clear
  rw [makeRoom_config]
  unfold remove
  split
  · rfl
  · exact expel_config _ _ _

theorem clear_vacant (h : Handle ι) : entry? (clear env c h s) h.path = none :=
  vacant_of_subset (vacant_remove _ h.path .replaced) (makeRoom_subset h.size)

theorem clear_fits (hc : c.Sound) {h : Handle ι} (hfits : c.Fits h) {budget : Nat}
    (hb : c.config.weightBudget = some budget) :
    (clear env c h s).weight + h.size ≤ budget := by
  have hwatch : (c.watch (env.presence s h.path) h.path).Sound := ⟨hc.apart, hc.weight⟩
  have hremove := (remove_moves (p := []) (n := 0) h.path .replaced).sound hwatch
  refine hremove.makeRoom_fits ?_ (hfits budget hb)
  unfold remove
  split
  · exact hb
  · exact (congrArg CacheConfig.weightBudget (expel_config _ _ _)).trans hb

theorem accept_moves (hc : c.Sound) (h : Handle ι) :
    Moves ⟨c, h.id :: p, n⟩ ⟨(c.accept env h s).2, p, n⟩ := by
  rcases c.accept_cases env h s with ⟨_, _, _, heq⟩ | ⟨_, _, heq⟩ | ⟨hfits, _, heq⟩
  · rw [heq]
    exact .one (.discard h)
  · rw [heq]
    exact .one (.discard h)
  · rw [heq]
    -- Both conditions of the insertion are what clearing was for.
    refine (clear_moves env s hc h).tail (.insert _ (clear_vacant env s h) ?_)
    intro budget hb
    rw [clear_config] at hb
    exact clear_fits env s hc hfits hb

theorem loadAndInsert_moves (hc : c.Sound) :
    Moves ⟨c, p, n⟩ ⟨(c.loadAndInsert env path s).2.1, p, n⟩ := by
  have hlookup := lookup_moves (c := c) (p := p) (n := n) path (env.now s)
  unfold loadAndInsert
  rcases hl : c.lookup (env.now s) path with ⟨_ | h, c₁⟩
  · rw [hl] at hlookup
    rcases c₁.fetch_cases env path s with ⟨_, heq⟩ | ⟨_, e, s', _, heq⟩ | ⟨_, index, s', _, heq⟩
    · simp only [heq]
      exact hlookup
    · simp only [heq]
      exact hlookup.tail (.note _ _ rfl)
    · have hloaded := hlookup.tail Move.load
      simp only [heq]
      exact hloaded.trans (accept_moves env s' (Moves.sound hloaded hc) (c₁.nextHandle env path index))
  · rw [hl] at hlookup
    exact hlookup

theorem get_moves (hc : c.Sound) : Moves ⟨c, p, n⟩ ⟨(c.get env path s).2.1, p, n⟩ := by
  have hlookup := lookup_moves (c := c) (p := p) (n := n) path (env.now s)
  rcases c.get_cases env path s with ⟨_, heq⟩ | ⟨_, e, _, heq⟩ | ⟨_, _, h, c₁, hl, heq⟩ |
    ⟨_, _, c₁, hl, heq⟩
  · rw [heq]
  · rw [heq]
  · rw [hl] at hlookup
    rw [heq]
    exact hlookup.tail (.note _ _ rfl)
  · rw [hl] at hlookup
    have hcounted : Moves ⟨c, p, n⟩
        ⟨{ c₁ with tally := { c₁.tally with misses := c₁.tally.misses + 1 } }, p, n⟩ :=
      hlookup.tail (.note _ _ rfl)
    rw [heq]
    exact hcounted.trans (loadAndInsert_moves env path s (Moves.sound hcounted hc))

theorem put_moves (hc : c.Sound) (index : ι) :
    Moves ⟨c, p, n⟩ ⟨(c.put env path index s).2, p, n + 1⟩ := by
  have hmade : Moves ⟨c, p, n⟩ ⟨{ c with made := c.made + 1 }, c.made :: p, n + 1⟩ :=
    .one .offer
  rcases c.put_cases env path s index with ⟨_, heq⟩ | ⟨_, e, _, heq⟩ | ⟨_, _, heq⟩
  · rw [heq]
    exact hmade.tail (.discard (c.nextHandle env path index))
  · rw [heq]
    exact hmade.tail (.discard (c.nextHandle env path index))
  · rw [heq]
    exact hmade.trans (accept_moves env s (Moves.sound hmade hc) (c.nextHandle env path index))

theorem sweep_moves (hc : c.Sound) (now : Nat) : Moves ⟨c, p, n⟩ ⟨(c.sweep now).2, p, n⟩ := by
  unfold sweep
  split
  · exact .refl
  · have hidle := hc.expelAll_moves (p := p) (n := n) .expired
      (List.filter_sublist (p := c.isExpired now))
    exact hidle.trans ((Moves.sound hidle hc).makeRoom_moves 0)

theorem poll_moves (presence : Path → Presence) :
    Moves ⟨c, p, n⟩ ⟨(c.poll presence).2, p, n⟩ := by
  unfold poll
  split
  · exact .refl
  · exact .head (.note _ c.lags rfl) (foldl_remove_moves _ _ _)

theorem runReleases_moves (k : Nat) : Moves ⟨c, p, n⟩ ⟨runReleases k c, p, n⟩ := by
  induction k generalizing c with
  | zero => exact .refl
  | succ k ih => exact .head .release ih

theorem shutdown_moves (hc : c.Sound) : Moves ⟨c, p, n⟩ ⟨c.shutdown, p, n⟩ := by
  unfold shutdown
  split
  · exact .refl
  · have hclosed : ({ c with isShutDown := true } : Cache ι).Sound := ⟨hc.apart, hc.weight⟩
    refine .head .close (.tail (.trans ?_ (runReleases_moves _)) .retire)
    exact hclosed.expelAll_moves .shutdown (List.Sublist.refl _)

end Operations

end Cache

/-! ## Actions as moves -/

namespace Service

variable (env : Environment σ ι)

theorem perform_moves (action : Action σ ι) (s : Service σ ι) (hs : s.cache.Sound) (n : Nat) :
    Moves ⟨s.cache, [], n⟩
      ⟨(s.perform env action).2.cache, [], n + if action.isPut then 1 else 0⟩ := by
  cases action with
  | get path =>
    have h := Cache.get_moves (p := []) (n := n) env path s.world hs
    simp only [perform, grant]
    split <;> exact h
  | put path index =>
    have h := Cache.put_moves (p := []) (n := n) env path s.world hs index
    simp only [perform, grant]
    split <;> exact h
  | query id vector k =>
    simp only [perform]
    split <;> exact .refl
  | invalidate path => exact Cache.remove_moves path .explicit
  | sweep => exact Cache.sweep_moves hs (env.now s.world)
  | poll => exact Cache.poll_moves (env.presence s.world)
  | shutdown => exact Cache.shutdown_moves hs
  | share id => exact .refl
  | drop id => exact .refl
  | release => exact .one .release
  | drain => exact Cache.runReleases_moves _
  | lag lags => exact .one (.note s.cache.observer lags rfl)
  | blind => exact .one (.note (s.cache.observer.map (·.shutdown)) s.cache.lags rfl)
  | drift world => exact .refl

theorem act_moves (action : Action σ ι) {s : Service σ ι} (hs : s.cache.Sound) (n : Nat) :
    Moves ⟨s.cache, [], n⟩
      ⟨(s.act env action).2.cache, [], n + if action.isPut then 1 else 0⟩ :=
  (perform_moves env action s hs n).tail (.settle _)

/-- Whatever happens to a cache in service, the cache makes moves, and it is handed an index for
every `put` among what happens. -/
theorem run_moves (actions : List (Action σ ι)) {s : Service σ ι} (hs : s.cache.Sound) (n : Nat) :
    Moves ⟨s.cache, [], n⟩
      ⟨(s.run env actions).cache, [], n + actions.countP Action.isPut⟩ := by
  -- On the actions; the count goes up with the state, so both are generalized.
  induction actions generalizing s n with
  | nil => exact .refl
  | cons action rest ih =>
    have hact := act_moves env action hs n
    have hrest := ih (Moves.sound hact hs) (n + if action.isPut then 1 else 0)
    rw [List.countP_cons, Nat.add_comm (List.countP _ _), ← Nat.add_assoc]
    exact hact.trans hrest

theorem start_sound (config : CacheConfig) (observer : Option (Watcher Unit)) (world : σ) :
    (start (ι := ι) config observer world).cache.Sound :=
  ⟨List.nodup_nil, rfl⟩

theorem run_sound (actions : List (Action σ ι)) {s : Service σ ι} (hs : s.cache.Sound) :
    (s.run env actions).cache.Sound :=
  Moves.sound (run_moves env actions hs 0) hs

end Service

end Sidecar
