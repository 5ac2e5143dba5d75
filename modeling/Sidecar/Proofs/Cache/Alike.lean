import Sidecar.Proofs.Cache.Operation

/-!
# What an operation leaves alone

Removing entries, moving them and putting them in changes neither the configuration nor the number
of handles made nor the counters of hits, misses and loads (`Cache.Alike`). Two caches that differ in
their entries only are alike, and stay so when both are operated on.

Of these fields `isShutDown` is left alone by all operations but one: a cache is open until it is
shut down.

A property of a single cache needs no look at the cases of a request. What its look-ups, its counting
and the admission at its end keep, a `get` keeps (`get_keeps`); what removals keep, a poll keeps
(`poll_keeps`).
-/

set_option autoImplicit false

namespace Sidecar

variable {σ ι : Type}

/-- Whether the action shuts the cache down. -/
def Action.isShutdown : Action σ ι → Bool
  | shutdown => true
  | _ => false

namespace Cache

/-- The caches differ in their entries, in what they have given up and in their watches only. -/
structure Alike (c c' : Cache ι) : Prop where
  config : c'.config = c.config
  made : c'.made = c.made
  isShutDown : c'.isShutDown = c.isShutDown
  tally : ∃ n, c'.tally = { c.tally with releases := n }

section Alike

variable {c c' : Cache ι}

theorem Alike.refl (c : Cache ι) : Alike c c := ⟨rfl, rfl, rfl, _, rfl⟩

theorem Alike.symm (h : Alike c c') : Alike c' c := by
  obtain ⟨n, hn⟩ := h.tally
  exact ⟨h.config.symm, h.made.symm, h.isShutDown.symm, c.tally.releases, by rw [hn]⟩

theorem Alike.trans {a b c : Cache ι} (h : Alike a b) (h' : Alike b c) : Alike a c := by
  obtain ⟨n, hn⟩ := h.tally
  obtain ⟨n', hn'⟩ := h'.tally
  exact ⟨h'.config.trans h.config, h'.made.trans h.made, h'.isShutDown.trans h.isShutDown, n',
    by rw [hn', hn]⟩

/-- A change that both caches make keeps them alike. -/
theorem Alike.carry {d d' : Cache ι} (h : Alike c c') (hd : Alike c d) (hd' : Alike c' d') :
    Alike d d' :=
  (hd.symm.trans h).trans hd'

theorem Frame.alike (h : Frame c c') : Alike c c' := ⟨h.config, h.made, h.isShutDown, h.tally⟩

theorem alike_expel (c : Cache ι) (reason : RemovalReason) (e : Entry ι) :
    Alike c (c.expel reason e) := by
  have hstruck : Alike c (c.strike reason e) := ⟨rfl, rfl, rfl, _, rfl⟩
  exact hstruck.trans (c.frame_expel reason e).alike

theorem alike_discard (c : Cache ι) (h : Handle ι) : Alike c (c.discard h) := by
  have hmarked : Alike c (c.markInvalidated h.id) := ⟨rfl, rfl, rfl, _, rfl⟩
  exact hmarked.trans (c.frame_discard h).alike

theorem alike_remove (c : Cache ι) (path : Path) (reason : RemovalReason) :
    Alike c (c.remove path reason).2 := by
  unfold remove
  split
  · exact Alike.refl c
  · exact alike_expel c reason _

theorem alike_expelAll (c : Cache ι) (reason : RemovalReason) (es : List (Entry ι)) :
    Alike c (c.expelAll reason es) := by
  induction es generalizing c with
  | nil => exact Alike.refl c
  | cons e rest ih => exact (alike_expel c reason e).trans (ih _)

theorem alike_makeRoom (c : Cache ι) (extra : Nat) : Alike c (c.makeRoom extra) := by
  unfold makeRoom
  split
  · exact Alike.refl c
  · exact alike_expelAll c .weight _

theorem alike_lookup (c : Cache ι) (now : Nat) (path : Path) : Alike c (c.lookup now path).2 := by
  rcases c.lookup_cases path now with ⟨_, heq⟩ | ⟨e, _, _, heq⟩ | ⟨e, _, _, heq⟩
  · rw [heq]
    exact Alike.refl c
  · rw [heq]
    exact alike_expel c .expired e
  · rw [heq]
    exact ⟨rfl, rfl, rfl, _, rfl⟩

theorem alike_insert_clear (env : Environment σ ι) (c : Cache ι) (h : Handle ι) (s : σ) :
    Alike c ((clear env c h s).insert (env.now s) h) := by
  have hwatched : Alike c (c.watch (env.presence s h.path) h.path) := ⟨rfl, rfl, rfl, _, rfl⟩
  have hcleared := (hwatched.trans (alike_remove _ h.path .replaced)).trans
    (alike_makeRoom _ h.size)
  exact hcleared.trans ⟨rfl, rfl, rfl, _, rfl⟩

theorem alike_sweep (c : Cache ι) (now : Nat) : Alike c (c.sweep now).2 := by
  unfold sweep
  split
  · exact Alike.refl c
  · exact (alike_expelAll c .expired _).trans (alike_makeRoom _ 0)

theorem alike_shutdown (hopen : c.isShutDown = false) :
    Alike { c with isShutDown := true } c.shutdown := by
  have hremoved := alike_expelAll { c with isShutDown := true } .shutdown c.entries
  rw [Cache.shutdown, if_neg (by simp [hopen])]
  exact (hremoved.trans (frame_runReleases _ _).alike).trans ⟨rfl, rfl, rfl, _, rfl⟩

theorem alike_accept (env : Environment σ ι) (c : Cache ι) (h : Handle ι) (s : σ) :
    Alike c (c.accept env h s).2 := by
  rcases c.accept_cases env h s with ⟨_, _, _, heq⟩ | ⟨_, _, heq⟩ | ⟨_, _, heq⟩
  · rw [heq]
    exact alike_discard c h
  · rw [heq]
    exact alike_discard c h
  · rw [heq]
    exact alike_insert_clear env c h s

/-- What the removals of a poll keep, a poll keeps. -/
theorem poll_keeps {P : Cache ι → Prop} (presence : Path → Presence) (blind : c.observer = none → P c)
    (note : ∀ w, c.observer = some w → P { c with observer := some (w.poll presence).2 })
    (remove : ∀ c' path, P c' → P (c'.remove path .deleted).2) : P (c.poll presence).2 := by
  unfold poll
  split
  · next hnone => exact blind hnone
  · next w hw =>
    have hnoted := note w hw
    dsimp only
    generalize ({ c with observer := some (w.poll presence).2 } : Cache ι) = noted at hnoted
    induction (w.poll presence).1 generalizing noted with
    | nil => exact hnoted
    | cons watch rest ih => exact ih _ (remove noted watch.1 hnoted)

theorem alike_poll (c : Cache ι) (presence : Path → Presence) : Alike c (c.poll presence).2 :=
  poll_keeps presence (fun _ => Alike.refl c) (fun _ _ => ⟨rfl, rfl, rfl, _, rfl⟩)
    fun c' path h => h.trans (alike_remove c' path .deleted)

end Alike

/-! ## What a request keeps -/

section Requests

variable {P : Cache ι → Prop} {c : Cache ι} {path : Path} {s : σ} (env : Environment σ ι)

/-- The number of the next handle is all that it has from the cache. -/
theorem nextHandle_congr {c' : Cache ι} (h : c'.made = c.made) (path : Path) (index : ι) :
    c'.nextHandle env path index = c.nextHandle env path index := by
  rw [nextHandle, nextHandle, h]

theorem loadAndInsert_keeps (h : P c)
    (lookup : ∀ c', P c' → P (c'.lookup (env.now s) path).2)
    (count : ∀ c' tally, P c' → P { c' with tally })
    (letIn : ∀ c' index s', c'.made = c.made → env.load path s = (.ok index, s') → P c' →
      P (accept env (c'.nextHandle env path index) { c' with made := c'.made + 1 } s').2) :
    P (c.loadAndInsert env path s).2.1 := by
  have hlookup := lookup c h
  have hmade := (alike_lookup c (env.now s) path).made
  unfold loadAndInsert
  rcases hl : c.lookup (env.now s) path with ⟨_ | found, c₁⟩
  · rw [hl] at hlookup hmade
    rcases c₁.fetch_cases env path s with ⟨_, heq⟩ | ⟨_, e, s', _, heq⟩ | ⟨_, index, s', hok, heq⟩
    · simp only [heq]
      exact hlookup
    · simp only [heq]
      exact count c₁ _ hlookup
    · simp only [heq]
      exact letIn { c₁ with tally := { c₁.tally with loads := c₁.tally.loads + 1 } } index s' hmade hok
        (count c₁ _ hlookup)
  · rw [hl] at hlookup
    exact hlookup

/-- What look-ups and counting keep, and letting in what was loaded, a request keeps. The handle that
is let in has the number that the cache had for the next one before. -/
theorem get_keeps (h : P c)
    (lookup : ∀ c', P c' → P (c'.lookup (env.now s) path).2)
    (count : ∀ c' tally, P c' → P { c' with tally })
    (letIn : ∀ c' index s', c'.made = c.made → env.load path s = (.ok index, s') → P c' →
      P (accept env (c'.nextHandle env path index) { c' with made := c'.made + 1 } s').2) :
    P (c.get env path s).2.1 := by
  have hlookup := lookup c h
  have hmade := (alike_lookup c (env.now s) path).made
  rcases c.get_cases env path s with ⟨_, heq⟩ | ⟨_, e, _, heq⟩ | ⟨_, _, found, c₁, hl, heq⟩ |
    ⟨_, _, c₁, hl, heq⟩
  · rw [heq]
    exact h
  · rw [heq]
    exact h
  · rw [hl] at hlookup
    rw [heq]
    exact count c₁ _ hlookup
  · rw [hl] at hlookup hmade
    rw [heq]
    exact loadAndInsert_keeps env (count c₁ _ hlookup) lookup count fun c' index s' hmade' =>
      letIn c' index s' (hmade'.trans hmade)

end Requests

/-! ## Open until it is shut down -/

section Open

variable (env : Environment σ ι) (c : Cache ι) (path : Path) (s : σ)

theorem isShutDown_get : (c.get env path s).2.1.isShutDown = c.isShutDown :=
  get_keeps env (P := fun c' => c'.isShutDown = c.isShutDown) rfl
    (fun c' h => (alike_lookup c' (env.now s) path).isShutDown.trans h) (fun _ _ => id)
    fun _ _ _ _ _ h => (alike_accept env _ _ _).isShutDown.trans h

theorem isShutDown_put (index : ι) : (c.put env path index s).2.isShutDown = c.isShutDown := by
  rcases c.put_cases env path s index with ⟨_, heq⟩ | ⟨_, e, _, heq⟩ | ⟨_, _, heq⟩
  · rw [heq]
    exact (alike_discard _ _).isShutDown
  · rw [heq]
    exact (alike_discard _ _).isShutDown
  · rw [heq]
    exact (alike_accept env _ _ s).isShutDown

end Open

end Cache

theorem Service.isShutDown_act (env : Environment σ ι) {action : Action σ ι} (s : Service σ ι)
    (h : action.isShutdown = false) :
    (s.act env action).2.cache.isShutDown = s.cache.isShutDown := by
  refine ((Cache.frame_settle _ _).isShutDown).trans ?_
  cases action with
  | get path =>
    have hget := Cache.isShutDown_get env s.cache path s.world
    simp only [grant]
    split <;> exact hget
  | put path index =>
    have hput := Cache.isShutDown_put env s.cache path s.world index
    simp only [grant]
    split <;> exact hput
  | query id vector k =>
    dsimp only
    split <;> rfl
  | invalidate path => exact (Cache.alike_remove s.cache path .explicit).isShutDown
  | sweep => exact (Cache.alike_sweep s.cache (env.now s.world)).isShutDown
  | poll => exact (Cache.alike_poll s.cache (env.presence s.world)).isShutDown
  | shutdown => cases h
  | release => exact (Cache.frame_runRelease s.cache).isShutDown
  | drain => exact (Cache.frame_runReleases _ s.cache).isShutDown
  | share _ | drop _ | lag _ | blind | drift _ => rfl

end Sidecar
