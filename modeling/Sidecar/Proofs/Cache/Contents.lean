import Sidecar.Proofs.Cache.Alike
import Sidecar.Proofs.Cache.Validity

/-!
# What the entries hold

Most operations of the cache take entries away or move them, so whatever is true of the handle of
every entry stays true (`Cache.Each`). Only `get` and `put` bring a handle in, and then it has to be
true of that handle: of the one made for the index that was loaded, or for the index that was handed
in. So a property of handles is kept by a run if it is kept by the world and holds of what comes in,
whatever is evicted, swept, replaced or looked up in between.
-/

set_option autoImplicit false

namespace Sidecar

variable {σ ι : Type}

namespace Cache

def Each (P : Handle ι → Prop) (c : Cache ι) : Prop := ∀ e ∈ c.entries, P e.handle

section Each

variable {P : Handle ι → Prop} {c c' : Cache ι}

theorem Each.of_subset (hc : c.Each P) (h : c'.entries ⊆ c.entries) : c'.Each P :=
  fun e he => hc e (h he)

theorem Each.of_entries (hc : c.Each P) (h : c'.entries = c.entries) : c'.Each P :=
  hc.of_subset (by rw [h]; exact List.Subset.refl _)

theorem Each.expel (hc : c.Each P) (reason : RemovalReason) (e : Entry ι) :
    (c.expel reason e).Each P := by
  apply hc.of_subset
  rw [expel_entries]
  exact List.filter_sublist.subset

theorem Each.remove (hc : c.Each P) (path : Path) (reason : RemovalReason) :
    (c.remove path reason).2.Each P := by
  unfold Cache.remove
  split
  · exact hc
  · exact hc.expel reason _

theorem Each.touch (hc : c.Each P) (now : Nat) {e : Entry ι} (he : e ∈ c.entries) :
    (c.touch now e).Each P := by
  intro e' he'
  rw [touch_entries, List.mem_append, List.mem_singleton] at he'
  rcases he' with he' | rfl
  · exact hc e' (List.mem_filter.mp he').1
  · exact hc e he

theorem Each.discard (hc : c.Each P) (h : Handle ι) : (c.discard h).Each P := by
  apply hc.of_entries
  exact (c.frame_discard h).entries

theorem Each.lookup (hc : c.Each P) (now : Nat) (path : Path) : (c.lookup now path).2.Each P := by
  rcases c.lookup_cases path now with ⟨_, heq⟩ | ⟨e, _, _, heq⟩ | ⟨e, hfound, _, heq⟩
  · rw [heq]
    exact hc
  · rw [heq]
    exact hc.expel .expired e
  · rw [heq]
    exact hc.touch now (mem_of_found hfound)

theorem Each.sweep (hc : c.Each P) (now : Nat) : (c.sweep now).2.Each P := by
  unfold Cache.sweep
  split
  · exact hc
  · exact (hc.of_subset (expelAll_subset .expired _)).of_subset (makeRoom_subset 0)

theorem Each.poll (hc : c.Each P) (presence : Path → Presence) : (c.poll presence).2.Each P :=
  poll_keeps presence (fun _ => hc) (fun _ _ => hc) fun _ path h => h.remove path .deleted

theorem Each.shutdown (hc : c.Each P) : c.shutdown.Each P := by
  unfold Cache.shutdown
  split
  · exact hc
  · have hclosed : ({ c with isShutDown := true } : Cache ι).Each P := hc
    refine (hclosed.of_subset (expelAll_subset .shutdown c.entries)).of_entries ?_
    exact (frame_runReleases _ _).entries

/-! ## What comes in -/

variable (env : Environment σ ι) (s : σ)

theorem Each.accept (hc : c.Each P) {h : Handle ι} (hh : P h) : (c.accept env h s).2.Each P := by
  rcases c.accept_cases env h s with ⟨_, _, _, heq⟩ | ⟨_, _, heq⟩ | ⟨_, _, heq⟩
  · rw [heq]
    exact hc.discard h
  · rw [heq]
    exact hc.discard h
  · rw [heq]
    have hwatched : (c.watch (env.presence s h.path) h.path).Each P := hc
    have hcleared : (clear env c h s).Each P :=
      (hwatched.remove h.path .replaced).of_subset (makeRoom_subset h.size)
    intro e he
    rcases List.mem_append.mp he with he | he
    · exact hcleared e he
    · rw [List.mem_singleton.mp he]
      exact hh

theorem Each.put (hc : c.Each P) (path : Path) (index : ι) (hh : P (c.nextHandle env path index)) :
    (c.put env path index s).2.Each P := by
  have hmade : ({ c with made := c.made + 1 } : Cache ι).Each P := hc
  rcases c.put_cases env path s index with ⟨_, heq⟩ | ⟨_, e, _, heq⟩ | ⟨_, _, heq⟩
  · rw [heq]
    exact hmade.discard _
  · rw [heq]
    exact hmade.discard _
  · rw [heq]
    exact hmade.accept env s hh

theorem Each.get (hc : c.Each P) (path : Path)
    (hload : ∀ index s', env.load path s = (.ok index, s') →
      ∀ c : Cache ι, P (c.nextHandle env path index)) :
    (c.get env path s).2.1.Each P := by
  refine get_keeps env hc (fun _ h => h.lookup (env.now s) path) (fun _ _ => id) ?_
  intro c' index s' _ hok h
  have hmade : ({ c' with made := c'.made + 1 } : Cache ι).Each P := h
  exact hmade.accept env s' (hload index s' hok c')

/-- A handle that `get` answers with is one of the entries, under the key that was asked for. -/
theorem Each.of_get (hc : c.Each P) {path : Path} {h : Handle ι} {s' : σ}
    (hload : ∀ index s', env.load path s = (.ok index, s') →
      ∀ c : Cache ι, P (c.nextHandle env path index))
    (hget : c.get env path s = (.ok h, c', s')) : P h ∧ h.path.sameKey path = true := by
  have heach : c'.Each P := by
    have h' := hc.get env s path hload
    rw [hget] at h'
    exact h'
  obtain ⟨e, hfound, rfl⟩ := Option.map_eq_some_iff.mp (live_of_get env hget)
  exact ⟨heach e (mem_of_found hfound), key_of_found hfound⟩

theorem world_get (path : Path) :
    (c.get env path s).2.2 = s ∨ (c.get env path s).2.2 = (env.load path s).2 := by
  rcases c.get_cases env path s with ⟨_, heq⟩ | ⟨_, e, _, heq⟩ | ⟨_, _, h, c₁, hl, heq⟩ |
    ⟨_, _, c₁, hl, heq⟩
  · exact Or.inl (by rw [heq])
  · exact Or.inl (by rw [heq])
  · exact Or.inl (by rw [heq])
  · rw [heq]
    generalize ({ c₁ with tally := { c₁.tally with misses := c₁.tally.misses + 1 } } : Cache ι) = c₂
    unfold Cache.loadAndInsert
    rcases c₂.lookup (env.now s) path with ⟨_ | h, c₃⟩
    · rcases c₃.fetch_cases env path s with ⟨_, heq'⟩ | ⟨_, e, s', hl', heq'⟩ |
        ⟨_, index, s', hl', heq'⟩
      · exact Or.inl (by simp only [heq'])
      · exact Or.inr (by simp only [heq', hl'])
      · exact Or.inr (by simp only [heq', hl'])
    · exact Or.inl rfl

end Each

end Cache

/-! ## Runs -/

section Run

variable {P : Handle ι → Prop} {env : Environment σ ι} {s : Service σ ι}

/-- What is true of every handle that is made stays true of the entries, whatever happens. -/
theorem Cache.Each.act (h : s.cache.Each P)
    (hmade : ∀ path index (c : Cache ι), P (c.nextHandle env path index)) (action : Action σ ι) :
    (s.act env action).2.cache.Each P := by
  have hperformed : (s.perform env action).2.cache.Each P := by
    cases action with
    | get path =>
      have hgot := h.get env s.world path fun index _ _ => hmade path index
      simp only [Service.perform, Service.grant]
      split <;> exact hgot
    | put path index =>
      have hput := h.put env s.world path index (hmade path index s.cache)
      simp only [Service.perform, Service.grant]
      split <;> exact hput
    | query id vector k =>
      simp only [Service.perform]
      split <;> exact h
    | invalidate path => exact h.remove path .explicit
    | sweep => exact h.sweep _
    | poll => exact h.poll _
    | shutdown => exact h.shutdown
    | release => exact h.of_entries (Cache.frame_runRelease _).entries
    | drain => exact h.of_entries (Cache.frame_runReleases _ _).entries
    | share _ | drop _ | lag _ | blind | drift _ => exact h
  exact hperformed.of_entries (Cache.frame_settle _ _).entries

theorem Cache.Each.run (h : s.cache.Each P)
    (hmade : ∀ path index (c : Cache ι), P (c.nextHandle env path index))
    (actions : List (Action σ ι)) : (s.run env actions).cache.Each P :=
  Service.run_induction (P := fun s => s.cache.Each P) (fun _ action h => h.act hmade action)
    actions h

end Run

end Sidecar
