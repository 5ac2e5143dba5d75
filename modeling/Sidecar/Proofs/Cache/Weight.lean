import Sidecar.Proofs.Cache.Operation

/-!
# The weight of the cache

The weight on the books is the weight of the live entries, and it never exceeds the budget. The
second half rests on `Move.insert`, which is the only move that adds weight and asks whether the
handle fits; so eviction happens when a handle is let in, and a sweep, which evicts as well, finds
nothing left to do.

`weight_of_run` says this of every run. Its middle part is about the subtraction that removing an
entry performs: whatever is removed one after the other, in a sweep, to make room or otherwise, the
next size to be subtracted is covered by the weight.
-/

set_option autoImplicit false

namespace Sidecar

variable {σ ι : Type}

namespace Cache

/-! ## The budget is kept -/

/-- The weight is within the budget, if there is one. -/
def WithinBudget (c : Cache ι) : Prop :=
  ∀ budget, c.config.weightBudget = some budget → c.weight ≤ budget

theorem WithinBudget.of_frame {c c' : Cache ι} (h : c.WithinBudget) (hf : Frame c c') :
    c'.WithinBudget := by
  intro budget hb
  rw [hf.config] at hb
  rw [hf.weight]
  exact h budget hb

theorem WithinBudget.expel {c : Cache ι} (h : c.WithinBudget) (reason : RemovalReason)
    (e : Entry ι) : (c.expel reason e).WithinBudget := by
  intro budget hb
  rw [expel_config] at hb
  rw [expel_weight]
  exact Nat.le_trans (Nat.sub_le _ _) (h budget hb)

theorem WithinBudget.discard {c : Cache ι} (h : c.WithinBudget) (handle : Handle ι) :
    (c.discard handle).WithinBudget := by
  have hmarked : (c.markInvalidated handle.id).WithinBudget := h
  exact hmarked.of_frame (c.frame_discard handle)

end Cache

theorem Move.withinBudget {s t : Stage ι} (h : Move s t) (hs : s.cache.WithinBudget) :
    t.cache.WithinBudget := by
  cases h with
  | touch _ _ => exact hs
  | expel reason _ => exact hs.expel reason _
  | insert _ _ fits => exact fits
  | discard h => exact hs.discard h
  | load => exact hs
  | offer => exact hs
  | release => exact hs.of_frame (Cache.frame_runRelease _)
  | settle held => exact hs.of_frame (Cache.frame_settle held _)
  | note _ _ _ => exact hs
  | close => exact hs
  | retire => exact hs

theorem Move.config {s t : Stage ι} (h : Move s t) : t.cache.config = s.cache.config := by
  cases h with
  | expel reason _ => exact Cache.expel_config _ reason _
  | discard h => exact (Cache.frame_discard _ h).config
  | release => exact (Cache.frame_runRelease _).config
  | settle held => exact (Cache.frame_settle held _).config
  | touch _ _ | insert _ _ _ | load | offer | note _ _ _ | close | retire => rfl

theorem Moves.config {s t : Stage ι} (h : Moves s t) : t.cache.config = s.cache.config :=
  h.preserve (P := fun t => t.cache.config = s.cache.config)
    (fun hstep ih => hstep.config.trans ih) rfl

namespace Cache

/-! ## A sweep has nothing to evict -/

theorem victims_of_le {budget weight : Nat} (h : weight ≤ budget) (es : List (Entry ι)) :
    victims budget weight es = [] := by
  cases es with
  | nil => rfl
  | cons e rest => rw [victims, if_pos h]

theorem WithinBudget.makeRoom_zero {c : Cache ι} (h : c.WithinBudget) : c.makeRoom 0 = c := by
  unfold makeRoom
  cases hb : c.config.weightBudget with
  | none => rfl
  | some budget =>
    dsimp only
    rw [Nat.add_zero, victims_of_le (h budget hb)]
    rfl

theorem expelAll_departures (c : Cache ι) (reason : RemovalReason) (es : List (Entry ι)) :
    (c.expelAll reason es).departures
      = c.departures ++ es.map fun e => (e.handle.id, reason) := by
  induction es generalizing c with
  | nil => simp [expelAll]
  | cons e rest ih =>
    rw [expelAll, List.foldl_cons, ← expelAll, ih, expel_departures, List.append_assoc]
    rfl

theorem removals_expelAll {c : Cache ι} {reason other : RemovalReason} (h : reason ≠ other)
    (es : List (Entry ι)) : (c.expelAll reason es).removals other = c.removals other := by
  have hnone : (es.map fun e => (e.handle.id, reason)).countP (·.2 == other) = 0 := by
    rw [List.countP_eq_zero]
    intro d hd
    obtain ⟨e, _, rfl⟩ := List.mem_map.mp hd
    simpa using h
  rw [removals, removals, expelAll_departures, List.countP_append, hnone, Nat.add_zero]

/-- Within the budget a sweep removes idle entries only. -/
theorem WithinBudget.removals_sweep {c : Cache ι} (h : c.WithinBudget) (hc : c.Sound) (now : Nat) :
    (c.sweep now).2.removals .weight = c.removals .weight := by
  unfold sweep
  split
  · rfl
  · have hidle : Moves ⟨c, [], 0⟩ ⟨c.expelAll .expired (c.entries.filter (c.isExpired now)), [], 0⟩ :=
      hc.expelAll_moves .expired List.filter_sublist
    have hwithin : (c.expelAll .expired (c.entries.filter (c.isExpired now))).WithinBudget :=
      hidle.preserve (P := fun t => t.cache.WithinBudget) Move.withinBudget h
    dsimp only
    rw [hwithin.makeRoom_zero]
    exact removals_expelAll (by decide) _

end Cache

/-! ## Every run -/

/-- **The weight is the sum of the sizes of the live entries, and within the budget.** No removal
subtracts more than the weight, also after any number of other removals, and no sweep evicts. -/
theorem weight_of_run (env : Environment σ ι) (config : CacheConfig)
    (observer : Option (Watcher Unit)) (world : σ) (actions : List (Action σ ι)) :
    let c := ((Service.start config observer world).run env actions).cache
    c.weight = (c.entries.map fun e => e.handle.size).sum ∧
    (∀ removed : List (Path × RemovalReason),
      let c' := removed.foldl (fun c r => (c.remove r.1 r.2).2) c
      ∀ e ∈ c'.entries, e.handle.size ≤ c'.weight) ∧
    ∀ budget, config.weightBudget = some budget →
      c.weight ≤ budget ∧ ∀ now, (c.sweep now).2.removals .weight = c.removals .weight := by
  intro c
  have hstart := Service.start_sound (ι := ι) config observer world
  have hmoves := Service.run_moves env actions hstart 0
  have hc : c.Sound := Moves.sound hmoves hstart
  have hconfig : c.config = config := Moves.config hmoves
  refine ⟨hc.weight, ?_, ?_⟩
  · intro removed c' e he
    have hremoved : Moves ⟨c, [], 0⟩ ⟨c', [], 0⟩ := Cache.foldl_remove_moves Prod.fst Prod.snd removed
    have hc' : c'.Sound := Moves.sound hremoved hc
    exact hc'.size_le he
  · intro budget hb
    have hempty : (Service.start (ι := ι) config observer world).cache.WithinBudget :=
      fun _ _ => Nat.zero_le _
    have hwithin : c.WithinBudget :=
      hmoves.preserve (P := fun t => t.cache.WithinBudget) Move.withinBudget hempty
    exact ⟨hwithin budget (by rw [hconfig]; exact hb), hwithin.removals_sweep hc⟩

/-- A cache of five bytes into which three and four are put, and then one is loaded. -/
def crowded : Cache Nat :=
  ((Service.start { weightCircuitBreaker := true, maxWeightBytes := 5 } none 0).run
    Environment.clock [.put ⟨"a"⟩ 3, .put ⟨"b"⟩ 4, .get ⟨"a"⟩]).cache

/-- The four bytes have driven out the three, and the one fits beside them. -/
theorem weight_of_crowded :
    crowded.config.weightBudget = some 5 ∧ crowded.departures = [(0, .weight)] ∧
    (∃ e ∈ crowded.entries, e.handle.size = 4 ∧ e.handle.size ≤ crowded.weight) ∧
    crowded.weight ≤ 5 ∧
    ∀ now, (crowded.sweep now).2.removals .weight = crowded.removals .weight := by
  have hentries : crowded.entries = [⟨⟨1, ⟨"b"⟩, 4, 4⟩, 0⟩, ⟨⟨2, ⟨"a"⟩, 1, 1⟩, 0⟩] := rfl
  obtain ⟨-, hcovered, hbudget⟩ := weight_of_run Environment.clock
    { weightCircuitBreaker := true, maxWeightBytes := 5 } none 0
    [.put ⟨"a"⟩ 3, .put ⟨"b"⟩ 4, .get ⟨"a"⟩]
  rw [← crowded] at hcovered hbudget
  have he : ⟨⟨1, ⟨"b"⟩, 4, 4⟩, 0⟩ ∈ crowded.entries := by simp [hentries]
  exact ⟨rfl, rfl, ⟨_, he, rfl, hcovered [] _ he⟩, hbudget 5 rfl⟩

end Sidecar
