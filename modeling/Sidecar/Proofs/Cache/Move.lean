import Sidecar.Proofs.Cache.Entries
import Sidecar.Proofs.Cache.Service
import Mathlib.Logic.Relation

/-!
# What an operation can do

Every operation of the cache is a sequence of elementary changes, and this file says which
(`Move`). So an invariant of the cache needs one argument per move and none per operation, and the
eleven moves are all there is: an entry is touched, expelled or inserted, a handle is made or
discarded, a release runs, orphans are settled, something is noted down, the cache closes.

A move is a step of a `Stage`, which is a cache together with the handles that were made and have
found no place yet. Between two operations there are none; in the middle of a `get` or a `put` there
is one, and it is the only time at which a handle is neither live nor on its way to its release.

Insertion is the one move with conditions: the key must be free and the handle must fit. That
`accept` meets them is `Sound.accept_moves`, where the arithmetic of eviction is spent once and for
all.
-/

set_option autoImplicit false

namespace Sidecar

open Relation

/-- A cache in the middle of an operation. -/
structure Stage (ι : Type) where
  cache : Cache ι
  /-- The handles that were made and are neither live nor given up yet. -/
  pending : List Nat := []
  /-- The number of indexes that were handed in. -/
  offered : Nat := 0

section Moves

variable {σ ι : Type}

inductive Move : Stage ι → Stage ι → Prop where
  | touch {c p n} {e : Entry ι} (now : Nat) (he : e ∈ c.entries) :
      Move ⟨c, p, n⟩ ⟨c.touch now e, p, n⟩
  | expel {c p n} {e : Entry ι} (reason : RemovalReason) (he : e ∈ c.entries) :
      Move ⟨c, p, n⟩ ⟨c.expel reason e, p, n⟩
  /-- A key must be free before a handle is put under it, and the handle must fit the budget. -/
  | insert {c p n} {h : Handle ι} (now : Nat) (free : c.entry? h.path = none)
      (fits : ∀ budget, c.config.weightBudget = some budget → c.weight + h.size ≤ budget) :
      Move ⟨c, h.id :: p, n⟩ ⟨c.insert now h, p, n⟩
  | discard {c p n} (h : Handle ι) : Move ⟨c, h.id :: p, n⟩ ⟨c.discard h, p, n⟩
  /-- A handle is made for an index that the cache has loaded. -/
  | load {c p n} :
      Move ⟨c, p, n⟩ ⟨{ c with
        made := c.made + 1
        tally := { c.tally with loads := c.tally.loads + 1 } }, c.made :: p, n⟩
  /-- A handle is made for an index that was handed in. -/
  | offer {c p n} : Move ⟨c, p, n⟩ ⟨{ c with made := c.made + 1 }, c.made :: p, n + 1⟩
  | release {c p n} : Move ⟨c, p, n⟩ ⟨c.runRelease, p, n⟩
  | settle {c p n} (held : List Nat) : Move ⟨c, p, n⟩ ⟨c.settle held, p, n⟩
  /-- Counters, watches and the pace of the release worker are the cache's notes. -/
  | note {c p n} {tally : Tally} (observer : Option (Watcher Unit)) (lags : List Nat)
      (loads : tally.loads = c.tally.loads) :
      Move ⟨c, p, n⟩ ⟨{ c with tally, observer, lags }, p, n⟩
  | close {c p n} : Move ⟨c, p, n⟩ ⟨{ c with isShutDown := true }, p, n⟩
  /-- The release worker is sent home. -/
  | retire {c p n} : Move ⟨c, p, n⟩ ⟨{ c with releaser := c.releaser.close.dismiss }, p, n⟩

/-- Some moves, one after the other. -/
abbrev Moves : Stage ι → Stage ι → Prop := ReflTransGen Move

/-- An invariant of the moves is an invariant of every sequence of moves. -/
theorem Moves.preserve {P : Stage ι → Prop} (step : ∀ {s t}, Move s t → P s → P t)
    {s t : Stage ι} (h : Moves s t) (hs : P s) : P t := by
  induction h with
  | refl => exact hs
  | tail _ hstep ih => exact step hstep ih

theorem Moves.one {s t : Stage ι} (h : Move s t) : Moves s t := ReflTransGen.single h

theorem Move.sound {s t : Stage ι} (h : Move s t) (hs : s.cache.Sound) : t.cache.Sound := by
  cases h with
  | touch now he => exact hs.touch now he
  | expel reason he => exact hs.expel reason he
  | insert now free _ => exact hs.insert now free
  | discard h => exact hs.discard h
  | load => exact ⟨hs.apart, hs.weight⟩
  | offer => exact ⟨hs.apart, hs.weight⟩
  | release => exact hs.of_frame (Cache.frame_runRelease _)
  | settle held => exact hs.of_frame (Cache.frame_settle held _)
  | note _ _ _ => exact ⟨hs.apart, hs.weight⟩
  | close => exact ⟨hs.apart, hs.weight⟩
  | retire => exact ⟨hs.apart, hs.weight⟩

theorem Moves.sound {s t : Stage ι} (h : Moves s t) (hs : s.cache.Sound) : t.cache.Sound :=
  h.preserve (P := fun s => s.cache.Sound) Move.sound hs

/-! ## What cannot be taken back -/

theorem Move.invalidated {s t : Stage ι} (h : Move s t) :
    s.cache.invalidated ⊆ t.cache.invalidated := by
  cases h with
  | expel reason _ =>
    rw [Cache.expel_invalidated]
    exact List.subset_cons_self _ _
  | discard h =>
    rw [(Cache.frame_discard _ h).invalidated]
    exact List.subset_cons_self _ _
  | release =>
    rw [(Cache.frame_runRelease _).invalidated]
    exact List.Subset.refl _
  | settle held =>
    rw [(Cache.frame_settle held _).invalidated]
    exact List.Subset.refl _
  | touch _ _ | insert _ _ _ | load | offer | note _ _ _ | close | retire =>
    exact List.Subset.refl _

theorem Move.released {s t : Stage ι} (h : Move s t) : s.cache.released <+: t.cache.released := by
  cases h with
  | expel reason _ => exact (Cache.frame_expel _ reason _).released
  | discard h => exact (Cache.frame_discard _ h).released
  | release => exact (Cache.frame_runRelease _).released
  | settle held => exact (Cache.frame_settle held _).released
  | touch _ _ | insert _ _ _ | load | offer | note _ _ _ | close | retire =>
    exact List.prefix_refl _

theorem Moves.invalidated {s t : Stage ι} (h : Moves s t) :
    s.cache.invalidated ⊆ t.cache.invalidated :=
  h.preserve (P := fun t => s.cache.invalidated ⊆ t.cache.invalidated)
    (fun hstep ih => List.Subset.trans ih hstep.invalidated) (List.Subset.refl _)

theorem Moves.released {s t : Stage ι} (h : Moves s t) :
    s.cache.released <+: t.cache.released :=
  h.preserve (P := fun t => s.cache.released <+: t.cache.released)
    (fun hstep ih => ih.trans hstep.released) (List.prefix_refl _)

theorem Move.made {s t : Stage ι} (h : Move s t) : s.cache.made ≤ t.cache.made := by
  cases h with
  | expel reason _ => exact Nat.le_of_eq (Cache.frame_expel _ reason _).made.symm
  | discard h => exact Nat.le_of_eq (Cache.frame_discard _ h).made.symm
  | release => exact Nat.le_of_eq (Cache.frame_runRelease _).made.symm
  | settle held => exact Nat.le_of_eq (Cache.frame_settle held _).made.symm
  | load | offer => exact Nat.le_succ _
  | touch _ _ | insert _ _ _ | note _ _ _ | close | retire => exact Nat.le_refl _

theorem Moves.made {s t : Stage ι} (h : Moves s t) : s.cache.made ≤ t.cache.made :=
  h.preserve (P := fun t => s.cache.made ≤ t.cache.made)
    (fun hstep ih => Nat.le_trans ih hstep.made) (Nat.le_refl _)

/-! ## Removing entries -/

namespace Cache

variable {c : Cache ι} {p : List Nat} {n : Nat}

theorem remove_moves (path : Path) (reason : RemovalReason) :
    Moves ⟨c, p, n⟩ ⟨(c.remove path reason).2, p, n⟩ := by
  unfold remove
  split
  · exact .refl
  · next e he => exact .one (.expel reason (mem_of_found he))

theorem foldl_remove_moves {α : Type} (path : α → Path) (reason : α → RemovalReason) (as : List α) :
    Moves ⟨c, p, n⟩ ⟨as.foldl (fun c a => (c.remove (path a) (reason a)).2) c, p, n⟩ := by
  induction as generalizing c with
  | nil => exact .refl
  | cons a rest ih => exact (remove_moves (path a) (reason a)).trans ih

theorem Sound.sublist_expel (hc : c.Sound) (reason : RemovalReason) {e : Entry ι}
    {es : List (Entry ι)} (h : (e :: es).Sublist c.entries) :
    es.Sublist (c.expel reason e).entries := by
  have hkeys : ((e :: es).map Entry.key).Nodup := hc.apart.sublist (h.map _)
  rw [List.map_cons, List.nodup_cons] at hkeys
  have hfilter := h.filter (!·.handle.path.sameKey e.handle.path)
  rw [List.filter_cons_of_neg (by simp), filter_of_apart hkeys.1] at hfilter
  rw [expel_entries]
  exact hfilter

theorem Sound.expelAll_moves (hc : c.Sound) (reason : RemovalReason) {es : List (Entry ι)}
    (h : es.Sublist c.entries) : Moves ⟨c, p, n⟩ ⟨c.expelAll reason es, p, n⟩ := by
  induction es generalizing c with
  | nil => exact .refl
  | cons e rest ih =>
    have he : e ∈ c.entries := h.subset List.mem_cons_self
    exact .head (.expel reason he) (ih (hc.expel reason he) (hc.sublist_expel reason h))

theorem Sound.weight_expelAll (hc : c.Sound) (reason : RemovalReason) {es : List (Entry ι)}
    (h : es.Sublist c.entries) : (c.expelAll reason es).weight + total es = c.weight := by
  induction es generalizing c with
  | nil => rfl
  | cons e rest ih =>
    have he : e ∈ c.entries := h.subset List.mem_cons_self
    have hrest := ih (hc.expel reason he) (hc.sublist_expel reason h)
    have hle := hc.size_le he
    rw [expel_weight] at hrest
    rw [expelAll, List.foldl_cons, total_cons]
    rw [expelAll] at hrest
    omega

@[simp] theorem expelAll_config (reason : RemovalReason) (es : List (Entry ι)) :
    (c.expelAll reason es).config = c.config := by
  induction es generalizing c with
  | nil => rfl
  | cons e rest ih => exact ih.trans (expel_config c reason e)

theorem expelAll_subset (reason : RemovalReason) (es : List (Entry ι)) :
    (c.expelAll reason es).entries ⊆ c.entries := by
  induction es generalizing c with
  | nil => exact List.Subset.refl _
  | cons e rest ih =>
    have hone : (c.expel reason e).entries ⊆ c.entries := by
      rw [expel_entries]
      exact List.filter_sublist.subset
    exact List.Subset.trans ih hone

/-! ## Making room -/

theorem victims_initial (budget weight : Nat) (es : List (Entry ι)) :
    victims budget weight es <+: es := by
  fun_induction victims budget weight es with
  | case1 => exact List.prefix_refl _
  | case2 => exact List.nil_prefix
  | case3 _ e rest _ ih => exact (List.prefix_cons_inj e).mpr ih

/-- What is left when the victims are gone fits, provided that the newcomer alone does. -/
theorem le_of_victims {budget extra : Nat} (es : List (Entry ι)) (h : extra ≤ budget) :
    total es + extra ≤ budget + total (victims budget (total es + extra) es) := by
  induction es with
  | nil => simpa [victims] using h
  | cons e rest ih =>
    unfold victims
    split
    · next hfits => simpa using hfits
    · have hstep : total (e :: rest) + extra - e.handle.size = total rest + extra := by
        rw [total_cons]
        omega
      rw [hstep, total_cons, total_cons]
      omega

theorem Sound.makeRoom_moves (hc : c.Sound) (extra : Nat) :
    Moves ⟨c, p, n⟩ ⟨c.makeRoom extra, p, n⟩ := by
  unfold makeRoom
  split
  · exact .refl
  · exact hc.expelAll_moves _ (victims_initial _ _ _).sublist

/-- After making room a handle that is not too heavy by itself fits. -/
theorem Sound.makeRoom_fits (hc : c.Sound) {extra budget : Nat}
    (hb : c.config.weightBudget = some budget) (h : extra ≤ budget) :
    (c.makeRoom extra).weight + extra ≤ budget := by
  have hle := le_of_victims c.entries h
  rw [← hc.weight] at hle
  have hweight := hc.weight_expelAll .weight
    (victims_initial budget (c.weight + extra) c.entries).sublist
  unfold makeRoom
  rw [hb]
  dsimp only
  omega

theorem makeRoom_config (extra : Nat) : (c.makeRoom extra).config = c.config := by
  unfold makeRoom
  split
  · rfl
  · exact expelAll_config _ _

theorem makeRoom_subset (extra : Nat) : (c.makeRoom extra).entries ⊆ c.entries := by
  unfold makeRoom
  split
  · exact List.Subset.refl _
  · exact expelAll_subset _ _

end Cache

end Moves

end Sidecar
