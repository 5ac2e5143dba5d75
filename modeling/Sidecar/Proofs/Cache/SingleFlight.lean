import Sidecar.Proofs.Cache.Alike
import Sidecar.Proofs.Cache.Board

/-!
# One load for many callers

However the steps of several callers of one path interleave, one of them loads and all get what it
loaded; a load that fails is told to those who waited for it, and the next caller loads again.

What the callers can do to each other is settled on their `Board`. Here a step of a `Flight` is shown to
be a turn on its board (`Flight.turn_of_step`), so that the board is orderly after every run, and as
every caller comes nearer to its end unless it waits for one that does, a schedule that lets everybody
step often enough ends the flight.

A `Journal` writes down, for the sake of the statement, the loads of a run and the slot that each
caller took. The cache and the world may change between the steps, as long as nobody removes the
path, lets its entry expire or shuts the cache down (`Calmly`).
-/

set_option autoImplicit false

namespace Sidecar

variable {σ ι : Type}

/-! ## Runs of several callers -/

namespace Flight

/-- What can happen while the callers are on their way. -/
inductive Event (σ ι : Type) where
  /-- A caller takes its next step. -/
  | step (i : Nat)
  /-- Somebody else changes the cache and the world. -/
  | meanwhile (cache : Cache ι) (world : σ)

/-- The load that a step makes, with the slot that it is made for. -/
def load? (env : Environment σ ι) (path : Path) (f : Flight σ ι) (i : Nat) :
    Option (Nat × Except Error ι) :=
  match f.callers[i]? with
  | some (.loading slot) =>
    if f.cache.isShutDown then none else some (slot, (env.load path f.world).1)
  | _ => none

/-- Nobody lets the entry of the path expire, removes it or shuts the cache down. -/
def Calm (env : Environment σ ι) (path : Path) (f : Flight σ ι) : Event σ ι → Prop
  | .step _ =>
    ∀ e, f.cache.entry? path = some e → f.cache.isExpired (env.now f.world) e = false
  | .meanwhile cache _ =>
    cache.config = f.cache.config ∧ cache.isShutDown = f.cache.isShutDown ∧
      cache.liveHandle? path = f.cache.liveHandle? path

end Flight

/-- A flight, and what is written down about it. -/
structure Journal (σ ι : Type) where
  flight : Flight σ ι
  /-- The loads so far, each with the slot that it was made for. -/
  loads : List (Nat × Except Error ι) := []
  /-- The slot that each caller took. -/
  seat : Nat → Option Nat := fun _ => none

namespace Journal

def happen (env : Environment σ ι) (path : Path) (j : Journal σ ι) :
    Flight.Event σ ι → Journal σ ι
  | .step i =>
    let flight := j.flight.step env path i
    { flight
      loads := j.loads ++ (j.flight.load? env path i).toList
      seat := Function.update j.seat i ((flight.callers[i]?.bind Caller.slot?).or (j.seat i)) }
  | .meanwhile cache world => { j with flight := { j.flight with cache, world } }

/-- Some events happen, one after the other. -/
def after (env : Environment σ ι) (path : Path) (events : List (Flight.Event σ ι))
    (j : Journal σ ι) : Journal σ ι :=
  events.foldl (happen env path) j

/-- Every event of the run is calm. -/
def Calmly (env : Environment σ ι) (path : Path) :
    List (Flight.Event σ ι) → Journal σ ι → Prop
  | [], _ => True
  | event :: rest, j => j.flight.Calm env path event ∧ Calmly env path rest (j.happen env path event)

end Journal

/-! ## Steps are turns -/

def Flight.board (path : Path) (f : Flight σ ι) : Board ι :=
  ⟨f.callers, f.slots, f.current, f.cache.liveHandle? path⟩

namespace Flight

variable {env : Environment σ ι} {path : Path} {Fit : Handle ι → Prop} {f : Flight σ ι}

/-- Whether the live handle of the path is found or there is none. -/
theorem lookup_of_calm (hcalm : ∀ e, f.cache.entry? path = some e →
      f.cache.isExpired (env.now f.world) e = false) :
    ∃ c, f.cache.lookup (env.now f.world) path = (f.cache.liveHandle? path, c) ∧
      c.liveHandle? path = f.cache.liveHandle? path := by
  rcases f.cache.lookup_cases path (env.now f.world) with ⟨hvacant, heq⟩ | ⟨e, hfound, hidle, _⟩ |
    ⟨e, hfound, _, heq⟩
  · exact ⟨_, by rw [heq, Cache.liveHandle?, hvacant]; rfl, rfl⟩
  · rw [hcalm e hfound] at hidle
    cases hidle
  · refine ⟨_, by rw [heq, Cache.liveHandle?, hfound]; rfl, ?_⟩
    rw [Cache.liveHandle?, Cache.found_of_touch hfound, Cache.liveHandle?, hfound]
    rfl

theorem turn_of_step (hopen : f.cache.isShutDown = false)
    (hcalm : ∀ e, f.cache.entry? path = some e →
      f.cache.isExpired (env.now f.world) e = false)
    (hfit : ∀ h : Handle ι, Fit h → h.path = path ∧ f.cache.Fits h)
    (hmade : ∀ index world, env.load path f.world = (.ok index, world) →
      Fit (f.cache.nextHandle env path index))
    (hheld : ∀ (i slot : Nat) (h : Handle ι),
      f.callers[i]? = some (Caller.accepting slot h) → Fit h) (i : Nat) :
    (f.board path).Turn path Fit i (f.load? env path i) ((f.step env path i).board path) := by
  obtain ⟨c, hlookup, hlive⟩ := lookup_of_calm hcalm
  unfold step load?
  cases hat : f.callers[i]? with
  | none => exact .rest (.absent hat)
  | some caller =>
    cases caller with
    | arriving =>
      simp only [Cache.request, hopen, Bool.false_eq_true, if_false, hlookup]
      cases hkey : Cache.validateKey path with
      | error e => exact .refuse hat hkey
      | ok _ =>
        cases hfound : f.cache.liveHandle? path with
        | none => exact (Board.Turn.miss hat).of_eq (congrArg (Board.mk _ _ _) hlive)
        | some h => exact (Board.Turn.hit hat hfound).of_eq (congrArg (Board.mk _ _ _) hlive)
    | missed =>
      cases hcurrent : f.current with
      | none => exact .begin hat hcurrent
      | some slot => exact .join hat hcurrent
    | holding slot =>
      dsimp only
      cases hslot : f.slots[slot]? with
      | none =>
        have hrests : (f.board path).Rests i :=
          .waiting slot hat (by simp [board, hslot]) (by simp [board, hslot])
        exact .rest hrests
      | some state =>
        cases state with
        | empty => exact Board.Turn.take (b := f.board path) hat hslot
        | busy =>
          have hrests : (f.board path).Rests i :=
            .waiting slot hat (by simp [board, hslot]) (by simp [board, hslot])
          exact .rest hrests
        | filled result => exact Board.Turn.receive (b := f.board path) hat hslot
    | looking slot =>
      simp only [hlookup]
      cases hfound : f.cache.liveHandle? path with
      | none => exact (Board.Turn.seek hat hfound).of_eq (congrArg (Board.mk _ _ _) hlive)
      | some h => exact (Board.Turn.find hat hfound).of_eq (congrArg (Board.mk _ _ _) hlive)
    | loading slot =>
      rcases f.cache.fetch_cases env path f.world with ⟨hshut, _⟩ | ⟨_, e, world, hload, heq⟩ |
        ⟨_, index, world, hload, heq⟩
      · rw [hopen] at hshut
        cases hshut
      · simp only [heq, hload, hopen]
        exact .fail hat e
      · simp only [heq, hload, hopen]
        exact .load hat (hmade index world hload)
    | accepting slot h =>
      obtain ⟨hpath, hfits⟩ := hfit h (hheld i slot h hat)
      rcases f.cache.accept_cases env h f.world with ⟨budget, hbudget, hheavy, _⟩ |
        ⟨_, hshut, _⟩ | ⟨_, _, heq⟩
      · exact absurd hheavy (Nat.not_lt.mpr (hfits budget hbudget))
      · rw [hopen] at hshut
        cases hshut
      · have hadmitted := (Cache.live_of_accept env heq).2
        rw [hpath] at hadmitted
        simp only [heq]
        exact (Board.Turn.accept hat).of_eq (congrArg (Board.mk _ _ _) hadmitted)
    | leaving slot result => exact .leave hat
    | returned result => exact .rest (.done result hat)

end Flight

/-! ## What a run preserves -/

theorem Cache.lookup_of_vacant {c : Cache ι} {path : Path} (h : c.entry? path = none) {now : Nat} :
    c.lookup now path = (none, c) := by
  rw [lookup, h]

/-- A request leaves the configuration alone, and shuts nothing down. -/
theorem Cache.kept_request (env : Environment σ ι) (path : Path) (c : Cache ι) (s : σ) :
    (c.request env path s).2.config = c.config ∧
      (c.request env path s).2.isShutDown = c.isShutDown := by
  have hlookup := alike_lookup c (env.now s) path
  unfold request
  split
  · exact ⟨rfl, rfl⟩
  · split
    · exact ⟨rfl, rfl⟩
    · split
      · next heq =>
        rw [heq] at hlookup
        exact ⟨hlookup.config, hlookup.isShutDown⟩
      · next heq =>
        rw [heq] at hlookup
        exact ⟨hlookup.config, hlookup.isShutDown⟩

theorem Cache.kept_fetch (env : Environment σ ι) (path : Path) (c : Cache ι) (s : σ) :
    (c.fetch env path s).2.1.config = c.config ∧
      (c.fetch env path s).2.1.isShutDown = c.isShutDown := by
  rcases c.fetch_cases env path s with ⟨_, heq⟩ | ⟨_, _, _, _, heq⟩ | ⟨_, _, _, _, heq⟩ <;>
    rw [heq] <;> exact ⟨rfl, rfl⟩

namespace Flight

theorem kept_step (env : Environment σ ι) (path : Path) (f : Flight σ ι) (i : Nat) :
    (f.step env path i).cache.config = f.cache.config ∧
      (f.step env path i).cache.isShutDown = f.cache.isShutDown := by
  have hkept : f.cache.config = f.cache.config ∧ f.cache.isShutDown = f.cache.isShutDown := ⟨rfl, rfl⟩
  unfold step
  cases f.callers[i]? with
  | none => exact hkept
  | some caller =>
    cases caller with
    | arriving =>
      have hrequest := Cache.kept_request env path f.cache f.world
      rcases heq : f.cache.request env path f.world with ⟨_ | _ | _, c⟩ <;>
        simp only [heq] at hrequest ⊢ <;> exact hrequest
    | missed =>
      dsimp only
      split <;> exact hkept
    | holding slot =>
      dsimp only
      split <;> exact hkept
    | looking slot =>
      have hlookup := Cache.alike_lookup f.cache (env.now f.world) path
      rcases heq : f.cache.lookup (env.now f.world) path with ⟨_ | _, c⟩ <;>
        simp only [heq] at hlookup ⊢ <;> exact ⟨hlookup.config, hlookup.isShutDown⟩
    | loading slot =>
      have hfetch := Cache.kept_fetch env path f.cache f.world
      rcases heq : f.cache.fetch env path f.world with ⟨_ | _, c, world⟩ <;>
        simp only [heq] at hfetch ⊢ <;> exact hfetch
    | accepting slot h =>
      have haccept := Cache.alike_accept env f.cache h f.world
      exact ⟨haccept.config, haccept.isShutDown⟩
    | leaving slot result => exact hkept
    | returned result => exact hkept

end Flight

namespace Journal

variable {env : Environment σ ι} {path : Path} {config : CacheConfig} {j : Journal σ ι}

/-- A handle for the path that is not too heavy for the configured budget. -/
def Fit (path : Path) (config : CacheConfig) (h : Handle ι) : Prop :=
  h.path = path ∧ ∀ budget, config.weightBudget = some budget → h.size ≤ budget

/-- What holds between the steps, of the callers and of the cache. -/
structure Orderly (path : Path) (config : CacheConfig) (j : Journal σ ι) : Prop where
  board : (j.flight.board path).Orderly path (Fit path config) j.loads j.seat
  isOpen : j.flight.cache.isShutDown = false
  config : j.flight.cache.config = config

/-- Whatever is loaded for the path is not too heavy for the configured budget. -/
def Light (env : Environment σ ι) (path : Path) (config : CacheConfig) : Prop :=
  ∀ world index world', env.load path world = (.ok index, world') →
    ∀ budget, config.weightBudget = some budget → env.size index ≤ budget

theorem Orderly.turn (hlight : Light env path config) (h : j.Orderly path config) {i : Nat}
    (hcalm : j.flight.Calm env path (.step i)) :
    (j.flight.board path).Turn path (Fit path config) i (j.flight.load? env path i)
      ((j.flight.step env path i).board path) := by
  refine Flight.turn_of_step h.isOpen hcalm ?_ ?_ ?_ i
  · rintro handle ⟨hpath, hfits⟩
    refine ⟨hpath, fun budget hbudget => hfits budget ?_⟩
    rw [← h.config]
    exact hbudget
  · exact fun index world hload => ⟨rfl, hlight _ index world hload⟩
  · intro k slot handle hat
    obtain ⟨-, -, -, hfit, -⟩ := h.board.stands k _ hat
    exact hfit

theorem Orderly.happen (hlight : Light env path config) (h : j.Orderly path config)
    {event : Flight.Event σ ι} (hcalm : j.flight.Calm env path event) :
    (j.happen env path event).Orderly path config := by
  cases event with
  | step i =>
    obtain ⟨hconfig, hshut⟩ := Flight.kept_step env path j.flight i
    exact ⟨h.board.turn (h.turn hlight hcalm), hshut.trans h.isOpen, hconfig.trans h.config⟩
  | meanwhile cache world =>
    obtain ⟨hconfig, hshut, hlive⟩ := hcalm
    refine ⟨?_, hshut.trans h.isOpen, hconfig.trans h.config⟩
    have hboard : ({ j.flight with cache, world } : Flight σ ι).board path = j.flight.board path :=
      congrArg (Board.mk _ _ _) hlive
    exact hboard ▸ h.board

theorem Orderly.after (hlight : Light env path config) {events : List (Flight.Event σ ι)}
    (h : j.Orderly path config) (hcalm : Calmly env path events j) :
    (j.after env path events).Orderly path config := by
  induction events generalizing j with
  | nil => exact h
  | cons event rest ih => exact ih (h.happen hlight hcalm.1) hcalm.2

end Journal

/-- Without an idle timeout the callers alone are calm. -/
theorem Journal.calmly_of_steps {env : Environment σ ι} {path : Path} {j : Journal σ ι}
    (h : j.flight.cache.config.idleTimeout = none) (steps : List Nat) :
    Calmly env path (steps.map .step) j := by
  induction steps generalizing j with
  | nil => trivial
  | cons i rest ih =>
    refine ⟨fun e _ => ?_, ih ?_⟩
    · rw [Cache.isExpired, Cache.idleLimit, h]
      rfl
    · exact (congrArg CacheConfig.idleTimeout (Flight.kept_step env path j.flight i).1).trans h

/-! ## Nobody waits forever -/

namespace Journal

variable {env : Environment σ ι} {path : Path} {config : CacheConfig} {j : Journal σ ι}

/-- The callers come nearer to the end, or those that could step were resting. -/
theorem Orderly.rests_or_lt (hlight : Light env path config) {events : List (Flight.Event σ ι)}
    (h : j.Orderly path config) (hcalm : Calmly env path events j) :
    ((j.after env path events).flight.board path = j.flight.board path ∧
      ∀ i, .step i ∈ events → (j.flight.board path).Rests i) ∨
    ((j.after env path events).flight.board path).remaining
      < (j.flight.board path).remaining := by
  induction events generalizing j with
  | nil => exact Or.inl ⟨rfl, nofun⟩
  | cons event rest ih =>
    have hrest := ih (h.happen hlight hcalm.1) hcalm.2
    cases event with
    | step i =>
      rcases (h.turn hlight hcalm.1).rests_or_lt with ⟨hsame, hrests⟩ | hlt
      · have hsame : (j.happen env path (.step i)).flight.board path = j.flight.board path := hsame
        rw [hsame] at hrest
        refine hrest.imp_left fun ⟨hboard, hothers⟩ => ⟨hboard, fun i' hi' => ?_⟩
        rcases List.mem_cons.mp hi' with heq | hi'
        · cases heq
          exact hrests
        · exact hothers i' hi'
      · have hlt : ((j.happen env path (.step i)).flight.board path).remaining
            < (j.flight.board path).remaining := hlt
        refine Or.inr ?_
        rcases hrest with ⟨hboard, -⟩ | hlt'
        · exact (congrArg Board.remaining hboard).trans_lt hlt
        · exact Nat.lt_trans hlt' hlt
    | meanwhile cache world =>
      have hsame : (j.happen env path (.meanwhile cache world)).flight.board path
          = j.flight.board path := congrArg (Board.mk _ _ _) hcalm.1.2.2
      rw [hsame] at hrest
      refine hrest.imp_left fun ⟨hboard, hothers⟩ => ⟨hboard, fun i' hi' => ?_⟩
      rcases List.mem_cons.mp hi' with heq | hi'
      · cases heq
      · exact hothers i' hi'

theorem after_append (env : Environment σ ι) (path : Path) (before after : List (Flight.Event σ ι))
    (j : Journal σ ι) : j.after env path (before ++ after) = (j.after env path before).after env path after :=
  List.foldl_append ..

theorem Calmly.append {before after : List (Flight.Event σ ι)}
    (h : Calmly env path (before ++ after) j) :
    Calmly env path before j ∧ Calmly env path after (j.after env path before) := by
  induction before generalizing j with
  | nil => exact ⟨trivial, h⟩
  | cons event rest ih => exact ⟨⟨h.1, (ih h.2).1⟩, (ih h.2).2⟩

theorem Orderly.length_after (hlight : Light env path config) {events : List (Flight.Event σ ι)}
    (h : j.Orderly path config) (hcalm : Calmly env path events j) :
    (j.after env path events).flight.callers.length = j.flight.callers.length := by
  induction events generalizing j with
  | nil => rfl
  | cons event rest ih =>
    refine (ih (h.happen hlight hcalm.1) hcalm.2).trans ?_
    cases event with
    | step i => exact (h.turn hlight hcalm.1).length_callers
    | meanwhile cache world => rfl

/-- If every caller steps again and again, every caller ends. -/
theorem Orderly.remaining_after (hlight : Light env path config)
    {blocks : List (List (Flight.Event σ ι))} (h : j.Orderly path config)
    (hcalm : Calmly env path blocks.flatten j)
    (hfair : ∀ block ∈ blocks, ∀ i < j.flight.callers.length, .step i ∈ block) :
    ((j.after env path blocks.flatten).flight.board path).remaining = 0 ∨
    ((j.after env path blocks.flatten).flight.board path).remaining + blocks.length
      ≤ (j.flight.board path).remaining := by
  induction blocks generalizing j with
  | nil => exact Or.inr (Nat.le_refl _)
  | cons block rest ih =>
    rw [List.flatten_cons] at hcalm
    obtain ⟨hblock, hrest⟩ := hcalm.append
    have hlength := h.length_after hlight hblock
    have hlater := ih (h.after hlight hblock) hrest fun block' hmem i hi =>
      hfair block' (List.mem_cons_of_mem block hmem) i (hlength ▸ hi)
    rw [List.flatten_cons, after_append, List.length_cons]
    rcases h.rests_or_lt hlight hblock with ⟨hsame, hrests⟩ | hlt
    · have hover : (j.flight.board path).remaining = 0 :=
        h.board.remaining_of_rests fun i hi => hrests i (hfair block List.mem_cons_self i hi)
      rw [hsame, hover] at hlater
      omega
    · omega

theorem remaining_eq_zero_iff_isOver (path : Path) (f : Flight σ ι) :
    (f.board path).remaining = 0 ↔ f.isOver = true := by
  rw [Board.remaining_eq_zero_iff, Flight.isOver, List.all_eq_true]
  constructor
  · intro hdone c hc
    obtain ⟨i, hat⟩ := List.mem_iff_getElem?.mp hc
    obtain ⟨r, rfl⟩ := hdone i c hat
    rfl
  · intro hdone i c hat
    have hc := hdone c (List.mem_of_getElem? hat)
    cases c with
    | returned r => exact ⟨r, rfl⟩
    | arriving | missed | holding _ | looking _ | loading _ | accepting _ _ | leaving _ _ =>
      cases hc

/-! ## The beginning, and what comes after -/

/-- A flight of which nothing has been written down. -/
def of (f : Flight σ ι) : Journal σ ι := { flight := f }

theorem orderly_of_arriving {n : Nat} {c : Cache ι} {s : σ} (hvacant : c.entry? path = none)
    (hopen : c.isShutDown = false) :
    (of (Flight.ofCallers n c s)).Orderly path c.config := by
  have hlive : c.liveHandle? path = none := by rw [Cache.liveHandle?, hvacant]; rfl
  have harriving : ∀ (i : Nat) (d : Caller ι), (List.replicate n Caller.arriving)[i]? = some d →
      d = .arriving := fun i d hat => List.eq_of_mem_replicate (List.mem_of_getElem? hat)
  refine ⟨?_, hopen, rfl⟩
  exact
    { stands := fun i d hat => by rw [harriving i d hat]; rfl
      newest := fun _ hcurrent => by cases hcurrent
      settled := fun _ _ hslot => by cases hslot
      attended := fun _ hcurrent => by cases hcurrent
      busy := fun _ hslot => by cases hslot
      alone := fun i _ d _ hat _ hd _ => by rw [harriving i d hat] at hd; cases hd
      results := fun _ _ hslot => by cases hslot
      failed := fun _ _ hmem => by cases hmem
      loaded := fun _ _ hmem => by cases hmem
      origin := fun h hl => by
        rw [show c.liveHandle? path = some h from hl] at hlive
        cases hlive
      inOrder := List.Pairwise.nil }

theorem remaining_ofCallers (path : Path) (n : Nat) (c : Cache ι) (s : σ) :
    ((of (Flight.ofCallers n c s)).flight.board path).remaining = 7 * n := by
  simp only [Board.remaining, Flight.board, of, Flight.ofCallers, List.map_replicate,
    Caller.remaining, List.sum_replicate_nat]
  omega

/-- An entry comes from a load that has succeeded. -/
theorem Orderly.vacant_of_failed (h : j.Orderly path config)
    (hfailed : ∀ l ∈ j.loads, ∃ e, l.2 = .error e) : j.flight.cache.entry? path = none := by
  cases hfound : j.flight.cache.entry? path with
  | none => rfl
  | some entry =>
    have hlive : j.flight.cache.liveHandle? path = some entry.handle := by
      rw [Cache.liveHandle?, hfound]
      rfl
    obtain ⟨-, slot, hload⟩ := h.board.origin entry.handle hlive
    obtain ⟨e, hcon⟩ := hfailed _ hload
    cases hcon

/-- When nothing was found and no slot is in the table, a caller that comes alone makes a load. -/
theorem loads_of_newcomer (env : Environment σ ι) {f : Flight σ ι}
    (hopen : f.cache.isShutDown = false) (hkey : Cache.validateKey path = .ok ())
    (hvacant : f.cache.entry? path = none) (hcurrent : f.current = none) :
    ((of { f with callers := f.callers ++ [.arriving] }).after env path
      (List.replicate 5 (.step f.callers.length))).loads
        = [(f.slots.length, (env.load path f.world).1)] := by
  obtain ⟨c, hrequest, hlookup, hstill⟩ : ∃ c, f.cache.request env path f.world = (.ok none, c) ∧
      c.lookup (env.now f.world) path = (none, c) ∧ c.isShutDown = false := by
    refine ⟨{ f.cache with
      tally := { f.cache.tally with misses := f.cache.tally.misses + 1 } }, ?_, ?_, hopen⟩
    · simp [Cache.request, hopen, hkey, Cache.lookup_of_vacant hvacant]
    · apply Cache.lookup_of_vacant
      exact hvacant
  have hset : ∀ caller caller' : Caller ι,
      (f.callers ++ [caller]).set f.callers.length caller' = f.callers ++ [caller'] := by
    intro caller caller'
    rw [List.set_append_right _ _ (Nat.le_refl _), Nat.sub_self, List.set_cons_zero]
  simp [after, of, happen, Flight.step, Flight.load?, Flight.move, hrequest, hcurrent, hset,
    hlookup, hstill]

end Journal

/-! ## Every schedule -/

/-- **Callers of one path share its load.** Any number of callers ask for a path that is not in the
cache, and their steps come in any order. Then

* no load is made after one that has succeeded;
* a load that has succeeded gives a handle, and whoever returns from its slot or a later one returns
  that handle; it is the live one as soon as there is one;
* whoever returns from a slot for which a load has failed returns the error of that load;
* whoever returns without a slot has found the live handle, unless the path is no key at all;
* when everybody has returned no slot is left, and unless a load has succeeded the next caller makes
  another one;
* and everybody returns, if everybody takes steps. -/
theorem single_flight (env : Environment σ ι) (path : Path) (n : Nat) (c : Cache ι) (s : σ)
    (events : List (Flight.Event σ ι)) (hvacant : c.entry? path = none)
    (hopen : c.isShutDown = false) (hlight : Journal.Light env path c.config)
    (hcalm : Journal.Calmly env path events (Journal.of (Flight.ofCallers n c s))) :
    let j := (Journal.of (Flight.ofCallers n c s)).after env path events
    let f := j.flight
    (∀ before slot index after, j.loads = before ++ (slot, .ok index) :: after →
      after = [] ∧ ∀ l ∈ before, ∃ e, l.2 = .error e) ∧
    (∀ slot index, (slot, .ok index) ∈ j.loads → ∃ h : Handle ι, h.path = path ∧ h.index = index ∧
      (f.cache.liveHandle? path = none ∨ f.cache.liveHandle? path = some h) ∧
      ∀ (i : Nat) result slot', f.callers[i]? = some (Caller.returned result) →
        j.seat i = some slot' → slot ≤ slot' → result = .ok h) ∧
    (∀ slot e, (slot, .error e) ∈ j.loads → ∀ (i : Nat) result,
      f.callers[i]? = some (Caller.returned result) → j.seat i = some slot → result = .error e) ∧
    (∀ (i : Nat) result, f.callers[i]? = some (Caller.returned result) → j.seat i = none →
      (∃ h, result = .ok h ∧ f.cache.liveHandle? path = some h) ∨
      ∃ e, result = .error e ∧ Cache.validateKey path = .error e) ∧
    (f.isOver = true → f.current = none ∧
      ((∀ l ∈ j.loads, ∃ e, l.2 = .error e) → Cache.validateKey path = .ok () →
        ((Journal.of { f with callers := f.callers ++ [.arriving] }).after env path
          (List.replicate 5 (.step f.callers.length))).loads
            = [(f.slots.length, (env.load path f.world).1)])) ∧
    ∀ blocks : List (List (Flight.Event σ ι)), events = blocks.flatten → 7 * n ≤ blocks.length →
      (∀ block ∈ blocks, ∀ i < n, .step i ∈ block) → f.isOver = true := by
  intro j f
  have hstart := Journal.orderly_of_arriving (n := n) (s := s) hvacant hopen
  have hj : j.Orderly path c.config := hstart.after hlight hcalm
  have hb := hj.board
  refine ⟨?_, ?_, ?_, ?_, ?_, ?_⟩
  · intro before slot index after hloads
    obtain ⟨hafter, hbefore⟩ := hb.last_of_ok hloads
    exact ⟨hafter, fun l hl => (hbefore l hl).2⟩
  · intro slot index hload
    obtain ⟨h, ⟨hpath, -⟩, hindex, hlive, hresults⟩ := hb.result_of_ok hload
    refine ⟨h, hpath, hindex, hlive, fun i result slot' hat hseat hle => ?_⟩
    have hstands := hb.stands i _ hat
    rw [hseat] at hstands
    exact hresults slot' result hle hstands
  · intro slot e hload i result hat hseat
    have hstands := hb.stands i _ hat
    rw [hseat] at hstands
    have hfilled := (hb.failed slot e hload).symm.trans hstands
    cases hfilled
    rfl
  · intro i result hat hseat
    have hstands := hb.stands i _ hat
    rw [hseat] at hstands
    exact hstands
  · intro hover
    have hcurrent : f.current = none :=
      hb.current_eq_none ((Journal.remaining_eq_zero_iff_isOver path f).mpr hover)
    exact ⟨hcurrent, fun hfailed hkey =>
      Journal.loads_of_newcomer env hj.isOpen hkey (hj.vacant_of_failed hfailed) hcurrent⟩
  · intro blocks hevents hlength hfair
    subst hevents
    have hcount : (Flight.ofCallers n c s).callers.length = n := List.length_replicate
    have hlater := hstart.remaining_after hlight hcalm fun block hblock i hi =>
      hfair block hblock i (hcount ▸ hi)
    have hlater : (f.board path).remaining = 0 ∨
        (f.board path).remaining + blocks.length ≤ 7 * n :=
      Journal.remaining_ofCallers path n c s ▸ hlater
    rw [← Journal.remaining_eq_zero_iff_isOver path]
    omega

/-- A world that counts the loads, of which the first fails. -/
def Environment.faltering : Environment Nat Nat where
  now _ := 0
  presence _ _ := .ok ()
  load path count := (if count = 0 then .error (.loadFailed path.text "busy") else .ok count, count + 1)
  query _ _ _ count := (.ok [], count)
  size index := index

/-- Two callers meet at a slot, whose load fails. Before the second of them returns, a third one,
which had come with them, has made another slot and loads. -/
def overtaking : List (Flight.Event Nat Nat) :=
  [0, 1, 2, 0, 1, 0, 0, 0, 0, 2, 2, 2, 2, 2, 1, 1, 2].map .step

/-- The callers of the first slot share its failure, and the slot of the third is left alone. -/
theorem single_flight_of_overtaking :
    let start : Flight Nat Nat := Flight.ofCallers 3 (Cache.new CacheConfig.unbounded none) 0
    let j := (Journal.of start).after Environment.faltering ⟨"a"⟩ overtaking
    let failure : Error := .loadFailed "a" "busy"
    start.cache.entry? ⟨"a"⟩ = none ∧ start.cache.isShutDown = false ∧
    Journal.Light Environment.faltering ⟨"a"⟩ start.cache.config ∧
    Journal.Calmly Environment.faltering ⟨"a"⟩ overtaking (Journal.of start) ∧
    j.loads = [(0, .error failure), (1, .ok 1)] ∧
    j.flight.results.map (·.map Handle.index) = [.error failure, .error failure, .ok 1] ∧
    j.flight.current = none := by
  intro start j failure
  have hlight : Journal.Light Environment.faltering ⟨"a"⟩ start.cache.config :=
    fun _ _ _ _ _ hbudget => nomatch hbudget
  have hcalm : Journal.Calmly Environment.faltering ⟨"a"⟩ overtaking (Journal.of start) :=
    Journal.calmly_of_steps rfl _
  obtain ⟨-, -, -, -, hover, -⟩ := single_flight Environment.faltering ⟨"a"⟩ 3
    (Cache.new CacheConfig.unbounded none) 0 overtaking rfl rfl hlight hcalm
  exact ⟨rfl, rfl, hlight, hcalm, by decide +kernel, by decide +kernel,
    (hover (by decide +kernel)).1⟩

end Sidecar
