import Sidecar.Cache.Operations

/-!
# Several callers for one path

When several callers miss the same path at the same time, one of them loads the index and the others
wait for it. They meet at a *load slot*: a table holds at most one slot for the path, a caller takes
the slot that is there or puts a new one, and the first caller to find its slot empty fills it.
Whoever has a result takes the slot out of the table, provided that it is still the same slot.

A `Flight` is a state of such a run, and `Flight.step` is one atomic step of one caller. Everything
else is a schedule: any sequence of caller numbers is a possible run, and `Flight.run` is the one in
which the callers take turns.
-/

set_option autoImplicit false

namespace Sidecar

/-- What a load slot holds. -/
inductive LoadSlot (ι : Type) where
  | empty
  /-- Some caller is filling it. -/
  | busy
  | filled (result : Except Error (Handle ι))
  deriving Repr

/-- Where a caller stands. -/
inductive Caller (ι : Type) where
  /-- Before its request. -/
  | arriving
  /-- Its look-up was in vain. -/
  | missed
  /-- It has a slot, which it fills or waits for. -/
  | holding (slot : Nat)
  /-- It fills its slot, and looks once more before it loads. -/
  | looking (slot : Nat)
  /-- It fills its slot, and loads next. -/
  | loading (slot : Nat)
  /-- It fills its slot, and has loaded. -/
  | accepting (slot : Nat) (handle : Handle ι)
  /-- It has the result of its slot. -/
  | leaving (slot : Nat) (result : Except Error (Handle ι))
  | returned (result : Except Error (Handle ι))
  deriving Repr

/-- What a caller that is done came back with. -/
def Caller.result? {ι : Type} : Caller ι → Option (Except Error (Handle ι))
  | .returned result => some result
  | _ => none

/-- Callers of one path on their way through the cache. -/
structure Flight (σ ι : Type) where
  cache : Cache ι
  world : σ
  callers : List (Caller ι)
  /-- Every slot made so far. -/
  slots : List (LoadSlot ι) := []
  /-- The slot in the table. -/
  current : Option Nat := none

namespace Flight

variable {σ ι : Type}

/-- Callers that have not begun. -/
def ofCallers (n : Nat) (c : Cache ι) (s : σ) : Flight σ ι :=
  { cache := c, world := s, callers := List.replicate n .arriving }

/-- A caller moves on. -/
def move (f : Flight σ ι) (i : Nat) (caller : Caller ι) : Flight σ ι :=
  { f with callers := f.callers.set i caller }

/-- A caller fills a slot. -/
def fill (f : Flight σ ι) (i slot : Nat) (result : Except Error (Handle ι)) : Flight σ ι :=
  { f with slots := f.slots.set slot (.filled result) }.move i (.leaving slot result)

/-- A caller takes its next step, unless it has to wait or is done. -/
def step (env : Environment σ ι) (path : Path) (f : Flight σ ι) (i : Nat) : Flight σ ι :=
  match f.callers[i]? with
  | none | some (.returned _) => f
  | some .arriving => match f.cache.request env path f.world with
    | (.error e, cache) => { f with cache }.move i (.returned (.error e))
    | (.ok (some h), cache) => { f with cache }.move i (.returned (.ok h))
    | (.ok none, cache) => { f with cache }.move i .missed
  | some .missed => match f.current with
    | some slot => f.move i (.holding slot)
    | none =>
      let slot := f.slots.length
      { f with slots := f.slots ++ [LoadSlot.empty], current := some slot }.move i (.holding slot)
  | some (.holding slot) => match f.slots[slot]? with
    | some .empty => { f with slots := f.slots.set slot .busy }.move i (.looking slot)
    | some (.filled result) => f.move i (.leaving slot result)
    -- Another caller is filling the slot.
    | _ => f
  | some (.looking slot) => match f.cache.lookup (env.now f.world) path with
    | (some h, cache) => { f with cache }.fill i slot (.ok h)
    | (none, cache) => { f with cache }.move i (.loading slot)
  | some (.loading slot) => match f.cache.fetch env path f.world with
    | (.error e, cache, world) => { f with cache, world }.fill i slot (.error e)
    | (.ok h, cache, world) => { f with cache, world }.move i (.accepting slot h)
  | some (.accepting slot h) => match f.cache.accept env h f.world with
    | (result, cache) => { f with cache }.fill i slot result
  | some (.leaving slot result) =>
    { f with current := f.current.filter (· ≠ slot) }.move i (.returned result)

/-- Whether every caller is done. -/
def isOver (f : Flight σ ι) : Bool := f.callers.all (·.result?.isSome)

/-- Every caller takes a step, in order. -/
def round (env : Environment σ ι) (path : Path) (f : Flight σ ι) : Flight σ ι :=
  (List.range f.callers.length).foldl (step env path) f

/-- The callers take turns, for at most the given number of rounds. -/
def run (env : Environment σ ι) (path : Path) : Nat → Flight σ ι → Flight σ ι
  | 0, f => f
  | rounds + 1, f => if f.isOver then f else run env path rounds (f.round env path)

/-- The results of the callers that are done. -/
def results (f : Flight σ ι) : List (Except Error (Handle ι)) := f.callers.filterMap (·.result?)

end Flight

/-- Several callers ask for one path at once. A caller takes at most eight steps, and in every round
some caller takes one. -/
def Cache.getTogether {σ ι : Type} (env : Environment σ ι) (path : Path) (callers : Nat)
    (c : Cache ι) (s : σ) : List (Except Error (Handle ι)) × Cache ι × σ :=
  let ended := (Flight.ofCallers callers c s).run env path (8 * callers)
  (ended.results, ended.cache, ended.world)

end Sidecar
