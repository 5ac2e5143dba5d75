import Sidecar.Cache.Operations

/-!
# A cache in service

What the theorems about the cache quantify over. A `Service` is a cache together with the world
around it and the references that its callers hold, and an `Action` is anything that can happen to
it: callers get, put, query, invalidate, share and drop, the sweeper sweeps, the watcher polls or is
shut down, the release worker works or falls behind, and the world moves on (files change, time
passes, on a clock that may even run backwards). A *run* is any list of actions, over any
environment, so a statement about `Service.run` holds for every engine, every clock and every
history.

Two things are kept for the theorems' sake. `held` has one element for every reference, because a
handle whose release was refused lives as long as its last reference; and `granted` remembers every
handle that was ever handed out, so that one can speak of handles that everybody has forgotten.
-/

set_option autoImplicit false

namespace Sidecar

/-- A world that is nothing but the time. The index of a path is the length of its text, an index
weighs what it is, and nothing matches. -/
def Environment.clock : Environment Nat Nat where
  now time := time
  presence _ _ := .ok ()
  load path time := (.ok path.text.length, time)
  query _ _ _ time := (.ok [], time)
  size index := index

/-- A cache with the world around it and the callers in front of it. -/
structure Service (σ ι : Type) where
  cache : Cache ι
  world : σ
  /-- The references that callers hold; a handle occurs once for each of them. -/
  held : List (Handle ι) := []
  /-- Every handle that a `get` or a `put` has returned so far. -/
  granted : List (Handle ι) := []

/-- What can happen to a cache in service. -/
inductive Action (σ ι : Type) where
  /-- A caller asks for a path and keeps the handle. -/
  | get (path : Path)
  /-- A caller hands in an index that it has loaded itself, and keeps the handle. -/
  | put (path : Path) (index : ι)
  /-- A caller queries through a handle that is held. -/
  | query (id : Nat) (vector : Embedding) (k : Nat)
  | invalidate (path : Path)
  | sweep
  | poll
  | shutdown
  /-- One more reference is taken to a handle that is held. -/
  | share (id : Nat)
  /-- One reference to a handle is dropped. -/
  | drop (id : Nat)
  /-- The release worker runs the next release. -/
  | release
  /-- Somebody waits until the release worker has run every release. -/
  | drain
  /-- The release worker will lag behind when releases are scheduled. -/
  | lag (lags : List Nat)
  /-- The watcher is shut down. -/
  | blind
  /-- The world is another one now. -/
  | drift (world : σ)

/-- What a caller is told. -/
inductive Answer (ι : Type) where
  | handle (result : Except Error (Handle ι))
  | matches (result : Except Error (List Match))
  | found (found : Bool)
  | count (n : Nat)
  | none

/-- Whether the action hands an index in. -/
def Action.isPut {σ ι : Type} : Action σ ι → Bool
  | put .. => true
  | _ => false

/-- The path for which the action wants a handle. -/
def Action.path? {σ ι : Type} : Action σ ι → Option Path
  | get path | put path _ => some path
  | _ => none

namespace Service

variable {σ ι : Type}

/-- A fresh cache, before anybody has called. -/
def start (config : CacheConfig) (observer : Option (Watcher Unit)) (world : σ) : Service σ ι :=
  { cache := Cache.new config observer, world }

/-- The numbers of the handles that are held. -/
def heldIds (s : Service σ ι) : List Nat := s.held.map (·.id)

/-- A reference to a handle, if somebody holds one. -/
def reference? (s : Service σ ι) (id : Nat) : Option (Handle ι) := s.held.find? (·.id == id)

/-- The caller keeps the handle that it got. -/
def grant (s : Service σ ι) : Except Error (Handle ι) → Service σ ι
  | .ok h => { s with held := s.held ++ [h], granted := s.granted ++ [h] }
  | .error _ => s

/-- Releases the orphans whose last reference is gone. -/
def settle (s : Service σ ι) : Service σ ι :=
  { s with cache := s.cache.settle s.heldIds }

/-- What an action does, up to the orphans that it may leave without a reference. -/
def perform (env : Environment σ ι) : Action σ ι → Service σ ι → Answer ι × Service σ ι
  | .get path, s =>
    let (result, cache, world) := s.cache.get env path s.world
    (.handle result, { s with cache, world }.grant result)
  | .put path index, s =>
    let (result, cache) := s.cache.put env path index s.world
    (.handle result, { s with cache }.grant result)
  | .query id vector k, s => match s.reference? id with
    | none => (.none, s)
    | some h =>
      let (result, world) := s.cache.query env h vector k s.world
      (.matches result, { s with world })
  | .invalidate path, s =>
    let (found, cache) := s.cache.invalidate path
    (.found found, { s with cache })
  | .sweep, s =>
    let (removed, cache) := s.cache.sweep (env.now s.world)
    (.count removed, { s with cache })
  | .poll, s =>
    let (fired, cache) := s.cache.poll (env.presence s.world)
    (.count fired, { s with cache })
  | .shutdown, s => (.none, { s with cache := s.cache.shutdown })
  | .share id, s => (.none, { s with held := s.held ++ (s.reference? id).toList })
  | .drop id, s => (.none, { s with held := s.held.eraseP (·.id == id) })
  | .release, s => (.none, { s with cache := s.cache.runRelease })
  | .drain, s => (.none, { s with cache := s.cache.drainReleases })
  | .lag lags, s => (.none, { s with cache := { s.cache with lags } })
  | .blind, s =>
    (.none, { s with cache := { s.cache with observer := s.cache.observer.map (·.shutdown) } })
  | .drift world, s => (.none, { s with world })

/-- An action happens. A reference that goes takes its orphan with it. -/
def act (env : Environment σ ι) (action : Action σ ι) (s : Service σ ι) :
    Answer ι × Service σ ι :=
  let (answer, s) := perform env action s
  (answer, s.settle)

/-- Some actions happen, one after the other. -/
def run (env : Environment σ ι) (actions : List (Action σ ι)) (s : Service σ ι) : Service σ ι :=
  actions.foldl (fun s action => (s.act env action).2) s

theorem run_append (env : Environment σ ι) (before after : List (Action σ ι)) (s : Service σ ι) :
    s.run env (before ++ after) = (s.run env before).run env after :=
  List.foldl_append ..

/-- A property that holds at the start and survives every action holds after every run. -/
theorem run_induction {env : Environment σ ι} {P : Service σ ι → Prop}
    (step : ∀ s action, P s → P (s.act env action).2) (actions : List (Action σ ι))
    {s : Service σ ι} (h : P s) : P (s.run env actions) := by
  induction actions generalizing s with
  | nil => exact h
  | cons action rest ih => exact ih (step s action h)

end Service

end Sidecar
