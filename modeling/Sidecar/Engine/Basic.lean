import Sidecar.Search.Match
import Sidecar.Watcher

/-!
# What the cache stands on

The cache and the executor use four things they do not own: a clock, the presence of files, loading
an index and querying it. An `Environment` gives these as functions over a state `σ` of the outside
world, so nothing in the cache depends on what that state is or how loading works: files may change,
time may pass and loads may fail between any two steps.
-/

set_option autoImplicit false

namespace Sidecar

/-- The outside of the cache, over a state `σ` of the world and indexes of type `ι`. -/
structure Environment (σ ι : Type) where
  /-- The time on the cache's clock, in nanoseconds. -/
  now : σ → Nat
  /-- How a path looks to the file system. -/
  presence : σ → Path → Presence
  /-- Loads the index of a path. -/
  load : Path → σ → Except Error ι × σ
  /-- At most `k` matches of an index for a vector, in no particular order. -/
  query : ι → Embedding → Nat → σ → Except Error (List Match) × σ
  /-- The memory an index holds, which is its weight. -/
  size : ι → Nat

end Sidecar
