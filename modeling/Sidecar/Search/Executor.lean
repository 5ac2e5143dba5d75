import Sidecar.Cache.Operations
import Sidecar.Search.Outcome
import Sidecar.Search.Query

/-!
# Running queries

For each segment: find the sidecar, get a handle from the cache, query it, and make a scorer of the
results. An entry can be evicted between getting its handle and querying it; then the executor goes
back to the cache, as often as it is configured to.

Over several segments a failure that concerns one segment only is recorded and costs that segment's
matches; any other failure ends the search.
-/

set_option autoImplicit false

namespace Sidecar.Executor

variable {σ ι : Type}

/-- Refuses a query that asks for more matches than are allowed. -/
def checkK (config : QueryConfig) (query : Query) : Except Error Unit :=
  if config.maxK < query.k then
    .error (.invalidQuery s!"k = {query.k} exceeds the maximum of {config.maxK}")
  else .ok ()

/-- What a failed query of a loaded index is reported as. -/
def asQueryFailure (path : Path) : Error → Error
  | .queryFailed path reason => .queryFailed path reason
  | other => .queryFailed path.text other.message

/-- Gets a handle and queries it, at most the given number of times. -/
def attempt (env : Environment σ ι) (path : Path) (query : Query) (allowed : Nat) :
    Nat → Cache ι → σ → Except Error (List Match) × Cache ι × σ
  | 0, c, s => (.error (.evictionRace path.text allowed), c, s)
  | left + 1, c, s =>
    match c.get env path s with
    | (.error e, c, s) => (.error e, c, s)
    | (.ok h, c, s) =>
      match c.query env h query.vector query.k s with
      | (.ok results, s) => (.ok results, c, s)
      | (.error (.handleInvalidated _), s) => attempt env path query allowed left c s
      | (.error e, s) => (.error (asQueryFailure path e), c, s)

/-- How often a query is attempted: once, and as often again as is configured. The sum is one of 64
bits, so the largest number of retries leaves no attempt at all. -/
def attempts (config : QueryConfig) : Nat := (config.evictionRetries + 1) % UInt64.size

theorem attempts_eq {config : QueryConfig} (h : config.evictionRetries + 1 < UInt64.size) :
    attempts config = config.evictionRetries + 1 :=
  Nat.mod_eq_of_lt h

@[simp] theorem attempts_default : attempts {} = 2 := rfl

/-- Queries the index of a path, with the configured number of further attempts. -/
def queryPath (env : Environment σ ι) (config : QueryConfig) (path : Path) (query : Query)
    (c : Cache ι) (s : σ) : Except Error (List Match) × Cache ι × σ :=
  attempt env path query (attempts config) (attempts config) c s

/-- Queries one segment. -/
def searchSegment (env : Environment σ ι) (config : QueryConfig) (segment : Segment)
    (query : Query) (c : Cache ι) (s : σ) : Except Error Scorer × Cache ι × σ :=
  match checkK config query with
  | .error e => (.error e, c, s)
  | .ok () => match segment.resolve with
    | .error e => (.error e, c, s)
    | .ok none => (.ok .empty, c, s)
    | .ok (some path) => match queryPath env config path query c s with
      | (.error e, c, s) => (.error e, c, s)
      | (.ok results, c, s) => (.ok (.ofResults results), c, s)

/-- Queries segments one after the other and adds what comes out to an outcome. -/
def searchAll (env : Environment σ ι) (config : QueryConfig) (query : Query) :
    List Segment → SearchOutcome → Cache ι → σ → Except Error SearchOutcome × Cache ι × σ
  | [], outcome, c, s => (.ok outcome, c, s)
  | segment :: rest, outcome, c, s =>
    match searchSegment env config segment query c s with
    | (.ok scorer, c, s) =>
      let found : SegmentHits := ⟨segment.name, segment.docBase, scorer⟩
      searchAll env config query rest { outcome with hits := outcome.hits ++ [found] } c s
    | (.error e, c, s) =>
      if e.isSegmentLocal then
        let missed : SegmentFailure := ⟨segment.name, e⟩
        searchAll env config query rest { outcome with failures := outcome.failures ++ [missed] }
          c s
      else (.error e, c, s)

/-- Queries every segment. -/
def search (env : Environment σ ι) (config : QueryConfig) (segments : List Segment)
    (query : Query) (c : Cache ι) (s : σ) : Except Error SearchOutcome × Cache ι × σ :=
  match checkK config query with
  | .error e => (.error e, c, s)
  | .ok () => searchAll env config query segments {} c s

end Sidecar.Executor
