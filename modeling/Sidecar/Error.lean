/-!
# Why an operation fails

Every failure of the subsystem is one value of `Error`. A value carries only strings and numbers,
so the same failure can be handed to every caller that waited for the same load; the wording is
written once, in `Error.message`, and no other function composes text for an error.

Three predicates sort the failures by what a search may do with them: an *illegal state* must fail
the whole search, a *transient* failure is worth another attempt, and a *segment-local* failure
costs only the matches of the segment that raised it.
-/

set_option autoImplicit false

namespace Sidecar

/-- The failures of building, loading, caching and searching sidecar files. Paths are kept as the
text under which the caller gave them. -/
inductive Error where
  | io (reason : String)
  | malformedVector (doc : UInt32) (reason : String)
  | dimensionMismatch (expected got : Nat)
  | buildFailed (path reason : String)
  | buildTimeout (path : String) (milliseconds : Nat)
  | buildRejected (path : String)
  | loadFailed (path reason : String)
  | queryFailed (path reason : String)
  | ambiguousSidecar (segment : String) (count : Nat)
  | handleInvalidated (path : String)
  | evictionRace (path : String) (attempts : Nat)
  | weightBudgetExceeded (path : String) (size budget : Nat)
  | invalidKey (reason : String)
  | invalidQuery (reason : String)
  | invalidConfig (reason : String)
  | watcherRegistration (path reason : String)
  | shutDown
  deriving DecidableEq, Repr, Inhabited

namespace Error

/-- The text of a failure, as an operator reads it. -/
def message : Error → String
  | io reason => s!"I/O error: {reason}"
  | malformedVector doc reason => s!"Malformed vector for document {doc}: {reason}"
  | dimensionMismatch expected got => s!"Dimension mismatch: expected {expected}, got {got}"
  | buildFailed path reason => s!"Sidecar build failed for {path}: {reason}"
  | buildTimeout path ms => s!"Sidecar build for {path} timed out after {ms}ms"
  | buildRejected path => s!"Sidecar build for {path} rejected: build queue unavailable"
  | loadFailed path reason => s!"Failed to load sidecar {path}: {reason}"
  | queryFailed path reason => s!"Query against {path} failed: {reason}"
  | ambiguousSidecar segment count =>
      s!"Illegal state: segment {segment} has {count} sidecar files, expected exactly one"
  | handleInvalidated path => s!"Handle for {path} was invalidated"
  | evictionRace path attempts => s!"Handle for {path} kept being evicted ({attempts} attempts)"
  | weightBudgetExceeded path size budget =>
      s!"Handle for {path} weighs {size} bytes, over the {budget} byte budget"
  | invalidKey reason => s!"Invalid cache key: {reason}"
  | invalidQuery reason => s!"Invalid query: {reason}"
  | invalidConfig reason => s!"Invalid configuration: {reason}"
  | watcherRegistration path reason => s!"Cannot watch {path}: {reason}"
  | shutDown => "Handle cache is shut down"

/-- Integrity failures, which fail a whole search rather than one segment. -/
def isIllegalState : Error → Bool
  | ambiguousSidecar .. => true
  | _ => false

/-- Failures of a query that lost a race against eviction. -/
def isTransient : Error → Bool
  | handleInvalidated _ | evictionRace .. => true
  | _ => false

/-- Failures that cost a search only the matches of the segment that raised them. -/
def isSegmentLocal : Error → Bool
  | loadFailed .. | queryFailed .. | handleInvalidated _ | evictionRace ..
  | weightBudgetExceeded .. | io _ => true
  | _ => false

end Error

end Sidecar
