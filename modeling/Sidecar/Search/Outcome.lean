import Sidecar.Error
import Sidecar.Search.Scorer

/-!
# The outcome of a search

A search over several segments ends with the matches of the segments that could be searched and the
failures of those that could not. The best matches overall are ranked under global document numbers,
which a segment's documents get by adding the segment's base.
-/

set_option autoImplicit false

namespace Sidecar

/-- The matches of one segment. -/
structure SegmentHits where
  segment : String
  docBase : DocId
  scorer : Scorer

/-- A segment that could not be searched. -/
structure SegmentFailure where
  segment : String
  error : Error
  deriving DecidableEq, Repr

/-- What a search found. -/
structure SearchOutcome where
  hits : List SegmentHits := []
  failures : List SegmentFailure := []

/-- The matches of a segment under global document numbers. -/
def SegmentHits.renumbered (found : SegmentHits) : List Match :=
  found.scorer.hits.map fun m => { m with doc := found.docBase + m.doc }

namespace SearchOutcome

/-- Whether some segment is missing from the matches. -/
def isPartial (outcome : SearchOutcome) : Bool := !outcome.failures.isEmpty

/-- The best matches of all segments, closest first. -/
def topK (outcome : SearchOutcome) (k : Nat) : List Match :=
  (Match.rank (outcome.hits.flatMap SegmentHits.renumbered)).take k

end SearchOutcome

end Sidecar
