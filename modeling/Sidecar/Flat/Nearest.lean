import Sidecar.Flat.Format
import Sidecar.Search.Match

/-!
# Nearest vectors

A flat index answers a query exactly: it measures the distance of every stored vector and keeps the
`k` best. The vectors are read once and in order, with a ranked shortlist of at most `k` matches
(`Shortlist.offer`): as long as there is room every match is taken, and after that a match has to
rank before the last of the list, which then leaves.

Searching does not depend on what the distance is, so the metric is a parameter; `euclidean` is the
one the engine uses. It adds the squared differences in the order of the components, starting from
negative zero, which is neutral for addition also on a negative zero.
-/

set_option autoImplicit false

namespace Sidecar

/-- A distance between stored bytes and a query vector. -/
abbrev Metric := Bytes → Embedding → Binary32

/-- The Euclidean distance, in single precision. -/
def euclidean : Metric := fun stored query =>
  let squares := (componentsOf stored).zipWith (fun x q => (x - q) * (x - q)) query
  (squares.foldl (· + ·) Binary32.negativeZero).sqrt

/-- Takes a match into a ranked shortlist that holds at most `k`. -/
def Shortlist.offer (k : Nat) (best : List Match) (m : Match) : List Match :=
  if best.length < k then m.insert best
  else match best.getLast? with
    | some worst => if m.key < worst.key then m.insert best.dropLast else best
    | none => best

namespace FlatIndex

/-- The match of the vector at a position. -/
def matchAt (metric : Metric) (index : FlatIndex) (query : Embedding) (i : Nat) : Match :=
  ⟨index.docAt i, metric (index.vectorBytes i) query⟩

/-- The matches of all vectors, in the order of the file. -/
def candidates (metric : Metric) (index : FlatIndex) (query : Embedding) : List Match :=
  (List.range index.count).map (index.matchAt metric query)

/-- The `k` nearest vectors of an index. The query must have the dimension of the index. That there is
room for `k + 1` matches is taken for granted here, also for 2^60 of them and more. -/
def nearest (metric : Metric) (index : FlatIndex) (query : Embedding) (k : Nat) :
    Except Error (List Match) :=
  if query.length ≠ index.dimension then
    .error (.dimensionMismatch index.dimension query.length)
  else .ok ((index.candidates metric query).foldl (Shortlist.offer k) [])

end FlatIndex

end Sidecar
