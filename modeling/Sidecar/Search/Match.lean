import Sidecar.Vector.Encoding

/-!
# Matches

A match is a document with its distance to the query vector: lower is closer. Matches are ranked by
distance and, at equal distance, by document. Both orders are total, so the pair is packed into one
natural number (`Match.key`) and every ranking in the library is the order of keys.
-/

set_option autoImplicit false

namespace Sidecar

/-- A matched document with its distance. -/
structure Match where
  doc : DocId
  score : Binary32
  deriving DecidableEq, Repr, Inhabited

namespace Match

/-- The place of a match in the ranking: by distance, then by document. -/
def key (m : Match) : Nat := m.score.rank * UInt32.size + m.doc.toNat

/-- Inserts a match into a ranked list, before the first match that ranks after it. -/
def insert (m : Match) : List Match → List Match
  | [] => [m]
  | best :: rest => if m.key < best.key then m :: best :: rest else best :: insert m rest

/-- Ranks matches, closest first. -/
def rank (candidates : List Match) : List Match :=
  candidates.mergeSort (fun a b => decide (a.key ≤ b.key))

end Match

end Sidecar
