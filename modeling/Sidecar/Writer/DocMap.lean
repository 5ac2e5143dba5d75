import Sidecar.Vector.Encoding

/-!
# Document maps

When segments are merged every document gets a new number, unless it was deleted. A document map
lists the new numbers in the order of the old ones.
-/

set_option autoImplicit false

namespace Sidecar

/-- The new numbers of a segment's documents, by their old number. A document without one does not
survive. -/
structure DocMap where
  images : List (Option DocId)
  deriving DecidableEq, Repr, Inhabited

namespace DocMap

/-- The map that numbers a segment's documents from a base on. The length is cut down to the width
of a document number, so a length that does not fit loses documents. -/
def shifted (length : Nat) (base : DocId) : DocMap :=
  ⟨(List.range (length % UInt32.size)).map fun old => some (base + UInt32.ofNat old)⟩

/-- The new number of a document. One that was deleted, or that the map does not list, has none. -/
def get? (map : DocMap) (old : DocId) : Option DocId := (map.images[old.toNat]?).join

/-- The number of documents that survive. -/
def liveCount (map : DocMap) : Nat := map.images.countP Option.isSome

end DocMap

end Sidecar
