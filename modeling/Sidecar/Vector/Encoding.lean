import Sidecar.Binary.Binary32
import Sidecar.Error

/-!
# Vectors as field values

A vector field stores one value per document: the components of the vector, little-endian, back to
back. There is no header, so the dimension is the length of the value divided by four and must be
the same for every document of a segment.

A value has at most one reading, and `decodeVector` refuses everything that is not the encoding of
a non-empty vector of finite numbers. The order of its tests decides which fault is reported when a
value has several: emptiness, then length, then dimension, then the first bad component.
-/

set_option autoImplicit false

namespace Sidecar

/-- A document within one segment. -/
abbrev DocId := UInt32

/-- A vector, by its components. -/
abbrev Embedding := List Binary32

/-- The vector of one document. -/
structure VectorRecord where
  doc : DocId
  vector : Embedding
  deriving DecidableEq, Repr

/-- The number of components of the record's vector. -/
def VectorRecord.dimension (record : VectorRecord) : Nat := record.vector.length

/-- The field value of a vector. -/
def encodeVector (vector : Embedding) : Bytes := vector.flatMap Binary32.encode

/-- The components in a value, four bytes each; a ragged end is left out. -/
def componentsOf : Bytes → Embedding
  | a :: b :: c :: d :: rest => Binary32.decode [a, b, c, d] :: componentsOf rest
  | _ => []

theorem encodeVector_cons (x : Binary32) (vector : Embedding) :
    encodeVector (x :: vector) = x.encode ++ encodeVector vector :=
  List.flatMap_cons

@[simp] theorem length_encodeVector (vector : Embedding) :
    (encodeVector vector).length = vector.length * 4 := by
  induction vector with
  | nil => rfl
  | cons x vector ih =>
    rw [encodeVector_cons, List.length_append, ih, Binary32.encode, Word.length_encode,
      List.length_cons]
    omega

theorem componentsOf_encodeVector (vector : Embedding) :
    componentsOf (encodeVector vector) = vector := by
  induction vector with
  | nil => rfl
  | cons x vector ih =>
    have hx := x.decode_encode
    rw [encodeVector_cons]
    simp only [Binary32.encode, Word.encode] at hx ⊢
    simp only [List.cons_append, List.nil_append, componentsOf, hx, ih]

theorem encodeVector_componentsOf {value : Bytes} (h : value.length % 4 = 0) :
    encodeVector (componentsOf value) = value := by
  fun_induction componentsOf value with
  | case1 a b c d rest ih =>
    have hrest : rest.length % 4 = 0 := by
      simp only [List.length_cons] at h
      omega
    rw [encodeVector_cons, Binary32.encode_decode rfl, ih hrest]
    rfl
  | case2 value hshort =>
    match value, h, hshort with
    | [], _, _ => rfl
    | a :: b :: c :: d :: rest, _, hshort => exact absurd rfl (hshort a b c d rest)

@[simp] theorem length_componentsOf (value : Bytes) :
    (componentsOf value).length = value.length / 4 := by
  fun_induction componentsOf value with
  | case1 a b c d rest ih =>
    simp only [List.length_cons, ih]
    omega
  | case2 value hshort =>
    match value, hshort with
    | [], _ | [_], _ | [_, _], _ | [_, _, _], _ => simp
    | a :: b :: c :: d :: rest, hshort => exact absurd rfl (hshort a b c d rest)

/-- Reads the field value of a document. The dimension is checked when it is already known. -/
def decodeVector (doc : DocId) (value : Bytes) (expected : Option Nat) :
    Except Error Embedding :=
  if value.isEmpty then .error (.malformedVector doc "empty value")
  else if value.length % 4 ≠ 0 then
    .error (.malformedVector doc s!"value length {value.length} is not a multiple of 4")
  else
    let dimension := value.length / 4
    match expected.filter (· ≠ dimension) with
    | some fixed => .error (.dimensionMismatch fixed dimension)
    | none =>
      let vector := componentsOf value
      match vector.findIdx? (!·.isFinite) with
      | some position => .error (.malformedVector doc s!"component {position} is not finite")
      | none => .ok vector

end Sidecar
