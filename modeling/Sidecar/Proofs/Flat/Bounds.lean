import Sidecar.Proofs.Search.Heap

/-!
# Reading inside the file

Files, sizes and positions are lists and numbers here, and taking a part that is not there gives what
there is. A computer that maps a file into its memory has no such kindness: a size is a number of 64
bits, and a part of the file that ends behind its end is not there to be read. `Machine` is the
computer's side. Its operations give what the computer gives, or they say why it breaks off: because a
size does not fit (`Trap.overflow`), because a slice is not inside the bytes (`Trap.outOfBounds`), or
because nothing so large can be allocated (`Trap.noRoom`).

On this side a file is loaded and searched once more, operation by operation (`Mapping`), with no
check but those that loading makes itself. The header is the only thing that decides where something
is read, and its fields are whatever somebody has written there. What keeps every read inside is one
equation. Loading compares the length of the file with the length that the header announces, and
computes the latter with checks; so a header that passes announces regions that lie one behind the
other and fill the file up to the checksum (`Measured`). All bounds are read off this equation, with a
dimension or a count of zero as with any other.

A query takes room for its matches before it reads anything, and how much it asks for is up to the
caller. Below 2^60 matches it does not break off for that (`Mapping.nearest_eq`).
-/

set_option autoImplicit false

namespace Sidecar

/-! ## Parts of a file -/

/-- A part of some bytes, from one position up to another. -/
structure Span where
  start : Nat
  stop : Nat
  deriving DecidableEq, Repr

namespace Span

def Within (inner outer : Span) : Prop :=
  outer.start ≤ inner.start ∧ inner.start ≤ inner.stop ∧ inner.stop ≤ outer.stop

/-- One ends before the other begins, so they have no position in common. -/
def Apart (a b : Span) : Prop := a.stop ≤ b.start ∨ b.stop ≤ a.start

theorem Within.apart {a b outer outer' : Span} (ha : a.Within outer) (hb : b.Within outer')
    (h : outer.stop ≤ outer'.start) : a.Apart b :=
  Or.inl (Nat.le_trans ha.2.2 (Nat.le_trans h hb.1))

end Span

/-! ## Computing with 64 bits -/

/-- Why a computation breaks off. -/
inductive Trap where
  | overflow
  | outOfBounds
  | noRoom
  deriving DecidableEq, Repr

/-- A computation that may break off. -/
abbrev Machine := Except Trap

namespace Machine

/-- A size that has to fit into 64 bits. -/
def size (n : Nat) : Machine Nat :=
  match FlatIndex.fitting n with
  | some n => .ok n
  | none => .error .overflow

def add (a b : Nat) : Machine Nat := size (a + b)

def mul (a b : Nat) : Machine Nat := size (a * b)

def sub (a b : Nat) : Machine Nat := if b ≤ a then .ok (a - b) else .error .overflow

/-- A part of some bytes, which has to be inside. -/
def slice (bytes : Bytes) (part : Span) : Machine Bytes :=
  if part.start ≤ part.stop ∧ part.stop ≤ bytes.length then
    .ok ((bytes.drop part.start).take (part.stop - part.start))
  else .error .outOfBounds

/-- Room for some items, in one piece. A piece has less than 2^63 bytes. -/
def allocate (items width : Nat) : Machine Unit :=
  if items * width < Nat.pow 2 63 then .ok () else .error .noRoom

/-- The number in the first bytes, of which there have to be enough. -/
def word (width : Nat) (bytes : Bytes) : Machine Nat := do
  return Word.decode (← slice bytes ⟨0, width⟩)

variable {α β : Type} {a b width start stop : Nat} {bytes : Bytes}

theorem ok_bind (x : α) (f : α → Machine β) : ((.ok x : Machine α) >>= f) = f x := rfl

theorem size_of_lt (h : a < UInt64.size) : size a = .ok a := by
  rw [size, FlatIndex.fitting, if_pos h]

theorem add_of_lt (h : a + b < UInt64.size) : add a b = .ok (a + b) := size_of_lt h

theorem mul_of_lt (h : a * b < UInt64.size) : mul a b = .ok (a * b) := size_of_lt h

theorem sub_of_le (h : b ≤ a) : sub a b = .ok (a - b) := if_pos h

theorem allocate_of_lt {items : Nat} (h : items * width < Nat.pow 2 63) :
    allocate items width = .ok () := if_pos h

theorem slice_of_le (hle : start ≤ stop) (hstop : stop ≤ bytes.length) :
    slice bytes ⟨start, stop⟩ = .ok ((bytes.drop start).take (stop - start)) :=
  if_pos ⟨hle, hstop⟩

theorem slice_take (hstop : stop ≤ bytes.length) : slice bytes ⟨0, stop⟩ = .ok (bytes.take stop) :=
  slice_of_le (Nat.zero_le stop) hstop

theorem word_of_length (h : bytes.length = width) : word width bytes = .ok (Word.decode bytes) := by
  rw [word, slice_take (Nat.le_of_eq h.symm), ok_bind, List.take_of_length_le (Nat.le_of_eq h)]
  rfl

/-- A number is read from a slice of its width. -/
theorem word_slice (start width : Nat) (hstop : start + width ≤ bytes.length) :
    (slice bytes ⟨start, start + width⟩ >>= word width)
      = .ok (FlatIndex.wordAt bytes start width) := by
  have hlength : ((bytes.drop start).take width).length = width := by
    rw [List.length_take, List.length_drop]
    omega
  rw [slice_of_le (Nat.le_add_right _ _) hstop, ok_bind, Nat.add_sub_cancel_left,
    word_of_length hlength]
  rfl

theorem word_slice_last (h : width ≤ bytes.length) :
    (slice bytes ⟨bytes.length - width, bytes.length⟩ >>= word width)
      = .ok (FlatIndex.wordAt bytes (bytes.length - width) width) := by
  have hend : bytes.length - width + width = bytes.length := Nat.sub_add_cancel h
  have hword := word_slice (bytes.length - width) width (Nat.le_of_eq hend)
  rwa [hend] at hword

/-- A loop whose rounds do not break off does not break off. -/
theorem mapM_of_ok {xs : List α} {f : α → Machine β} {g : α → β} (h : ∀ x ∈ xs, f x = .ok (g x)) :
    xs.mapM f = .ok (xs.map g) := by
  induction xs with
  | nil => rfl
  | cons x xs ih =>
    rw [List.mapM_cons, h x List.mem_cons_self, ok_bind,
      ih fun y hy => h y (List.mem_cons_of_mem x hy), ok_bind]
    rfl

/-- The numbers in some bytes, four bytes each. -/
def components (stored : Bytes) : Machine Embedding :=
  (List.range (stored.length / 4)).mapM fun j => do
    let start ← mul j 4
    let chunk ← slice stored ⟨start, ← add start 4⟩
    return ⟨UInt32.ofNat (← word 4 chunk)⟩

end Machine

/-! ## Loading -/

/-- A loaded file as it is kept: with the position of the vectors, computed once. -/
structure Mapping extends FlatIndex where
  offset : Nat
  deriving DecidableEq, Repr

namespace Mapping

open FlatIndex Machine

/-- The mapping that belongs to an index. -/
def of (index : FlatIndex) : Mapping := { index with offset := index.vectorsOffset }

/-- Takes bytes for a flat file. The sizes that the header announces are the ones that are computed
with checks. -/
def decode (bytes : Bytes) : Machine (Except LoadFault Mapping) := do
  let length ← size bytes.length
  if length < (← add headerSize checksumSize) then return .error .tooSmall
  else do
  if (← slice bytes ⟨0, 4⟩) ≠ magic then return .error .badMagic
  else do
  let found ← slice bytes ⟨4, 8⟩ >>= word 4
  if found ≠ version then return .error (.unsupportedVersion found)
  else do
  let dimension ← slice bytes ⟨8, 12⟩ >>= word 4
  let count ← slice bytes ⟨12, 20⟩ >>= word 8
  match layout? dimension count with
  | none => return .error .headerOverflow
  | some (offset, expected) =>
    if length ≠ expected then return .error (.wrongLength length expected)
    else do
    let body ← sub length checksumSize
    let stored ← slice bytes ⟨body, length⟩ >>= word checksumSize
    if (Checksum.crc32 (← slice bytes ⟨0, body⟩)).toNat ≠ stored then return .error .badChecksum
    else return .ok { bytes, dimension, count, offset }

/-- Loads a file. -/
def load (files : FileTree) (path : Path) : Machine (Except Error Mapping) :=
  match files.map path with
  | .error cause => return .error (.loadFailed path.text cause.message)
  | .ok bytes => do
    match ← decode bytes with
    | .error fault => return .error (.loadFailed path.text fault.reason)
    | .ok mapping => return .ok mapping

/-! ## Searching -/

/-- Where the document of a position stands. -/
def docSpan (i : Nat) : Machine Span := do
  let start ← add headerSize (← mul i 4)
  return ⟨start, ← add start 4⟩

def docAt (mapping : Mapping) (i : Nat) : Machine DocId := do
  let part ← docSpan i
  return UInt32.ofNat (← slice mapping.bytes part >>= word 4)

/-- Where the vector of a position stands. -/
def vectorSpan (mapping : Mapping) (i : Nat) : Machine Span := do
  let stride ← mul mapping.dimension 4
  let start ← add mapping.offset (← mul i stride)
  return ⟨start, ← add start stride⟩

def vectorBytes (mapping : Mapping) (i : Nat) : Machine Bytes := do
  slice mapping.bytes (← mapping.vectorSpan i)

/-- The loop of a query, which is all that a query reads of a file: the components of every vector are
read and measured against the query, and the document is looked up. -/
def candidates (measure : Embedding → Embedding → Binary32) (mapping : Mapping) (query : Embedding) :
    Machine (List Match) :=
  (List.range mapping.count).mapM fun i => do
    let stored ← mapping.vectorBytes i >>= components
    return ⟨← mapping.docAt i, measure stored query⟩

end Mapping

namespace FlatIndex

open Machine

/-- The room that a query takes for its matches before it reads any: one more than it keeps, of eight
bytes each. A query that is refused or keeps nothing takes none. -/
def reserve (index : FlatIndex) (query : Embedding) (k : Nat) : Machine Unit :=
  if query.length ≠ index.dimension ∨ k = 0 then return
  else do allocate (← add k 1) 8

theorem reserve_of_lt {k : Nat} (hk : k + 1 < Nat.pow 2 60) (index : FlatIndex)
    (query : Embedding) : index.reserve query k = .ok () := by
  have hbound : Nat.pow 2 63 = Nat.pow 2 60 * 8 := by decide
  have hsize : Nat.pow 2 60 < UInt64.size := by decide
  unfold reserve
  split
  · rfl
  · rw [add_of_lt (Nat.lt_trans hk hsize), ok_bind]
    exact allocate_of_lt (by omega)

end FlatIndex

namespace Mapping

open Machine

/-- A whole query: the check of its dimension, the room for the matches, the loop, and the shortlist of
what the loop finds. -/
def nearest (measure : Embedding → Embedding → Binary32) (mapping : Mapping) (query : Embedding)
    (k : Nat) : Machine (Except Error (List Match)) := do
  mapping.reserve query k
  if query.length ≠ mapping.dimension then
    return .error (.dimensionMismatch mapping.dimension query.length)
  else if k = 0 then return .ok []
  else do
  let found ← mapping.candidates measure query
  return .ok (found.foldl (Shortlist.offer k) [])

end Mapping

namespace FlatIndex

open Machine

variable {bytes : Bytes} {index : FlatIndex} {i j : Nat}

/-! ## Regions -/

def docSpan (i : Nat) : Span := ⟨headerSize + i * 4, headerSize + i * 4 + 4⟩

def vectorSpan (index : FlatIndex) (i : Nat) : Span :=
  ⟨index.vectorsOffset + i * index.stride, index.vectorsOffset + i * index.stride + index.stride⟩

/-- Where the documents stand. -/
def docRegion (index : FlatIndex) : Span := ⟨headerSize, headerSize + index.count * 4⟩

/-- Where the vectors stand. -/
def vectorRegion (index : FlatIndex) : Span :=
  ⟨index.vectorsOffset, index.vectorsOffset + index.count * index.stride⟩

/-- The regions fill the file up to the checksum, and its length is a size. -/
structure Measured (index : FlatIndex) : Prop where
  length : index.vectorRegion.stop + checksumSize = index.bytes.length
  fits : index.bytes.length < UInt64.size

theorem measured_of_decode (h : decode bytes = .ok index) :
    index.bytes = bytes ∧ index.Measured := by
  obtain ⟨rfl, -, hlength, hfits, -⟩ := decode_eq_ok_iff_headed.mp h
  refine ⟨rfl, ?_, hfits⟩
  rw [hlength, span, Nat.mul_assoc]
  show headerSize + index.count * 4 + index.count * index.stride + checksumSize = _
  rw [headerSize, checksumSize, stride]
  omega

theorem docSpan_within (index : FlatIndex) (hi : i < index.count) :
    (docSpan i).Within index.docRegion := by
  refine ⟨Nat.le_add_right _ _, Nat.le_add_right _ _, ?_⟩
  show headerSize + i * 4 + 4 ≤ headerSize + index.count * 4
  omega

theorem vectorSpan_within (index : FlatIndex) (hi : i < index.count) :
    (index.vectorSpan i).Within index.vectorRegion := by
  have hrow : (i + 1) * index.stride ≤ index.count * index.stride := Nat.mul_le_mul_right _ hi
  refine ⟨Nat.le_add_right _ _, Nat.le_add_right _ _, ?_⟩
  show index.vectorsOffset + i * index.stride + index.stride ≤ index.vectorsOffset + _
  rw [Nat.add_assoc, ← Nat.succ_mul]
  exact Nat.add_le_add_left hrow _

theorem Measured.docSpan_stop (h : index.Measured) (hi : i < index.count) :
    headerSize + i * 4 + 4 + checksumSize ≤ index.bytes.length := by
  have hinside : headerSize + i * 4 + 4 ≤ headerSize + index.count * 4 :=
    (docSpan_within index hi).2.2
  have hlength : headerSize + index.count * 4 + index.count * index.stride + checksumSize
      = index.bytes.length := h.length
  omega

theorem Measured.vectorSpan_stop (h : index.Measured) (hi : i < index.count) :
    index.vectorsOffset + i * index.stride + index.stride + checksumSize ≤ index.bytes.length := by
  have hinside : index.vectorsOffset + i * index.stride + index.stride
      ≤ index.vectorsOffset + index.count * index.stride := (vectorSpan_within index hi).2.2
  have hlength : index.vectorsOffset + index.count * index.stride + checksumSize
      = index.bytes.length := h.length
  omega

theorem Measured.length_vectorBytes (h : index.Measured) (hi : i < index.count) :
    (index.vectorBytes i).length = index.stride := by
  have hstop := h.vectorSpan_stop hi
  rw [vectorBytes, List.length_take, List.length_drop]
  exact Nat.min_eq_left (by omega)

/-- Pieces of one length at different places in a row are apart. -/
theorem apart_of_ne (start width : Nat) (hne : i ≠ j) :
    Span.Apart ⟨start + i * width, start + i * width + width⟩
      ⟨start + j * width, start + j * width + width⟩ := by
  have hnext : ∀ {a b : Nat}, a < b → start + a * width + width ≤ start + b * width := by
    intro a b hlt
    rw [Nat.add_assoc, ← Nat.succ_mul]
    exact Nat.add_le_add_left (Nat.mul_le_mul_right width hlt) start
  rcases Nat.lt_or_gt_of_ne hne with hlt | hlt
  · exact Or.inl (hnext hlt)
  · exact Or.inr (hnext hlt)

end FlatIndex

namespace Mapping

open FlatIndex Machine

variable {bytes : Bytes} {index : FlatIndex} {i : Nat}

/-! ## No computation breaks off -/

theorem offset_of_layout {dimension count offset expected : Nat}
    (h : layout? dimension count = some (offset, expected)) : offset = headerSize + count * 4 := by
  rw [layout?_eq] at h
  split at h
  · exact (Prod.mk.inj (Option.some.inj h)).1.symm
  · cases h

theorem decode_eq (hsize : bytes.length < UInt64.size) :
    decode bytes = .ok ((FlatIndex.decode bytes).map of) := by
  unfold decode FlatIndex.decode
  rw [size_of_lt hsize, ok_bind, add_of_lt (by decide), ok_bind]
  by_cases hshort : bytes.length < headerSize + checksumSize
  · rw [if_pos hshort, if_pos hshort]
    rfl
  rw [if_neg hshort, if_neg hshort]
  have hlong : 24 ≤ bytes.length := Nat.not_lt.mp hshort
  have hopening : slice bytes ⟨0, 4⟩ = .ok (bytes.take 4) := slice_take (by omega)
  have hversion : (slice bytes ⟨4, 8⟩ >>= word 4) = .ok (wordAt bytes 4 4) :=
    word_slice 4 4 (by omega)
  have hdimension : (slice bytes ⟨8, 12⟩ >>= word 4) = .ok (wordAt bytes 8 4) :=
    word_slice 8 4 (by omega)
  have hcount : (slice bytes ⟨12, 20⟩ >>= word 8) = .ok (wordAt bytes 12 8) :=
    word_slice 12 8 (by omega)
  rw [hopening, ok_bind]
  by_cases hmagic : bytes.take 4 ≠ magic
  · rw [if_pos hmagic, if_pos hmagic]
    rfl
  rw [if_neg hmagic, if_neg hmagic, hversion, ok_bind]
  by_cases hfound : wordAt bytes 4 4 ≠ version
  · rw [if_pos hfound, if_pos hfound]
    rfl
  rw [if_neg hfound, if_neg hfound, hdimension, ok_bind, hcount, ok_bind]
  cases hlayout : layout? (wordAt bytes 8 4) (wordAt bytes 12 8) with
  | none =>
    simp only [hlayout]
    rfl
  | some sizes =>
    obtain ⟨offset, expected⟩ := sizes
    simp only [hlayout]
    by_cases hlength : bytes.length ≠ expected
    · rw [if_pos hlength, if_pos hlength]
      rfl
    have hseal : checksumSize ≤ bytes.length := Nat.le_trans (by decide) hlong
    rw [if_neg hlength, if_neg hlength, sub_of_le hseal, ok_bind, word_slice_last hseal, ok_bind,
      slice_take (Nat.sub_le _ _), ok_bind]
    split
    · rfl
    · rw [offset_of_layout hlayout]
      rfl

theorem load_eq {files : FileTree} {path : Path} (hmap : files.map path = .ok bytes)
    (hsize : bytes.length < UInt64.size) :
    load files path = .ok ((FlatIndex.load files path).map of) := by
  unfold load FlatIndex.load
  simp only [hmap, decode_eq hsize, ok_bind]
  cases FlatIndex.decode bytes <;> rfl

section Loaded

variable (h : index.Measured) (hi : i < index.count)

include h hi

theorem docSpan_eq : docSpan i = .ok (FlatIndex.docSpan i) := by
  have hstop := h.docSpan_stop hi
  have hfits := h.fits
  rw [docSpan, mul_of_lt (by omega), ok_bind, add_of_lt (by omega), ok_bind, add_of_lt (by omega),
    ok_bind]
  rfl

theorem docAt_eq : (of index).docAt i = .ok (index.docAt i) := by
  have hstop := h.docSpan_stop hi
  have hword : (slice index.bytes (FlatIndex.docSpan i) >>= word 4)
      = .ok (wordAt index.bytes (headerSize + i * 4) 4) := word_slice _ 4 (by omega)
  have hbytes : (of index).bytes = index.bytes := rfl
  rw [docAt, docSpan_eq h hi, ok_bind, hbytes, hword, ok_bind]
  rfl

theorem vectorSpan_eq : (of index).vectorSpan i = .ok (index.vectorSpan i) := by
  have hstop := h.vectorSpan_stop hi
  have hfits := h.fits
  have hwide : index.stride < UInt64.size := by omega
  have hstride : mul (of index).dimension 4 = .ok index.stride := mul_of_lt hwide
  have hoffset : (of index).offset = index.vectorsOffset := rfl
  rw [vectorSpan, hstride, ok_bind, mul_of_lt (by omega), ok_bind, hoffset, add_of_lt (by omega),
    ok_bind, add_of_lt (by omega), ok_bind]
  rfl

theorem vectorBytes_eq : (of index).vectorBytes i = .ok (index.vectorBytes i) := by
  have hstop := h.vectorSpan_stop hi
  have hbytes : (of index).bytes = index.bytes := rfl
  rw [vectorBytes, vectorSpan_eq h hi, ok_bind, hbytes, FlatIndex.vectorSpan,
    slice_of_le (Nat.le_add_right _ _) (by omega), Nat.add_sub_cancel_left]
  rfl

end Loaded

/-- The components are the numbers in pieces of four bytes. -/
theorem componentsOf_eq_map {stored : Bytes} (hwhole : stored.length % 4 = 0) :
    componentsOf stored = (List.range (stored.length / 4)).map
      fun j => Binary32.decode ((stored.drop (j * 4)).take 4) := by
  refine List.ext_getElem (by simp) fun j hj hj' => ?_
  have hpiece : ((encodeVector (componentsOf stored)).drop (j * 4)).take 4
      = (componentsOf stored)[j].encode :=
    slice_flatMap (fun x _ => Word.length_encode 4 x.bits.toNat) hj
  rw [encodeVector_componentsOf hwhole] at hpiece
  rw [List.getElem_map, List.getElem_range, hpiece, Binary32.decode_encode]

theorem components_eq {stored : Bytes} (hwhole : stored.length % 4 = 0)
    (hsize : stored.length < UInt64.size) : components stored = .ok (componentsOf stored) := by
  rw [components, componentsOf_eq_map hwhole]
  refine mapM_of_ok fun j hj => ?_
  have hinside : j * 4 + 4 ≤ stored.length := by
    have hlt := List.mem_range.mp hj
    omega
  rw [mul_of_lt (by omega), ok_bind, add_of_lt (by omega), ok_bind, slice_of_le (by omega) hinside,
    ok_bind, Nat.add_sub_cancel_left, word_of_length]
  · rfl
  · rw [List.length_take, List.length_drop]
    omega

theorem candidates_eq (measure : Embedding → Embedding → Binary32) (h : index.Measured)
    (query : Embedding) : (of index).candidates measure query
      = .ok (index.candidates (fun stored query => measure (componentsOf stored) query) query) := by
  refine mapM_of_ok fun i hmem => ?_
  have hi : i < index.count := List.mem_range.mp hmem
  have hlength := h.length_vectorBytes hi
  have hstop := h.vectorSpan_stop hi
  have hfits := h.fits
  have hwhole : (index.vectorBytes i).length % 4 = 0 := by
    rw [hlength]
    exact Nat.mul_mod_left _ 4
  have hcomponents := components_eq hwhole (by rw [hlength]; omega)
  rw [vectorBytes_eq h hi, ok_bind, hcomponents, ok_bind, docAt_eq h hi, ok_bind]
  rfl

/-- Nothing is taken into a shortlist that keeps nothing. -/
theorem foldl_offer_zero (ms : List Match) : ms.foldl (Shortlist.offer 0) [] = [] := by
  induction ms with
  | nil => rfl
  | cons m ms ih => exact ih

theorem nearest_eq (measure : Embedding → Embedding → Binary32) (h : index.Measured)
    (query : Embedding) {k : Nat} (hk : k + 1 < Nat.pow 2 60) :
    (of index).nearest measure query k
      = .ok (index.nearest (fun stored query => measure (componentsOf stored) query) query k) := by
  have hsame : (of index).dimension = index.dimension := rfl
  unfold nearest FlatIndex.nearest
  rw [hsame, reserve_of_lt hk, ok_bind]
  by_cases hdimension : query.length ≠ index.dimension
  · rw [if_pos hdimension, if_pos hdimension]
    rfl
  rw [if_neg hdimension, if_neg hdimension]
  by_cases hzero : k = 0
  · rw [if_pos hzero, hzero, foldl_offer_zero]
    rfl
  · rw [if_neg hzero, candidates_eq measure h, ok_bind]
    rfl

end Mapping

namespace FlatIndex

/-- **Every read stays inside the file.** Whatever the bytes are, loading breaks off nowhere: it answers
as `decode` does. In a file that is accepted the documents come right after the header, the vectors
behind them, and the checksum behind these. For every position below the count the two slices are
computed without an overflow and lie in their regions, slices of different positions are apart, and
reading them gives the document and the vector of the position. So the loop of a query runs to its end
and finds the matches of the index, whatever the query is and whatever is computed from the
components. -/
theorem reads_in_bounds (bytes : Bytes) (hsize : bytes.length < Nat.pow 2 63) :
    Mapping.decode bytes = .ok ((decode bytes).map Mapping.of) ∧
    (∀ (files : FileTree) (path : Path), files.map path = .ok bytes →
      Mapping.load files path = .ok ((load files path).map Mapping.of)) ∧
    ∀ index, decode bytes = .ok index →
      index.docRegion.start = headerSize ∧ index.docRegion.stop ≤ index.vectorRegion.start ∧
      index.vectorRegion.stop + checksumSize = bytes.length ∧
      (∀ i < index.count,
        (docSpan i).Within index.docRegion ∧ (index.vectorSpan i).Within index.vectorRegion ∧
        Mapping.docSpan i = .ok (docSpan i) ∧
        (Mapping.of index).docAt i = .ok (index.docAt i) ∧
        (Mapping.of index).vectorSpan i = .ok (index.vectorSpan i) ∧
        (Mapping.of index).vectorBytes i = .ok (index.vectorBytes i)) ∧
      (∀ i < index.count, ∀ j < index.count,
        (docSpan i).Apart (index.vectorSpan j) ∧
        (i ≠ j → (docSpan i).Apart (docSpan j) ∧ (index.vectorSpan i).Apart (index.vectorSpan j))) ∧
      ∀ measure query, (Mapping.of index).candidates measure query
        = .ok (index.candidates (fun stored query => measure (componentsOf stored) query) query) := by
  have hfits : bytes.length < UInt64.size := Nat.lt_trans hsize (by decide)
  refine ⟨Mapping.decode_eq hfits, fun files path hmap => Mapping.load_eq hmap hfits, ?_⟩
  intro index hdecode
  obtain ⟨rfl, h⟩ := measured_of_decode hdecode
  refine ⟨rfl, Nat.le_refl _, h.length, ?_, ?_, fun measure => Mapping.candidates_eq measure h⟩
  · intro i hi
    exact ⟨docSpan_within index hi, vectorSpan_within index hi, Mapping.docSpan_eq h hi,
      Mapping.docAt_eq h hi, Mapping.vectorSpan_eq h hi, Mapping.vectorBytes_eq h hi⟩
  · intro i hi j hj
    refine ⟨(docSpan_within index hi).apart (vectorSpan_within index hj) (Nat.le_refl _), ?_⟩
    exact fun hne => ⟨apart_of_ne headerSize 4 hne, apart_of_ne index.vectorsOffset index.stride hne⟩

/-- Two vectors of two numbers; two vectors without a number; and a header that announces more than
fits into 64 bits. The position behind the last vector is not inside the file. -/
theorem reads_in_bounds_of_files :
    let pair := encode [5, 3] [[⟨0x3F800000⟩, ⟨0⟩], [⟨0x40000000⟩, ⟨0x80000000⟩]]
    let flat := encode [5, 3] [[], []]
    let huge := header 4 0xFFFFFFFFFFFFFFFF ++ List.replicate 20 0
    decode pair = .ok ⟨pair, 2, 2⟩ ∧ decode flat = .ok ⟨flat, 0, 2⟩ ∧
    (Mapping.of ⟨pair, 2, 2⟩).docAt 1 = .ok 3 ∧
    (Mapping.of ⟨pair, 2, 2⟩).vectorSpan 1 = .ok ⟨36, 44⟩ ∧
    (Mapping.of ⟨pair, 2, 2⟩).vectorBytes 2 = .error .outOfBounds ∧
    (Mapping.of ⟨flat, 0, 2⟩).vectorSpan 1 = .ok ⟨28, 28⟩ ∧
    (Mapping.of ⟨flat, 0, 2⟩).vectorBytes 1 = .ok [] ∧
    Mapping.decode huge = .ok (.error .headerOverflow) := by
  intro pair flat huge
  have hpair : decode pair = .ok ⟨pair, 2, 2⟩ := by decide +kernel
  have hflat : decode flat = .ok ⟨flat, 0, 2⟩ := by decide +kernel
  have hhuge : decode huge = .error .headerOverflow := by decide +kernel
  obtain ⟨-, -, -, hreads, -, -⟩ := (reads_in_bounds pair (by decide +kernel)).2.2 _ hpair
  obtain ⟨-, -, -, hdoc, hspan, -⟩ := hreads 1 (by decide)
  obtain ⟨-, -, -, hreads', -, -⟩ := (reads_in_bounds flat (by decide +kernel)).2.2 _ hflat
  obtain ⟨-, -, -, -, hspan', hvector'⟩ := hreads' 1 (by decide)
  refine ⟨hpair, hflat, hdoc, hspan, by decide +kernel, hspan', hvector', ?_⟩
  rw [(reads_in_bounds huge (by decide +kernel)).1, hhuge]
  rfl

end FlatIndex

end Sidecar
