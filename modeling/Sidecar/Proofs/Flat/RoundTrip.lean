import Sidecar.Proofs.Files.Changes
import Sidecar.Proofs.Search.FlatEngine

/-!
# Building and loading are inverse

A flat file has no slack. Its header fixes how long it is and where everything stands, and its last
four bytes are the checksum of the others, so the bytes that can be loaded are exactly those of the
form *header, announced part, checksum* (`decode_eq_ok_iff`). Both directions of the round trip are
read off that form: what is built has it, with the ids and vectors as the announced part, and what has
it is what would be built from the ids and vectors that are found in it.

Two bounds belong to the form. The dimension is written in 32 bits. And a loaded file is shorter than
`2 ^ 64` bytes, because its length is computed in 64 bits with checks; no memory holds a longer one.
A file without vectors has any dimension in its header, so it need not be one that was built.

Nothing here depends on what the checksum is. It could be any function from bytes to 32 bits.
-/

set_option autoImplicit false

namespace Sidecar

namespace FlatIndex

variable {bytes : Bytes} {index : FlatIndex} {dimension count start width : Nat}

/-! ## Pieces of bytes -/

section Slices

variable {α : Type} {f : α → Bytes} {k w : Nat}

theorem slice_append_left (a b : Bytes) (h : k + w ≤ a.length) :
    ((a ++ b).drop k).take w = (a.drop k).take w := by
  rw [List.drop_append_of_le_length (by omega), List.take_append_of_le_length]
  rw [List.length_drop]
  omega

theorem slice_append_right {a : Bytes} (h : a.length = k) (b : Bytes) (j : Nat) :
    ((a ++ b).drop (k + j)).take w = (b.drop j).take w := by
  rw [← List.drop_drop, List.drop_left' h]

theorem length_flatMap_of_length (xs : List α) (hf : ∀ x ∈ xs, (f x).length = w) :
    (xs.flatMap f).length = xs.length * w := by
  induction xs with
  | nil => simp
  | cons x xs ih =>
    have hrest := ih fun y hy => hf y (List.mem_cons_of_mem x hy)
    rw [List.flatMap_cons, List.length_append, hf x List.mem_cons_self, hrest, List.length_cons,
      Nat.succ_mul, Nat.add_comm]

/-- Pieces of one length are found by their position. -/
theorem slice_flatMap {xs : List α} (hf : ∀ x ∈ xs, (f x).length = w) {i : Nat}
    (hi : i < xs.length) : ((xs.flatMap f).drop (i * w)).take w = f xs[i] := by
  induction xs generalizing i with
  | nil => exact absurd hi (Nat.not_lt_zero i)
  | cons x xs ih =>
    have hx : (f x).length = w := hf x List.mem_cons_self
    rw [List.flatMap_cons]
    cases i with
    | zero => rw [Nat.zero_mul, List.drop_zero, List.take_left' hx, List.getElem_cons_zero]
    | succ i =>
      rw [Nat.succ_mul, Nat.add_comm, slice_append_right hx, List.getElem_cons_succ]
      exact ih (fun y hy => hf y (List.mem_cons_of_mem x hy)) (Nat.lt_of_succ_lt_succ hi)

/-- Pieces in order, put together again. -/
theorem flatMap_slices (bytes : Bytes) (n w : Nat) :
    (List.range n).flatMap (fun i => (bytes.drop (i * w)).take w) = bytes.take (n * w) := by
  induction n with
  | zero => simp
  | succ n ih =>
    rw [List.range_succ, List.flatMap_append, ih, List.flatMap_singleton, Nat.succ_mul,
      List.take_add]

end Slices

/-! ## Numbers in bytes -/

theorem wordAt_encode (front rest : Bytes) (n : Nat) (h : front.length = start) :
    wordAt (front ++ (Word.encode width n ++ rest)) start width = n % Nat.pow 256 width := by
  have hlength : (Word.encode width n).length = width := Word.length_encode width n
  rw [wordAt, List.drop_left' h, List.take_left' hlength, Word.decode_encode]

theorem encode_wordAt (h : start + width ≤ bytes.length) :
    Word.encode width (wordAt bytes start width) = (bytes.drop start).take width := by
  have hlength : ((bytes.drop start).take width).length = width := by
    rw [List.length_take, List.length_drop]
    omega
  have hdecode := Word.encode_decode ((bytes.drop start).take width)
  rwa [hlength] at hdecode

theorem wordAt_lt (bytes : Bytes) (start width : Nat) :
    wordAt bytes start width < Nat.pow 256 width := by
  refine Nat.lt_of_lt_of_le (Word.decode_lt _) ?_
  exact Nat.pow_le_pow_right (by decide) (List.length_take_le _ _)

/-! ## The header -/

@[simp] theorem length_header (dimension count : Nat) : (header dimension count).length = 20 := by
  simp [header, magic]

/-- The bytes begin with a header that says so. -/
structure Headed (dimension count : Nat) (bytes : Bytes) : Prop where
  magic : bytes.take 4 = magic
  version : wordAt bytes 4 4 = version
  dimension : wordAt bytes 8 4 = dimension
  count : wordAt bytes 12 8 = count

theorem Headed.take (h : Headed dimension count bytes) (hlength : 20 ≤ bytes.length) :
    bytes.take 20 = header dimension count := by
  rw [header, ← h.magic, ← h.version, ← h.dimension, ← h.count, encode_wordAt (by omega),
    encode_wordAt (by omega), encode_wordAt (by omega), ← List.take_add, ← List.take_add,
    ← List.take_add]

/-- A header says what it was made with, as far as there is room for it. -/
theorem headed_header (dimension count : Nat) (rest : Bytes) :
    Headed (dimension % UInt32.size) (count % UInt64.size) (header dimension count ++ rest) := by
  unfold header
  refine ⟨rfl, ?_, ?_, ?_⟩
  · simp only [List.append_assoc]
    exact wordAt_encode FlatIndex.magic _ version rfl
  · rw [List.append_assoc, List.append_assoc, wordAt_encode _ _ _ (by simp [FlatIndex.magic])]
  · rw [List.append_assoc, wordAt_encode _ _ _ (by simp [FlatIndex.magic])]

theorem headed_append (hdimension : dimension < UInt32.size) (hcount : count < UInt64.size)
    (rest : Bytes) : Headed dimension count (header dimension count ++ rest) := by
  have hheaded := headed_header dimension count rest
  rwa [Nat.mod_eq_of_lt hdimension, Nat.mod_eq_of_lt hcount] at hheaded

/-! ## The checksum -/

@[simp] theorem length_close (content : Bytes) : (close content).length = content.length + 4 := by
  simp [close, checksumSize]

/-- The last four bytes are the checksum of the others. -/
def Sealed (bytes : Bytes) : Prop :=
  (Checksum.crc32 (bytes.take (bytes.length - 4))).toNat = wordAt bytes (bytes.length - 4) 4

theorem sealed_close (content : Bytes) : Sealed (close content) := by
  have hlength : (close content).length - 4 = content.length := by simp
  have hword : wordAt (close content) content.length 4 = (Checksum.crc32 content).toNat := by
    rw [close, checksumSize, ← List.append_nil (Word.encode 4 _), wordAt_encode content [] _ rfl]
    exact Nat.mod_eq_of_lt (Checksum.crc32 content).toNat_lt
  rw [Sealed, hlength, hword, close, List.take_left' rfl]

theorem Sealed.eq_close (h : Sealed bytes) (hlength : 4 ≤ bytes.length) :
    bytes = close (bytes.take (bytes.length - 4)) := by
  have hlast : (bytes.drop (bytes.length - 4)).take 4 = bytes.drop (bytes.length - 4) :=
    List.take_of_length_le (by rw [List.length_drop]; omega)
  rw [close, h, checksumSize, encode_wordAt (by omega), hlast, List.take_append_drop]

/-! ## The form of a file -/

/-- The length of the part between header and checksum: the ids and the vectors. -/
def span (dimension count : Nat) : Nat := count * 4 + count * dimension * 4

theorem span_eq (dimension count : Nat) : span dimension count = count * (4 + 4 * dimension) := by
  rw [span, Nat.mul_add, Nat.mul_assoc, Nat.mul_comm dimension]

/-- Every size fits if the largest does. -/
theorem layout?_eq : layout? dimension count =
    if 24 + span dimension count < UInt64.size
    then some (headerSize + count * 4, 24 + span dimension count) else none := by
  unfold layout? fitting span headerSize checksumSize
  simp only [bind, Option.bind, pure]
  grind

/-- What is asked of a file: a good header, the length that it fixes, and the right checksum. -/
theorem decode_eq_ok_iff_headed : decode bytes = .ok index ↔
    index.bytes = bytes ∧ Headed index.dimension index.count bytes ∧
      bytes.length = 24 + span index.dimension index.count ∧ bytes.length < UInt64.size ∧
      Sealed bytes := by
  constructor
  · intro h
    unfold decode at h
    simp only [layout?_eq] at h
    split at h
    · cases h
    split at h
    · cases h
    split at h
    · cases h
    split at h
    · cases h
    next _ hmagic hversion _ _ expected hlayout =>
    split at h
    · cases h
    split at h
    · cases h
    next hlength hsum =>
    obtain ⟨hfits, -, rfl⟩ : 24 + span (wordAt bytes 8 4) (wordAt bytes 12 8) < UInt64.size ∧
        headerSize + wordAt bytes 12 8 * 4 = _ ∧
        24 + span (wordAt bytes 8 4) (wordAt bytes 12 8) = expected := by
      simpa using hlayout
    cases h
    simp only [not_not] at hmagic hversion hlength hsum
    exact ⟨rfl, ⟨hmagic, hversion, rfl, rfl⟩, hlength, hlength ▸ hfits, hsum⟩
  · rintro ⟨rfl, hheaded, hlength, hfits, hsum⟩
    have hlong : ¬ index.bytes.length < 24 := by omega
    rw [Sealed] at hsum
    unfold decode
    simp only [layout?_eq, hheaded.magic, hheaded.version, hheaded.dimension, hheaded.count,
      ← hlength, hfits, hlong, headerSize, checksumSize]
    simp [hsum]

/-- **A flat file is a header, the part that it announces, and the checksum of both.** -/
theorem decode_eq_ok_iff : decode bytes = .ok index ↔
    index.bytes = bytes ∧ bytes.length < UInt64.size ∧ index.dimension < UInt32.size ∧
      ∃ announced, announced.length = span index.dimension index.count ∧
        bytes = close (header index.dimension index.count ++ announced) := by
  rw [decode_eq_ok_iff_headed]
  constructor
  · rintro ⟨rfl, hheaded, hlength, hfits, hsealed⟩
    refine ⟨rfl, hfits, hheaded.dimension ▸ wordAt_lt _ 8 4,
      (index.bytes.drop 20).take (span index.dimension index.count), ?_, ?_⟩
    · rw [List.length_take, List.length_drop]
      omega
    · have hcut : index.bytes.length - 4 = 20 + span index.dimension index.count := by omega
      rw [← hheaded.take (by omega), ← List.take_add, ← hcut]
      exact hsealed.eq_close (by omega)
  · rintro ⟨rfl, hfits, hdimension, announced, hannounced, hclose⟩
    -- Every record takes four bytes at least, so the count is bounded by the length.
    have hlength : index.bytes.length = 24 + span index.dimension index.count := by
      rw [hclose, length_close, List.length_append, length_header, hannounced]
      omega
    have hcount : index.count < UInt64.size := by
      unfold span at hlength
      omega
    refine ⟨rfl, ?_, hlength, hfits, hclose ▸ sealed_close _⟩
    rw [hclose, close, List.append_assoc]
    exact headed_append hdimension hcount _

/-! ## Building -/

/-- The dimension that goes into the header: that of the first vector. -/
def dimensionOf (vectors : List Embedding) : Nat := (vectors.head?.map List.length).getD 0

/-- There is an id for every vector, and all vectors have one dimension. -/
structure Uniform (ids : List DocId) (vectors : List Embedding) : Prop where
  count : ids.length = vectors.length
  dimension : ∀ vector ∈ vectors, vector.length = dimensionOf vectors

variable {files files' : FileTree} {ids : List DocId} {vectors : List Embedding} {output path : Path}

theorem build_eq_ok_iff : build files ids vectors output = .ok files' ↔
    Uniform ids vectors ∧ files.write output (encode ids vectors) = .ok files' := by
  unfold build
  by_cases hcount : ids.length = vectors.length
  · rw [if_neg (not_not.mpr hcount)]
    cases hodd : vectors.find? (fun vector => vector.length != (vectors.head?.map List.length).getD 0)
      with
    | some odd =>
      have hbad : odd.length ≠ dimensionOf vectors := by
        simpa [dimensionOf] using List.find?_some hodd
      have hmixed : ¬ Uniform ids vectors := fun h =>
        hbad (h.dimension odd (List.mem_of_find?_eq_some hodd))
      simp [hmixed, hodd]
    | none =>
      have huniform : Uniform ids vectors := ⟨hcount, fun vector hvector => by
        simpa [dimensionOf] using List.find?_eq_none.mp hodd vector hvector⟩
      cases files.write output (encode ids vectors) <;> simp [hodd, huniform]
  · rw [if_pos hcount]
    simpa using fun h => absurd h.count hcount

theorem length_ids (ids : List DocId) :
    (ids.flatMap fun id => Word.encode 4 id.toNat).length = ids.length * 4 :=
  length_flatMap_of_length ids fun id _ => Word.length_encode 4 id.toNat

/-- The ids and the vectors, as a file has them. -/
def announcement (ids : List DocId) (vectors : List Embedding) : Bytes :=
  ids.flatMap (fun id => Word.encode 4 id.toNat) ++ vectors.flatMap encodeVector

theorem encode_eq_close (ids : List DocId) (vectors : List Embedding) : encode ids vectors
    = close (header (dimensionOf vectors) ids.length ++ announcement ids vectors) := by
  rw [encode, body, announcement, List.append_assoc]
  rfl

theorem docAt_encode (vectors : List Embedding) (dimension count : Nat) {i : Nat}
    (hi : i < ids.length) : docAt ⟨encode ids vectors, dimension, count⟩ i = ids[i] := by
  have hids : i * 4 + 4 ≤ (ids.flatMap fun id => Word.encode 4 id.toNat).length := by
    rw [length_ids]
    omega
  have hslice : ((encode ids vectors).drop (headerSize + i * 4)).take 4
      = Word.encode 4 ids[i].toNat := by
    rw [encode_eq_close, close, announcement, List.append_assoc, List.append_assoc]
    exact (slice_append_right (length_header _ _) _ _).trans ((slice_append_left _ _ hids).trans
      (slice_flatMap (fun id _ => Word.length_encode 4 id.toNat) hi))
  rw [docAt, wordAt, hslice, Word.decode_encode, Nat.mod_eq_of_lt ids[i].toNat_lt,
    UInt32.ofNat_toNat]

namespace Uniform

theorem length_encodeVector (h : Uniform ids vectors) :
    ∀ vector ∈ vectors, (encodeVector vector).length = dimensionOf vectors * 4 :=
  fun vector hmem => by rw [Sidecar.length_encodeVector, h.dimension vector hmem]

theorem length_vectors (h : Uniform ids vectors) :
    (vectors.flatMap encodeVector).length = ids.length * (dimensionOf vectors * 4) := by
  rw [length_flatMap_of_length vectors h.length_encodeVector, h.count]

theorem length_announced (h : Uniform ids vectors) :
    (announcement ids vectors).length = span (dimensionOf vectors) ids.length := by
  rw [announcement, List.length_append, length_ids, h.length_vectors, span, Nat.mul_assoc]

theorem length_encode (h : Uniform ids vectors) :
    (encode ids vectors).length = 24 + span (dimensionOf vectors) ids.length := by
  rw [encode_eq_close, length_close, List.length_append, length_header, h.length_announced]
  omega

theorem decode_encode (h : Uniform ids vectors) (hdimension : dimensionOf vectors < UInt32.size)
    (hsize : 24 + span (dimensionOf vectors) ids.length < UInt64.size) :
    decode (encode ids vectors) = .ok ⟨encode ids vectors, dimensionOf vectors, ids.length⟩ := by
  refine decode_eq_ok_iff.mpr ⟨rfl, ?_, hdimension, _, h.length_announced, encode_eq_close _ _⟩
  rwa [h.length_encode]

theorem vectorBytes_encode (h : Uniform ids vectors) {i : Nat} (hi : i < vectors.length) :
    vectorBytes ⟨encode ids vectors, dimensionOf vectors, ids.length⟩ i
      = encodeVector vectors[i] := by
  have hvectors : i * (dimensionOf vectors * 4) + dimensionOf vectors * 4
      ≤ (vectors.flatMap encodeVector).length := by
    rw [h.length_vectors, h.count, ← Nat.succ_mul]
    exact Nat.mul_le_mul_right _ hi
  have hfront : (header (dimensionOf vectors) ids.length
      ++ ids.flatMap fun id => Word.encode 4 id.toNat).length = headerSize + ids.length * 4 := by
    rw [List.length_append, length_header, length_ids]
    rfl
  rw [vectorBytes, vectorsOffset, stride, encode_eq_close, close, announcement, List.append_assoc,
    List.append_assoc, ← List.append_assoc (header _ _)]
  exact (slice_append_right hfront _ _).trans
    ((slice_append_left _ _ hvectors).trans (slice_flatMap h.length_encodeVector hi))

end Uniform

/-! ## Rebuilding -/

/-- The vectors of an index, in the order of the file. -/
def embeddings (index : FlatIndex) : List Embedding :=
  (List.range index.count).map fun i => componentsOf (index.vectorBytes i)

/-- The stored vectors as bytes, in the order of the file. -/
def rows (index : FlatIndex) : List Bytes := (List.range index.count).map index.vectorBytes

/-- The index has the form of a file. -/
structure Formed (announced : Bytes) (index : FlatIndex) : Prop where
  bytes : index.bytes = close (header index.dimension index.count ++ announced)
  length : announced.length = span index.dimension index.count

namespace Formed

variable {announced : Bytes} {i : Nat}

theorem encode_docAt (h : Formed announced index) (hi : i < index.count) :
    Word.encode 4 (index.docAt i).toNat = (announced.drop (i * 4)).take 4 := by
  have hinside : i * 4 + 4 ≤ announced.length := by
    rw [h.length, span]
    omega
  have hdoc : (index.docAt i).toNat = wordAt index.bytes (headerSize + i * 4) 4 :=
    UInt32.toNat_ofNat_of_lt' (wordAt_lt _ _ 4)
  have hlength : headerSize + i * 4 + 4 ≤ index.bytes.length := by
    rw [h.bytes, length_close, List.length_append, length_header, headerSize]
    omega
  rw [hdoc, encode_wordAt hlength, h.bytes, close, List.append_assoc]
  exact (slice_append_right (length_header _ _) _ _).trans (slice_append_left _ _ hinside)

theorem vectorBytes_eq (h : Formed announced index) (hi : i < index.count) :
    index.vectorBytes i
      = ((announced.drop (index.count * 4)).drop (i * index.stride)).take index.stride := by
  have hinside : index.count * 4 + i * index.stride + index.stride ≤ announced.length := by
    have hmul : (i + 1) * index.stride ≤ index.count * index.stride := Nat.mul_le_mul_right _ hi
    rw [h.length, span, Nat.mul_assoc, Nat.add_assoc, ← Nat.succ_mul]
    exact Nat.add_le_add_left hmul _
  rw [vectorBytes, vectorsOffset, List.drop_drop, h.bytes, close, List.append_assoc, Nat.add_assoc]
  exact (slice_append_right (length_header _ _) _ _).trans (slice_append_left _ _ hinside)

theorem length_vectorBytes (h : Formed announced index) (hi : i < index.count) :
    (index.vectorBytes i).length = index.dimension * 4 := by
  have hmul : (i + 1) * index.stride ≤ index.count * index.stride := Nat.mul_le_mul_right _ hi
  rw [Nat.succ_mul] at hmul
  have hlength : announced.length = index.count * 4 + index.count * index.stride := by
    rw [h.length, span, Nat.mul_assoc, stride]
  rw [h.vectorBytes_eq hi, List.length_take, List.length_drop, List.length_drop, hlength]
  exact Nat.min_eq_left (by omega)

theorem flatMap_docs (h : Formed announced index) :
    (index.docs.flatMap fun id => Word.encode 4 id.toNat) = announced.take (index.count * 4) := by
  rw [← flatMap_slices, docs, List.flatMap_map]
  exact List.flatMap_congr fun i hi => h.encode_docAt (List.mem_range.mp hi)

theorem encodeVector_components (h : Formed announced index) (hi : i < index.count) :
    encodeVector (componentsOf (index.vectorBytes i)) = index.vectorBytes i := by
  apply encodeVector_componentsOf
  rw [h.length_vectorBytes hi]
  exact Nat.mul_mod_left _ 4

theorem flatten_rows (h : Formed announced index) :
    index.rows.flatten = announced.drop (index.count * 4) := by
  have hrest : (announced.drop (index.count * 4)).length = index.count * index.stride := by
    rw [List.length_drop, h.length, span, Nat.mul_assoc, stride]
    omega
  rw [← List.take_of_length_le (Nat.le_of_eq hrest), ← flatMap_slices, rows, ← List.flatMap_def]
  exact List.flatMap_congr fun i hi => h.vectorBytes_eq (List.mem_range.mp hi)

theorem flatMap_embeddings (h : Formed announced index) :
    index.embeddings.flatMap encodeVector = announced.drop (index.count * 4) := by
  rw [← h.flatten_rows, embeddings, rows, List.flatMap_map, ← List.flatMap_def]
  exact List.flatMap_congr fun i hi => h.encodeVector_components (List.mem_range.mp hi)

theorem length_of_mem (h : Formed announced index) {vector : Embedding}
    (hmem : vector ∈ index.embeddings) : vector.length = index.dimension := by
  obtain ⟨i, hi, rfl⟩ := List.mem_map.mp hmem
  rw [length_componentsOf, h.length_vectorBytes (List.mem_range.mp hi)]
  exact Nat.mul_div_cancel _ (by decide)

theorem dimensionOf_embeddings (h : Formed announced index) (hcount : 1 ≤ index.count) :
    dimensionOf index.embeddings = index.dimension := by
  obtain ⟨n, hn⟩ : ∃ n, index.count = n + 1 := ⟨index.count - 1, by omega⟩
  have hhead : index.embeddings.head? = some (componentsOf (index.vectorBytes 0)) := by
    rw [embeddings, hn, List.range_succ_eq_map, List.map_cons, List.head?_cons]
  have hmem := List.mem_of_head? hhead
  rw [dimensionOf, hhead]
  exact h.length_of_mem hmem

theorem uniform (h : Formed announced index) (hcount : 1 ≤ index.count) :
    Uniform index.docs index.embeddings := by
  refine ⟨by simp [docs, embeddings], fun vector hmem => ?_⟩
  rw [h.length_of_mem hmem, h.dimensionOf_embeddings hcount]

theorem encode_eq (h : Formed announced index) (hcount : 1 ≤ index.count) :
    encode index.docs index.embeddings = index.bytes := by
  have hdimension := h.dimensionOf_embeddings hcount
  have hdocs : index.docs.length = index.count := by simp [docs]
  unfold dimensionOf at hdimension
  rw [encode, body, h.flatMap_docs, h.flatMap_embeddings, hdimension, hdocs, List.append_assoc,
    List.take_append_drop, h.bytes]

end Formed

/-! ## The round trip -/

theorem load_eq_ok_iff_map : load files path = .ok index ↔
    ∃ bytes, files.map path = .ok bytes ∧ decode bytes = .ok index := by
  unfold load
  cases files.map path with
  | error cause => simp
  | ok bytes =>
    cases hdecode : decode bytes with
    | error fault => simp [hdecode]
    | ok found => simp [hdecode]

/-- Where a file can be made, a file can be built. -/
theorem exists_build {opened : FileTree} (hopened : files.create output = .ok opened)
    (h : Uniform ids vectors) : ∃ built, build files ids vectors output = .ok built ∧
      built.map output = .ok (encode ids vectors) := by
  obtain ⟨loc, hplaces, hnode, -⟩ := FileTree.write_eq_ok_iff.mp hopened
  have hwrite : files.write output (encode ids vectors)
      = .ok (files.put loc (.file (encode ids vectors))) :=
    FileTree.write_eq_ok_iff.mpr ⟨loc, hplaces, hnode, rfl⟩
  exact ⟨_, build_eq_ok_iff.mpr ⟨h, hwrite⟩,
    FileTree.map_eq_ok_iff.mpr (FileTree.stat_of_write hwrite)⟩

/-- **What is built can be loaded, and what can be loaded would be built again byte for byte.** The
size in the first half is that of the file, and a longer one is beyond every memory. -/
theorem build_load_inverse :
    (∀ (files opened : FileTree) (output : Path) (ids : List DocId) (vectors : List Embedding),
      files.create output = .ok opened → Uniform ids vectors →
      dimensionOf vectors < UInt32.size →
      24 + ids.length * (4 + 4 * dimensionOf vectors) < UInt64.size →
      ∃ built index, build files ids vectors output = .ok built ∧ load built output = .ok index ∧
        index.dimension = dimensionOf vectors ∧ index.count = ids.length ∧
        (∀ i (h : i < ids.length), index.docAt i = ids[i]) ∧
        (∀ i (h : i < vectors.length), index.vectorBytes i = encodeVector vectors[i]) ∧
        index.size = 24 + ids.length * (4 + 4 * dimensionOf vectors)) ∧
    ∀ (files : FileTree) (path : Path) (index : FlatIndex), load files path = .ok index →
      1 ≤ index.count →
      ∀ (target opened : FileTree) (output : Path), target.create output = .ok opened →
        ∃ built, build target index.docs index.embeddings output = .ok built ∧
          built.map output = files.map path := by
  constructor
  · intro files opened output ids vectors hopened huniform hdimension hsize
    rw [← span_eq] at hsize ⊢
    obtain ⟨built, hbuild, hmap⟩ := exists_build hopened huniform
    refine ⟨built, _, hbuild,
      load_eq_ok_iff_map.mpr ⟨_, hmap, huniform.decode_encode hdimension hsize⟩, rfl, rfl, ?_, ?_, ?_⟩
    · exact fun i hi => docAt_encode vectors _ _ hi
    · exact fun i hi => huniform.vectorBytes_encode hi
    · exact huniform.length_encode
  · intro files path index hload hcount target opened output hopened
    obtain ⟨bytes, hmap, hdecode⟩ := load_eq_ok_iff_map.mp hload
    obtain ⟨rfl, -, -, announced, hlength, hbytes⟩ := decode_eq_ok_iff.mp hdecode
    have hformed : Formed announced index := ⟨hbytes, hlength⟩
    obtain ⟨built, hbuild, hbuilt⟩ := exists_build hopened (hformed.uniform hcount)
    exact ⟨built, hbuild, by rw [hbuilt, hformed.encode_eq hcount, hmap]⟩

/-- Two vectors are built, loaded, and built again elsewhere. -/
theorem build_load_of_pair :
    let files : FileTree := { workingDirectory := ["w"], nodes := [(["w"], .directory)] }
    let ids : List DocId := [5, 3]
    let vectors : List Embedding := [[⟨0x3f800000⟩, ⟨0⟩], [⟨0x40000000⟩, ⟨0x80000000⟩]]
    ∃ built index again, build files ids vectors ⟨"x"⟩ = .ok built ∧
      load built ⟨"x"⟩ = .ok index ∧ index.dimension = 2 ∧ index.docAt 1 = 3 ∧
      index.vectorBytes 1 = [0, 0, 0, 0x40, 0, 0, 0, 0x80] ∧ index.size = 48 ∧
      build files index.docs index.embeddings ⟨"y"⟩ = .ok again ∧
      again.map ⟨"y"⟩ = built.map ⟨"x"⟩ := by
  intro files ids vectors
  have hcreate : files.create ⟨"x"⟩ = .ok (files.put ["w", "x"] (.file [])) := by decide +kernel
  have huniform : Uniform ids vectors := ⟨rfl, by decide⟩
  obtain ⟨built, index, hbuild, hload, hdimension, hcount, hdocs, hvectors, hsize⟩ :=
    build_load_inverse.1 files _ ⟨"x"⟩ ids vectors hcreate huniform (by decide) (by decide)
  have hopened : files.create ⟨"y"⟩ = .ok (files.put ["w", "y"] (.file [])) := by decide +kernel
  obtain ⟨again, hagain, hmap⟩ :=
    build_load_inverse.2 built ⟨"x"⟩ index hload (hcount ▸ by decide) files _ ⟨"y"⟩ hopened
  exact ⟨built, index, again, hbuild, hload, hdimension, hdocs 1 (by decide), hvectors 1 (by decide),
    hsize, hagain, hmap⟩

end FlatIndex

end Sidecar
