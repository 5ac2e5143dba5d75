import Sidecar.Binary.Checksum
import Sidecar.FileTree
import Sidecar.Vector.Encoding

/-!
# The flat sidecar file

The flat index keeps every vector of a segment, and its file is the index: a header, the document
ids, the vectors, and a checksum over all bytes before it.

| bytes | content |
|---|---|
| 4 | the letters `KNNF` |
| 4 | the version |
| 4 | the dimension |
| 8 | the number of vectors |
| 4 each | the document ids |
| 4 · dimension each | the vectors |
| 4 | the checksum |

`FlatIndex.encode` writes this form and `FlatIndex.decode` accepts it. Nothing in a file is free:
the header fixes the length, so a file that is longer or shorter is refused, and the length is
computed with checks at 64 bits, so no header can make it wrap around. A loaded index keeps the
bytes of its file and finds documents and vectors by their position in them.
-/

set_option autoImplicit false

namespace Sidecar

/-- A loaded flat index: the bytes of its file, and what the header says about them. The bytes are a
copy. An engine that maps the file has this copy as long as nobody writes into the file; taking the file
away does the mapping no harm. -/
structure FlatIndex where
  bytes : Bytes
  dimension : Nat
  count : Nat
  deriving DecidableEq, Repr, Inhabited

namespace FlatIndex

/-- The name of the engine that searches flat files. -/
def engineName : String := "flat-l2"

/-- The tag that the engine puts into the names of its files. -/
def tag : String := "flat1"

/-- The letters that open a flat file. -/
def magic : Bytes := [0x4B, 0x4E, 0x4E, 0x46]

/-- The version of the form. -/
def version : Nat := 1

/-- The length of the header. -/
def headerSize : Nat := 20

/-- The length of the checksum. -/
def checksumSize : Nat := 4

/-! ## Writing -/

/-- The header of a file. -/
def header (dimension count : Nat) : Bytes :=
  magic ++ Word.encode 4 version ++ Word.encode 4 dimension ++ Word.encode 8 count

/-- Everything before the checksum. The dimension is that of the first vector. -/
def body (ids : List DocId) (vectors : List Embedding) : Bytes :=
  header ((vectors.head?.map List.length).getD 0) ids.length
    ++ ids.flatMap (fun id => Word.encode 4 id.toNat)
    ++ vectors.flatMap encodeVector

/-- Closes bytes with their checksum. -/
def close (content : Bytes) : Bytes :=
  content ++ Word.encode checksumSize (Checksum.crc32 content).toNat

/-- The file of some vectors. -/
def encode (ids : List DocId) (vectors : List Embedding) : Bytes := close (body ids vectors)

/-- Writes the file of some vectors. Every id needs a vector, and all vectors have one dimension;
nothing is written otherwise. -/
def build (files : FileTree) (ids : List DocId) (vectors : List Embedding) (output : Path) :
    Except Error FileTree :=
  if ids.length ≠ vectors.length then
    .error (.buildFailed output.text s!"{ids.length} ids for {vectors.length} vectors")
  else
    let dimension := (vectors.head?.map List.length).getD 0
    match vectors.find? (fun vector => vector.length != dimension) with
    | some odd => .error (.dimensionMismatch dimension odd.length)
    | none => match files.write output (encode ids vectors) with
      | .ok files => .ok files
      | .error cause => .error (.buildFailed output.text cause.message)

/-! ## Reading -/

/-- Why bytes are not a flat file. -/
inductive LoadFault where
  | tooSmall
  | badMagic
  | unsupportedVersion (version : Nat)
  | headerOverflow
  | wrongLength (actual expected : Nat)
  | badChecksum
  deriving DecidableEq, Repr

/-- The text of a fault. -/
def LoadFault.reason : LoadFault → String
  | tooSmall => "file too small for header"
  | badMagic => "invalid magic"
  | unsupportedVersion version => s!"unsupported version: {version}"
  | headerOverflow => "header overflows"
  | wrongLength actual expected => s!"length {actual} != expected {expected}"
  | badChecksum => "checksum mismatch"

/-- A size, if it fits into 64 bits. -/
def fitting (size : Nat) : Option Nat := if size < UInt64.size then some size else none

/-- Where the vectors of a file begin, and how long the file is, as its header says. Every
intermediate size has to fit into 64 bits. -/
def layout? (dimension count : Nat) : Option (Nat × Nat) := do
  let ids ← fitting (count * 4)
  let vectorsOffset ← fitting (headerSize + ids)
  let components ← fitting (count * dimension)
  let vectors ← fitting (components * 4)
  let unsealed ← fitting (vectors + vectorsOffset)
  return (vectorsOffset, ← fitting (unsealed + checksumSize))

/-- A number in the bytes. -/
def wordAt (bytes : Bytes) (start width : Nat) : Nat := Word.decode ((bytes.drop start).take width)

/-- Takes bytes for a flat file. -/
def decode (bytes : Bytes) : Except LoadFault FlatIndex :=
  if bytes.length < headerSize + checksumSize then .error .tooSmall
  else if bytes.take 4 ≠ magic then .error .badMagic
  else
    let found := wordAt bytes 4 4
    if found ≠ version then .error (.unsupportedVersion found)
    else
      let dimension := wordAt bytes 8 4
      let count := wordAt bytes 12 8
      match layout? dimension count with
      | none => .error .headerOverflow
      | some (_, expected) =>
        if bytes.length ≠ expected then .error (.wrongLength bytes.length expected)
        else
          let content := bytes.take (bytes.length - checksumSize)
          let stored := wordAt bytes (bytes.length - checksumSize) checksumSize
          if (Checksum.crc32 content).toNat ≠ stored then .error .badChecksum
          else .ok { bytes, dimension, count }

/-- Loads a file. -/
def load (files : FileTree) (path : Path) : Except Error FlatIndex :=
  match files.map path with
  | .error cause => .error (.loadFailed path.text cause.message)
  | .ok bytes => match decode bytes with
    | .error fault => .error (.loadFailed path.text fault.reason)
    | .ok index => .ok index

/-! ## Parts of a loaded index -/

/-- The length of one vector in bytes. -/
def stride (index : FlatIndex) : Nat := index.dimension * 4

/-- Where the vectors begin. -/
def vectorsOffset (index : FlatIndex) : Nat := headerSize + index.count * 4

/-- The document of a position. -/
def docAt (index : FlatIndex) (i : Nat) : DocId :=
  UInt32.ofNat (wordAt index.bytes (headerSize + i * 4) 4)

/-- The bytes of the vector at a position. -/
def vectorBytes (index : FlatIndex) (i : Nat) : Bytes :=
  (index.bytes.drop (index.vectorsOffset + i * index.stride)).take index.stride

/-- The memory that an index holds, which is its weight in a cache. -/
def size (index : FlatIndex) : Nat := index.bytes.length

/-- A summary of an index for logs. -/
def summary (index : FlatIndex) : String :=
  "FlatIndex \x7b dimension: " ++ toString index.dimension ++ ", count: " ++ toString index.count
    ++ ", mapped_bytes: " ++ toString index.size ++ " \x7d"

end FlatIndex

end Sidecar
