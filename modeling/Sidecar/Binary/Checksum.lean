import Sidecar.Binary.Word

/-!
# CRC-32

The checksum that closes a sidecar file is the reflected CRC-32 of IEEE 802.3: the register starts
with all ones, each byte enters at the low end and is followed by eight shifts, and the result is
inverted. It is written bit by bit, because a register update that is visibly linear is what makes
the detection of short bursts provable; files are small enough not to need a table.
-/

set_option autoImplicit false

namespace Sidecar

namespace Checksum

/-- The generator polynomial, reflected. -/
def polynomial : UInt32 := 0xEDB88320

/-- One shift of the register: what falls out at the low end decides whether the polynomial
is added. -/
def shift (register : UInt32) : UInt32 :=
  if register &&& 1 = 1 then (register >>> 1) ^^^ polynomial else register >>> 1

/-- Several shifts in a row. -/
def shifts : Nat → UInt32 → UInt32
  | 0, register => register
  | n + 1, register => shifts n (shift register)

/-- A byte enters the register. -/
def absorb (register : UInt32) (byte : UInt8) : UInt32 := shifts 8 (register ^^^ byte.toUInt32)

/-- The register after some bytes. -/
def run (register : UInt32) (bytes : Bytes) : UInt32 := bytes.foldl absorb register

/-- The checksum of some bytes. -/
def crc32 (bytes : Bytes) : UInt32 := run 0xFFFFFFFF bytes ^^^ 0xFFFFFFFF

end Checksum

end Sidecar
