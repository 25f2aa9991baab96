import Rollup.Bytes

/-!
# CRC-32

The checksum that closes a record of the commit log: the reflected polynomial `EDB88320`, with the
register complemented before and after.
-/

namespace Rollup.Crc32

/-- Shifts one bit out of the register. -/
def bitStep (register : UInt32) : UInt32 :=
  if register &&& 1 = 1 then (register >>> 1) ^^^ 0xEDB88320 else register >>> 1

/-- Shifts `n` bits out. -/
def bitSteps : Nat → UInt32 → UInt32
  | 0, register => register
  | n + 1, register => bitSteps n (bitStep register)

/-- Takes one byte in. -/
def byteStep (register : UInt32) (byte : UInt8) : UInt32 :=
  bitSteps 8 (register ^^^ byte.toUInt32)

/-- The checksum of a byte string. -/
def checksum (bytes : Bytes) : UInt32 := bytes.foldl byteStep 0xFFFFFFFF ^^^ 0xFFFFFFFF

/-- The check value of the algorithm: the checksum of the digits one to nine. -/
example : checksum ((List.range 9).map fun i => (49 + i).toUInt8) = 0xCBF43926 := by
  decide +kernel

end Rollup.Crc32
