/-!
# The checksum of a compressed file

The cyclic redundancy check of 32 bits, low bit first, over the bytes that a compressed file
stands for.
-/

set_option autoImplicit false

namespace TreePath

namespace Gzip

/-- The polynomial of the check, its low bit for the highest power. -/
def checkPolynomial : UInt32 := 0xEDB88320

/-- Divides the remainder by the polynomial for one more bit. -/
def shiftRemainder (remainder : UInt32) : UInt32 :=
  if remainder &&& 1 == 1 then (remainder >>> 1) ^^^ checkPolynomial else remainder >>> 1

/-- The remainder after one more byte. -/
def addByte (remainder : UInt32) (byte : UInt8) : UInt32 :=
  Nat.repeat shiftRemainder 8 (remainder ^^^ byte.toUInt32)

/-- The checksum of the bytes. -/
def checksum (bytes : List UInt8) : UInt32 :=
  bytes.foldl addByte 0xFFFFFFFF ^^^ 0xFFFFFFFF

end Gzip

end TreePath
