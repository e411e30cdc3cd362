import TreePath.Gzip.Checksum
import TreePath.Gzip.Deflate

/-!
# Compressed files

A compressed file starts with two bytes that mark it, the method, flags, and the optional fields
that the flags announce.  A compressed stream follows, and behind it the checksum and the length of
the bytes that it stands for.  What comes after these is not looked at.
-/

set_option autoImplicit false

namespace TreePath

namespace Gzip

/-- The bytes at the start of every compressed file. -/
def magic : List UInt8 := [0x1f, 0x8b]

/-- The bytes start as a compressed file does. -/
def startsWithMagic (bytes : List UInt8) : Bool := magic.isPrefixOf bytes

/-- The only method of compression, which stands for streams of blocks. -/
def method : UInt8 := 8

/-- The longest name or comment. -/
def headerFieldLimit : Nat := 65535

/-- The flag at this place is up. -/
def hasFlag (flags : UInt8) (place : Nat) : Bool := flags.toNat.testBit place

/-- A number of `n` bytes, the low byte first, and the bytes behind it. -/
def littleEndian? : Nat → List UInt8 → Option (Nat × List UInt8)
  | 0, bytes => some (0, bytes)
  | _ + 1, [] => none
  | n + 1, b :: bytes =>
    (littleEndian? n bytes).map fun (value, rest) => (b.toNat + 256 * value, rest)

/-- A number in `n` bytes, the low byte first. -/
def littleEndian : Nat → Nat → List UInt8
  | 0, _ => []
  | n + 1, value => UInt8.ofNat (value % 256) :: littleEndian n (value / 256)

/-- What comes after an optional field of a given length. -/
def skipExtra? (bytes : List UInt8) : Option (List UInt8) := do
  let (length, rest) ← littleEndian? 2 bytes
  if length ≤ rest.length then some (rest.drop length) else none

/-- What comes after an optional field that ends in a byte 0. -/
def skipText? (bytes : List UInt8) : Option (List UInt8) :=
  let field := bytes.takeWhile (· != 0)
  if field.length ≤ headerFieldLimit then (bytes.drop field.length).tail? else none

/-- What comes after the two bytes that check the header `header`. -/
def skipHeaderCheck? (header bytes : List UInt8) : Option (List UInt8) := do
  let (stored, rest) ← littleEndian? 2 bytes
  if stored = (checksum header).toNat % 65536 then some rest else none

/-- What comes after the header. -/
def skipHeader? (file : List UInt8) : Option (List UInt8) :=
  match file with
  | a :: b :: m :: flags :: _ :: _ :: _ :: _ :: _ :: _ :: rest => do
    if [a, b] ≠ magic || m ≠ method || hasFlag flags 5 || hasFlag flags 6 || hasFlag flags 7 then
      none
    else
      let rest ← if hasFlag flags 2 then skipExtra? rest else some rest
      let rest ← if hasFlag flags 3 then skipText? rest else some rest
      let rest ← if hasFlag flags 4 then skipText? rest else some rest
      if hasFlag flags 1 then skipHeaderCheck? (file.take (file.length - rest.length)) rest
      else some rest
  | _ => none

/-- The bytes that a compressed file stands for. -/
def decompress? (file : List UInt8) : Option (List UInt8) := do
  let stream ← skipHeader? file
  let (bytes, bits) ← inflate? (Bits.ofBytes stream)
  let (check, bits) ← bits.aligned.number? 32
  let (length, _) ← bits.number? 32
  if check = (checksum bytes).toNat && length = bytes.length % Nat.pow 2 32 then some bytes
  else none

/-- The header of a compressed file, and the stream that stands for the bytes. -/
def front (bytes : List UInt8) : List UInt8 :=
  magic ++ [method, 0, 0, 0, 0, 0, 0, 255] ++ deflate bytes

/-- What comes after the stream: the checksum and the length of the bytes. -/
def trailer (bytes : List UInt8) : List UInt8 :=
  littleEndian 4 (checksum bytes).toNat ++ littleEndian 4 bytes.length

/-- A compressed file that stands for the bytes. -/
def compress (bytes : List UInt8) : List UInt8 := front bytes ++ trailer bytes

end Gzip

end TreePath
