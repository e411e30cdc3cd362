import TreePath.Gzip.PrefixCode

/-!
# Compressed streams

A stream is a row of blocks, the last of which is marked.  A block holds its bytes as they are, or
as symbols of a code: a byte, the end of the block, or the length of a stretch to repeat from the
output, which is followed by the distance back to it.  Each of these codes is either the fixed one
or stands, itself encoded, in front of the block.

Streams are written with blocks that hold bytes as they are.
-/

set_option autoImplicit false

namespace TreePath

namespace Gzip

/-- The codes of a block: for bytes and lengths, and for distances. -/
structure BlockCodes where
  bytes : PrefixCode
  distances : PrefixCode

/-- The symbol that ends a block; the smaller ones are bytes. -/
def endOfBlock : Nat := 256

/-- For each symbol of a length, the smallest length and the number of bits to add to it. -/
def lengthSteps : List (Nat × Nat) :=
  [(3, 0), (4, 0), (5, 0), (6, 0), (7, 0), (8, 0), (9, 0), (10, 0), (11, 1), (13, 1), (15, 1),
    (17, 1), (19, 2), (23, 2), (27, 2), (31, 2), (35, 3), (43, 3), (51, 3), (59, 3), (67, 4),
    (83, 4), (99, 4), (115, 4), (131, 5), (163, 5), (195, 5), (227, 5), (258, 0)]

/-- For each symbol of a distance, the smallest distance and the number of bits to add to it. -/
def distanceSteps : List (Nat × Nat) :=
  [(1, 0), (2, 0), (3, 0), (4, 0), (5, 1), (7, 1), (9, 2), (13, 2), (17, 3), (25, 3), (33, 4),
    (49, 4), (65, 5), (97, 5), (129, 6), (193, 6), (257, 7), (385, 7), (513, 8), (769, 8),
    (1025, 9), (1537, 9), (2049, 10), (3073, 10), (4097, 11), (6145, 11), (8193, 12), (12289, 12),
    (16385, 13), (24577, 13)]

/-- The value that a symbol and the bits behind it stand for. -/
def stepped? (steps : List (Nat × Nat)) (symbol : Nat) (bits : Bits) : Option (Nat × Bits) := do
  let (least, width) ← steps[symbol]?
  let (extra, bits) ← bits.number? width
  return (least + extra, bits)

/-- Repeats `length` bytes of the output from `distance` bytes back. -/
def repeatOutput? (distance : Nat) : Nat → Array UInt8 → Option (Array UInt8)
  | 0, output => some output
  | length + 1, output =>
    if distance ≤ output.size then
      match output[output.size - distance]? with
      | some byte => repeatOutput? distance length (output.push byte)
      | none => none
    else none

/-- The symbols of a block to its end, of which there are fewer than `fuel`. -/
def symbols? (codes : BlockCodes) : Nat → Bits → Array UInt8 → Option (Array UInt8 × Bits)
  | 0, _, _ => none
  | fuel + 1, bits, output =>
    match codes.bytes.symbol? bits with
    | none => none
    | some (symbol, bits) =>
      if symbol < endOfBlock then symbols? codes fuel bits (output.push (UInt8.ofNat symbol))
      else if symbol = endOfBlock then some (output, bits)
      else
        let copied := do
          let (length, bits) ← stepped? lengthSteps (symbol - (endOfBlock + 1)) bits
          let (place, bits) ← codes.distances.symbol? bits
          let (distance, bits) ← stepped? distanceSteps place bits
          let output ← repeatOutput? distance length output
          return (output, bits)
        match copied with
        | some (output, bits) => symbols? codes fuel bits output
        | none => none

/-- The fixed codes. -/
def fixedCodes? : Option BlockCodes := do
  let bytes ← PrefixCode.ofLengths?
    (List.replicate 144 8 ++ List.replicate 112 9 ++ List.replicate 24 7 ++ List.replicate 8 8)
  let distances ← PrefixCode.ofLengths? (List.replicate 32 5)
  return ⟨bytes, distances⟩

/-- The order in which the lengths of the code for lengths are written. -/
def lengthOrder : List Nat := [16, 17, 18, 0, 8, 7, 9, 6, 10, 5, 11, 4, 12, 3, 13, 2, 14, 1, 15]

/-- The next `n` lengths of the code for lengths, of three bits each. -/
def shortLengths? : Nat → Bits → Option (List Nat × Bits)
  | 0, bits => some ([], bits)
  | n + 1, bits => do
    let (length, bits) ← bits.number? 3
    let (lengths, bits) ← shortLengths? n bits
    return (length :: lengths, bits)

/-- The lengths of a code's words, `missing` of them after those that are read, the last read
first.  A symbol is a length, or says how often the last length or 0 is repeated. -/
def wordLengths? (code : PrefixCode) : Nat → Nat → List Nat → Bits → Option (List Nat × Bits)
  | _, 0, read, bits => some (read.reverse, bits)
  | 0, _ + 1, _, _ => none
  | fuel + 1, missing + 1, read, bits => do
    let (symbol, bits) ← code.symbol? bits
    let (length, least, width) ←
      match symbol with
      | 16 => read.head?.map fun last => (last, 3, 2)
      | 17 => some (0, 3, 3)
      | 18 => some (0, 11, 7)
      | _ => some (symbol, 1, 0)
    let (extra, bits) ← bits.number? width
    let times := least + extra
    if times ≤ missing + 1 then
      wordLengths? code fuel (missing + 1 - times) (List.replicate times length ++ read) bits
    else none

/-- The codes that stand in front of a block. -/
def writtenCodes? (bits : Bits) : Option (BlockCodes × Bits) := do
  let (byteCount, bits) ← bits.number? 5
  let (distanceCount, bits) ← bits.number? 5
  let (orderCount, bits) ← bits.number? 4
  let byteCount := byteCount + 257
  let distanceCount := distanceCount + 1
  if 286 < byteCount || 30 < distanceCount then none
  else
    let (short, bits) ← shortLengths? (orderCount + 4) bits
    let code ← PrefixCode.ofLengths? ((List.range 19).map fun symbol =>
      ((lengthOrder.zip short).lookup symbol).getD 0)
    let total := byteCount + distanceCount
    let (lengths, bits) ← wordLengths? code total total [] bits
    let bytes ← PrefixCode.ofLengths? (lengths.take byteCount)
    let distances ← PrefixCode.ofLengths? (lengths.drop byteCount)
    return (⟨bytes, distances⟩, bits)

/-- A block that holds bytes as they are: their number, its complement, and the bytes. -/
def storedBlock? (bits : Bits) (output : Array UInt8) : Option (Array UInt8 × Bits) := do
  let (length, bits) ← bits.aligned.number? 16
  let (complement, bits) ← bits.number? 16
  if length + complement = 65535 then bits.bytes? length output else none

/-- A block of this kind, added to the output. -/
def block? (kind : Nat) (bits : Bits) (output : Array UInt8) : Option (Array UInt8 × Bits) :=
  match kind with
  | 0 => storedBlock? bits output
  | 1 => do symbols? (← fixedCodes?) (bits.length + 1) bits output
  | 2 => do
    let (codes, bits) ← writtenCodes? bits
    symbols? codes (bits.length + 1) bits output
  | _ => none

/-- The blocks of a stream, of which there are fewer than `fuel`. -/
def blocks? : Nat → Bits → Array UInt8 → Option (Array UInt8 × Bits)
  | 0, _, _ => none
  | fuel + 1, bits, output =>
    match bits.number? 1 with
    | none => none
    | some (last, bits) =>
      match bits.number? 2 with
      | none => none
      | some (kind, bits) =>
        match block? kind bits output with
        | none => none
        | some (output, bits) =>
          if last = 1 then some (output, bits) else blocks? fuel bits output

/-- The bytes that a stream stands for, and the bits behind it. -/
def inflate? (bits : Bits) : Option (List UInt8 × Bits) :=
  (blocks? (bits.length + 1) bits #[]).map fun (output, rest) => (output.toList, rest)

/-- The most bytes that a block holds as they are. -/
def storedLimit : Nat := 65535

/-- The bytes of a block that holds `bytes` as they are. -/
def storedBlock (last : Bool) (bytes : List UInt8) : List UInt8 :=
  let length := bytes.length
  let complement := storedLimit - length
  [if last then 1 else 0, UInt8.ofNat (length % 256), UInt8.ofNat (length / 256),
    UInt8.ofNat (complement % 256), UInt8.ofNat (complement / 256)] ++ bytes

/-- A stream that stands for the bytes. -/
def deflate (bytes : List UInt8) : List UInt8 :=
  if bytes.length ≤ storedLimit then storedBlock true bytes
  else storedBlock false (bytes.take storedLimit) ++ deflate (bytes.drop storedLimit)
  termination_by bytes.length
  decreasing_by simp only [List.length_drop, storedLimit] at *; omega

end Gzip

end TreePath
