import Mathlib.Algebra.Group.Nat.Defs
import TreePath.Gzip.Member
import TreePath.Storage.Loading

/-!
# Compressed files are read back

A compressed file is written as a stream of blocks that hold their bytes as they are.  The stream is
read bit by bit, so the argument goes through bits: the bytes of a number with the low byte first are
its bits with the low bit first (`ofBytes_littleEndian`), and a block leaves the bits behind it
(`blocks?_storedBlock`).  Blocks are taken off the stream in the order in which `deflate` writes them
(`blocks?_deflate`).
-/

set_option autoImplicit false

namespace TreePath

namespace Gzip

namespace Bits

variable {bytes : List UInt8} {rest : Bits} {n m value : Nat}

/-! ## Bits of numbers and bytes -/

/-- The bits of bytes in front come in front. -/
theorem ofBytes_append (front back : List UInt8) :
    ofBytes (front ++ back) = ofBytes front ++ ofBytes back := by
  rw [ofBytes, ofBytes, ofBytes, List.flatMap_append]

/-- A byte gives its eight bits, the lowest first, in front of those of the other bytes. -/
theorem ofBytes_cons (b : UInt8) (bytes : List UInt8) :
    ofBytes (b :: bytes) = ofNat 8 b.toNat ++ ofBytes bytes := rfl

/-- Each byte has eight bits. -/
theorem length_ofBytes (bytes : List UInt8) : (ofBytes bytes).length = 8 * bytes.length := by
  induction bytes with
  | nil => rfl
  | cons b bytes ih =>
    rw [ofBytes_cons, List.length_append, length_ofNat, ih, List.length_cons]
    omega

/-- The low bits of a number and the bits of what is left of it. -/
theorem ofNat_add (m n value : Nat) :
    ofNat (m + n) value = ofNat m value ++ ofNat n (value / 2 ^ m) := by
  induction m generalizing value with
  | zero => simp [ofNat]
  | succ m ih =>
    have hhalf : value / 2 / 2 ^ m = value / 2 ^ (m + 1) := by
      rw [Nat.div_div_eq_div_mul, Nat.pow_succ, Nat.mul_comm]
    rw [Nat.succ_add, ofNat, ofNat, ih, hhalf, List.cons_append]

/-- Only the low bits of a number matter. -/
theorem ofNat_mod (n value : Nat) : ofNat n (value % 2 ^ n) = ofNat n value := by
  induction n generalizing value with
  | zero => rfl
  | succ n ih =>
    have hlow : value % 2 ^ (n + 1) % 2 = value % 2 := by
      rw [Nat.pow_succ, Nat.mul_comm, Nat.mod_mul_right_mod]
    have hhigh : value % 2 ^ (n + 1) / 2 = value / 2 % 2 ^ n := by
      rw [Nat.pow_succ, Nat.mul_comm, Nat.mod_mul_right_div_self]
    rw [ofNat, ofNat, hlow, hhigh, ih]

/-- Bits of a number give its value up to the next one that has the same bits. -/
theorem number?_ofNat_mod (n value : Nat) (rest : Bits) :
    number? n (ofNat n value ++ rest) = some (value % 2 ^ n, rest) := by
  rw [← ofNat_mod]
  exact number?_ofNat_append n _ rest (Nat.mod_lt _ (Nat.two_pow_pos n))

/-- A number and the byte of it have the same eight lowest bits. -/
theorem ofNat_toNat_ofNat (value : Nat) : ofNat 8 (UInt8.ofNat value).toNat = ofNat 8 value := by
  rw [UInt8.toNat_ofNat']
  exact ofNat_mod 8 value

/-- **The bytes of a number, low byte first, are its bits, low bit first.** -/
theorem ofBytes_littleEndian (n value : Nat) :
    ofBytes (littleEndian n value) = ofNat (8 * n) value := by
  induction n generalizing value with
  | zero => rfl
  | succ n ih =>
    have hlow : ofNat 8 (value % 256) = ofNat 8 value := ofNat_mod 8 value
    have hall : ofNat (8 + 8 * n) value = ofNat 8 value ++ ofNat (8 * n) (value / 256) :=
      ofNat_add 8 (8 * n) value
    rw [littleEndian, ofBytes_cons, ih, ofNat_toNat_ofNat, hlow, Nat.mul_succ, Nat.add_comm, hall]

/-- A number in little-endian bytes is read back, up to the size of the field. -/
theorem number?_littleEndian (n value : Nat) (behind : List UInt8) :
    number? (8 * n) (ofBytes (littleEndian n value ++ behind)) =
      some (value % 2 ^ (8 * n), ofBytes behind) := by
  rw [ofBytes_append, ofBytes_littleEndian, number?_ofNat_mod]

/-- Whole bytes are aligned. -/
theorem aligned_append_ofBytes (h : rest.length < 8) (bytes : List UInt8) :
    aligned (rest ++ ofBytes bytes) = ofBytes bytes := by
  have hlength : (rest ++ ofBytes bytes).length % 8 = rest.length := by
    rw [List.length_append, length_ofBytes]
    omega
  rw [aligned, hlength, List.drop_left]

/-- Bytes are read one after another and put behind the output that is there already. -/
theorem bytes?_ofBytes (bytes behind : List UInt8) (output : Array UInt8) :
    bytes? bytes.length (ofBytes (bytes ++ behind)) output =
      some (output ++ bytes.toArray, ofBytes behind) := by
  induction bytes generalizing output with
  | nil => simp [bytes?]
  | cons b bytes ih =>
    have hbyte : number? 8 (ofNat 8 b.toNat ++ ofBytes (bytes ++ behind)) =
        some (b.toNat, ofBytes (bytes ++ behind)) := number?_ofNat_append 8 _ _ b.toNat_lt
    rw [List.length_cons, bytes?, List.cons_append, ofBytes_cons, hbyte]
    simp only [UInt8.ofNat_toNat, ih]
    simp

end Bits

/-! ## Blocks -/

variable {bytes behind : List UInt8} {last : Bool} {fuel : Nat} {output : Array UInt8}

/-- A block holds the low bytes first of its length and of the complement. -/
theorem storedBlock_eq (h : bytes.length ≤ storedLimit) :
    storedBlock last bytes = (if last then 1 else 0) ::
      (littleEndian 2 bytes.length ++ littleEndian 2 (storedLimit - bytes.length) ++ bytes) := by
  rw [storedLimit] at h ⊢
  have hhigh : bytes.length / 256 % 256 = bytes.length / 256 := by omega
  have hcomplement : (65535 - bytes.length) / 256 % 256 = (65535 - bytes.length) / 256 := by omega
  simp [storedBlock, littleEndian, storedLimit, hhigh, hcomplement]

/-- The stored part of a block is read behind the bits that fill the last byte. -/
theorem storedBlock?_ofBytes (h : bytes.length ≤ storedLimit) {fill : Bits}
    (hfill : fill.length < 8) :
    storedBlock? (fill ++ Bits.ofBytes (littleEndian 2 bytes.length ++
        littleEndian 2 (storedLimit - bytes.length) ++ bytes ++ behind)) output =
      some (output ++ bytes.toArray, Bits.ofBytes behind) := by
  rw [storedLimit] at h ⊢
  have hlength := Bits.number?_littleEndian 2 bytes.length
    (littleEndian 2 (65535 - bytes.length) ++ (bytes ++ behind))
  have hcomplement := Bits.number?_littleEndian 2 (65535 - bytes.length) (bytes ++ behind)
  rw [Nat.mod_eq_of_lt (by omega)] at hlength hcomplement
  have hsum : bytes.length + (65535 - bytes.length) = 65535 := by omega
  rw [storedBlock?, Bits.aligned_append_ofBytes hfill, List.append_assoc, List.append_assoc, hlength]
  simp only [Option.bind_eq_bind, Option.bind_some, hcomplement, hsum, if_true,
    Bits.bytes?_ofBytes]

/-- **A block that holds bytes as they are adds them to the output.** -/
theorem blocks?_storedBlock (h : bytes.length ≤ storedLimit) :
    blocks? (fuel + 1) (Bits.ofBytes (storedBlock last bytes ++ behind)) output =
      if last then some (output ++ bytes.toArray, Bits.ofBytes behind)
      else blocks? fuel (Bits.ofBytes behind) (output ++ bytes.toArray) := by
  have hfirst : ∀ more : List UInt8,
      Bits.number? 1 (Bits.ofBytes ((if last then 1 else 0) :: more)) =
        some (if last then 1 else 0, List.replicate 7 false ++ Bits.ofBytes more) := by
    intro more
    cases last <;> rfl
  have hkind : ∀ bits : Bits, Bits.number? 2 (List.replicate 7 false ++ bits) =
      some (0, List.replicate 5 false ++ bits) := fun _ => rfl
  rw [storedBlock_eq h, List.cons_append, blocks?, hfirst]
  simp only [hkind, block?, storedBlock?_ofBytes h (show (List.replicate 5 false).length < 8 by simp)]
  cases last <;> rfl

/-- Compressed bytes are at least as long as the bytes themselves, because they are stored in blocks;
this is the fuel that reading the blocks needs. -/
theorem length_le_length_deflate (bytes : List UInt8) : bytes.length ≤ (deflate bytes).length := by
  fun_induction deflate bytes with
  | case1 bytes h =>
    simp [storedBlock]
    omega
  | case2 bytes h ih =>
    rw [List.length_drop] at ih
    simp [storedBlock]
    omega

/-- **A stream of blocks gives the bytes that it was written for**, and leaves what is behind it. -/
theorem blocks?_deflate (bytes behind : List UInt8) (output : Array UInt8)
    (hfuel : bytes.length < fuel) :
    blocks? fuel (Bits.ofBytes (deflate bytes ++ behind)) output =
      some (output ++ bytes.toArray, Bits.ofBytes behind) := by
  obtain ⟨fuel, rfl⟩ := Nat.exists_eq_add_one_of_ne_zero (Nat.ne_zero_of_lt hfuel)
  fun_induction deflate bytes generalizing fuel output with
  | case1 bytes h => rw [blocks?_storedBlock h, if_pos rfl]
  | case2 bytes h ih =>
    have hlength : (bytes.take storedLimit).length ≤ storedLimit := by
      rw [List.length_take]
      exact Nat.min_le_left _ _
    have hleft : (bytes.drop storedLimit).length < bytes.length := by
      rw [List.length_drop, storedLimit]
      rw [storedLimit] at h
      omega
    obtain ⟨fuel, rfl⟩ := Nat.exists_eq_add_one_of_ne_zero (show fuel ≠ 0 by omega)
    rw [List.append_assoc, blocks?_storedBlock hlength, if_neg Bool.false_ne_true,
      ih _ fuel (by omega), Array.append_assoc]
    simp

/-! ## Files -/

/-- What was compressed is found again, and what stands behind it is left. -/
theorem inflate?_deflate (bytes behind : List UInt8) :
    inflate? (Bits.ofBytes (deflate bytes ++ behind)) = some (bytes, Bits.ofBytes behind) := by
  have hfuel : bytes.length < (Bits.ofBytes (deflate bytes ++ behind)).length + 1 := by
    have hdeflate := length_le_length_deflate bytes
    rw [Bits.length_ofBytes, List.length_append]
    omega
  rw [inflate?, blocks?_deflate bytes behind #[] hfuel]
  simp

/-- **A compressed file stands for the bytes that were compressed.** -/
theorem decompress?_compress (bytes : List UInt8) : decompress? (compress bytes) = some bytes := by
  have hheader : skipHeader? (compress bytes) = some (deflate bytes ++ trailer bytes) := rfl
  have hcheck := Bits.number?_littleEndian 4 (checksum bytes).toNat
    (littleEndian 4 bytes.length ++ [])
  have hlength := Bits.number?_littleEndian 4 bytes.length []
  have haligned := Bits.aligned_append_ofBytes (show ([] : Bits).length < 8 by decide)
    (trailer bytes)
  rw [Nat.mod_eq_of_lt (checksum bytes).toNat_lt] at hcheck
  rw [List.append_nil] at hcheck hlength
  rw [List.nil_append, trailer] at haligned
  rw [decompress?, hheader]
  simp only [Option.bind_eq_bind, Option.bind_some, inflate?_deflate, trailer, haligned, hcheck,
    hlength]
  simp

/-- A compressed text is read back. -/
theorem text?_compress (text : String) : text? (compress (Utf8.encode text)) = some text := by
  rw [text?, decompress?_compress, Option.bind_some, Utf8.decode?_encode]

end Gzip

end TreePath
