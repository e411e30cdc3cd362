/-!
# Bits of a compressed stream

A compressed stream is a row of bits, the low bit of a byte first.  Numbers are written with their
low bit first.
-/

set_option autoImplicit false

namespace TreePath

namespace Gzip

/-- A row of bits. -/
abbrev Bits := List Bool

namespace Bits

/-- The low `n` bits of a number, the lowest first. -/
def ofNat : Nat → Nat → Bits
  | 0, _ => []
  | n + 1, value => (value % 2 == 1) :: ofNat n (value / 2)

/-- The bits of bytes. -/
def ofBytes (bytes : List UInt8) : Bits := bytes.flatMap fun b => ofNat 8 b.toNat

/-- The next `n` bits as a number, and the bits behind it. -/
def number? : Nat → Bits → Option (Nat × Bits)
  | 0, bits => some (0, bits)
  | _ + 1, [] => none
  | n + 1, bit :: bits => (number? n bits).map fun (value, rest) => (bit.toNat + 2 * value, rest)

/-- The next `n` bytes, added to `output`, and the bits behind them. -/
def bytes? : Nat → Bits → Array UInt8 → Option (Array UInt8 × Bits)
  | 0, bits, output => some (output, bits)
  | n + 1, bits, output =>
    match number? 8 bits with
    | some (byte, rest) => bytes? n rest (output.push (UInt8.ofNat byte))
    | none => none

/-- What is left at the next whole byte, where the row ends at one. -/
def aligned (bits : Bits) : Bits := bits.drop (bits.length % 8)

/-- A number has as many bits as were asked for. -/
theorem length_ofNat (n value : Nat) : (ofNat n value).length = n := by
  induction n generalizing value with
  | zero => rfl
  | succ n ih => simp [ofNat, ih]

/-- A number that fits is read back. -/
theorem number?_ofNat_append (n value : Nat) (rest : Bits) (h : value < Nat.pow 2 n) :
    number? n (ofNat n value ++ rest) = some (value, rest) := by
  induction n generalizing value with
  | zero =>
    have hzero : value < 1 := h
    simp [ofNat, number?]
    omega
  | succ n ih =>
    have hdouble : value < Nat.pow 2 n * 2 := h
    have hlt : value / 2 < Nat.pow 2 n := by omega
    simp only [ofNat, List.cons_append, number?, ih _ hlt, Option.map_some]
    rcases Nat.mod_two_eq_zero_or_one value with hbit | hbit <;> simp [hbit] <;> omega

end Bits

end Gzip

end TreePath
