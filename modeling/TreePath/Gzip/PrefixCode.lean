import TreePath.Gzip.Bits

/-!
# Codes of variable length

A code gives a word of bits to every symbol that is in use, so that no word starts with another.
Such a code is known from the lengths of its words alone: words of one length are consecutive
numbers in the order of their symbols, and they continue the numbers of the shorter words.
-/

set_option autoImplicit false

namespace TreePath

namespace Gzip

/-- The longest word of a code. -/
def longestWord : Nat := 15

/-- A code: how many words there are of each length from 1, and the symbols in the order of their
words. -/
structure PrefixCode where
  counts : List Nat
  symbols : List Nat
  deriving Repr

namespace PrefixCode

/-- The symbols whose words have this length. -/
def symbolsOfLength (lengths : List Nat) (length : Nat) : List Nat :=
  (List.range lengths.length).filter fun s => lengths.getD s 0 == length

/-- The words that are still free for longer lengths, or none when there were too few. -/
def freeWords : List Nat → Nat → Option Nat
  | [], free => some free
  | count :: counts, free => if count ≤ 2 * free then freeWords counts (2 * free - count) else none

/-- The code with these lengths, where 0 stands for a symbol that is not in use.  All words have to
be taken, unless at most one symbol is in use. -/
def ofLengths? (lengths : List Nat) : Option PrefixCode :=
  let groups := (List.range longestWord).map fun l => symbolsOfLength lengths (l + 1)
  let code : PrefixCode := ⟨groups.map List.length, groups.flatten⟩
  match freeWords code.counts 1 with
  | some free => if free = 0 || code.symbols.length ≤ 1 then some code else none
  | none => none

/-- Looks for the word `word` among words of the length at hand, of which the first is `first`, and
goes on to the longer ones; `skipped` symbols have shorter words. -/
def find : List Nat → Nat → Nat → Nat → Bits → Option (Nat × Bits)
  | count :: counts, word, first, skipped, bit :: bits =>
    let word := 2 * word + bit.toNat
    let first := 2 * first
    if word < first + count then some (skipped + (word - first), bits)
    else find counts word (first + count) (skipped + count) bits
  | _, _, _, _, _ => none

/-- The next symbol, and the bits behind its word. -/
def symbol? (code : PrefixCode) (bits : Bits) : Option (Nat × Bits) :=
  match find code.counts 0 0 0 bits with
  | some (place, rest) => (code.symbols[place]?).map fun symbol => (symbol, rest)
  | none => none

end PrefixCode

end Gzip

end TreePath
