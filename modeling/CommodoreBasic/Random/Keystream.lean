/-!
# The keystream

A stream of 32-bit words as a function of a key: block after block, each block the ChaCha
permutation with twelve rounds of the constants, the key and the block's number, added to what was
permuted.
-/

namespace CommodoreBasic.Keystream

/-- The eight words that determine a stream. -/
abbrev Key := Vector UInt32 8

/-- The sixteen words of a block. -/
abbrev Block := Vector UInt32 16

/-- Turns a word left by `n` bits, for `n` from 1 to 31. -/
def rotateLeft (x n : UInt32) : UInt32 := (x <<< n) ||| (x >>> (32 - n))

/-- Turns a word right by `n` bits. -/
def rotateRight (x n : UInt32) : UInt32 := if n % 32 = 0 then x else rotateLeft x (32 - n % 32)

/-- Stirs four words of a block into each other. -/
def quarterRound (s : Block) (a b c d : Fin 16) : Block :=
  let s := s.set a (s[a] + s[b])
  let s := s.set d (rotateLeft (s[d] ^^^ s[a]) 16)
  let s := s.set c (s[c] + s[d])
  let s := s.set b (rotateLeft (s[b] ^^^ s[c]) 12)
  let s := s.set a (s[a] + s[b])
  let s := s.set d (rotateLeft (s[d] ^^^ s[a]) 8)
  let s := s.set c (s[c] + s[d])
  s.set b (rotateLeft (s[b] ^^^ s[c]) 7)

/-- A round on the columns, then one on the diagonals. -/
def doubleRound (s : Block) : Block :=
  let s := quarterRound s 0 4 8 12
  let s := quarterRound s 1 5 9 13
  let s := quarterRound s 2 6 10 14
  let s := quarterRound s 3 7 11 15
  let s := quarterRound s 0 5 10 15
  let s := quarterRound s 1 6 11 12
  let s := quarterRound s 2 7 8 13
  quarterRound s 3 4 9 14

/-- The block that the rounds start from: four constants, the key, the number of the block and two
zero words. -/
def start (key : Key) (n : UInt64) : Block :=
  #v[0x61707865, 0x3320646e, 0x79622d32, 0x6b206574,
     key[0], key[1], key[2], key[3], key[4], key[5], key[6], key[7],
     n.toUInt32, (n >>> 32).toUInt32, 0, 0]

/-- The `n`-th block of the stream. -/
def block (key : Key) (n : UInt64) : Block :=
  let first := start key n
  let last := (List.range 6).foldl (fun s _ => doubleRound s) first
  first.zipWith (· + ·) last

/-- The word at position `i` of the stream. -/
def word (key : Key) (i : Nat) : UInt32 :=
  (block key (i / 16).toUInt64).get ⟨i % 16, Nat.mod_lt _ (by decide)⟩

/-- The two words from position `i` on, the first in the lower half. -/
def doubleWord (key : Key) (i : Nat) : UInt64 :=
  (word key i).toUInt64 ||| ((word key (i + 1)).toUInt64 <<< 32)

/-- One step of the generator that spreads a seed over a key. -/
def advance (state : UInt64) : UInt64 := state * 6364136223846793005 + 11634580027462260723

/-- The key word of a state: its upper bits folded together and turned by the topmost. -/
def scramble (state : UInt64) : UInt32 :=
  rotateRight (((state >>> 18) ^^^ state) >>> 27).toUInt32 (state >>> 59).toUInt32

/-- The key that a seed determines. -/
def keyOfSeed (seed : UInt64) : Key :=
  let s0 := advance seed
  let s1 := advance s0
  let s2 := advance s1
  let s3 := advance s2
  let s4 := advance s3
  let s5 := advance s4
  let s6 := advance s5
  let s7 := advance s6
  #v[scramble s0, scramble s1, scramble s2, scramble s3,
     scramble s4, scramble s5, scramble s6, scramble s7]

end CommodoreBasic.Keystream
