import CommodoreBasic.Random.Keystream

/-!
# Random numbers

The generator behind RND: a keystream, how much of it has been drawn, and the last number drawn.
-/

namespace CommodoreBasic

/-- A generator of random numbers. -/
structure Random where
  key : Keystream.Key
  drawn : Nat := 0
  last : Float := 0

namespace Random

/-- The generator that a seed determines. -/
def ofSeed (seed : UInt64) : Random := { key := Keystream.keyOfSeed seed }

instance : Inhabited Random := ⟨ofSeed 0⟩

/-- The next number of the stream, at least 0 and below 1: the upper 53 bits of two words. -/
def draw (g : Random) : Random :=
  let bits := Keystream.doubleWord g.key (2 * g.drawn)
  { g with drawn := g.drawn + 1, last := (bits >>> 11).toFloat / 9007199254740992 }

/-- What RND does with its argument: below zero it starts the stream that the argument determines,
zero repeats the last number, and anything else draws the next one. -/
def roll (g : Random) (x : Float) : Random :=
  if x < 0 then draw (ofSeed x.toBits)
  else if x == 0 then g
  else draw g

end Random

end CommodoreBasic
