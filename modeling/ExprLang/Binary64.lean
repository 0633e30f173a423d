/-!
# Binary64 numbers

The numbers of the language are 64-bit words: a sign bit and a 63-bit magnitude. A magnitude below
`infinityMagnitude` stands for a finite value, counted exactly in units of `2 ^ -1074`; that
magnitude itself is infinity and every larger one is not a number. Magnitudes grow with the value,
so rounding a quotient of units to the nearest magnitude is integer arithmetic throughout.
-/

namespace ExprLang

/-- A number as its 64 bits; equality of this type is identity of bits. -/
structure Binary64 where
  bits : UInt64
deriving DecidableEq

namespace Binary64

/-- The word with the sign bit alone, `2 ^ 63`. -/
def signBit : Nat := 0x8000000000000000

/-- The bit above the fraction, `2 ^ 52`: one step of the exponent, and the bit in front of the
fraction that a significand has and a word does not store. -/
def hiddenBit : Nat := 0x10000000000000

/-- The magnitude of infinity: all exponent bits set and no fraction bit. -/
def infinityMagnitude : Nat := 0x7FF0000000000000

/-- The word without its sign bit. -/
def magnitude (x : Binary64) : Nat := x.bits.toNat % signBit

/-- Whether the sign bit is set, also on zeros and on words that are not a number. -/
def isNegative (x : Binary64) : Bool := signBit ≤ x.bits.toNat

/-- The number with sign bit clear and the given magnitude. -/
def ofMagnitude (n : Nat) : Binary64 := ⟨UInt64.ofNat n⟩

/-- Zero with sign bit clear. -/
def zero : Binary64 := ofMagnitude 0

/-- Whether the word is not a number. -/
def isNaN (x : Binary64) : Bool := infinityMagnitude < x.magnitude

/-- Numeric equality: a word that is not a number differs from all words, the two zeros agree. -/
def numEq (x y : Binary64) : Bool :=
  !x.isNaN && !y.isNaN && (x == y || x.magnitude == 0 && y.magnitude == 0)

/-- How many units make one, `2 ^ 1074`. -/
def unitsPerOne : Nat := Nat.pow 2 1074

/-- The significand of a finite magnitude: its fraction, with the hidden bit unless the exponent is
zero. -/
def significand (n : Nat) : Nat := if n < hiddenBit then n else hiddenBit + n % hiddenBit

/-- The number of binary places by which the significand of a finite magnitude is raised. -/
def shift (n : Nat) : Nat := n / hiddenBit - 1

/-- The value of a finite magnitude, in units. -/
def units (n : Nat) : Nat := significand n * Nat.pow 2 (shift n)

/-- The integer nearest to `n / d`; a half goes to the even neighbour. -/
def roundHalfEven (n d : Nat) : Nat :=
  let q := n / d
  let r := n % d
  if 2 * r < d ∨ (2 * r = d ∧ q % 2 = 0) then q else q + 1

/-- The magnitude nearest to `n / d` units. A significand has 53 bits at most, a half goes to the
even one, and a carry out of the significand raises the exponent by itself. -/
def nearestMagnitude (n d : Nat) : Nat :=
  let shift := (n / d).log2 - 52
  min (shift * hiddenBit + roundHalfEven n (d * Nat.pow 2 shift)) infinityMagnitude

/-- The number as a byte: the fraction is dropped, the result is held between 0 and 255, and a word
that is not a number gives 0. -/
def toByte (x : Binary64) : UInt8 :=
  if x.isNaN || x.isNegative then 0
  else UInt8.ofNat (min (units x.magnitude / unitsPerOne) 255)

end Binary64

end ExprLang
