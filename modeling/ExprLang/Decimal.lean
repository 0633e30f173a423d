import ExprLang.Binary64

/-!
# Decimals

A decimal is a natural number with its last few digits after the point. Numerals of the language
are read as decimals, exactly, and only then rounded to a number.
-/

namespace ExprLang

/-- The decimal `digits / 10 ^ places`. -/
structure Decimal where
  digits : Nat
  places : Nat
deriving DecidableEq

namespace Decimal

/-- Reads the digits before the first point and those between it and the next character that is no
digit. Where there are none on either side the decimal is zero. -/
def ofNumeral (cs : List Char) : Decimal :=
  let whole := cs.takeWhile Char.isDigit
  let fraction := ((cs.dropWhile Char.isDigit).drop 1).takeWhile Char.isDigit
  { digits := Nat.ofDigitChars 10 (whole ++ fraction) 0
    places := fraction.length }

/-- The number nearest to a decimal; a half goes to the even neighbour, and what is too large
becomes infinity. -/
def nearest (d : Decimal) : Binary64 :=
  .ofMagnitude (Binary64.nearestMagnitude (d.digits * Binary64.unitsPerOne) (Nat.pow 10 d.places))

/-- Drops the zeros that end the places after the point. -/
def trim (digits : Nat) : Nat → Decimal
  | 0 => ⟨digits, 0⟩
  | places + 1 =>
      if digits % 10 = 0 then trim (digits / 10) places else ⟨digits, places + 1⟩

/-- The digits of `n`, filled with zeros in front to the given width. -/
def padded (width n : Nat) : List Char :=
  let ds := Nat.toDigits 10 n
  List.replicate (width - ds.length) '0' ++ ds

/-- The characters of a decimal: no sign, no exponent, a point only where places follow it. -/
def chars (d : Decimal) : List Char :=
  if d.places = 0 then Nat.toDigits 10 d.digits
  else
    Nat.toDigits 10 (d.digits / Nat.pow 10 d.places) ++
      '.' :: padded d.places (d.digits % Nat.pow 10 d.places)

end Decimal

end ExprLang
