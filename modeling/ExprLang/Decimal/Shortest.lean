import ExprLang.Decimal

/-!
# The shortest decimal of a number

A finite number is written with the fewest significant digits that read back to it. The grid of
decimals with a given count of digits has two points beside the exact value, one on each side. The
first grid with a point that reads back wins; of two such points the nearer one is taken, and the
upper one when both are equally near.
-/

namespace ExprLang

namespace Decimal

/-- The exact value of a finite magnitude. Each binary place after the point is one decimal place, for
a half is five tenths; binary places before the point are powers of two. -/
def ofMagnitude (n : Nat) : Decimal :=
  let shift := Binary64.shift n
  { digits := Binary64.significand n * Nat.pow 2 (shift - 1074) * Nat.pow 5 (1074 - shift)
    places := 1074 - shift }

/-- Of the two multiples of `step` beside `d`, counted in the last place of `d`, the one that
`accept` takes; of two the nearer, and at equal distance the upper. -/
def neighbour? (accept : Decimal → Bool) (d : Decimal) (step : Nat) : Option Decimal :=
  let lower : Decimal := ⟨d.digits / step * step, d.places⟩
  let upper : Decimal := ⟨(d.digits / step + 1) * step, d.places⟩
  match accept lower, accept upper with
  | true, true => some (if 2 * (d.digits % step) < step then lower else upper)
  | true, false => some lower
  | false, true => some upper
  | false, false => none

/-- The accepted neighbour of `d` with the fewest significant digits, and `d` itself if none is. -/
def shorten (accept : Decimal → Bool) (d : Decimal) : Decimal :=
  let count := (Nat.toDigits 10 d.digits).length
  ((List.range count).findSome? fun k => neighbour? accept d (Nat.pow 10 (count - 1 - k))).getD d

/-- The decimal with the fewest digits that reads back to the finite magnitude `n`. -/
def shortest (n : Nat) : Decimal :=
  let d := shorten (fun c => c.nearest == Binary64.ofMagnitude n) (ofMagnitude n)
  trim d.digits d.places

end Decimal

namespace Binary64

/-- The text of a magnitude. -/
def magnitudeText (n : Nat) : String :=
  if n < infinityMagnitude then String.ofList (Decimal.shortest n).chars else "inf"

/-- The text of a number. A sign bit shows as a minus, also on zero and infinity, but not on a word
that is not a number. -/
def text (x : Binary64) : String :=
  if x.isNaN then "NaN"
  else if x.isNegative then "-" ++ magnitudeText x.magnitude
  else magnitudeText x.magnitude

end Binary64

end ExprLang
