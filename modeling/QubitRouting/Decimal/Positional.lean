import QubitRouting.Decimal.Shortest

/-!
# Positional notation

A binary64 number is written with the fewest digits that read back, always in positional notation: no
exponent, no fraction of zeros, and a zero in front of the point where nothing else stands there.
-/

namespace QubitRouting.Decimal

namespace Scientific

/-- Without trailing zeros in the digits; the argument bounds their number. -/
def normalize : Nat → Scientific → Scientific
  | 0, d => d
  | count + 1, d =>
    if d.digits ≠ 0 ∧ d.digits % 10 = 0 then normalize count ⟨d.digits / 10, d.exponent + 1⟩ else d

/-- The digits with the point in its place. -/
def positional (d : Scientific) : String :=
  let digits := (toString d.digits).toList
  if 0 ≤ d.exponent then String.ofList (digits ++ List.replicate d.exponent.toNat '0')
  else
    let places := (-d.exponent).toNat
    let padded := List.replicate (places + 1 - digits.length) '0' ++ digits
    let (whole, fraction) := padded.splitAt (padded.length - places)
    String.ofList (whole ++ '.' :: fraction)

end Scientific

/-- The text of the absolute value of a finite number. -/
def magnitude (bits : UInt64) : String :=
  let x := Dyadic.ofBits bits
  if x.mantissa = 0 then "0" else (Scientific.normalize 20 x.shortest).positional

/-- The text of a binary64 number. -/
def render (x : Float) : String :=
  if x.isNaN then "NaN"
  else
    let size := if x.isInf then "inf" else magnitude x.toBits
    if x.toBits < 0x8000000000000000 then size else "-" ++ size

end QubitRouting.Decimal
