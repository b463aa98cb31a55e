/-!
# Shortest decimals

A binary64 number stands for all reals that round to it. Among the decimals `digits * 10 ^ exponent` in
that interval, `Dyadic.shortest` takes one on the coarsest grid of powers of ten, which is one with the
fewest digits, and of two on that grid the nearer. All arithmetic is exact.
-/

namespace QubitRouting.Decimal

/-- The number `mantissa * 2 ^ exponent`, a finite non-negative binary64 number. -/
structure Dyadic where
  mantissa : Nat
  exponent : Int
  /-- Is the next number below only half as far away as the next one above? -/
  halfGapBelow : Bool
deriving DecidableEq, Repr

/-- The number `digits * 10 ^ exponent`. -/
structure Scientific where
  digits : Nat
  exponent : Int
deriving DecidableEq, Repr

/-- The mantissa of the smallest normal number; the fraction is what stands below it. -/
def hiddenBit : Nat :=
  4503599627370496

/-- The absolute value of the finite number with the given bits. -/
def Dyadic.ofBits (bits : UInt64) : Dyadic :=
  let n := bits.toNat
  let field : Nat := n / hiddenBit % 2048
  let fraction : Nat := n % hiddenBit
  if field = 0 then ⟨fraction, -1074, false⟩
  else ⟨hiddenBit + fraction, (field : Int) - 1075, fraction == 0 && decide (1 < field)⟩

/-- The two integers in the ratio of `a * 2 ^ e` to `b * 10 ^ k`. -/
def scaled (a : Nat) (e : Int) (b : Nat) (k : Int) : Nat × Nat :=
  (a * Nat.pow 2 e.toNat * Nat.pow 10 (-k).toNat, b * Nat.pow 10 k.toNat * Nat.pow 2 (-e).toNat)

namespace Dyadic

/-- Does `d` round to `x`? The ends of the interval belong to it if the mantissa is even. -/
def covers (x : Dyadic) (d : Scientific) : Bool :=
  let low := 4 * x.mantissa - if x.halfGapBelow then 1 else 2
  let high := 4 * x.mantissa + 2
  let (l, dl) := scaled low (x.exponent - 2) d.digits d.exponent
  let (h, dh) := scaled high (x.exponent - 2) d.digits d.exponent
  if x.mantissa % 2 = 0 then decide (l ≤ dl) && decide (dh ≤ h)
  else decide (l < dl) && decide (dh < h)

/-- The largest multiple of `10 ^ k` that is not above `x`. -/
def floor (x : Dyadic) (k : Int) : Scientific :=
  let (n, d) := scaled x.mantissa x.exponent 1 k
  ⟨n / d, k⟩

/-- Is `x` at least half way from the multiple of `10 ^ k` below it to the one above it? -/
def atLeastHalfWay (x : Dyadic) (k : Int) : Bool :=
  let (n, d) := scaled x.mantissa x.exponent 1 k
  decide (d ≤ 2 * (n % d))

/-- The multiple of `10 ^ k` that rounds to `x`, if there is one; of two the nearer, and half way
between them the upper. -/
def onGrid? (x : Dyadic) (k : Int) : Option Scientific :=
  let below := x.floor k
  let above : Scientific := ⟨below.digits + 1, k⟩
  let first := if x.atLeastHalfWay k then above else below
  let second := if x.atLeastHalfWay k then below else above
  if x.covers first then some first else if x.covers second then some second else none

/-- A decimal with the fewest digits that rounds to `x`, for `x` above zero. No grid coarser than
`10 ^ 309` or finer than `10 ^ (-1074)` is needed. -/
def shortest (x : Dyadic) : Scientific :=
  let grids := (List.range 1384).map fun (i : Nat) => (309 : Int) - i
  (grids.findSome? x.onGrid?).getD ⟨0, 0⟩

end Dyadic

end QubitRouting.Decimal
