/-! # Shortest decimals

    A binary fraction of double precision stands for every real number that rounds
    to it. `Decimal.shortest` picks, among the decimals of that interval, one with
    the fewest digits, and of those the nearest; of two equally near, the even one.

    The search goes through the grids `10^308`, `10^307`, … and stops at the first
    one with a point in the interval. If any point of a grid lies in it, then so does
    one of the two that enclose the value, so two candidates are tried on each.
    All arithmetic is exact.
-/

namespace NearestMount

/-- The number `digits · 10^exponent`. -/
structure Decimal where
  digits : Nat
  exponent : Int
  deriving DecidableEq, Repr

/-- A value and the reals that round to it, as numerators over one denominator. -/
structure Rounding where
  low : Nat
  value : Nat
  high : Nat
  denominator : Nat
  /-- Whether the ends of the interval round to the value as well. -/
  closed : Bool

namespace Rounding

/-- The interval of a positive value with the given bits. Its ends lie half way to
    the neighbouring values; the lower one is nearer where the exponent changes. -/
def ofBits (bits : UInt64) : Rounding :=
  let exponentBits := ((bits >>> 52) &&& 0x7ff).toNat
  let fraction := (bits &&& 0xfffffffffffff).toNat
  -- below the smallest normal value the mantissa has no leading one
  let mantissa := if exponentBits = 0 then fraction else fraction + Nat.pow 2 52
  let exponent : Int := (max exponentBits 1 : Nat) - 1075
  let scale := Nat.pow 2 exponent.toNat
  { low := (4 * mantissa - if fraction = 0 ∧ exponentBits > 1 then 1 else 2) * scale
    value := 4 * mantissa * scale
    high := (4 * mantissa + 2) * scale
    denominator := 4 * Nat.pow 2 (-exponent).toNat
    closed := mantissa % 2 = 0 }

/-- True if the decimal lies in the interval. -/
def contains (r : Rounding) (d : Decimal) : Bool :=
  let point := d.digits * Nat.pow 10 d.exponent.toNat * r.denominator
  let scale := Nat.pow 10 (-d.exponent).toNat
  if r.closed then r.low * scale ≤ point && point ≤ r.high * scale
  else r.low * scale < point && point < r.high * scale

/-- The point of the grid `10^exponent` that is nearest to the value, if one of the
    grid's points lies in the interval. -/
def onGrid? (r : Rounding) (exponent : Int) : Option Decimal :=
  -- both sides are scaled so that a step of the grid is a whole number
  let unit := Nat.pow 10 exponent.toNat * r.denominator
  let scaled := r.value * Nat.pow 10 (-exponent).toNat
  let below : Decimal := ⟨scaled / unit, exponent⟩
  let above : Decimal := ⟨scaled / unit + 1, exponent⟩
  match r.contains below, r.contains above with
  | false, false => none
  | true, false => some below
  | false, true => some above
  | true, true =>
    match compare (2 * (scaled % unit)) unit with
    | .lt => some below
    | .gt => some above
    | .eq => some (if below.digits % 2 = 0 then below else above)

end Rounding

namespace Decimal

/-- The shortest decimal of a positive value with the given bits. The finest grid
    that is tried, `10^-324`, has a point in every interval. -/
def shortest (bits : UInt64) : Decimal :=
  let r := Rounding.ofBits bits
  ((List.range 633).findSome? fun (i : Nat) => r.onGrid? (308 - (i : Int))).getD ⟨0, 0⟩

example : shortest 0x3ff8000000000000 = ⟨15, -1⟩ ∧ shortest 1 = ⟨5, -324⟩ ∧
    shortest 0x7fefffffffffffff = ⟨17976931348623157, 292⟩ := by decide +kernel

end Decimal

end NearestMount
