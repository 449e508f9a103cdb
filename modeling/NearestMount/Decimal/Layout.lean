import NearestMount.Decimal.Shortest

/-! # The text of a floating point number

    Numbers between `10^-5` and `10^16` are written in positional notation with at
    least one digit on either side of the point, all others with an exponent.
-/

namespace NearestMount.Decimal

/-- An exponent with its sign. -/
def signedChars (exponent : Int) : List Char :=
  (if exponent < 0 then '-' else '+') :: Nat.toDigits 10 exponent.natAbs

/-- The text of a decimal with the given digits whose point stands after the first
    `point` of them. -/
def layout (digits : List Char) (point : Int) : List Char :=
  if (digits.length : Int) ≤ point ∧ point ≤ 16 then
    digits ++ List.replicate (point - digits.length).toNat '0' ++ ['.', '0']
  else if 0 < point ∧ point ≤ 16 then
    digits.take point.toNat ++ '.' :: digits.drop point.toNat
  else if -5 < point ∧ point ≤ 0 then
    ['0', '.'] ++ List.replicate (-point).toNat '0' ++ digits
  else
    digits.take 1 ++ (if digits.length = 1 then [] else '.' :: digits.drop 1) ++
      'e' :: signedChars (point - 1)

/-- The text of a decimal. -/
def chars (d : Decimal) : List Char :=
  let digits := Nat.toDigits 10 d.digits
  layout digits (digits.length + d.exponent)

/-- The text of the finite number with the given bits. -/
def floatChars (bits : UInt64) : List Char :=
  let magnitude := bits &&& 0x7fffffffffffffff
  let unsigned := if magnitude = 0 then ['0', '.', '0'] else (shortest magnitude).chars
  if bits = magnitude then unsigned else '-' :: unsigned

end NearestMount.Decimal
