import NearestMount.Json.Token

/-! # Numbers in a document

    A numeral is an optional sign, digits, an optional fraction and an optional
    exponent. Its value is an integer if it is written as one and fits in 64 bits,
    and otherwise a double precision number.

    - `Numeral.read` splits the characters; what is left is always shorter
      (`Numeral.length_of_read`).
    - `Numeral.value?` computes the value; nothing if it is out of range.
-/

namespace NearestMount.Json

/-- The parts of a number, digit by digit. -/
structure Numeral where
  negative : Bool
  whole : List Char
  fraction : List Char
  exponent : Option Int
  deriving DecidableEq, Repr

namespace Numeral

/-! ## Reading -/

/-- The digits at the front, and the rest. -/
def spanDigits (cs : List Char) : List Char × List Char :=
  (cs.takeWhile Char.isDigit, cs.dropWhile Char.isDigit)

/-- The number that some decimal digits spell. -/
def digitsValue (digits : List Char) : Nat :=
  digits.foldl (fun n c => 10 * n + (c.toNat - '0'.toNat)) 0

/-- The flaw of a text where a digit had to come next. -/
def digitWanted (rest : List Char) : Flaw :=
  if rest.isEmpty then .truncated else .malformed

/-- Reads the sign. -/
def readSign : List Char → Bool × List Char
  | '-' :: rest => (true, rest)
  | rest => (false, rest)

/-- Reads the digits before the point. A leading zero stands alone. -/
def readWhole : List Char → Except Flaw (List Char × List Char)
  | [] => .error .truncated
  | c :: rest =>
    if c = '0' then
      if (rest.head?.map Char.isDigit).getD false then .error .malformed
      else .ok (['0'], rest)
    else if c.isDigit then
      let (digits, rest) := spanDigits rest
      .ok (c :: digits, rest)
    else .error .malformed

/-- Reads the fraction, if there is a point. -/
def readFraction : List Char → Except Flaw (List Char × List Char)
  | '.' :: rest =>
    let (digits, rest) := spanDigits rest
    if digits.isEmpty then .error (digitWanted rest) else .ok (digits, rest)
  | rest => .ok ([], rest)

/-- Reads the digits of an exponent with the given sign. -/
def readPower (negative : Bool) (cs : List Char) : Except Flaw (Option Int × List Char) :=
  let (digits, rest) := spanDigits cs
  if digits.isEmpty then .error (digitWanted rest)
  else
    let power : Int := digitsValue digits
    .ok (some (if negative then -power else power), rest)

/-- Reads the exponent, if there is one. -/
def readExponent : List Char → Except Flaw (Option Int × List Char)
  | c :: rest =>
    if c = 'e' ∨ c = 'E' then
      match rest with
      | '+' :: rest => readPower false rest
      | '-' :: rest => readPower true rest
      | rest => readPower false rest
    else .ok (none, c :: rest)
  | [] => .ok (none, [])

/-- Reads a number. -/
def read (cs : List Char) : Except Flaw (Numeral × List Char) :=
  let (negative, rest) := readSign cs
  match readWhole rest with
  | .error flaw => .error flaw
  | .ok (whole, rest) =>
    match readFraction rest with
    | .error flaw => .error flaw
    | .ok (fraction, rest) =>
      match readExponent rest with
      | .error flaw => .error flaw
      | .ok (exponent, rest) => .ok (⟨negative, whole, fraction, exponent⟩, rest)

/-! ## Every part leaves less -/

theorem length_spanDigits_le (cs : List Char) : (spanDigits cs).2.length ≤ cs.length :=
  (List.dropWhile_suffix _).length_le

theorem length_readSign_le (cs : List Char) : (readSign cs).2.length ≤ cs.length := by
  unfold readSign
  split <;> simp

theorem length_of_readWhole {cs digits rest : List Char}
    (h : readWhole cs = .ok (digits, rest)) : rest.length < cs.length := by
  unfold readWhole at h
  split at h
  · cases h
  · rename_i c after
    split at h
    · split at h <;> cases h
      simp
    · split at h <;> cases h
      exact Nat.lt_succ_of_le (length_spanDigits_le after)

theorem length_of_readFraction {cs digits rest : List Char}
    (h : readFraction cs = .ok (digits, rest)) : rest.length ≤ cs.length := by
  unfold readFraction at h
  split at h
  · rename_i after
    simp only at h
    split at h <;> cases h
    exact Nat.le_succ_of_le (length_spanDigits_le after)
  · cases h
    exact Nat.le_refl _

theorem length_of_readPower {negative : Bool} {cs rest : List Char} {power : Option Int}
    (h : readPower negative cs = .ok (power, rest)) : rest.length ≤ cs.length := by
  unfold readPower at h
  simp only at h
  split at h <;> cases h
  exact length_spanDigits_le cs

theorem length_of_readExponent {cs rest : List Char} {power : Option Int}
    (h : readExponent cs = .ok (power, rest)) : rest.length ≤ cs.length := by
  unfold readExponent at h
  split at h
  · split at h
    · split at h
      all_goals
        have := length_of_readPower h
        simp only [List.length_cons] at this ⊢
        omega
    · cases h
      exact Nat.le_refl _
  · cases h
    exact Nat.le_refl _

theorem length_of_read {cs rest : List Char} {n : Numeral}
    (h : read cs = .ok (n, rest)) : rest.length < cs.length := by
  have sign := length_readSign_le cs
  unfold read at h
  simp only at h
  split at h
  · cases h
  · rename_i whole
    have := length_of_readWhole whole
    split at h
    · cases h
    · rename_i fraction
      have := length_of_readFraction fraction
      split at h
      · cases h
      · rename_i exponent
        have := length_of_readExponent exponent
        cases h
        omega

/-! ## Value -/

/-- A number on its way to double precision: digits are taken up as long as 64 bits
    hold them; `exponent` is the power of ten that is still to be applied. -/
structure Scaled where
  significand : Nat
  exponent : Int
  /-- True once a digit did not fit. -/
  full : Bool

/-- Takes up a digit before the point. One that does not fit makes the number ten
    times as large. -/
def Scaled.pushWhole (s : Scaled) (c : Char) : Scaled :=
  let next := 10 * s.significand + (c.toNat - '0'.toNat)
  if s.full ∨ Nat.pow 2 64 ≤ next then { s with exponent := s.exponent + 1, full := true }
  else { s with significand := next }

/-- Takes up a digit after the point. From the first one that does not fit on, digits
    are dropped. -/
def Scaled.pushFraction (s : Scaled) (c : Char) : Scaled :=
  let next := 10 * s.significand + (c.toNat - '0'.toNat)
  if s.full ∨ Nat.pow 2 64 ≤ next then { s with full := true }
  else { s with significand := next, exponent := s.exponent - 1 }

/-- Multiplies by a power of ten; nothing if the result is too large. Powers beyond
    the range of double precision are applied in parts. -/
def scaleBy (value : Float) (exponent : Int) : Option Float :=
  if exponent.natAbs ≤ 308 then
    let power := Float.ofScientific 1 false exponent.natAbs
    if exponent < 0 then some (value / power)
    else if (value * power).isInf then none
    else some (value * power)
  else if value == 0 then some value
  else if 0 ≤ exponent then none
  else scaleBy (value / Float.ofScientific 1 false 308) (exponent + 308)
termination_by exponent.natAbs

/-- The double precision number with the given parts. -/
def floating? (negative : Bool) (significand : Nat) (exponent : Int) : Option Scalar :=
  (scaleBy significand.toUInt64.toFloat exponent).map fun value =>
    .floating (if negative then -value else value).toBits

/-- The value of a numeral. One that is written as an integer is an integer if it
    fits in 64 bits, with its sign; a negative zero does not count as an integer. -/
def value? (n : Numeral) : Option Scalar :=
  let whole := n.whole.foldl Scaled.pushWhole ⟨0, 0, false⟩
  if n.fraction.isEmpty ∧ n.exponent.isNone ∧ ¬ whole.full then
    if ¬ n.negative then some (.natural whole.significand.toUInt64)
    else if 0 < whole.significand ∧ whole.significand ≤ Nat.pow 2 63 then
      some (.negative whole.significand)
    else floating? true whole.significand 0
  else
    -- digits after the point are taken up again, even if one before it did not fit
    let scaled := n.fraction.foldl Scaled.pushFraction { whole with full := false }
    floating? n.negative scaled.significand (scaled.exponent + n.exponent.getD 0)

end Numeral

end NearestMount.Json
