import NearestMount.Json.Tokens

/-! # How numbers are spelled

    A number is spelled as an optional sign, digits without a leading zero, an optional
    fraction and an optional exponent (`IsNumber`). Each part is read up to its end if what
    comes next cannot belong to it, and so is the whole, in front of everything that does
    not go on with a numeral (`EndsNumeral`, `Numeral.read_isNumber`).

    An integer that fits in 64 bits is written with its decimal digits, and these read as
    the integer (`numberToken_toDigits`).
-/

namespace NearestMount.Json

/-! ## What may follow -/

/-- The characters do not go on with digits. -/
def EndsDigits (cs : List Char) : Prop := ∀ c, cs.head? = some c → c.isDigit = false

/-- The characters do not go on with digits or a point. -/
def EndsFraction (cs : List Char) : Prop :=
  ∀ c, cs.head? = some c → c.isDigit = false ∧ c ≠ '.'

/-- The characters do not go on with a numeral. -/
def EndsNumeral (cs : List Char) : Prop :=
  ∀ c, cs.head? = some c → c.isDigit = false ∧ c ≠ '.' ∧ c ≠ 'e' ∧ c ≠ 'E'

theorem EndsFraction.endsDigits {cs : List Char} (h : EndsFraction cs) : EndsDigits cs :=
  fun c hc => (h c hc).1

theorem EndsNumeral.endsFraction {cs : List Char} (h : EndsNumeral cs) : EndsFraction cs :=
  fun c hc => ⟨(h c hc).1, (h c hc).2.1⟩

theorem endsNumeral_nil : EndsNumeral [] := by
  intro c hc
  cases hc

theorem endsNumeral_mark (m : Mark) (rest : List Char) : EndsNumeral (m.char :: rest) := by
  intro c hc
  cases hc
  cases m <;> decide

/-! ## The spelling -/

/-- One digit or more. -/
def IsDigits (cs : List Char) : Prop := cs ≠ [] ∧ ∀ c ∈ cs, c.isDigit = true

/-- The digits before the point: a zero, or digits that do not begin with one. -/
def IsWhole (cs : List Char) : Prop := cs = ['0'] ∨ IsDigits cs ∧ cs.head? ≠ some '0'

/-- Nothing, or a point with digits behind it. -/
def IsFraction (cs : List Char) : Prop :=
  cs = [] ∨ ∃ digits, IsDigits digits ∧ cs = '.' :: digits

/-- Nothing, or the letter of an exponent, perhaps a sign, and digits. -/
def IsExponent (cs : List Char) : Prop :=
  cs = [] ∨ ∃ letter sign digits, (letter = 'e' ∨ letter = 'E') ∧
    (sign = [] ∨ sign = ['+'] ∨ sign = ['-']) ∧ IsDigits digits ∧
      cs = letter :: (sign ++ digits)

/-- The characters spell a number. -/
def IsNumber (cs : List Char) : Prop :=
  ∃ sign whole fraction exponent, (sign = [] ∨ sign = ['-']) ∧ IsWhole whole ∧
    IsFraction fraction ∧ IsExponent exponent ∧
      cs = sign ++ (whole ++ (fraction ++ exponent))

theorem IsDigits.exists_cons {cs : List Char} (h : IsDigits cs) :
    ∃ c more, cs = c :: more ∧ c.isDigit = true := by
  obtain ⟨hne, hall⟩ := h
  cases cs with
  | nil => exact absurd rfl hne
  | cons c more => exact ⟨c, more, rfl, hall c List.mem_cons_self⟩

theorem IsWhole.exists_cons {cs : List Char} (h : IsWhole cs) :
    ∃ c more, cs = c :: more ∧ c.isDigit = true := by
  rcases h with rfl | ⟨hdigits, -⟩
  · exact ⟨'0', [], rfl, rfl⟩
  · exact hdigits.exists_cons

namespace Numeral

/-! ## Reading the parts -/

theorem spanDigits_append {digits rest : List Char} (hdigits : ∀ c ∈ digits, c.isDigit = true)
    (hrest : EndsDigits rest) : spanDigits (digits ++ rest) = (digits, rest) := by
  unfold spanDigits
  rw [List.takeWhile_append_of_pos hdigits, List.dropWhile_append_of_pos hdigits]
  cases rest with
  | nil => simp
  | cons c rest => simp [hrest c rfl]

theorem readSign_of_isDigit {c : Char} (hc : c.isDigit = true) (cs : List Char) :
    readSign (c :: cs) = (false, c :: cs) := by
  unfold readSign
  split
  · next heq =>
    cases heq
    cases hc
  · rfl

theorem readSign_append {sign whole : List Char} (hsign : sign = [] ∨ sign = ['-'])
    (hwhole : IsWhole whole) (rest : List Char) :
    readSign (sign ++ (whole ++ rest)) = (decide (sign = ['-']), whole ++ rest) := by
  rcases hsign with rfl | rfl
  · obtain ⟨c, more, rfl, hc⟩ := hwhole.exists_cons
    exact readSign_of_isDigit hc (more ++ rest)
  · rfl

theorem readWhole_append {whole rest : List Char} (hwhole : IsWhole whole)
    (hrest : EndsDigits rest) : readWhole (whole ++ rest) = .ok (whole, rest) := by
  rcases hwhole with rfl | ⟨hdigits, hzero⟩
  · -- a zero stands alone
    have hnext : (rest.head?.map Char.isDigit).getD false = false := by
      cases hhead : rest.head? with
      | none => rfl
      | some c => exact hrest c hhead
    simp [readWhole, hnext]
  · -- any other number has no leading zero, so all its digits are taken
    obtain ⟨c, digits, rfl, hc⟩ := hdigits.exists_cons
    have hne : c ≠ '0' := by simpa using hzero
    have hspan := spanDigits_append (fun d hd => hdigits.2 d (List.mem_cons_of_mem _ hd)) hrest
    simp [readWhole, hne, hc, hspan]

theorem readFraction_append {fraction rest : List Char} (hfraction : IsFraction fraction)
    (hrest : EndsFraction rest) :
    readFraction (fraction ++ rest) = .ok (fraction.tail, rest) := by
  rcases hfraction with rfl | ⟨digits, hdigits, rfl⟩
  · rw [List.nil_append, List.tail_nil]
    unfold readFraction
    split
    · next after => exact absurd rfl (hrest '.' rfl).2
    · rfl
  · have hspan := spanDigits_append hdigits.2 hrest.endsDigits
    simp [readFraction, hspan, hdigits.1]

theorem readPower_append (negative : Bool) {digits rest : List Char} (hdigits : IsDigits digits)
    (hrest : EndsDigits rest) :
    readPower negative (digits ++ rest) =
      .ok (some (if negative then -(digitsValue digits : Int) else digitsValue digits), rest) := by
  have hspan := spanDigits_append hdigits.2 hrest
  simp [readPower, hspan, hdigits.1]

theorem readExponent_of_endsNumeral {rest : List Char} (hrest : EndsNumeral rest) :
    readExponent rest = .ok (none, rest) := by
  cases rest with
  | nil => rfl
  | cons c rest =>
    obtain ⟨-, -, hlower, hupper⟩ := hrest c rfl
    simp [readExponent, hlower, hupper]

theorem exists_readExponent {exponent : List Char} (h : IsExponent exponent) :
    ∃ power, ∀ rest, EndsNumeral rest → readExponent (exponent ++ rest) = .ok (power, rest) := by
  rcases h with rfl | ⟨letter, sign, digits, hletter, hsign, hdigits, rfl⟩
  · exact ⟨none, fun rest hrest => readExponent_of_endsNumeral hrest⟩
  · have hpower := fun negative rest (hrest : EndsNumeral rest) =>
      readPower_append negative hdigits hrest.endsFraction.endsDigits
    rcases hsign with rfl | rfl | rfl
    · refine ⟨some (digitsValue digits : Int), fun rest hrest => ?_⟩
      -- the first digit is no sign
      obtain ⟨c, more, rfl, hc⟩ := hdigits.exists_cons
      refine Eq.trans ?_ (hpower false rest hrest)
      simp only [List.nil_append, List.cons_append, readExponent, if_pos hletter]
      split
      · next heq =>
        cases heq
        cases hc
      · next heq =>
        cases heq
        cases hc
      · rfl
    · refine ⟨some (digitsValue digits : Int), fun rest hrest => ?_⟩
      refine Eq.trans ?_ (hpower false rest hrest)
      simp [readExponent, hletter]
    · refine ⟨some (-(digitsValue digits : Int)), fun rest hrest => ?_⟩
      refine Eq.trans ?_ (hpower true rest hrest)
      simp [readExponent, hletter]

/-! ## Reading the whole -/

theorem endsFraction_exponent {exponent rest : List Char} (h : IsExponent exponent)
    (hrest : EndsNumeral rest) : EndsFraction (exponent ++ rest) := by
  rcases h with rfl | ⟨letter, sign, digits, hletter, -, -, rfl⟩
  · exact hrest.endsFraction
  · intro c hc
    cases hc
    rcases hletter with rfl | rfl <;> decide

theorem endsDigits_fraction {fraction rest : List Char} (h : IsFraction fraction)
    (hrest : EndsFraction rest) : EndsDigits (fraction ++ rest) := by
  rcases h with rfl | ⟨digits, -, rfl⟩
  · exact hrest.endsDigits
  · intro c hc
    cases hc
    rfl

/-- A number is read part by part. -/
theorem read_append {sign whole fraction exponent rest : List Char} {power : Option Int}
    (hsign : sign = [] ∨ sign = ['-']) (hwhole : IsWhole whole) (hfraction : IsFraction fraction)
    (hexponent : IsExponent exponent)
    (hpower : readExponent (exponent ++ rest) = .ok (power, rest)) (hrest : EndsNumeral rest) :
    read (sign ++ (whole ++ (fraction ++ (exponent ++ rest)))) =
      .ok (⟨decide (sign = ['-']), whole, fraction.tail, power⟩, rest) := by
  have hend := endsFraction_exponent hexponent hrest
  simp only [read, readSign_append hsign hwhole,
    readWhole_append hwhole (endsDigits_fraction hfraction hend),
    readFraction_append hfraction hend, hpower]

theorem read_isNumber {cs : List Char} (h : IsNumber cs) :
    ∃ n, ∀ rest, EndsNumeral rest → read (cs ++ rest) = .ok (n, rest) := by
  obtain ⟨sign, whole, fraction, exponent, hsign, hwhole, hfraction, hexponent, rfl⟩ := h
  obtain ⟨power, hpower⟩ := exists_readExponent hexponent
  refine ⟨⟨decide (sign = ['-']), whole, fraction.tail, power⟩, fun rest hrest => ?_⟩
  rw [List.append_assoc, List.append_assoc, List.append_assoc]
  exact read_append hsign hwhole hfraction hexponent (hpower rest hrest) hrest

/-! ## Written integers -/

/-- Only zero is written with a leading zero. -/
theorem head?_toDigits_ne_zero {n : Nat} (hn : 0 < n) : (Nat.toDigits 10 n).head? ≠ some '0' := by
  -- the last digit is split off, which leaves the first one in place
  induction n using Nat.strongRecOn with
  | ind n ih =>
    by_cases hsmall : n < 10
    · have hdigits : ∀ d, d < 10 → 0 < d → Nat.digitChar d ≠ '0' := by decide
      rw [Nat.toDigits_of_lt_base hsmall]
      simpa using hdigits n hsmall hn
    · have hfront := ih (n / 10) (by omega) (by omega)
      rw [Nat.toDigits_of_base_le (by decide) (by omega)]
      cases hdigits : Nat.toDigits 10 (n / 10) with
      | nil => exact absurd hdigits Nat.toDigits_ne_nil
      | cons c digits => simpa [hdigits] using hfront

theorem isWhole_toDigits (n : Nat) : IsWhole (Nat.toDigits 10 n) := by
  rcases Nat.eq_zero_or_pos n with rfl | hn
  · exact Or.inl (Nat.toDigits_zero 10)
  · have hall : ∀ c ∈ Nat.toDigits 10 n, c.isDigit = true :=
      fun c hc => Nat.isDigit_of_mem_toDigits (by decide) (by decide) hc
    exact Or.inr ⟨⟨Nat.toDigits_ne_nil, hall⟩, head?_toDigits_ne_zero hn⟩

theorem read_toDigits (n : Nat) {rest : List Char} (hrest : EndsNumeral rest) :
    read (Nat.toDigits 10 n ++ rest) = .ok (⟨false, Nat.toDigits 10 n, [], none⟩, rest) :=
  read_append (Or.inl rfl) (isWhole_toDigits n) (Or.inl rfl) (Or.inl rfl)
    (readExponent_of_endsNumeral hrest) hrest

/-- A digit is taken up if 64 bits hold what it makes. -/
theorem pushWhole_digitChar {front digit : Nat} {exponent : Int} (hdigit : digit < 10)
    (hfits : 10 * front + digit < Nat.pow 2 64) :
    Scaled.pushWhole ⟨front, exponent, false⟩ (Nat.digitChar digit) =
      ⟨10 * front + digit, exponent, false⟩ := by
  have hvalue : ∀ d, d < 10 → (Nat.digitChar d).toNat - '0'.toNat = d := by decide
  unfold Scaled.pushWhole
  simp only [hvalue digit hdigit, Bool.false_eq_true, false_or]
  rw [if_neg (Nat.not_le.mpr hfits)]

/-- All digits of a number are taken up if 64 bits hold it. -/
theorem foldl_pushWhole_toDigits {n : Nat} (hn : n < Nat.pow 2 64) :
    (Nat.toDigits 10 n).foldl Scaled.pushWhole ⟨0, 0, false⟩ = ⟨n, 0, false⟩ := by
  induction n using Nat.strongRecOn with
  | ind n ih =>
    by_cases hsmall : n < 10
    · rw [Nat.toDigits_of_lt_base hsmall, List.foldl_cons, List.foldl_nil,
        pushWhole_digitChar hsmall (by omega)]
      simp
    · -- the last digit is added to what the digits before it made
      have hlast : 10 * (n / 10) + n % 10 = n := by omega
      have hfront := ih (n / 10) (by omega) (by omega)
      rw [Nat.toDigits_of_base_le (by decide) (by omega), List.foldl_append, hfront,
        List.foldl_cons, List.foldl_nil, pushWhole_digitChar (by omega) (by omega), hlast]

theorem value?_toDigits (n : UInt64) :
    value? ⟨false, Nat.toDigits 10 n.toNat, [], none⟩ = some (.natural n) := by
  have hfold := foldl_pushWhole_toDigits (n := n.toNat) n.toNat_lt
  simp [value?, hfold]

end Numeral

theorem numberToken_toDigits (n : UInt64) {rest : List Char} (hrest : EndsNumeral rest) :
    numberToken (Nat.toDigits 10 n.toNat ++ rest) = (.scalar (.natural n), rest) := by
  simp [numberToken, Numeral.read_toDigits _ hrest, Numeral.value?_toDigits]

end NearestMount.Json
