import NearestMount.Proofs.Json.Numerals
import NearestMount.Proofs.Json.Texts

/-! # Single tokens are read back

    `Lexes` says that some characters are read as one token in front of a given rest, and
    no further. Marks and texts end by themselves, so they are read back whatever follows
    (`lexes_mark`, `lexes_text`). A numeral would go on if a digit, a point or an exponent
    came next (`EndsNumeral`), so this much is asked of the rest of a written scalar
    (`lexes_scalar`).
-/

namespace NearestMount.Json

/-- A stretch of a document in which no blank may be put. -/
abbrev Word := List Char

/-- The word is read as this one token in front of `rest`, and no further. -/
def Lexes (w : Word) (t : Token) (rest : List Char) : Prop :=
  ∃ c cs, w = c :: cs ∧ isBlank c = false ∧ readToken c (cs ++ rest) = (t, rest)

/-! ## Marks and texts -/

theorem lexes_mark (m : Mark) (rest : List Char) : Lexes [m.char] (.mark m) rest := by
  refine ⟨m.char, [], rfl, ?_, ?_⟩
  · cases m <;> rfl
  · cases m <;> rfl

theorem lexes_text {w : Word} {s : String} (h : SpellsText w s) (rest : List Char) :
    Lexes w (.scalar (.text s)) rest := by
  obtain ⟨pieces, hpieces, rfl⟩ := h
  refine ⟨'"', _, rfl, rfl, ?_⟩
  rw [List.append_assoc]
  exact textToken_spells hpieces rest

/-! ## Scalars -/

theorem readToken_of_isDigit {c : Char} (hc : c.isDigit = true) (cs : List Char) :
    readToken c cs = numberToken (c :: cs) := by
  unfold readToken
  split
  case h_11 => simp [hc]
  -- no other character that begins a token is a digit
  all_goals cases hc

theorem isBlank_of_isDigit {c : Char} (hc : c.isDigit = true) : isBlank c = false := by
  unfold isBlank
  simp only [Bool.or_eq_false_iff, decide_eq_false_iff_not]
  refine ⟨⟨⟨?_, ?_⟩, ?_⟩, ?_⟩ <;>
    · rintro rfl
      cases hc

/-- The scalars that values are written with. -/
def Scalar.isPlain : Scalar → Bool
  | .null | .flag _ | .natural _ | .text _ => true
  | .negative _ | .floating _ => false

/-- A written scalar is read back in front of everything that does not go on with a
    numeral. -/
theorem lexes_scalar {s : Scalar} (hs : s.isPlain = true) {rest : List Char}
    (hrest : EndsNumeral rest) : Lexes s.chars (.scalar s) rest := by
  cases s with
  | null => exact ⟨'n', ['u', 'l', 'l'], rfl, rfl, rfl⟩
  | flag value =>
    cases value with
    | true => exact ⟨'t', ['r', 'u', 'e'], rfl, rfl, rfl⟩
    | false => exact ⟨'f', ['a', 'l', 's', 'e'], rfl, rfl, rfl⟩
  | natural value =>
    cases hdigits : Nat.toDigits 10 value.toNat with
    | nil => exact absurd hdigits Nat.toDigits_ne_nil
    | cons c cs =>
      have hc : c.isDigit = true :=
        Nat.isDigit_of_mem_toDigits (b := 10) (n := value.toNat) (by decide) (by decide)
          (by simp [hdigits])
      refine ⟨c, cs, hdigits, isBlank_of_isDigit hc, ?_⟩
      rw [readToken_of_isDigit hc, ← List.cons_append, ← hdigits]
      exact numberToken_toDigits value hrest
  | negative magnitude => cases hs
  | floating bits => cases hs
  | text value => exact lexes_text (spellsText_textChars value) rest

end NearestMount.Json
