import NearestMount.Json.Text
import NearestMount.Json.Numeral

/-! # The tokens of a text

    `tokens` cuts a text into tokens and drops the blanks between them. Where the text
    cannot be cut any further, the last token carries the flaw: nothing is read beyond
    a flaw that even skipping trips over.
-/

namespace NearestMount.Json

/-- Characters that may stand between tokens. -/
def isBlank (c : Char) : Bool := c = ' ' || c = '\t' || c = '\n' || c = '\r'

/-- Reads what is left of a word. -/
def readWord : (word : List Char) → List Char → Except Flaw (List Char)
  | [], rest => .ok rest
  | _ :: _, [] => .error .truncated
  | w :: word, c :: rest => if c = w then readWord word rest else .error .malformed

/-- A text, after its opening quote. -/
def textToken (cs : List Char) : Token × List Char :=
  match readText cs, skipText cs with
  | .ok (value, _), .ok rest => (.scalar (.text (String.ofList value)), rest)
  | .error flaw, .ok rest => (.flawed true flaw none, rest)
  | .error flaw, .error skipped => (.flawed true flaw (some skipped), [])
  -- a text that can be read can be skipped, so this does not occur
  | .ok _, .error skipped => (.flawed true skipped (some skipped), [])

/-- A number. Skipping checks its form alone, and calls any flaw of it malformed. -/
def numberToken (cs : List Char) : Token × List Char :=
  match Numeral.read cs with
  | .error flaw => (.flawed false flaw (some .malformed), [])
  | .ok (n, rest) =>
    match n.value? with
    | some s => (.scalar s, rest)
    | none => (.flawed false .malformed none, rest)

/-- A word that stands for a value, after its first letter. -/
def wordToken (value : Scalar) (word cs : List Char) : Token × List Char :=
  match readWord word cs with
  | .ok rest => (.scalar value, rest)
  | .error flaw => (.flawed false flaw (some flaw), [])

/-- The token that begins with the character `c`, and what follows it. -/
def readToken (c : Char) (cs : List Char) : Token × List Char :=
  match c with
  | '\x7b' => (.mark .openBrace, cs)
  | '\x7d' => (.mark .closeBrace, cs)
  | '[' => (.mark .openBracket, cs)
  | ']' => (.mark .closeBracket, cs)
  | ':' => (.mark .colon, cs)
  | ',' => (.mark .comma, cs)
  | '"' => textToken cs
  | 'n' => wordToken .null ['u', 'l', 'l'] cs
  | 't' => wordToken (.flag true) ['r', 'u', 'e'] cs
  | 'f' => wordToken (.flag false) ['a', 'l', 's', 'e'] cs
  | c =>
    if c = '-' || c.isDigit then numberToken (c :: cs)
    else (.flawed false .malformed (some .malformed), [])

/-! ## Every token leaves less -/

theorem length_of_readWord {word cs rest : List Char}
    (h : readWord word cs = .ok rest) : rest.length ≤ cs.length := by
  fun_induction readWord word cs with
  | case1 => cases h; exact Nat.le_refl _
  | case2 => cases h
  | case3 w word cs ih =>
    have := ih h
    simp only [List.length_cons]
    omega
  | case4 => cases h

theorem length_textToken_le (cs : List Char) : (textToken cs).2.length ≤ cs.length := by
  unfold textToken
  split
  · rename_i skip
    exact Nat.le_of_lt (length_of_skipText skip)
  · rename_i skip
    exact Nat.le_of_lt (length_of_skipText skip)
  all_goals exact Nat.zero_le _

theorem length_numberToken_le (c : Char) (cs : List Char) :
    (numberToken (c :: cs)).2.length ≤ cs.length := by
  unfold numberToken
  split
  · exact Nat.zero_le _
  · rename_i read
    have := Numeral.length_of_read read
    simp only [List.length_cons] at this
    split <;> simp only <;> omega

theorem length_wordToken_le (value : Scalar) (word cs : List Char) :
    (wordToken value word cs).2.length ≤ cs.length := by
  unfold wordToken
  split
  · rename_i read
    exact length_of_readWord read
  · exact Nat.zero_le _

theorem length_readToken_le (c : Char) (cs : List Char) :
    (readToken c cs).2.length ≤ cs.length := by
  unfold readToken
  split
  case h_7 => exact length_textToken_le cs
  case h_8 | h_9 | h_10 => exact length_wordToken_le _ _ cs
  case h_11 =>
    split
    · exact length_numberToken_le _ cs
    · exact Nat.zero_le _
  all_goals exact Nat.le_refl _

/-! ## All tokens -/

/-- The tokens of a text. -/
def tokens (cs : List Char) : List Token :=
  match cs with
  | [] => []
  | c :: rest =>
    if isBlank c then tokens rest
    else (readToken c rest).1 :: tokens (readToken c rest).2
termination_by cs.length
decreasing_by
  · simp
  · have := length_readToken_le c rest
    simp only [List.length_cons]
    omega

@[simp] theorem tokens_nil : tokens [] = [] := by
  rw [tokens]

theorem tokens_cons_of_isBlank {c : Char} (h : isBlank c = true) (rest : List Char) :
    tokens (c :: rest) = tokens rest := by
  rw [tokens, if_pos h]

theorem tokens_cons {c : Char} (h : isBlank c = false) (rest : List Char) :
    tokens (c :: rest) = (readToken c rest).1 :: tokens (readToken c rest).2 := by
  rw [tokens, if_neg (by simp [h])]

end NearestMount.Json
