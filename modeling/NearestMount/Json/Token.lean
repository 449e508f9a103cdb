import NearestMount.Decimal.Layout

/-! # Tokens of a document

    A document is a sequence of tokens with blanks between them: punctuation marks
    and scalars. `Token.chars` writes a token, and the compact form of a document is
    its tokens written one after the other.

    A token may be flawed. Some flaws matter only to a reader that keeps the value
    (a number too large, half a surrogate pair), so a flawed token tells how it looks
    to a reader that keeps it and to one that skips it.
-/

namespace NearestMount.Json

/-- Punctuation. -/
inductive Mark where
  | openBrace
  | closeBrace
  | openBracket
  | closeBracket
  | colon
  | comma
  deriving DecidableEq, Repr

/-- A value that is a single token. -/
inductive Scalar where
  | null
  | flag (value : Bool)
  /-- An integer from zero up. -/
  | natural (value : UInt64)
  /-- An integer below zero, by its magnitude. -/
  | negative (magnitude : Nat)
  /-- Any other number, by the bits of its double precision value. -/
  | floating (bits : UInt64)
  | text (value : String)
  deriving DecidableEq, Repr

/-- How a text can fail to be a document at all. -/
inductive Flaw where
  /-- What stands there cannot stand there. -/
  | malformed
  /-- The text ends too early. -/
  | truncated
  deriving DecidableEq, Repr

/-- One token of a document. -/
inductive Token where
  | mark (m : Mark)
  | scalar (s : Scalar)
  /-- A token with a flaw. It began as a text, or as something else; `kept` is the
      flaw for a reader that wants its value, `skipped` the one, if any, for a reader
      that passes over it. -/
  | flawed (isText : Bool) (kept : Flaw) (skipped : Option Flaw)
  deriving DecidableEq, Repr

/-! ## Written form -/

/-- The character of a mark. -/
def Mark.char : Mark → Char
  | .openBrace => '\x7b'
  | .closeBrace => '\x7d'
  | .openBracket => '['
  | .closeBracket => ']'
  | .colon => ':'
  | .comma => ','

/-- The lower-case hexadecimal digit of a number below sixteen. -/
def hexDigit (n : Nat) : Char := Nat.digitChar n

/-- How one character of a text is written. Quotes, backslashes and controls are
    escaped, everything else stands for itself. -/
def escapeChar (c : Char) : List Char :=
  match c with
  | '"' => ['\\', '"']
  | '\\' => ['\\', '\\']
  | '\x08' => ['\\', 'b']
  | '\x0c' => ['\\', 'f']
  | '\n' => ['\\', 'n']
  | '\r' => ['\\', 'r']
  | '\t' => ['\\', 't']
  | c =>
    if c.toNat < 0x20 then
      ['\\', 'u', '0', '0', hexDigit (c.toNat / 16), hexDigit (c.toNat % 16)]
    else [c]

/-- A text between quotes. -/
def textChars (s : String) : List Char := '"' :: s.toList.flatMap escapeChar ++ ['"']

/-- The written form of a scalar. -/
def Scalar.chars : Scalar → List Char
  | .null => ['n', 'u', 'l', 'l']
  | .flag true => ['t', 'r', 'u', 'e']
  | .flag false => ['f', 'a', 'l', 's', 'e']
  | .natural value => Nat.toDigits 10 value.toNat
  | .negative magnitude => '-' :: Nat.toDigits 10 magnitude
  | .floating bits => Decimal.floatChars bits
  | .text value => textChars value

/-- The written form of a token; a flawed one has none. -/
def Token.chars : Token → List Char
  | .mark m => [m.char]
  | .scalar s => s.chars
  | .flawed .. => []

/-- The compact form of a document. -/
def compact (tokens : List Token) : String := String.ofList (tokens.flatMap Token.chars)

end NearestMount.Json
