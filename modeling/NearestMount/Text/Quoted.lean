import NearestMount.Text.Hidden

/-! # Quoted text

    A text that is named in a message stands between double quotes. Quotes,
    backslashes and the usual controls are escaped by a backslash, and a hidden
    character is written by its code point, so that the message shows every
    character of the text.
-/

namespace NearestMount.Text

/-- Digits of a number in base sixteen, in lower case and without leading zeros. -/
def hex (n : Nat) : List Char := Nat.toDigits 16 n

/-- How one character is written between quotes. -/
def quoteChar (c : Char) : List Char :=
  match c with
  | '\x00' => ['\\', '0']
  | '\t' => ['\\', 't']
  | '\n' => ['\\', 'n']
  | '\r' => ['\\', 'r']
  | '"' => ['\\', '"']
  | '\\' => ['\\', '\\']
  | c => if isHidden c then ['\\', 'u', '\x7b'] ++ hex c.toNat ++ ['\x7d'] else [c]

/-- The text between double quotes. -/
def quote (s : String) : String :=
  String.ofList ('"' :: s.toList.flatMap quoteChar ++ ['"'])

end NearestMount.Text
