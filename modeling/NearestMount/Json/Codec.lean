import NearestMount.Json.Reader

/-! # Values that are read and written

    A codec pairs a reader with the tokens that it is to read back. The last section
    reads and writes whole documents.
-/

namespace NearestMount.Json

/-- How values of a type are read and written. -/
structure Codec (α : Type) where
  reader : Reader α
  tokens : α → List Token

namespace Codec

/-- Integers from zero up. -/
def count : Codec UInt64 := ⟨.count, fun n => [.scalar (.natural n)]⟩

/-- Truth values. -/
def flag : Codec Bool := ⟨.flag, fun b => [.scalar (.flag b)]⟩

/-- Texts. -/
def text : Codec String := ⟨.text, fun s => [.scalar (.text s)]⟩

/-- Texts that may be absent; null stands for one that is. -/
def optionalText : Codec (Option String) where
  reader := .optionalText
  tokens
    | none => [.scalar .null]
    | some s => [.scalar (.text s)]

/-- Lists of values, as arrays. -/
def array {α : Type} (item : Codec α) : Codec (List α) where
  reader := .array item.reader
  tokens values :=
    .mark .openBracket ::
      [Token.mark .comma].intercalate (values.map item.tokens) ++ [.mark .closeBracket]

/-! ## Documents -/

/-- The compact document of a value. -/
def write {α : Type} (codec : Codec α) (a : α) : String := compact (codec.tokens a)

/-- The value that a document describes. Only blanks may follow it, which is looked
    at last. -/
def read {α : Type} (codec : Codec α) (s : String) : Except Fault α :=
  match codec.reader.run (Json.tokens s.toList) with
  | .error fault => .error fault
  | .ok (a, rest) => if rest.isEmpty then .ok a else .error (.flaw .malformed)

end Codec

end NearestMount.Json
