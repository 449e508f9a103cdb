import NearestMount.Json.Token
import NearestMount.Text.Quoted

/-! # Why a document is refused

    A document is refused because it is no document at all (`Flaw`), or because a
    well-formed part of it is not of the shape that is wanted there (`Mismatch`).
    Only a mismatch has a wording.
-/

namespace NearestMount.Json

/-- What was met where something else was wanted. -/
inductive Found where
  | scalar (s : Scalar)
  | array
  | object
  deriving DecidableEq, Repr

/-- What a reader wants. -/
inductive Wanted where
  /-- A record, by the name of its type. -/
  | record (name : String)
  | count
  | flag
  | text
  | array
  deriving DecidableEq, Repr

/-- How a part of a document fails to have the wanted shape. -/
inductive Mismatch where
  | wrongType (found : Found) (wanted : Wanted)
  /-- An integer below zero, where a count is wanted. -/
  | negativeCount (magnitude : Nat)
  /-- An array of `length` items, too few for the record. -/
  | tooShort (length : Nat) (record : String) (fields : Nat)
  | duplicateField (name : String)
  | missingField (name : String)
  deriving DecidableEq, Repr

/-- Why a document is refused. -/
inductive Fault where
  | flaw (f : Flaw)
  | mismatch (m : Mismatch)
  deriving DecidableEq, Repr

/-! ## Wording -/

/-- A word between backquotes. -/
def backquoted (word : String) : String := "\x60" ++ word ++ "\x60"

/-- How a scalar is named in a message. -/
def Scalar.describe : Scalar → String
  | .null => "null"
  | .flag value => "boolean " ++ backquoted (if value then "true" else "false")
  | .natural value => "integer " ++ backquoted (String.ofList (Scalar.natural value).chars)
  | .negative magnitude =>
    "integer " ++ backquoted (String.ofList (Scalar.negative magnitude).chars)
  | .floating bits =>
    "floating point " ++ backquoted (String.ofList (Scalar.floating bits).chars)
  | .text value => "string " ++ Text.quote value

/-- How a part of a document is named in a message. -/
def Found.describe : Found → String
  | .scalar s => s.describe
  | .array => "sequence"
  | .object => "map"

/-- How a wish is named in a message. -/
def Wanted.describe : Wanted → String
  | .record name => "struct " ++ name
  | .count => "usize"
  | .flag => "a boolean"
  | .text => "a string"
  | .array => "a sequence"

/-- The wording of a mismatch. -/
def Mismatch.message : Mismatch → String
  | .wrongType found wanted =>
    "invalid type: " ++ found.describe ++ ", expected " ++ wanted.describe
  | .negativeCount magnitude =>
    "invalid value: " ++ (Scalar.negative magnitude).describe ++ ", expected " ++
      Wanted.count.describe
  | .tooShort length record fields =>
    "invalid length " ++ length.repr ++ ", expected " ++ (Wanted.record record).describe ++
      " with " ++ fields.repr ++ " elements"
  | .duplicateField name => "duplicate field " ++ backquoted name
  | .missingField name => "missing field " ++ backquoted name

end NearestMount.Json
