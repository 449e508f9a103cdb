import NearestMount.Json.Codec
import NearestMount.Json.Skip

/-! # Records

    A record type is described once, by its fields in declaration order, and read and
    written by that description. It is written as an object. It is read from an
    object, with its members in any order and others between them, or from an array of
    its field values in declaration order.

    A field of which nothing is said keeps the value that it has in `blank`, unless
    the record wants all its fields.
-/

namespace NearestMount.Json

/-- A field of records of type `δ`. Reading one gives the change that it makes. -/
structure Field (δ : Type) where
  name : String
  reader : Reader (δ → δ)
  tokens : δ → List Token

/-- The field with the given name whose values have a codec, an accessor and an
    update. -/
def Field.of {δ α : Type} (name : String) (codec : Codec α) (get : δ → α)
    (set : α → δ → δ) : Field δ where
  name := name
  reader := codec.reader.map set
  tokens d := codec.tokens (get d)

/-- A record type. -/
structure Record (δ : Type) where
  name : String
  fields : List (Field δ)
  blank : δ
  /-- True if every field has to be given. -/
  complete : Bool

namespace Record

variable {δ : Type}

/-! ## Writing -/

/-- A member of an object. -/
def memberTokens (d : δ) (field : Field δ) : List Token :=
  .scalar (.text field.name) :: .mark .colon :: field.tokens d

/-- The tokens of a record. -/
def tokens (r : Record δ) (d : δ) : List Token :=
  .mark .openBrace ::
    [Token.mark .comma].intercalate (r.fields.map (memberTokens d)) ++ [.mark .closeBrace]

/-! ## Reading -/

/-- A record of which a part has been read: its value so far, and the names of the
    fields that have been given. -/
structure Partial (δ : Type) where
  value : δ
  given : List String

/-- The value of a member, after its key. -/
def readValue {α : Type} (reader : Reader α) : List Token → Reading α
  | [] => .error (.flaw .truncated)
  | t :: rest => if t = .mark .colon then reader.run rest else .error (.flaw .malformed)

theorem length_of_readValue {α : Type} {reader : Reader α} {ts rest : List Token} {a : α}
    (h : readValue reader ts = .ok (a, rest)) : rest.length < ts.length := by
  unfold readValue at h
  split at h
  · cases h
  · split at h
    · have := reader.shrinks h
      simp only [List.length_cons]
      omega
    · cases h

/-- The change that the member with the given key makes. A key that names no field is
    passed over with its value; one that comes a second time is refused at once. -/
def readMember (r : Record δ) (part : Partial δ) (key : String) (ts : List Token) :
    Reading (Partial δ) :=
  match r.fields.find? fun field => field.name = key with
  | none => (readValue skip ts).map fun (_, rest) => (part, rest)
  | some field =>
    -- a second member is refused before its value is looked at
    if key ∈ part.given then .error (.mismatch (.duplicateField key))
    else
      (readValue field.reader ts).map fun (change, rest) =>
        (⟨change part.value, key :: part.given⟩, rest)

theorem length_of_readMember {r : Record δ} {part part' : Partial δ} {key : String}
    {ts rest : List Token} (h : r.readMember part key ts = .ok (part', rest)) :
    rest.length < ts.length := by
  unfold readMember at h
  split at h
  · cases read : readValue skip ts with
    | error fault => simp [read, Except.map] at h
    | ok found =>
      simp only [read, Except.map, Except.ok.injEq, Prod.mk.injEq] at h
      rw [← h.2]
      exact length_of_readValue (a := found.1) read
  · rename_i field _
    split at h
    · cases h
    · cases read : readValue field.reader ts with
      | error fault => simp [read, Except.map] at h
      | ok found =>
        simp only [read, Except.map, Except.ok.injEq, Prod.mk.injEq] at h
        rw [← h.2]
        exact length_of_readValue (a := found.1) read

/-- Reads one member of an object. -/
def member (r : Record δ) (part : Partial δ) : Reader (Partial δ) where
  run
    | [] => .error (.flaw .truncated)
    | .scalar (.text key) :: rest => r.readMember part key rest
    | .flawed true kept _ :: _ => .error (.flaw kept)
    | _ => .error (.flaw .malformed)
  shrinks {ts rest part'} h := by
    split at h
    · cases h
    · have := length_of_readMember h
      simp only [List.length_cons]
      omega
    · cases h
    · cases h

/-- The record that an object came to. The first field in declaration order that is
    wanted and was not given is missed. -/
def finish (r : Record δ) (part : Partial δ) : Except Mismatch δ :=
  match r.fields.find? fun field => r.complete && field.name ∉ part.given with
  | some field => .error (.missingField field.name)
  | none => .ok part.value

/-- Reads the items of an array as the given fields, the last of a record. -/
def readItems (r : Record δ) (first : Bool) (d : δ) : List (Field δ) → List Token → Reading δ
  | [], ts =>
    match ts with
    | [] => .error (.flaw .truncated)
    | t :: rest => if t = .mark .closeBracket then .ok (d, rest) else .error (.flaw .malformed)
  | field :: fields, ts =>
    match advance .closeBracket first ts with
    | .error fault => .error fault
    | .ok (false, rest) =>
      if r.complete then
        .error (.mismatch (.tooShort (r.fields.length - (fields.length + 1)) r.name
          r.fields.length))
      else .ok (d, rest)
    | .ok (true, here) =>
      match field.reader.run here with
      | .error fault => .error fault
      | .ok (change, rest) => r.readItems false (change d) fields rest

theorem length_of_readItems {r : Record δ} {first : Bool} {d d' : δ}
    {fields : List (Field δ)} {ts rest : List Token}
    (h : r.readItems first d fields ts = .ok (d', rest)) : rest.length < ts.length := by
  induction fields generalizing first d ts with
  | nil =>
    unfold readItems at h
    split at h
    · cases h
    · split at h <;> cases h
      simp
  | cons field fields ih =>
    unfold readItems at h
    split at h
    · cases h
    · rename_i next
      split at h
      · cases h
      · cases h
        exact length_of_advance_false next
    · rename_i next
      have := length_of_advance next
      split at h
      · cases h
      · rename_i read
        have := field.reader.shrinks read
        have := ih h
        omega

/-- Reads a record. -/
def reader (r : Record δ) : Reader δ where
  run
    | .mark .openBrace :: rest =>
      match series .closeBrace r.member true ⟨r.blank, []⟩ rest with
      | .error fault => .error fault
      | .ok (part, rest) =>
        match r.finish part with
        | .error m => .error (.mismatch m)
        | .ok d => .ok (d, rest)
    | .mark .openBracket :: rest => r.readItems true r.blank r.fields rest
    | ts => .error (Reader.refusal (.record r.name) ts)
  shrinks {ts rest d} h := by
    split at h
    · split at h
      · cases h
      · rename_i read
        have := length_of_series read
        split at h <;> cases h
        simp only [List.length_cons]
        omega
    · have := length_of_readItems h
      simp only [List.length_cons]
      omega
    · cases h

/-- How records of this type are read and written. -/
def codec (r : Record δ) : Codec δ := ⟨r.reader, r.tokens⟩

end Record

end NearestMount.Json
