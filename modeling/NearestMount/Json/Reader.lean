import NearestMount.Json.Fault
import NearestMount.Json.Tokens

/-! # Reading values from tokens

    A reader takes a value from the front of a list of tokens. It reads from left to
    right, and the first problem it meets decides its answer. A reader that succeeds
    leaves fewer tokens than it was given (`Reader.shrinks`), which is why repeated
    reading ends.

    - Readers for scalars: `Reader.count`, `Reader.flag`, `Reader.text`,
      `Reader.optional`.
    - `series` reads items up to a closing mark; `Reader.array` is made of it.
-/

namespace NearestMount.Json

/-- The answer of a step of reading: a fault, or a result and the tokens left. -/
abbrev Reading (α : Type) := Except Fault (α × List Token)

/-- A reader of values of type `α`. -/
structure Reader (α : Type) where
  run : List Token → Reading α
  shrinks : ∀ {ts rest : List Token} {a : α}, run ts = .ok (a, rest) →
    rest.length < ts.length

namespace Reader

/-- The same reader with its value mapped. -/
def map {α β : Type} (f : α → β) (reader : Reader α) : Reader β where
  run ts := (reader.run ts).map fun (a, rest) => (f a, rest)
  shrinks {ts rest b} h := by
    cases run : reader.run ts with
    | error fault => simp [run, Except.map] at h
    | ok found =>
      obtain ⟨a, after⟩ := found
      simp only [run, Except.map, Except.ok.injEq, Prod.mk.injEq] at h
      rw [← h.2]
      exact reader.shrinks run

theorem run_map {α β : Type} (f : α → β) (reader : Reader α) (ts : List Token) :
    (reader.map f).run ts = (reader.run ts).map fun (a, rest) => (f a, rest) := rfl

/-- The fault of tokens that do not begin with what is wanted. A scalar is read
    before it is judged, an array or object is judged by its opening mark. -/
def refusal (wanted : Wanted) : List Token → Fault
  | [] => .flaw .truncated
  | .scalar s :: _ => .mismatch (.wrongType (.scalar s) wanted)
  | .flawed _ kept _ :: _ => .flaw kept
  | .mark .openBracket :: _ => .mismatch (.wrongType .array wanted)
  | .mark .openBrace :: _ => .mismatch (.wrongType .object wanted)
  | .mark _ :: _ => .flaw .malformed

/-! ## Scalars -/

/-- A reader that takes one scalar and judges it. -/
def scalar {α : Type} (wanted : Wanted) (judge : Scalar → Except Mismatch α) : Reader α where
  run
    | .scalar s :: rest =>
      match judge s with
      | .ok a => .ok (a, rest)
      | .error m => .error (.mismatch m)
    | ts => .error (refusal wanted ts)
  shrinks {ts rest a} h := by
    split at h
    · split at h <;> cases h
      simp
    · cases h

/-- Reads an integer from zero up. -/
def count : Reader UInt64 :=
  scalar .count fun
    | .natural value => .ok value
    | .negative magnitude => .error (.negativeCount magnitude)
    | s => .error (.wrongType (.scalar s) .count)

/-- Reads a truth value. -/
def flag : Reader Bool :=
  scalar .flag fun
    | .flag value => .ok value
    | s => .error (.wrongType (.scalar s) .flag)

/-- Reads a text. -/
def text : Reader String :=
  scalar .text fun
    | .text value => .ok value
    | s => .error (.wrongType (.scalar s) .text)

/-- Reads a text or null. -/
def optionalText : Reader (Option String) :=
  scalar .text fun
    | .null => .ok none
    | .text value => .ok (some value)
    | s => .error (.wrongType (.scalar s) .text)

end Reader

/-! ## Series -/

/-- Looks for the next item of an array or object. The answer says whether there is
    one; it begins the tokens left. Between items stands a comma, after the last one
    the closing mark. -/
def advance (close : Mark) (first : Bool) : List Token → Reading Bool
  | [] => .error (.flaw .truncated)
  | .mark m :: rest =>
    if m = close then .ok (false, rest)
    else if first then .ok (true, .mark m :: rest)
    else if m = .comma then
      match rest with
      | [] => .error (.flaw .truncated)
      | t :: rest => if t = .mark close then .error (.flaw .malformed) else .ok (true, t :: rest)
    else .error (.flaw .malformed)
  | t :: rest => if first then .ok (true, t :: rest) else .error (.flaw .malformed)

theorem length_of_advance {close : Mark} {first more : Bool} {ts rest : List Token}
    (h : advance close first ts = .ok (more, rest)) : rest.length ≤ ts.length := by
  unfold advance at h
  split at h
  · cases h
  · split at h
    · cases h; simp
    · split at h
      · cases h; simp
      · split at h
        · split at h
          · cases h
          · split at h <;> cases h
            simp
        · cases h
  · split at h <;> cases h
    simp

theorem length_of_advance_false {close : Mark} {first : Bool} {ts rest : List Token}
    (h : advance close first ts = .ok (false, rest)) : rest.length < ts.length := by
  unfold advance at h
  split at h
  · cases h
  · split at h
    · cases h; simp
    · split at h
      · cases h
      · split at h
        · split at h
          · cases h
          · split at h <;> cases h
        · cases h
  · split at h <;> cases h

/-- Reads items up to the closing mark. Each item takes what the earlier ones came
    to and adds to it. -/
def series {σ : Type} (close : Mark) (item : σ → Reader σ) (first : Bool) (s : σ)
    (ts : List Token) : Reading σ :=
  match _next : advance close first ts with
  | .error fault => .error fault
  | .ok (false, rest) => .ok (s, rest)
  | .ok (true, here) =>
    match _item : (item s).run here with
    | .error fault => .error fault
    | .ok (s, rest) => series close item false s rest
termination_by ts.length
decreasing_by
  have := length_of_advance _next
  have := (item _).shrinks _item
  omega

theorem length_of_series {σ : Type} {close : Mark} {item : σ → Reader σ} {first : Bool}
    {s s' : σ} {ts rest : List Token} (h : series close item first s ts = .ok (s', rest)) :
    rest.length < ts.length := by
  fun_induction series close item first s ts with
  | case1 => cases h
  | case2 first s ts after next =>
    cases h
    exact length_of_advance_false next
  | case3 => cases h
  | case4 first s ts here next s'' after read ih =>
    have := length_of_advance next
    have := (item s).shrinks read
    have := ih h
    omega

namespace Reader

/-- Reads an array of such values, in order. -/
def array {α : Type} (item : Reader α) : Reader (List α) where
  run
    | .mark .openBracket :: rest =>
      series .closeBracket (fun values => item.map fun a => values ++ [a]) true [] rest
    | ts => .error (refusal .array ts)
  shrinks {ts rest a} h := by
    split at h
    · have := length_of_series h
      simp only [List.length_cons]
      omega
    · cases h

end Reader

end NearestMount.Json
