import NearestMount.Json.Token

/-! # Texts in a document

    A text runs from a quote to the next quote that is not escaped. Reading it gives
    its characters; skipping it checks the escapes but not whether surrogates come in
    pairs. Both start after the opening quote and answer with what follows the
    closing one, which is always shorter (`length_of_skipText`).
-/

namespace NearestMount.Json

/-- The value of a hexadecimal digit of either case. -/
def hexValue? (c : Char) : Option Nat :=
  if '0' ≤ c ∧ c ≤ '9' then some (c.toNat - '0'.toNat)
  else if 'a' ≤ c ∧ c ≤ 'f' then some (c.toNat - 'a'.toNat + 10)
  else if 'A' ≤ c ∧ c ≤ 'F' then some (c.toNat - 'A'.toNat + 10)
  else none

/-- The value of four hexadecimal digits. -/
def quadValue? (a b c d : Char) : Option Nat := do
  return ((← hexValue? a) * 16 + (← hexValue? b)) * 256 +
    ((← hexValue? c) * 16 + (← hexValue? d))

/-- Reads the four digits of a code unit. A text with fewer than four bytes left is
    truncated; otherwise anything but four digits is malformed. -/
def readQuad : List Char → Except Flaw (Nat × List Char)
  | a :: b :: c :: d :: rest =>
    match quadValue? a b c d with
    | some value => .ok (value, rest)
    | none => .error .malformed
  | rest => .error (if (String.ofList rest).utf8ByteSize < 4 then .truncated else .malformed)

/-- The character that an escape of one letter stands for. -/
def namedEscape? : Char → Option Char
  | '"' => some '"'
  | '\\' => some '\\'
  | '/' => some '/'
  | 'b' => some '\x08'
  | 'f' => some '\x0c'
  | 'n' => some '\n'
  | 'r' => some '\r'
  | 't' => some '\t'
  | _ => none

/-- True of the first half of a surrogate pair. -/
def isLeading (unit : Nat) : Bool := 0xd800 ≤ unit && unit < 0xdc00

/-- True of the second half of a surrogate pair. -/
def isTrailing (unit : Nat) : Bool := 0xdc00 ≤ unit && unit < 0xe000

/-- The character of a surrogate pair. -/
def pairChar (leading trailing : Nat) : Char :=
  Char.ofNat (0x10000 + (leading - 0xd800) * 0x400 + (trailing - 0xdc00))

/-- Reads the second half of a pair, which has to follow at once. -/
def readTrailing (leading : Nat) : List Char → Except Flaw (Char × List Char)
  | [] => .error .truncated
  | ['\\'] => .error .truncated
  | '\\' :: 'u' :: rest =>
    match readQuad rest with
    | .error flaw => .error flaw
    | .ok (unit, rest) =>
      if isTrailing unit then .ok (pairChar leading unit, rest) else .error .malformed
  | _ => .error .malformed

/-- Reads an escape, after its backslash. -/
def readEscape : List Char → Except Flaw (Char × List Char)
  | [] => .error .truncated
  | 'u' :: rest =>
    match readQuad rest with
    | .error flaw => .error flaw
    | .ok (unit, rest) =>
      if isTrailing unit then .error .malformed
      else if isLeading unit then readTrailing unit rest
      else .ok (Char.ofNat unit, rest)
  | c :: rest =>
    match namedEscape? c with
    | some c => .ok (c, rest)
    | none => .error .malformed

/-- Skips an escape, after its backslash. -/
def skipEscape : List Char → Except Flaw (List Char)
  | [] => .error .truncated
  | 'u' :: rest => (readQuad rest).map (·.2)
  | c :: rest => if (namedEscape? c).isSome then .ok rest else .error .malformed

/-! ## Every step leaves less -/

theorem length_of_readQuad {cs rest : List Char} {value : Nat}
    (h : readQuad cs = .ok (value, rest)) : rest.length < cs.length := by
  unfold readQuad at h
  split at h
  · split at h
    · cases h
      simp only [List.length_cons]
      omega
    · cases h
  · cases h

theorem length_of_readTrailing {leading : Nat} {cs rest : List Char} {c : Char}
    (h : readTrailing leading cs = .ok (c, rest)) : rest.length < cs.length := by
  unfold readTrailing at h
  split at h
  · cases h
  · cases h
  · split at h
    · cases h
    · rename_i quad
      have shorter := length_of_readQuad quad
      split at h
      · simp only [Except.ok.injEq, Prod.mk.injEq] at h
        simp only [← h.2, List.length_cons]
        omega
      · cases h
  · cases h

theorem length_of_readEscape {cs rest : List Char} {c : Char}
    (h : readEscape cs = .ok (c, rest)) : rest.length < cs.length := by
  unfold readEscape at h
  split at h
  · cases h
  · split at h
    · cases h
    · rename_i quad
      have shorter := length_of_readQuad quad
      split at h
      · cases h
      · split at h
        · have := length_of_readTrailing h
          simp only [List.length_cons]
          omega
        · cases h
          simp only [List.length_cons]
          omega
  · split at h <;> cases h
    simp

theorem length_of_skipEscape {cs rest : List Char}
    (h : skipEscape cs = .ok rest) : rest.length < cs.length := by
  unfold skipEscape at h
  split at h
  · cases h
  · rename_i after
    cases quad : readQuad after with
    | error flaw => simp [quad, Except.map] at h
    | ok found =>
      obtain ⟨value, left⟩ := found
      have shorter := length_of_readQuad quad
      simp only [quad, Except.map, Except.ok.injEq] at h
      subst h
      simp only [List.length_cons]
      omega
  · split at h <;> cases h
    simp

/-! ## Whole texts -/

/-- Reads the rest of a text. -/
def readText (cs : List Char) : Except Flaw (List Char × List Char) :=
  match cs with
  | [] => .error .truncated
  | '"' :: rest => .ok ([], rest)
  | '\\' :: rest =>
    match _h : readEscape rest with
    | .error flaw => .error flaw
    | .ok (c, rest) => (readText rest).map fun (more, rest) => (c :: more, rest)
  | c :: rest =>
    if c.toNat < 0x20 then .error .malformed
    else (readText rest).map fun (more, rest) => (c :: more, rest)
termination_by cs.length
decreasing_by
  · have := length_of_readEscape _h
    simp only [List.length_cons]
    omega
  · simp

/-- Skips the rest of a text. -/
def skipText (cs : List Char) : Except Flaw (List Char) :=
  match cs with
  | [] => .error .truncated
  | '"' :: rest => .ok rest
  | '\\' :: rest =>
    match _h : skipEscape rest with
    | .error flaw => .error flaw
    | .ok rest => skipText rest
  | c :: rest => if c.toNat < 0x20 then .error .malformed else skipText rest
termination_by cs.length
decreasing_by
  · have := length_of_skipEscape _h
    simp only [List.length_cons]
    omega
  · simp

theorem length_of_skipText {cs rest : List Char}
    (h : skipText cs = .ok rest) : rest.length < cs.length := by
  fun_induction skipText cs with
  | case1 => cases h
  | case2 => cases h; simp
  | case3 => cases h
  | case4 after after' esc ih =>
    have := length_of_skipEscape esc
    have := ih h
    simp only [List.length_cons]
    omega
  | case5 => cases h
  | case6 c after _ _ _ ih =>
    have := ih h
    simp only [List.length_cons]
    omega

end NearestMount.Json
