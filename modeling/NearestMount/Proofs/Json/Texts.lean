import Mathlib.Data.List.Forall2
import NearestMount.Json.Tokens

/-! # How texts are spelled

    A character of a text is spelled as it is, by an escape of one letter, by its code unit
    or by a surrogate pair (`Spells`), and a text by its characters, one after the other
    (`SpellsText`). However it is spelled, it is read (`textToken_spells`); the way it is
    written is one of the spellings (`spellsText_textChars`).

    A text that is skipped need not spell anything, since half a surrogate pair may stand
    alone in it (`IsText`). It is passed over all the same, and whether it could have been
    read does not hang on what comes after it (`exists_textToken`).
-/

namespace NearestMount.Json

/-! ## The spelling -/

/-- The characters spell one character within a text. -/
inductive Spells : List Char → Char → Prop where
  | plain {c : Char} : c ≠ '"' → c ≠ '\\' → ¬ c.toNat < 0x20 → Spells [c] c
  | named {letter c : Char} : namedEscape? letter = some c → Spells ['\\', letter] c
  | unit {a b c d : Char} {value : Nat} : quadValue? a b c d = some value →
    isLeading value = false → isTrailing value = false →
    Spells ['\\', 'u', a, b, c, d] (Char.ofNat value)
  | pair {a b c d a' b' c' d' : Char} {leading trailing : Nat} :
    quadValue? a b c d = some leading → isLeading leading = true →
    quadValue? a' b' c' d' = some trailing → isTrailing trailing = true →
    Spells ['\\', 'u', a, b, c, d, '\\', 'u', a', b', c', d'] (pairChar leading trailing)

/-- The characters are a text between quotes that spells this text. -/
def SpellsText (cs : List Char) (s : String) : Prop :=
  ∃ pieces : List (List Char), List.Forall₂ Spells pieces s.toList ∧
    cs = '"' :: (pieces.flatten ++ ['"'])

/-- The characters may stand within a text. A code unit need not be a character. -/
inductive IsPiece : List Char → Prop where
  | plain {c : Char} : c ≠ '"' → c ≠ '\\' → ¬ c.toNat < 0x20 → IsPiece [c]
  | named {letter c : Char} : namedEscape? letter = some c → IsPiece ['\\', letter]
  | unit {a b c d : Char} {value : Nat} : quadValue? a b c d = some value →
    IsPiece ['\\', 'u', a, b, c, d]

/-- The characters are a text between quotes, which need not spell anything. -/
def IsText (cs : List Char) : Prop :=
  ∃ pieces : List (List Char), (∀ piece ∈ pieces, IsPiece piece) ∧
    cs = '"' :: (pieces.flatten ++ ['"'])

/-- Every character is written in one of its spellings. -/
theorem spells_escapeChar (c : Char) : Spells (escapeChar c) c := by
  unfold escapeChar
  split
  case h_8 =>
    split
    · next hcontrol =>
      -- four digits, the first two of them zeros
      have hquad : ∀ n, n < 0x20 →
          quadValue? '0' '0' (hexDigit (n / 16)) (hexDigit (n % 16)) = some n := by decide
      have hleading : isLeading c.toNat = false := by
        simp [isLeading]
        omega
      have htrailing : isTrailing c.toNat = false := by
        simp [isTrailing]
        omega
      have hunit := Spells.unit (hquad c.toNat hcontrol) hleading htrailing
      rw [Char.ofNat_toNat] at hunit
      exact hunit
    · next hquote hbackslash _ _ _ _ _ hplain => exact .plain hquote hbackslash hplain
  all_goals exact .named rfl

theorem spellsText_textChars (s : String) : SpellsText (textChars s) s := by
  refine ⟨s.toList.map escapeChar, ?_, ?_⟩
  · rw [List.forall₂_map_left_iff, List.forall₂_same]
    intro c _
    exact spells_escapeChar c
  · rw [← List.flatMap_def]
    rfl

/-! ## Reading and skipping a piece -/

theorem readText_escape {cs rest : List Char} {c : Char} (h : readEscape cs = .ok (c, rest)) :
    readText ('\\' :: cs) = (readText rest).map fun (more, rest) => (c :: more, rest) := by
  rw [readText]
  split
  · next heq =>
    rw [h] at heq
    cases heq
  · next heq =>
    rw [h] at heq
    cases heq
    rfl

theorem readText_escape_error {cs : List Char} {flaw : Flaw} (h : readEscape cs = .error flaw) :
    readText ('\\' :: cs) = .error flaw := by
  rw [readText]
  split
  · next heq =>
    rw [h] at heq
    cases heq
    rfl
  · next heq =>
    rw [h] at heq
    cases heq

theorem readText_plain {c : Char} (hquote : c ≠ '"') (hbackslash : c ≠ '\\')
    (hplain : ¬ c.toNat < 0x20) (rest : List Char) :
    readText (c :: rest) = (readText rest).map fun (more, rest) => (c :: more, rest) := by
  rw [readText]
  · rw [if_neg hplain]
  · exact fun heq => hquote heq
  · exact fun heq => hbackslash heq

theorem skipText_escape {cs rest : List Char} (h : skipEscape cs = .ok rest) :
    skipText ('\\' :: cs) = skipText rest := by
  rw [skipText]
  split
  · next heq =>
    rw [h] at heq
    cases heq
  · next heq =>
    rw [h] at heq
    cases heq
    rfl

theorem skipText_plain {c : Char} (hquote : c ≠ '"') (hbackslash : c ≠ '\\')
    (hplain : ¬ c.toNat < 0x20) (rest : List Char) : skipText (c :: rest) = skipText rest := by
  rw [skipText]
  · rw [if_neg hplain]
  · exact fun heq => hquote heq
  · exact fun heq => hbackslash heq

theorem namedEscape?_ne {letter c : Char} (h : namedEscape? letter = some c) : letter ≠ 'u' := by
  rintro rfl
  cases h

theorem readEscape_named {letter c : Char} (h : namedEscape? letter = some c)
    (rest : List Char) : readEscape (letter :: rest) = .ok (c, rest) := by
  have hne := namedEscape?_ne h
  simp [readEscape, h]

/-- No code unit is both halves of a pair. -/
theorem isTrailing_of_isLeading {unit : Nat} (h : isLeading unit = true) :
    isTrailing unit = false := by
  simp only [isLeading, Bool.and_eq_true, decide_eq_true_eq] at h
  simp [isTrailing]
  omega

theorem skipText_append {piece : List Char} (h : IsPiece piece) (rest : List Char) :
    skipText (piece ++ rest) = skipText rest := by
  cases h with
  | plain hquote hbackslash hplain => exact skipText_plain hquote hbackslash hplain rest
  | named hletter =>
    have hne := namedEscape?_ne hletter
    exact skipText_escape (by simp [skipEscape, hletter])
  | unit hquad => exact skipText_escape (by simp [skipEscape, readQuad, hquad, Except.map])

theorem skipText_flatten {pieces : List (List Char)} (h : ∀ piece ∈ pieces, IsPiece piece)
    (rest : List Char) : skipText (pieces.flatten ++ '"' :: rest) = .ok rest := by
  induction pieces with
  | nil => rw [List.flatten_nil, List.nil_append, skipText]
  | cons piece pieces ih =>
    rw [List.flatten_cons, List.append_assoc, skipText_append (h piece List.mem_cons_self)]
    exact ih fun other hmem => h other (List.mem_cons_of_mem _ hmem)

/-! ## Texts that spell something -/

theorem readText_append {piece : List Char} {c : Char} (h : Spells piece c) (rest : List Char) :
    readText (piece ++ rest) = (readText rest).map fun (more, rest) => (c :: more, rest) := by
  cases h with
  | plain hquote hbackslash hplain => exact readText_plain hquote hbackslash hplain rest
  | named hletter => exact readText_escape (readEscape_named hletter rest)
  | unit hquad hleading htrailing =>
    exact readText_escape (by simp [readEscape, readQuad, hquad, hleading, htrailing])
  | pair hquad hleading hquad' htrailing =>
    have hsingle := isTrailing_of_isLeading hleading
    exact readText_escape
      (by simp [readEscape, readQuad, hquad, hleading, hsingle, readTrailing, hquad', htrailing])

theorem skipText_spells {piece : List Char} {c : Char} (h : Spells piece c) (rest : List Char) :
    skipText (piece ++ rest) = skipText rest := by
  cases h with
  | plain hquote hbackslash hplain => exact skipText_append (.plain hquote hbackslash hplain) rest
  | named hletter => exact skipText_append (.named hletter) rest
  | unit hquad _ _ => exact skipText_append (.unit hquad) rest
  | pair hquad _ hquad' _ =>
    -- to one that skips it a pair is two code units
    exact (skipText_append (.unit hquad) _).trans (skipText_append (.unit hquad') rest)

/-- A text can be read and skipped up to its closing quote. -/
theorem text_of_spells {pieces : List (List Char)} {cs : List Char}
    (h : List.Forall₂ Spells pieces cs) (rest : List Char) :
    readText (pieces.flatten ++ '"' :: rest) = .ok (cs, rest) ∧
      skipText (pieces.flatten ++ '"' :: rest) = .ok rest := by
  induction h with
  | nil =>
    rw [List.flatten_nil, List.nil_append, readText, skipText]
    exact ⟨rfl, rfl⟩
  | cons hpiece _ ih =>
    obtain ⟨hread, hskip⟩ := ih
    rw [List.flatten_cons, List.append_assoc, readText_append hpiece, skipText_spells hpiece,
      hread, hskip]
    exact ⟨rfl, rfl⟩

theorem textToken_spells {pieces : List (List Char)} {s : String}
    (h : List.Forall₂ Spells pieces s.toList) (rest : List Char) :
    textToken (pieces.flatten ++ '"' :: rest) = (.scalar (.text s), rest) := by
  obtain ⟨hread, hskip⟩ := text_of_spells h rest
  simp only [textToken, hread, hskip, String.ofList_toList]

/-! ## Texts that need not spell anything -/

/-- Whether what stands between the quotes can be read, and as what, is settled by itself
    alone. -/
def Settled (body : List Char) : Prop :=
  ∃ r : Except Flaw (List Char), ∀ rest,
    readText (body ++ '"' :: rest) = r.map fun cs => (cs, rest)

theorem settled_nil : Settled [] :=
  ⟨.ok [], fun rest => by rw [List.nil_append, readText]; rfl⟩

theorem Settled.append {piece body : List Char} {c : Char} (h : Settled body)
    (hpiece : Spells piece c) : Settled (piece ++ body) := by
  obtain ⟨r, hr⟩ := h
  refine ⟨r.map (c :: ·), ?_⟩
  intro rest
  rw [List.append_assoc, readText_append hpiece, hr]
  cases r with
  | error flaw => rfl
  | ok cs => rfl

theorem settled_of_error (flaw : Flaw) {body : List Char}
    (h : ∀ rest, readEscape (body ++ '"' :: rest) = .error flaw) : Settled ('\\' :: body) := by
  refine ⟨.error flaw, ?_⟩
  intro rest
  rw [List.cons_append, readText_escape_error (h rest)]
  rfl

/-- The first half of a pair settles it together with what comes next. -/
theorem settled_leading {a b c d : Char} {leading : Nat} {pieces : List (List Char)}
    (hquad : quadValue? a b c d = some leading) (hleading : isLeading leading = true)
    (h : ∀ piece ∈ pieces, IsPiece piece) (hbehind : Settled pieces.tail.flatten) :
    Settled (['\\', 'u', a, b, c, d] ++ pieces.flatten) := by
  have hsingle := isTrailing_of_isLeading hleading
  cases pieces with
  | nil =>
    apply settled_of_error .malformed
    intro rest
    simp [readEscape, readQuad, hquad, hleading, hsingle, readTrailing]
  | cons piece pieces =>
    cases h piece List.mem_cons_self with
    | plain _ hbackslash _ =>
      apply settled_of_error .malformed
      intro rest
      simp [readEscape, readQuad, hquad, hleading, hsingle, readTrailing, hbackslash]
    | named hletter =>
      have hne := namedEscape?_ne hletter
      apply settled_of_error .malformed
      intro rest
      simp [readEscape, readQuad, hquad, hleading, hsingle, readTrailing, hne]
    | @unit _ _ _ _ trailing hquad' =>
      cases htrailing : isTrailing trailing with
      | true => exact hbehind.append (.pair hquad hleading hquad' htrailing)
      | false =>
        apply settled_of_error .malformed
        intro rest
        simp [readEscape, readQuad, hquad, hleading, hsingle, readTrailing, hquad', htrailing]

theorem settled_flatten {pieces : List (List Char)} (h : ∀ piece ∈ pieces, IsPiece piece) :
    Settled pieces.flatten := by
  -- a pair takes two pieces at once, so the tail goes along
  suffices hboth : Settled pieces.flatten ∧ Settled pieces.tail.flatten from hboth.1
  induction pieces with
  | nil => exact ⟨settled_nil, settled_nil⟩
  | cons piece pieces ih =>
    have hpieces : ∀ other ∈ pieces, IsPiece other :=
      fun other hmem => h other (List.mem_cons_of_mem _ hmem)
    obtain ⟨hrest, hbehind⟩ := ih hpieces
    refine ⟨?_, hrest⟩
    rw [List.flatten_cons]
    cases h piece List.mem_cons_self with
    | plain hquote hbackslash hplain => exact hrest.append (.plain hquote hbackslash hplain)
    | named hletter => exact hrest.append (.named hletter)
    | @unit _ _ _ _ value hquad =>
      cases hleading : isLeading value with
      | true => exact settled_leading hquad hleading hpieces hbehind
      | false =>
        cases htrailing : isTrailing value with
        | true =>
          apply settled_of_error .malformed
          intro rest
          simp [readEscape, readQuad, hquad, htrailing]
        | false => exact hrest.append (.unit hquad hleading htrailing)

/-- A token that a reader passes over as a text. -/
def Token.PassesAsText (t : Token) : Prop :=
  (∃ s, t = .scalar (.text s)) ∨ ∃ flaw, t = .flawed true flaw none

theorem exists_textToken {pieces : List (List Char)} (h : ∀ piece ∈ pieces, IsPiece piece) :
    ∃ t : Token, t.PassesAsText ∧ ∀ rest, textToken (pieces.flatten ++ '"' :: rest) = (t, rest) := by
  obtain ⟨r, hread⟩ := settled_flatten h
  cases r with
  | error flaw =>
    refine ⟨_, Or.inr ⟨flaw, rfl⟩, ?_⟩
    intro rest
    simp [textToken, hread, skipText_flatten h, Except.map]
  | ok cs =>
    refine ⟨_, Or.inl ⟨String.ofList cs, rfl⟩, ?_⟩
    intro rest
    simp [textToken, hread, skipText_flatten h, Except.map]

end NearestMount.Json
