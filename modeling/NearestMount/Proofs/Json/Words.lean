import Mathlib.Data.List.Forall2
import NearestMount.Proofs.Json.Lexing

/-! # Words with blanks between them

    A document stands on the page as words, with blanks around them as one likes: `Laid`.
    Which words there may be is no matter here; the words of written tokens are the
    written tokens.

    Words are **cut** into tokens if every way to lay them out is, in front of what does
    not go on with a numeral (`Cuts`). Where the last word cannot go on, as a mark or a
    text cannot, they are **severed** from whatever comes next (`Severs`). What is severed
    may be followed by anything, so both properties are put together word by word.
    The compact document is one such layout (`laid_compact`).
-/

namespace NearestMount.Json

/-- The characters are blanks. -/
def Blank (gap : List Char) : Prop := ∀ c ∈ gap, isBlank c = true

/-- The words stand one after the other, with blanks before and behind each of them, or
    with none. -/
inductive Laid : List Word → List Char → Prop where
  | nil {gap : List Char} : Blank gap → Laid [] gap
  | cons {gap cs : List Char} {w : Word} {ws : List Word} :
    Blank gap → Laid ws cs → Laid (w :: ws) (gap ++ (w ++ cs))

/-- The words of a member of an object. -/
def memberWords (key : Word) (value : List Word) : List Word := key :: [Mark.colon.char] :: value

/-- Groups of words with commas between them and marks around them. -/
def enclosed (first last : Mark) (groups : List (List Word)) : List Word :=
  [first.char] :: [[Mark.comma.char]].intercalate groups ++ [[last.char]]

/-- However the words are laid out, they are cut into these tokens, in front of everything
    that does not go on with a numeral. -/
def Cuts (ws : List Word) (ts : List Token) : Prop :=
  ∀ cs rest, Laid ws cs → EndsNumeral rest → tokens (cs ++ rest) = ts ++ tokens rest

/-- However the words are laid out, they are cut into these tokens, whatever follows. -/
def Severs (ws : List Word) (ts : List Token) : Prop :=
  ∀ cs rest, Laid ws cs → tokens (cs ++ rest) = ts ++ tokens rest

/-! ## Blanks -/

theorem tokens_blank_append {gap : List Char} (h : Blank gap) (rest : List Char) :
    tokens (gap ++ rest) = tokens rest := by
  induction gap with
  | nil => rfl
  | cons c gap ih =>
    rw [List.cons_append, tokens_cons_of_isBlank (h c List.mem_cons_self)]
    exact ih fun d hd => h d (List.mem_cons_of_mem _ hd)

/-- No blank goes on with a numeral. -/
theorem EndsNumeral.blank_append {gap rest : List Char} (hgap : Blank gap)
    (hrest : EndsNumeral rest) : EndsNumeral (gap ++ rest) := by
  cases gap with
  | nil => exact hrest
  | cons c gap =>
    intro d hd
    obtain rfl : c = d := Option.some.inj hd
    have hblank := hgap c List.mem_cons_self
    simp only [isBlank, Bool.or_eq_true, decide_eq_true_eq] at hblank
    rcases hblank with ((rfl | rfl) | rfl) | rfl <;> decide

theorem Laid.of_append {ws us : List Word} {cs : List Char} (h : Laid (ws ++ us) cs) :
    ∃ front back, cs = front ++ back ∧ Laid ws front ∧ Laid us back := by
  induction ws generalizing cs with
  | nil => exact ⟨[], cs, rfl, .nil (by simp [Blank]), h⟩
  | cons w ws ih =>
    cases h with
    | cons hgap hrest =>
      obtain ⟨front, back, rfl, hfront, hback⟩ := ih hrest
      exact ⟨_, back, by simp only [List.append_assoc], .cons hgap hfront, hback⟩

/-- Words may be laid out with the same blanks before each of them. -/
theorem laid_flatMap {gap : List Char} (h : Blank gap) (ws : List Word) :
    Laid ws (ws.flatMap (gap ++ ·)) := by
  induction ws with
  | nil => exact .nil (by simp [Blank])
  | cons w ws ih =>
    rw [List.flatMap_cons, List.append_assoc]
    exact .cons h ih

/-! ## Single words -/

theorem Lexes.tokens_append {w : Word} {t : Token} {gap rest : List Char} (h : Lexes w t rest)
    (hgap : Blank gap) : tokens (gap ++ (w ++ rest)) = t :: tokens rest := by
  obtain ⟨c, cs, rfl, hblank, hread⟩ := h
  rw [tokens_blank_append hgap, List.cons_append, tokens_cons hblank, hread]

/-- A word is cut out of every layout in which nothing behind it goes on with it. -/
theorem tokens_of_laid_word {w : Word} {t : Token} {cs rest : List Char} (hlaid : Laid [w] cs)
    (h : ∀ gap, Blank gap → Lexes w t (gap ++ rest)) : tokens (cs ++ rest) = [t] ++ tokens rest := by
  cases hlaid with
  | cons hgap hbehind =>
    cases hbehind with
    | nil hgap' =>
      rw [List.append_assoc, List.append_assoc, (h _ hgap').tokens_append hgap,
        tokens_blank_append hgap', List.singleton_append]

theorem cuts_word {w : Word} {t : Token} (h : ∀ rest, EndsNumeral rest → Lexes w t rest) :
    Cuts [w] [t] := by
  intro cs rest hlaid hrest
  apply tokens_of_laid_word hlaid
  intro gap hgap
  exact h _ (.blank_append hgap hrest)

theorem severs_word {w : Word} {t : Token} (h : ∀ rest, Lexes w t rest) : Severs [w] [t] := by
  intro cs rest hlaid
  exact tokens_of_laid_word hlaid fun gap _ => h _

theorem severs_mark (m : Mark) : Severs [[m.char]] [.mark m] := severs_word (lexes_mark m)

theorem severs_text {w : Word} {s : String} (h : SpellsText w s) :
    Severs [w] [.scalar (.text s)] :=
  severs_word (lexes_text h)

/-! ## Putting words together -/

section

variable {ws us : List Word} {ts vs : List Token}

theorem severs_nil : Severs [] [] := by
  intro cs rest hlaid
  cases hlaid with
  | nil hgap => rw [tokens_blank_append hgap, List.nil_append]

theorem Severs.cuts (h : Severs ws ts) : Cuts ws ts := fun cs rest hlaid _ => h cs rest hlaid

theorem Severs.append (hw : Severs ws ts) (hu : Severs us vs) : Severs (ws ++ us) (ts ++ vs) := by
  intro cs rest hlaid
  obtain ⟨front, back, rfl, hfront, hback⟩ := hlaid.of_append
  rw [List.append_assoc, List.append_assoc, hw front _ hfront, hu back _ hback]

theorem Severs.append_cuts (hw : Severs ws ts) (hu : Cuts us vs) :
    Cuts (ws ++ us) (ts ++ vs) := by
  intro cs rest hlaid hrest
  obtain ⟨front, back, rfl, hfront, hback⟩ := hlaid.of_append
  rw [List.append_assoc, List.append_assoc, hw front _ hfront, hu back _ hback hrest]

/-- A mark ends every numeral. -/
theorem Cuts.append_mark (h : Cuts ws ts) (m : Mark) :
    Severs (ws ++ [[m.char]]) (ts ++ [.mark m]) := by
  intro cs rest hlaid
  obtain ⟨front, back, rfl, hfront, hback⟩ := hlaid.of_append
  have hmark := severs_mark m back rest hback
  have hends : EndsNumeral (back ++ rest) := by
    cases hback with
    | cons hgap _ =>
      rw [List.append_assoc]
      exact .blank_append hgap (endsNumeral_mark m _)
  rw [List.append_assoc, h front _ hfront hends, hmark, List.append_assoc]

theorem Cuts.member {w : Word} {t : Token} (hkey : Cuts [w] [t]) (hvalue : Cuts ws ts) :
    Cuts (memberWords w ws) (t :: .mark .colon :: ts) :=
  (hkey.append_mark .colon).append_cuts hvalue

end

/-- Groups with commas between them are cut if each of them is. -/
theorem cuts_intercalate {groups : List (List Word)} {cut : List (List Token)}
    (h : List.Forall₂ Cuts groups cut) :
    Cuts ([[Mark.comma.char]].intercalate groups) ([Token.mark .comma].intercalate cut) := by
  induction h with
  | nil => exact severs_nil.cuts
  | @cons ws ts groups cut hfirst hrest ih =>
    cases hrest with
    | nil =>
      rw [List.intercalate_singleton, List.intercalate_singleton]
      exact hfirst
    | cons hsecond hmore =>
      rw [List.intercalate_cons_cons, List.intercalate_cons_cons]
      exact (hfirst.append_mark .comma).append_cuts ih

/-- A mark behind them severs them from what follows. -/
theorem severs_enclosed (first last : Mark) {groups : List (List Word)} {cut : List (List Token)}
    (h : List.Forall₂ Cuts groups cut) :
    Severs (enclosed first last groups)
      (.mark first :: [Token.mark .comma].intercalate cut ++ [.mark last]) :=
  ((severs_mark first).append_cuts (cuts_intercalate h)).append_mark last

/-- The last group severs them if it is severed itself. -/
theorem severs_intercalate {groups : List (List Word)} {cut : List (List Token)}
    (h : List.Forall₂ Cuts groups cut) {last : List Word} {ts : List Token}
    (hlast : Severs last ts) :
    Severs ([[Mark.comma.char]].intercalate (groups ++ [last]))
      ([Token.mark .comma].intercalate (cut ++ [ts])) := by
  induction h with
  | nil =>
    rw [List.nil_append, List.nil_append, List.intercalate_singleton, List.intercalate_singleton]
    exact hlast
  | @cons ws ts' groups cut hfirst hrest ih =>
    have hne : groups ++ [last] ≠ [] := by simp
    have hne' : cut ++ [ts] ≠ [] := by simp
    rw [List.cons_append, List.cons_append, List.intercalate_cons_of_ne_nil hne,
      List.intercalate_cons_of_ne_nil hne']
    exact (hfirst.append_mark .comma).append ih

/-! ## Written tokens -/

/-- The words of tokens as they are written. -/
def wordsOf (ts : List Token) : List Word := ts.map Token.chars

/-- Written tokens that are cut apart again however they are laid out. -/
def Spaced (ts : List Token) : Prop := Cuts (wordsOf ts) ts

/-- The compact document lays the words out without a blank. -/
theorem laid_compact (ts : List Token) : Laid (wordsOf ts) (compact ts).toList := by
  have hlaid := laid_flatMap (show Blank [] by simp [Blank]) (wordsOf ts)
  simpa [compact, wordsOf, List.flatMap_map] using hlaid

theorem spaced_scalar {s : Scalar} (h : s.isPlain = true) : Spaced [.scalar s] :=
  cuts_word fun _ hrest => lexes_scalar h hrest

theorem wordsOf_intercalate (groups : List (List Token)) :
    wordsOf ([Token.mark .comma].intercalate groups) =
      [[Mark.comma.char]].intercalate (groups.map wordsOf) := by
  induction groups with
  | nil => rfl
  | cons ts groups ih =>
    cases groups with
    | nil => simp [wordsOf]
    | cons us groups =>
      rw [List.map_cons, List.map_cons] at *
      rw [List.intercalate_cons_cons, List.intercalate_cons_cons, ← ih]
      simp [wordsOf, Token.chars]

/-- Written groups between marks, with commas between them. -/
theorem spaced_enclosed (first last : Mark) {groups : List (List Token)}
    (h : ∀ ts ∈ groups, Spaced ts) :
    Spaced (.mark first :: [Token.mark .comma].intercalate groups ++ [.mark last]) := by
  have hcuts : List.Forall₂ Cuts (groups.map wordsOf) groups := by
    rw [List.forall₂_map_left_iff, List.forall₂_same]
    exact h
  have hwords : wordsOf (.mark first :: [Token.mark .comma].intercalate groups ++ [.mark last]) =
      enclosed first last (groups.map wordsOf) := by
    rw [enclosed, ← wordsOf_intercalate]
    simp [wordsOf, Token.chars]
  rw [Spaced, hwords]
  exact (severs_enclosed first last hcuts).cuts

theorem Spaced.member {ts : List Token} (h : Spaced ts) (key : String) :
    Spaced (.scalar (.text key) :: .mark .colon :: ts) := by
  have hkey : Spaced [.scalar (.text key)] := spaced_scalar rfl
  exact Cuts.member hkey h

end NearestMount.Json
