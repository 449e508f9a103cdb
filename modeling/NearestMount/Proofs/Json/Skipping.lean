import NearestMount.Json.Skip
import NearestMount.Proofs.Json.Faithful
import NearestMount.Proofs.Json.Words

/-! # Values of any shape are skipped

    `IsValue` is the grammar of values, in words: scalars, arrays and objects, nested as
    deeply as one likes. Numbers may be out of range and texts need not spell anything.

    Skipping takes such a value, however it is laid out, and stops right behind it
    (`IsValue.exists_cuts`). This goes along the value. To a value inside of others,
    skipping must get back to the innermost frame that is still open (`leave`), with
    whatever frames around it.
-/

namespace NearestMount.Json

/-! ## The grammar -/

/-- A value of a single word. -/
inductive IsScalar : Word → Prop where
  | null : IsScalar Scalar.null.chars
  | flag (value : Bool) : IsScalar (Scalar.flag value).chars
  | number {w : Word} : IsNumber w → IsScalar w
  | text {w : Word} : IsText w → IsScalar w

/-- The words are a value. -/
inductive IsValue : List Word → Prop where
  | scalar {w : Word} : IsScalar w → IsValue [w]
  | array {groups : List (List Word)} : (∀ ws ∈ groups, IsValue ws) →
    IsValue (enclosed .openBracket .closeBracket groups)
  | object {members : List (Word × List Word)} : (∀ m ∈ members, IsText m.1) →
    (∀ m ∈ members, IsValue m.2) →
    IsValue (enclosed .openBrace .closeBrace (members.map fun m => memberWords m.1 m.2))

/-! ## Scalars -/

/-- A token that is passed over as a value. -/
def Token.Passes (t : Token) : Prop :=
  (∃ s, t = .scalar s) ∨ ∃ isText flaw, t = .flawed isText flaw none

theorem Token.PassesAsText.passes {t : Token} (h : t.PassesAsText) : t.Passes := by
  rcases h with ⟨s, rfl⟩ | ⟨flaw, rfl⟩
  · exact Or.inl ⟨_, rfl⟩
  · exact Or.inr ⟨_, _, rfl⟩

theorem readToken_minus (cs : List Char) : readToken '-' cs = numberToken ('-' :: cs) := rfl

theorem IsNumber.exists_lexes {w : Word} (h : IsNumber w) :
    ∃ t : Token, t.Passes ∧ ∀ rest, EndsNumeral rest → Lexes w t rest := by
  obtain ⟨n, hread⟩ := Numeral.read_isNumber h
  -- a number begins with a digit or its sign
  obtain ⟨c, cs, rfl, hblank, hnumber⟩ : ∃ c cs, w = c :: cs ∧ isBlank c = false ∧
      ∀ rest, readToken c (cs ++ rest) = numberToken (c :: cs ++ rest) := by
    obtain ⟨sign, whole, fraction, exponent, hsign, hwhole, -, -, rfl⟩ := h
    rcases hsign with rfl | rfl
    · obtain ⟨c, more, rfl, hc⟩ := hwhole.exists_cons
      exact ⟨c, _, rfl, isBlank_of_isDigit hc, fun rest => readToken_of_isDigit hc _⟩
    · exact ⟨'-', _, rfl, rfl, fun rest => readToken_minus _⟩
  cases hvalue : n.value? with
  | none =>
    refine ⟨.flawed false .malformed none, Or.inr ⟨_, _, rfl⟩, fun rest hrest => ?_⟩
    refine ⟨c, cs, rfl, hblank, ?_⟩
    simp only [hnumber, numberToken, hread rest hrest, hvalue]
  | some s =>
    refine ⟨.scalar s, Or.inl ⟨_, rfl⟩, fun rest hrest => ?_⟩
    refine ⟨c, cs, rfl, hblank, ?_⟩
    simp only [hnumber, numberToken, hread rest hrest, hvalue]

theorem IsText.exists_lexes {w : Word} (h : IsText w) :
    ∃ t : Token, t.PassesAsText ∧ ∀ rest, Lexes w t rest := by
  obtain ⟨pieces, hpieces, rfl⟩ := h
  obtain ⟨t, ht, htoken⟩ := exists_textToken hpieces
  refine ⟨t, ht, fun rest => ⟨'"', _, rfl, rfl, ?_⟩⟩
  rw [List.append_assoc]
  exact htoken rest

theorem IsScalar.exists_lexes {w : Word} (h : IsScalar w) :
    ∃ t : Token, t.Passes ∧ ∀ rest, EndsNumeral rest → Lexes w t rest := by
  cases h with
  | null => exact ⟨_, Or.inl ⟨_, rfl⟩, fun rest hrest => lexes_scalar rfl hrest⟩
  | flag value => exact ⟨_, Or.inl ⟨_, rfl⟩, fun rest hrest => lexes_scalar rfl hrest⟩
  | number hnumber => exact hnumber.exists_lexes
  | text htext =>
    obtain ⟨t, ht, hlexes⟩ := htext.exists_lexes
    exact ⟨t, ht.passes, fun rest _ => hlexes rest⟩

/-! ## Skipping within frames -/

/-- How skipping goes on when a value has ended within these frames. -/
def leave : List Frame → List Token → Except Flaw (List Token)
  | [], rest => .ok rest
  | frame :: frames, rest => skipFrom (.closed frame) frames rest

theorem skipFrom_more {expect next : Expect} {frames frames' : List Frame} {t : Token}
    (h : Skipped.step frames t expect = .ok (.more next frames')) (rest : List Token) :
    skipFrom expect frames (t :: rest) = skipFrom next frames' rest := by
  rw [skipFrom, h]

theorem skipFrom_endValue {expect : Expect} {frames frames' : List Frame} {t : Token}
    (h : Skipped.step frames t expect = .ok (Skipped.endValue frames')) (rest : List Token) :
    skipFrom expect frames (t :: rest) = leave frames' rest := by
  rw [skipFrom, h]
  cases frames' with
  | nil => rfl
  | cons frame frames' => rfl

/-- The tokens are passed over as a value, within whatever frames. -/
def Passed (ts : List Token) : Prop :=
  ∀ frames rest, skipFrom .value frames (ts ++ rest) = leave frames rest

/-- The tokens are passed over as an item of the frame. -/
def PassedItem (frame : Frame) (ts : List Token) : Prop :=
  ∀ frames rest, skipFrom (Skipped.itemStart frame) (frame :: frames) (ts ++ rest) =
    skipFrom (.closed frame) frames rest

theorem passed_token {t : Token} (h : t.Passes) : Passed [t] := by
  intro frames rest
  apply skipFrom_endValue
  rcases h with ⟨s, rfl⟩ | ⟨isText, flaw, rfl⟩
  · rfl
  · rfl

theorem Passed.item {ts : List Token} (h : Passed ts) : PassedItem .array ts :=
  fun frames rest => h (.array :: frames) rest

theorem Passed.member {t : Token} {ts : List Token} (h : Passed ts) (ht : t.PassesAsText) :
    PassedItem .object (t :: .mark .colon :: ts) := by
  intro frames rest
  have hkey : Skipped.step (.object :: frames) t .key = .ok (.more .colon (.object :: frames)) := by
    rcases ht with ⟨s, rfl⟩ | ⟨flaw, rfl⟩
    · rfl
    · rfl
  have hcolon : Skipped.step (.object :: frames) (.mark .colon) .colon =
      .ok (.more .value (.object :: frames)) := rfl
  exact ((skipFrom_more hkey _).trans (skipFrom_more hcolon _)).trans (h _ rest)

theorem skipFrom_close (frame : Frame) (frames : List Frame) (rest : List Token) :
    skipFrom (.closed frame) frames (.mark frame.close :: rest) = leave frames rest := by
  apply skipFrom_endValue
  exact if_pos rfl

theorem skipFrom_comma (frame : Frame) (frames : List Frame) (rest : List Token) :
    skipFrom (.closed frame) frames (.mark .comma :: rest) =
      skipFrom (Skipped.itemStart frame) (frame :: frames) rest := by
  apply skipFrom_more
  cases frame with
  | array => rfl
  | object => rfl

/-- No item begins with the mark that ends the frame, so the first item of a frame is
    passed over like the others. -/
theorem PassedItem.first {frame : Frame} {ts : List Token} (h : PassedItem frame ts)
    (frames : List Frame) (rest : List Token) :
    skipFrom (.opened frame) frames (ts ++ rest) = skipFrom (.closed frame) frames rest := by
  -- if it began so, skipping would be refused where the frame ends right behind it
  have hend := h [] [.mark frame.close]
  rw [skipFrom_close] at hend
  have hrefused : ∀ more, skipFrom (Skipped.itemStart frame) [frame] (.mark frame.close :: more) =
      .error .malformed := by
    intro more
    cases frame with
    | array => rfl
    | object => rfl
  cases ts with
  | nil =>
    rw [List.nil_append, hrefused] at hend
    cases hend
  | cons t ts =>
    have hne : t ≠ .mark frame.close := by
      rintro rfl
      rw [List.cons_append, hrefused] at hend
      cases hend
    rw [← h frames rest]
    have hstep : Skipped.step frames t (.opened frame) =
        Skipped.step (frame :: frames) t (Skipped.itemStart frame) := by
      cases frame with
      | array => exact if_neg hne
      | object => exact if_neg hne
    rw [List.cons_append, skipFrom, skipFrom, hstep]

theorem skipFrom_items {frame : Frame} {groups : List (List Token)}
    (h : ∀ ts ∈ groups, PassedItem frame ts) (frames : List Frame) (rest : List Token) :
    skipFrom (.closed frame) frames
      (groups.flatMap (.mark .comma :: ·) ++ .mark frame.close :: rest) = leave frames rest := by
  induction groups with
  | nil => exact skipFrom_close frame frames rest
  | cons ts groups ih =>
    rw [List.flatMap_cons, List.append_assoc, List.cons_append, skipFrom_comma,
      h ts List.mem_cons_self]
    exact ih fun us hmem => h us (List.mem_cons_of_mem _ hmem)

/-- What a frame holds is passed over together with the mark that ends it. -/
theorem skipFrom_opened {frame : Frame} {groups : List (List Token)}
    (h : ∀ ts ∈ groups, PassedItem frame ts) (frames : List Frame) (rest : List Token) :
    skipFrom (.opened frame) frames
      ([Token.mark .comma].intercalate groups ++ .mark frame.close :: rest) =
        leave frames rest := by
  cases groups with
  | nil =>
    apply skipFrom_endValue
    exact if_pos rfl
  | cons ts groups =>
    rw [intercalate_cons, List.append_assoc, (h ts List.mem_cons_self).first]
    exact skipFrom_items (fun us hmem => h us (List.mem_cons_of_mem _ hmem)) frames rest

/-- The mark that opens a frame. -/
def Frame.opening : Frame → Mark
  | .array => .openBracket
  | .object => .openBrace

theorem passed_frame {frame : Frame} {groups : List (List Token)}
    (h : ∀ ts ∈ groups, PassedItem frame ts) :
    Passed (.mark frame.opening :: [Token.mark .comma].intercalate groups ++ [.mark frame.close]) := by
  intro frames rest
  have hopen : Skipped.step frames (.mark frame.opening) .value =
      .ok (.more (.opened frame) frames) := by
    cases frame with
    | array => rfl
    | object => rfl
  rw [List.cons_append, List.cons_append, List.append_assoc, skipFrom_more hopen]
  exact skipFrom_opened h frames rest

/-! ## Values -/

theorem exists_forall₂_cuts {P : List Token → Prop} {groups : List (List Word)}
    (h : ∀ ws ∈ groups, ∃ ts, Cuts ws ts ∧ P ts) :
    ∃ cut, List.Forall₂ Cuts groups cut ∧ ∀ ts ∈ cut, P ts := by
  induction groups with
  | nil => exact ⟨[], .nil, by simp⟩
  | cons ws groups ih =>
    obtain ⟨ts, hts, hP⟩ := h ws List.mem_cons_self
    obtain ⟨cut, hcut, hall⟩ := ih fun us hmem => h us (List.mem_cons_of_mem _ hmem)
    refine ⟨ts :: cut, .cons hts hcut, ?_⟩
    rw [List.forall_mem_cons]
    exact ⟨hP, hall⟩

/-- Items that are passed over make up a frame that is. -/
theorem exists_cuts_frame (frame : Frame) {groups : List (List Word)}
    (h : ∀ ws ∈ groups, ∃ ts, Cuts ws ts ∧ PassedItem frame ts) :
    ∃ ts, Cuts (enclosed frame.opening frame.close groups) ts ∧ Passed ts := by
  obtain ⟨cut, hcut, hpassed⟩ := exists_forall₂_cuts h
  exact ⟨_, (severs_enclosed frame.opening frame.close hcut).cuts, passed_frame hpassed⟩

/-- A value is cut into tokens that are passed over. -/
theorem IsValue.exists_cuts {ws : List Word} (h : IsValue ws) :
    ∃ ts, Cuts ws ts ∧ Passed ts := by
  induction h with
  | scalar hscalar =>
    obtain ⟨t, ht, hlexes⟩ := hscalar.exists_lexes
    exact ⟨[t], cuts_word hlexes, passed_token ht⟩
  | array _ ih =>
    apply exists_cuts_frame .array
    intro ws hmem
    obtain ⟨ts, hcuts, hpassed⟩ := ih ws hmem
    exact ⟨ts, hcuts, hpassed.item⟩
  | object hkeys _ ih =>
    apply exists_cuts_frame .object
    intro ws hmem
    obtain ⟨m, hm, rfl⟩ := List.mem_map.mp hmem
    obtain ⟨ts, hcuts, hpassed⟩ := ih m hm
    obtain ⟨t, ht, hlexes⟩ := (hkeys m hm).exists_lexes
    exact ⟨_, (severs_word hlexes).cuts.member hcuts, hpassed.member ht⟩

theorem Passed.run_skip {ts : List Token} (h : Passed ts) (rest : List Token) :
    skip.run (ts ++ rest) = .ok ((), rest) := by
  have hend := h [] rest
  simp only [skip, hend, leave]

end NearestMount.Json
