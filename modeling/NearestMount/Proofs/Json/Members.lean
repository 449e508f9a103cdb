import Mathlib.Data.List.Nodup
import Mathlib.Data.List.Perm.Basic
import NearestMount.Proofs.Json.Skipping

/-! # Objects that give some parts of a record

    An object gives some parts of a record, each under the key of its field, in any order
    and with other members among them (`Member`). What the parts of a record are, which
    words give them and what they replace is its `Vocabulary`. If that is sound
    (`Vocabulary.Sound`), an object is read as the blank record with the given parts
    replaced (`Sound.takes_object`), and the order in which they are given does not
    matter (`Sound.override_perm`).

    An object may be broken off at any place. If a part is given once more, it is refused
    right behind the key, whatever comes next (`Sound.refuses_repeated`).

    All keys are read, so each has to spell a text. The values of other members are passed
    over, and may be whatever the grammar of values lets through.
-/

namespace NearestMount.Json

variable {α β δ σ φ : Type}

/-- A member of an object. It gives a part of the record, or something else under another
    key. -/
inductive Member (φ : Type) where
  | part (p : φ)
  | other (key : String) (value : List Word)

/-- The parts that members give. -/
def parts : List (Member φ) → List φ
  | [] => []
  | .part p :: ms => p :: parts ms
  | .other _ _ :: ms => parts ms

theorem parts_cons (m : Member φ) (ms : List (Member φ)) :
    parts (m :: ms) = parts [m] ++ parts ms := by
  cases m with
  | part p => rfl
  | other key value => rfl

/-- The parts that an object can give of a record. -/
structure Vocabulary (φ δ : Type) where
  record : Record δ
  /-- The key under which a part is given. -/
  key : φ → String
  /-- The words are the value of a part. -/
  Written : φ → List Word → Prop
  /-- The record with a part replaced. -/
  replace : φ → δ → δ

namespace Vocabulary

variable (V : Vocabulary φ δ)

/-- The names of the fields. -/
def names : List String := V.record.fields.map Field.name

/-- The blank record with the given parts replaced. -/
def override (ms : List (Member φ)) : δ :=
  (parts ms).foldl (fun d p => V.replace p d) V.record.blank

/-- Every part is given once, and no other member has the name of a field. -/
structure Proper (ms : List (Member φ)) : Prop where
  once : ((parts ms).map V.key).Nodup
  others : ∀ key value, Member.other key value ∈ ms → key ∉ V.names

/-- The words are the member, its key in any spelling. -/
inductive Words : Member φ → List Word → Prop where
  | part {p : φ} {w : Word} {value : List Word} :
    SpellsText w (V.key p) → V.Written p value → Words (.part p) (memberWords w value)
  | other {key : String} {w : Word} {value : List Word} :
    SpellsText w key → IsValue value → Words (.other key value) (memberWords w value)

/-- The words are an object with these members. -/
def Object (ms : List (Member φ)) (ws : List Word) : Prop :=
  ∃ groups, List.Forall₂ V.Words ms groups ∧ ws = enclosed .openBrace .closeBrace groups

/-- The words begin an object with these members, and are broken off within the next one,
    behind the words `last`. -/
def Beginning (ms : List (Member φ)) (last ws : List Word) : Prop :=
  ∃ groups, List.Forall₂ V.Words ms groups ∧
    ws = [Mark.openBrace.char] :: [[Mark.comma.char]].intercalate (groups ++ [last])

/-- The text is an object with these members, laid out as one likes. -/
def Document (ms : List (Member φ)) (s : String) : Prop :=
  V.Proper ms ∧ ∃ ws, V.Object ms ws ∧ Laid ws s.toList

/-- The text begins as an object with these members, goes on with the words `last` of
    another one, and then as it likes. -/
def BreaksOff (ms : List (Member φ)) (last : List Word) (s : String) : Prop :=
  V.Proper ms ∧ ∃ ws front rest, V.Beginning ms last ws ∧ Laid ws front ∧
    s.toList = front ++ rest

/-- The vocabulary is true to the reader of its record. -/
structure Sound : Prop where
  /-- No field has to be given. -/
  optional : V.record.complete = false
  /-- A part belongs to the field of its name, and is read as its replacement. -/
  reads : ∀ p, ∃ field, (V.record.fields.find? fun field => field.name = V.key p) = some field ∧
    ∀ value, V.Written p value → ∃ ts, Cuts value ts ∧ field.reader.Takes ts (V.replace p)
  /-- Parts under different keys are replaced independently. -/
  commute : ∀ p q d, V.key p ≠ V.key q →
    V.replace p (V.replace q d) = V.replace q (V.replace p d)

end Vocabulary

/-! ## Readers that refuse -/

/-- The reader refuses these tokens, whatever follows them. -/
structure Reader.Refuses (reader : Reader α) (ts : List Token) (fault : Fault) : Prop where
  begins : ∃ t more, ts = t :: more ∧ t.beginsValue = true
  run : ∀ rest, reader.run (ts ++ rest) = .error fault

theorem Reader.Refuses.map {reader : Reader α} {ts : List Token} {fault : Fault}
    (h : reader.Refuses ts fault) (f : α → β) : (reader.map f).Refuses ts fault where
  begins := h.begins
  run rest := by
    rw [Reader.run_map, h.run]
    rfl

theorem Field.refuses_of {codec : Codec α} {ts : List Token} {fault : Fault}
    (h : codec.reader.Refuses ts fault) (name : String) (get : δ → α) (set : α → δ → δ) :
    (Field.of name codec get set).reader.Refuses ts fault :=
  h.map set

theorem series_error {close : Mark} {item : σ → Reader σ} {first : Bool} {s : σ}
    {ts here : List Token} {fault : Fault} (h : advance close first ts = .ok (true, here))
    (hitem : (item s).run here = .error fault) :
    series close item first s ts = .error fault := by
  rw [series]
  split
  · next heq =>
    rw [h] at heq
    cases heq
  · next heq =>
    rw [h] at heq
    cases heq
  · next heq =>
    rw [h] at heq
    cases heq
    split
    · next heq =>
      rw [hitem] at heq
      cases heq
      rfl
    · next heq =>
      rw [hitem] at heq
      cases heq

section

variable {close : Mark} {item : σ → Reader σ} {s s' : σ} {groups : List (List Token)}
  {ts : List Token} {fault : Fault}

/-- After the first group each one has its comma in front. -/
theorem series_of_refuses_later (hclose : close.closes = true) (h : TakesAll item s groups s')
    (hts : (item s').Refuses ts fault) (rest : List Token) :
    series close item false s ((groups ++ [ts]).flatMap (.mark .comma :: ·) ++ rest) =
      .error fault := by
  induction h with
  | nil s =>
    obtain ⟨t, more, rfl, ht⟩ := hts.begins
    have hrun := hts.run rest
    rw [List.nil_append, List.flatMap_singleton, List.cons_append]
    exact series_error (advance_comma hclose ht _) hrun
  | @cons s s₁ s' us groups hus hgroups ih =>
    obtain ⟨t, more, rfl, ht⟩ := hus.begins
    have hrun := hus.run ((groups ++ [ts]).flatMap (.mark .comma :: ·) ++ rest)
    rw [List.cons_append, List.flatMap_cons, List.append_assoc, List.cons_append]
    exact (series_item (advance_comma hclose ht _) hrun).trans (ih hts)

/-- A series is refused with the first group that is. -/
theorem series_of_refuses (hclose : close.closes = true) (h : TakesAll item s groups s')
    (hts : (item s').Refuses ts fault) (rest : List Token) :
    series close item true s ([Token.mark .comma].intercalate (groups ++ [ts]) ++ rest) =
      .error fault := by
  cases h with
  | nil =>
    obtain ⟨t, more, rfl, ht⟩ := hts.begins
    rw [List.nil_append, List.intercalate_singleton]
    exact series_error (advance_first hclose ht _) (hts.run rest)
  | @cons _ s₁ _ us groups hus hgroups =>
    obtain ⟨t, more, rfl, ht⟩ := hus.begins
    have hrun := hus.run ((groups ++ [ts]).flatMap (.mark .comma :: ·) ++ rest)
    rw [List.cons_append, intercalate_cons, List.append_assoc]
    exact (series_item (advance_first hclose ht _) hrun).trans
      (series_of_refuses_later hclose hgroups hts rest)

end

/-! ## Members of a record -/

namespace Record

variable {r : Record δ} {field : Field δ} {key : String} {ts : List Token} {fault : Fault}

/-- A record that wants none of its fields misses none. -/
theorem finish_of_optional (h : r.complete = false) (part : Partial δ) :
    r.finish part = .ok part.value := by
  have hnone : (r.fields.find? fun field => r.complete && field.name ∉ part.given) = none := by
    rw [List.find?_eq_none]
    intro field _
    simp [h]
  rw [finish, hnone]

/-- A member whose key names no field is passed over. -/
theorem takes_other (hfound : (r.fields.find? fun field => field.name = key) = none)
    (h : Passed ts) (part : Partial δ) :
    (r.member part).Takes (.scalar (.text key) :: .mark .colon :: ts) part where
  begins := ⟨_, _, rfl, rfl⟩
  run rest := by
    show r.readMember part key (.mark .colon :: (ts ++ rest)) = _
    simp [readMember, hfound, readValue, h.run_skip rest, Except.map]

/-- A field that was given before is refused at its key. -/
theorem refuses_given (hfound : (r.fields.find? fun field => field.name = key) = some field)
    {part : Partial δ} (hgiven : key ∈ part.given) :
    (r.member part).Refuses [.scalar (.text key)] (.mismatch (.duplicateField key)) where
  begins := ⟨_, _, rfl, rfl⟩
  run rest := by
    show r.readMember part key rest = _
    simp [readMember, hfound, hgiven]

/-- A field is refused with its value. -/
theorem refuses_value (hfound : (r.fields.find? fun field => field.name = key) = some field)
    {part : Partial δ} (hgiven : key ∉ part.given) (h : field.reader.Refuses ts fault) :
    (r.member part).Refuses (.scalar (.text key) :: .mark .colon :: ts) fault where
  begins := ⟨_, _, rfl, rfl⟩
  run rest := by
    show r.readMember part key (.mark .colon :: (ts ++ rest)) = _
    simp [readMember, hfound, hgiven, readValue, h.run rest, Except.map]

/-- An object is refused with the first member that is. -/
theorem refuses_object {groups : List (List Token)} {part : Partial δ}
    (h : TakesAll r.member ⟨r.blank, []⟩ groups part) (hts : (r.member part).Refuses ts fault) :
    r.codec.reader.Refuses
      (.mark .openBrace :: [Token.mark .comma].intercalate (groups ++ [ts])) fault where
  begins := ⟨_, _, rfl, rfl⟩
  run rest := by
    have hclose : Mark.closeBrace.closes = true := rfl
    have hseries := series_of_refuses hclose h hts rest
    simp [codec, reader, hseries]

end Record

/-! ## Objects -/

namespace Vocabulary

variable {V : Vocabulary φ δ}

theorem find?_of_notMem {key : String} (h : key ∉ V.names) :
    (V.record.fields.find? fun field => field.name = key) = none := by
  rw [List.find?_eq_none]
  intro field hmem
  simp only [decide_eq_true_eq]
  rintro rfl
  exact h (List.mem_map_of_mem hmem)

/-- A single member is cut into tokens that are read as the part it gives, if it gives
    one. -/
theorem Sound.exists_takes (hV : V.Sound) {m : Member φ} {ws : List Word} (hwords : V.Words m ws)
    (d : δ) {given : List String} (hgiven : ∀ p ∈ parts [m], V.key p ∉ given)
    (hother : ∀ key value, m = .other key value → key ∉ V.names) :
    ∃ ts, Cuts ws ts ∧ (V.record.member ⟨d, given⟩).Takes ts
      ⟨(parts [m]).foldl (fun d p => V.replace p d) d,
        ((parts [m]).map V.key).reverse ++ given⟩ := by
  cases hwords with
  | @part p w value hkey hvalue =>
    obtain ⟨field, hfound, hreads⟩ := hV.reads p
    obtain ⟨ts, hcuts, htakes⟩ := hreads value hvalue
    have hfresh : V.key p ∉ given := hgiven p List.mem_cons_self
    exact ⟨_, (severs_text hkey).cuts.member hcuts, Record.takes_member hfound hfresh htakes⟩
  | @other key w value hkey hvalue =>
    obtain ⟨ts, hcuts, hpassed⟩ := hvalue.exists_cuts
    have hfound := find?_of_notMem (hother key value rfl)
    exact ⟨_, (severs_text hkey).cuts.member hcuts, Record.takes_other hfound hpassed _⟩

/-- The members are read one after the other. -/
theorem Sound.exists_takesAll (hV : V.Sound) {ms : List (Member φ)} {groups : List (List Word)}
    (hwords : List.Forall₂ V.Words ms groups) (hproper : V.Proper ms) (d : δ)
    {given : List String} (hgiven : ∀ p ∈ parts ms, V.key p ∉ given) :
    ∃ cut, List.Forall₂ Cuts groups cut ∧ TakesAll V.record.member ⟨d, given⟩ cut
      ⟨(parts ms).foldl (fun d p => V.replace p d) d,
        ((parts ms).map V.key).reverse ++ given⟩ := by
  -- along the members; the value so far and the keys that were given go along
  induction hwords generalizing d given with
  | nil => exact ⟨[], .nil, .nil _⟩
  | @cons m ws ms groups hm hms ih =>
    obtain ⟨honce, hothers⟩ := hproper
    rw [parts_cons, List.map_append, List.nodup_append] at honce
    obtain ⟨-, honce, hdisjoint⟩ := honce
    rw [parts_cons] at hgiven ⊢
    obtain ⟨ts, hts, htakes⟩ := hV.exists_takes hm d
      (fun p hp => hgiven p (List.mem_append_left _ hp))
      fun key value heq => hothers key value (heq ▸ List.mem_cons_self)
    have hrest : V.Proper ms :=
      ⟨honce, fun key value hmem => hothers key value (List.mem_cons_of_mem _ hmem)⟩
    have hfresh : ∀ p ∈ parts ms, V.key p ∉ ((parts [m]).map V.key).reverse ++ given := by
      intro p hp hmem
      rcases List.mem_append.mp hmem with hnow | hbefore
      · exact hdisjoint _ (List.mem_reverse.mp hnow) _ (List.mem_map_of_mem hp) rfl
      · exact hgiven p (List.mem_append_right _ hp) hbefore
    obtain ⟨cut, hcut, hall⟩ := ih hrest _ hfresh
    refine ⟨ts :: cut, .cons hts hcut, .cons htakes ?_⟩
    simpa only [List.foldl_append, List.map_append, List.reverse_append, List.append_assoc]
      using hall

/-- From the blank record, of which nothing was given. -/
theorem Sound.exists_takesAll_blank (hV : V.Sound) {ms : List (Member φ)}
    {groups : List (List Word)} (hwords : List.Forall₂ V.Words ms groups)
    (hproper : V.Proper ms) :
    ∃ cut, List.Forall₂ Cuts groups cut ∧ TakesAll V.record.member ⟨V.record.blank, []⟩ cut
      ⟨V.override ms, ((parts ms).map V.key).reverse⟩ := by
  have hall := hV.exists_takesAll hwords hproper V.record.blank fun _ _ => List.not_mem_nil
  rw [List.append_nil] at hall
  exact hall

/-- An object is read as the blank record with the given parts replaced. -/
theorem Sound.takes_object (hV : V.Sound) {ms : List (Member φ)} {ws : List Word}
    (hobject : V.Object ms ws) (hproper : V.Proper ms) :
    ∃ ts, Cuts ws ts ∧ V.record.codec.reader.Takes ts (V.override ms) := by
  obtain ⟨groups, hwords, rfl⟩ := hobject
  obtain ⟨cut, hcut, hall⟩ := hV.exists_takesAll_blank hwords hproper
  exact ⟨_, (severs_enclosed _ _ hcut).cuts,
    Record.takes_object hall (Record.finish_of_optional hV.optional _)⟩

/-- An object that is broken off is refused with the first member that is. -/
theorem Sound.refuses_beginning (hV : V.Sound) {ms : List (Member φ)} {last ws : List Word}
    (hbegin : V.Beginning ms last ws) (hproper : V.Proper ms) {ts : List Token} {fault : Fault}
    (hlast : Severs last ts)
    (hrefuses : (V.record.member
      ⟨V.override ms, ((parts ms).map V.key).reverse⟩).Refuses ts fault) :
    ∃ us, Severs ws us ∧ V.record.codec.reader.Refuses us fault := by
  obtain ⟨groups, hwords, rfl⟩ := hbegin
  obtain ⟨cut, hcut, hall⟩ := hV.exists_takesAll_blank hwords hproper
  exact ⟨_, (severs_mark .openBrace).append (severs_intercalate hcut hlast),
    Record.refuses_object hall hrefuses⟩

/-- A part that is given once more is refused at its key. -/
theorem Sound.refuses_repeated (hV : V.Sound) {ms : List (Member φ)} {w : Word} {ws : List Word}
    {p : φ} (hbegin : V.Beginning ms [w] ws) (hproper : V.Proper ms) (hp : p ∈ parts ms)
    (hkey : SpellsText w (V.key p)) :
    ∃ us, Severs ws us ∧
      V.record.codec.reader.Refuses us (.mismatch (.duplicateField (V.key p))) := by
  obtain ⟨field, hfound, -⟩ := hV.reads p
  have hgiven : V.key p ∈ ((parts ms).map V.key).reverse :=
    List.mem_reverse.mpr (List.mem_map_of_mem hp)
  exact hV.refuses_beginning hbegin hproper (severs_text hkey) (Record.refuses_given hfound hgiven)

/-- A part that was not given before is refused with its value. -/
theorem Sound.refuses_value (hV : V.Sound) {ms : List (Member φ)} {w : Word}
    {value ws : List Word} {key : String} {field : Field δ} {ts : List Token} {fault : Fault}
    (hbegin : V.Beginning ms (memberWords w value) ws) (hproper : V.Proper ms)
    (hfound : (V.record.fields.find? fun field => field.name = key) = some field)
    (hgiven : ∀ p ∈ parts ms, V.key p ≠ key) (hkey : SpellsText w key)
    (hvalue : Severs value ts) (hrefuses : field.reader.Refuses ts fault) :
    ∃ us, Severs ws us ∧ V.record.codec.reader.Refuses us fault := by
  have hfresh : key ∉ ((parts ms).map V.key).reverse := by
    intro hmem
    obtain ⟨p, hp, heq⟩ := List.mem_map.mp (List.mem_reverse.mp hmem)
    exact hgiven p hp heq
  have hlast : Severs (memberWords w value) (.scalar (.text key) :: .mark .colon :: ts) :=
    ((severs_text hkey).append (severs_mark .colon)).append hvalue
  exact hV.refuses_beginning hbegin hproper hlast (Record.refuses_value hfound hfresh hrefuses)

/-- The order in which parts are given does not matter. -/
theorem Sound.override_perm (hV : V.Sound) {ms ms' : List (Member φ)} (hproper : V.Proper ms)
    (hperm : (parts ms).Perm (parts ms')) : V.override ms = V.override ms' := by
  apply hperm.foldl_eq'
  intro p hp q hq d
  by_cases hkey : V.key p = V.key q
  · -- only one part is given under a key
    rw [List.inj_on_of_nodup_map hproper.once hp hq hkey]
  · exact (hV.commute p q d hkey).symm

end Vocabulary

/-! ## Documents -/

/-- A document that begins with refused words is refused. -/
theorem Codec.read_of_refuses {codec : Codec α} {ws : List Word} {ts : List Token} {fault : Fault}
    {s : String} {front rest : List Char} (hsevers : Severs ws ts)
    (hrefuses : codec.reader.Refuses ts fault) (hlaid : Laid ws front)
    (hs : s.toList = front ++ rest) : codec.read s = .error fault := by
  rw [Codec.read, hs, hsevers front rest hlaid, hrefuses.run]

namespace Vocabulary

variable {V : Vocabulary φ δ}

theorem Sound.read_document (hV : V.Sound) {ms : List (Member φ)} {s : String}
    (h : V.Document ms s) : V.record.codec.read s = .ok (V.override ms) := by
  obtain ⟨hproper, ws, hobject, hlaid⟩ := h
  obtain ⟨ts, hcuts, htakes⟩ := hV.takes_object hobject hproper
  exact Codec.read_of_takes hcuts htakes hlaid

theorem Sound.read_repeated (hV : V.Sound) {ms : List (Member φ)} {w : Word} {s : String} {p : φ}
    (h : V.BreaksOff ms [w] s) (hp : p ∈ parts ms) (hkey : SpellsText w (V.key p)) :
    V.record.codec.read s = .error (.mismatch (.duplicateField (V.key p))) := by
  obtain ⟨hproper, ws, front, rest, hbegin, hlaid, hs⟩ := h
  obtain ⟨us, hsevers, hrefuses⟩ := hV.refuses_repeated hbegin hproper hp hkey
  exact Codec.read_of_refuses hsevers hrefuses hlaid hs

end Vocabulary

end NearestMount.Json
