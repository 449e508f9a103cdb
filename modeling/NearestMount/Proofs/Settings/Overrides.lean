import Mathlib.Control.Monad.Basic
import NearestMount.Proofs.Json.Members
import NearestMount.Proofs.Settings.RoundTrip

/-! # Documents of settings replace defaults

    A document of settings gives some parts of them, among other members, and so does the
    object that gives the capacities. It is read as the default settings with the given
    parts replaced (`Settings.document_overrides`). A part that is given a second time is
    refused, whatever its second value would be and whatever comes after it.
-/

namespace NearestMount

open Json

/-! ## Parts of capacities -/

/-- One of the capacities. -/
inductive Capacities.Part where
  | exact (n : UInt64)
  | nested (n : UInt64)
  | nonNested (n : UInt64)

namespace Capacities

def Part.key : Part → String
  | .exact _ => "exact_capacity"
  | .nested _ => "nested_capacity"
  | .nonNested _ => "non_nested_capacity"

def Part.value : Part → UInt64
  | .exact n | .nested n | .nonNested n => n

def Part.replace : Part → Capacities → Capacities
  | .exact n, c => { c with exact := n }
  | .nested n, c => { c with nested := n }
  | .nonNested n, c => { c with nonNested := n }

/-- An object can give each of the capacities. -/
def vocabulary : Vocabulary Part Capacities where
  record := record
  key := Part.key
  Written p ws := ws = wordsOf (Codec.count.tokens p.value)
  replace := Part.replace

end Capacities

/-! ## Parts of settings -/

/-- One of the settings. -/
inductive Settings.Part where
  | capacities (c : Capacities)
  | preseed (b : Bool)
  | rootUfs (ufs : Option String)
  | mounts (ms : List Mount)

namespace Settings

def Part.key : Part → String
  | .capacities _ => "cache"
  | .preseed _ => "preseed_on_mount"
  | .rootUfs _ => "root_ufs"
  | .mounts _ => "mounts"

/-- The capacities are given by an object that gives some of them. -/
def Part.Written : Part → List Word → Prop
  | .capacities c, ws => ∃ given, Capacities.vocabulary.Proper given ∧
      Capacities.vocabulary.Object given ws ∧ c = Capacities.vocabulary.override given
  | .preseed b, ws => ws = wordsOf (Codec.flag.tokens b)
  | .rootUfs ufs, ws => ws = wordsOf (Codec.optionalText.tokens ufs)
  | .mounts ms, ws => ws = wordsOf ((Codec.array Mount.codec).tokens ms)

def Part.replace : Part → Settings → Settings
  | .capacities v, c => { c with capacities := v }
  | .preseed b, c => { c with preseed := b }
  | .rootUfs ufs, c => { c with rootUfs := ufs }
  | .mounts ms, c => { c with mounts := ms }

/-- An object can give each of the settings. -/
def vocabulary : Vocabulary Part Settings where
  record := record
  key := Part.key
  Written := Part.Written
  replace := Part.replace

end Settings

/-! ## Written values -/

/-- A field whose value is written by its codec takes it. -/
theorem Json.Field.exists_takes {α δ : Type} {codec : Codec α} (h : codec.Faithful) (a : α)
    (name : String) (get : δ → α) (set : α → δ → δ) :
    ∀ value, value = wordsOf (codec.tokens a) →
      ∃ ts, Cuts value ts ∧ (Field.of name codec get set).reader.Takes ts (set a) := by
  rintro value rfl
  exact ⟨_, h.spaced a, takes_of (h.takes a) name get set⟩

/-! ## Both vocabularies are sound -/

theorem Capacities.sound_vocabulary : Capacities.vocabulary.Sound where
  optional := rfl
  reads p := by
    cases p with
    | exact n => exact ⟨_, rfl, Field.exists_takes Codec.faithful_count n _ _ _⟩
    | nested n => exact ⟨_, rfl, Field.exists_takes Codec.faithful_count n _ _ _⟩
    | nonNested n => exact ⟨_, rfl, Field.exists_takes Codec.faithful_count n _ _ _⟩
  commute p q d h := by
    cases p with
    | exact n =>
      cases q with
      | exact m => exact absurd rfl h
      | _ => rfl
    | nested n =>
      cases q with
      | nested m => exact absurd rfl h
      | _ => rfl
    | nonNested n =>
      cases q with
      | nonNested m => exact absurd rfl h
      | _ => rfl

theorem Settings.sound_vocabulary : Settings.vocabulary.Sound where
  optional := rfl
  reads p := by
    cases p with
    | capacities c =>
      refine ⟨_, rfl, ?_⟩
      rintro value ⟨given, hproper, hobject, rfl⟩
      obtain ⟨ts, hcuts, htakes⟩ := Capacities.sound_vocabulary.takes_object hobject hproper
      exact ⟨ts, hcuts, Field.takes_of htakes _ _ _⟩
    | preseed b => exact ⟨_, rfl, Field.exists_takes Codec.faithful_flag b _ _ _⟩
    | rootUfs ufs => exact ⟨_, rfl, Field.exists_takes Codec.faithful_optionalText ufs _ _ _⟩
    | mounts ms => exact ⟨_, rfl, Field.exists_takes Mount.faithful_codec.array ms _ _ _⟩
  commute p q d h := by
    cases p with
    | capacities c =>
      cases q with
      | capacities c' => exact absurd rfl h
      | _ => rfl
    | preseed b =>
      cases q with
      | preseed b' => exact absurd rfl h
      | _ => rfl
    | rootUfs ufs =>
      cases q with
      | rootUfs ufs' => exact absurd rfl h
      | _ => rfl
    | mounts ms =>
      cases q with
      | mounts ms' => exact absurd rfl h
      | _ => rfl

/-! ## Documents -/

theorem Settings.ofDocument_of_error {s : String} {fault : Json.Fault}
    (h : codec.read s = .error fault) : ofDocument s = .error (.document fault) := by
  simp only [ofDocument, h]

/-- A capacity that is given a second time is refused within the settings, too. -/
theorem Settings.read_repeated_capacity {ms : List (Member Part)} {w : Word} {value : List Word}
    {s : String} (hs : vocabulary.BreaksOff ms (memberWords w value) s)
    (hw : SpellsText w "cache") (hfresh : ∀ p ∈ parts ms, p.key ≠ "cache")
    {ns : List (Member Capacities.Part)} {w' : Word} {p : Capacities.Part}
    (hproper : Capacities.vocabulary.Proper ns)
    (hbegin : Capacities.vocabulary.Beginning ns [w'] value) (hp : p ∈ parts ns)
    (hw' : SpellsText w' p.key) :
    codec.read s = .error (.mismatch (.duplicateField p.key)) := by
  obtain ⟨ts, hvalue, hrefuses⟩ :=
    Capacities.sound_vocabulary.refuses_repeated hbegin hproper hp hw'
  obtain ⟨hproper', ws, front, rest, hbegin', hlaid, htext⟩ := hs
  obtain ⟨us, hsevers, hrefuses'⟩ := sound_vocabulary.refuses_value hbegin' hproper' rfl hfresh hw
    hvalue (Field.refuses_of hrefuses _ _ _)
  exact Codec.read_of_refuses hsevers hrefuses' hlaid htext

/-- A document that gives some of the settings, each once and in any order, with any other
    members among them, is read as the default settings with these replaced, and is then
    validated. The capacities among them are given in the same way by an object of their
    own, which can be a document as well. So the order of the members and the other
    members do not matter.

    Where a part is given a second time, in the settings or in the capacities, the document
    is refused behind the key, for the repeated field and whatever comes next. -/
theorem Settings.document_overrides :
    ((∀ ns s, Capacities.vocabulary.Document ns s →
        Capacities.codec.read s = .ok (Capacities.vocabulary.override ns)) ∧
      ∀ ms s, Settings.vocabulary.Document ms s →
        Settings.codec.read s = .ok (Settings.vocabulary.override ms) ∧
        Settings.ofDocument s =
          ((Settings.vocabulary.override ms).validate.mapError Error.settings).map fun _ =>
            Settings.vocabulary.override ms) ∧
    ((∀ ns ns' s s', Capacities.vocabulary.Document ns s → Capacities.vocabulary.Document ns' s' →
        (parts ns).Perm (parts ns') → Capacities.codec.read s = Capacities.codec.read s') ∧
      ∀ ms ms' s s', Settings.vocabulary.Document ms s → Settings.vocabulary.Document ms' s' →
        (parts ms).Perm (parts ms') →
        Settings.codec.read s = Settings.codec.read s' ∧
          Settings.ofDocument s = Settings.ofDocument s') ∧
    ((∀ ns w s p, Capacities.vocabulary.BreaksOff ns [w] s → p ∈ parts ns → SpellsText w p.key →
        Capacities.codec.read s = .error (.mismatch (.duplicateField p.key))) ∧
      (∀ ms w s p, Settings.vocabulary.BreaksOff ms [w] s → p ∈ parts ms → SpellsText w p.key →
        Settings.ofDocument s = .error (.document (.mismatch (.duplicateField p.key)))) ∧
      ∀ ms w value s ns w' p, Settings.vocabulary.BreaksOff ms (memberWords w value) s →
        SpellsText w "cache" → (∀ q ∈ parts ms, q.key ≠ "cache") →
        Capacities.vocabulary.Proper ns → Capacities.vocabulary.Beginning ns [w'] value →
        p ∈ parts ns → SpellsText w' p.key →
        Settings.ofDocument s = .error (.document (.mismatch (.duplicateField p.key)))) := by
  refine ⟨⟨?_, ?_⟩, ⟨?_, ?_⟩, ?_, ?_, ?_⟩
  · intro ns s hs
    exact Capacities.sound_vocabulary.read_document hs
  · intro ms s hs
    have hread := Settings.sound_vocabulary.read_document hs
    exact ⟨hread, Settings.ofDocument_of_read hread⟩
  · intro ns ns' s s' hs hs' hperm
    have hread := Capacities.sound_vocabulary.read_document hs
    rw [Capacities.sound_vocabulary.override_perm hs.1 hperm] at hread
    exact hread.trans (Capacities.sound_vocabulary.read_document hs').symm
  · intro ms ms' s s' hs hs' hperm
    have hread := Settings.sound_vocabulary.read_document hs
    have hread' := Settings.sound_vocabulary.read_document hs'
    rw [Settings.sound_vocabulary.override_perm hs.1 hperm] at hread
    exact ⟨hread.trans hread'.symm, (Settings.ofDocument_of_read hread).trans
      (Settings.ofDocument_of_read hread').symm⟩
  · intro ns w s p hs hp hw
    exact Capacities.sound_vocabulary.read_repeated hs hp hw
  · intro ms w s p hs hp hw
    exact Settings.ofDocument_of_error (Settings.sound_vocabulary.read_repeated hs hp hw)
  · intro ms w value s ns w' p hs hw hfresh hproper hbegin hp hw'
    exact Settings.ofDocument_of_error
      (Settings.read_repeated_capacity hs hw hfresh hproper hbegin hp hw')

/-- Among a member with numbers, texts and marks of all kinds in its value, a flag and one of
    the capacities are read, the latter in an object whose key is spelled with an escape.
    When a flag comes a second time, or a capacity, nothing behind its key is looked at. -/
theorem Settings.flag_and_capacity_override :
    let lone : Word := ['"', ']', '\\', 'u', 'd', '8', '0', '0', '"']
    let skipped := enclosed .openBracket .closeBracket [[['1', 'e', '9', '9', '9']],
      enclosed .openBrace .closeBrace [memberWords lone [Scalar.null.chars]]]
    let ms : List (Member Part) :=
      [.other "x" skipped, .part (.preseed false), .part (.capacities { nested := 7 })]
    let s := " \x7b \"x\" : [ 1e999 , \x7b \"]\\ud800\" : null \x7d ] ," ++
      " \"preseed_on_mount\" : false , \"cach\\u0065\" : \x7b \"nested_capacity\" : 7 \x7d \x7d"
    let t := " \x7b \"preseed_on_mount\" : false , \"preseed_on_mount\" and what not"
    let inner : List Word := [['\x7b'], textChars "nested_capacity", [':'], ['7'], [','],
      textChars "nested_capacity"]
    let u := " \x7b \"cache\" : \x7b \"nested_capacity\" : 7 , \"nested_capacity\""
    vocabulary.Document ms s ∧
      ofDocument s = .ok { preseed := false, capacities := { nested := 7 } } ∧
      vocabulary.BreaksOff [.part (.preseed false)] [textChars "preseed_on_mount"] t ∧
      ofDocument t = .error (.document (.mismatch (.duplicateField "preseed_on_mount"))) ∧
      vocabulary.BreaksOff [] (memberWords (textChars "cache") inner) u ∧
      Capacities.vocabulary.Beginning [.part (.nested 7)] [textChars "nested_capacity"] inner ∧
      ofDocument u = .error (.document (.mismatch (.duplicateField "nested_capacity"))) := by
  intro lone skipped ms s t inner u
  have hskipped : IsValue skipped := by
    have hone : IsDigits ['1'] := ⟨by simp, by simp⟩
    have hpower : IsDigits ['9', '9', '9'] := ⟨by simp, by simp⟩
    have hnumber : IsNumber ['1', 'e', '9', '9', '9'] :=
      ⟨[], ['1'], [], ['e', '9', '9', '9'], Or.inl rfl, Or.inr ⟨hone, by simp⟩, Or.inl rfl,
        Or.inr ⟨'e', [], ['9', '9', '9'], Or.inl rfl, Or.inl rfl, hpower, rfl⟩, rfl⟩
    have htext : IsText lone := by
      refine ⟨[[']'], ['\\', 'u', 'd', '8', '0', '0']], ?_, rfl⟩
      rw [List.forall_mem_cons, List.forall_mem_singleton]
      exact ⟨.plain (by decide) (by decide) (by decide), .unit rfl⟩
    have hobject := @IsValue.object [(lone, [Scalar.null.chars])]
      (List.forall_mem_singleton.mpr htext) (List.forall_mem_singleton.mpr (.scalar .null))
    apply IsValue.array
    rw [List.forall_mem_cons, List.forall_mem_singleton]
    exact ⟨.scalar (.number hnumber), hobject⟩
  have hcache : SpellsText ['"', 'c', 'a', 'c', 'h', '\\', 'u', '0', '0', '6', '5', '"']
      "cache" := by
    have hc := @Spells.plain 'c' (by decide) (by decide) (by decide)
    have ha := @Spells.plain 'a' (by decide) (by decide) (by decide)
    have hh := @Spells.plain 'h' (by decide) (by decide) (by decide)
    have hchars : "cache".toList = ['c', 'a', 'c', 'h', Char.ofNat 0x65] := by decide +kernel
    refine ⟨[['c'], ['a'], ['c'], ['h'], ['\\', 'u', '0', '0', '6', '5']], ?_, rfl⟩
    rw [hchars]
    exact .cons hc (.cons ha (.cons hc (.cons hh (.cons (.unit rfl rfl rfl) .nil))))
  have hgap : Blank [' '] := by simp [Blank, isBlank]
  have hs : vocabulary.Document ms s := by
    refine ⟨⟨by decide, ?_⟩, _, ⟨_, .cons (.other (spellsText_textChars "x") hskipped)
      (.cons (.part (spellsText_textChars _) rfl) (.cons (.part hcache ⟨[.part (.nested 7)],
        ⟨by decide, ?_⟩, ⟨_, .cons (.part (spellsText_textChars _) rfl) .nil, rfl⟩, rfl⟩)
          .nil)), rfl⟩, ?_⟩
    · intro key value hmem
      simp only [ms, List.mem_cons, Member.other.injEq, reduceCtorEq, List.not_mem_nil,
        or_false] at hmem
      obtain ⟨rfl, -⟩ := hmem
      decide
    · simp
    · convert laid_flatMap hgap _ using 1
      decide +kernel
  have ht : vocabulary.BreaksOff [.part (.preseed false)] [textChars "preseed_on_mount"] t := by
    refine ⟨⟨by decide, by simp⟩, _, _, " and what not".toList,
      ⟨_, .cons (.part (spellsText_textChars _) rfl) .nil, rfl⟩, laid_flatMap hgap _, ?_⟩
    decide +kernel
  have hu : vocabulary.BreaksOff [] (memberWords (textChars "cache") inner) u := by
    refine ⟨⟨by decide, by simp⟩, _, _, [], ⟨_, .nil, rfl⟩, laid_flatMap hgap _, ?_⟩
    decide +kernel
  have hinner : Capacities.vocabulary.Beginning [.part (.nested 7)] [textChars "nested_capacity"]
      inner := ⟨_, .cons (.part (spellsText_textChars _) rfl) .nil, rfl⟩
  have hproper : Capacities.vocabulary.Proper [.part (.nested 7)] := ⟨by decide, by simp⟩
  obtain ⟨⟨-, hdocument⟩, -, -, hrepeated, hcapacity⟩ := Settings.document_overrides
  exact ⟨hs, (hdocument ms s hs).2, ht,
    hrepeated _ _ _ (.preseed false) ht List.mem_cons_self (spellsText_textChars _), hu, hinner,
    hcapacity _ _ _ _ _ _ (.nested 7) hu (spellsText_textChars _) (by simp [parts]) hproper hinner
      List.mem_cons_self (spellsText_textChars _)⟩

end NearestMount
