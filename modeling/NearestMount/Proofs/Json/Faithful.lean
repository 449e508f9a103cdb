import NearestMount.Json.Record
import NearestMount.Proofs.Json.Words

/-! # Written values are read back

    A codec is **faithful** if every value is read back from the tokens it is written
    with, whatever follows them, and these tokens are cut apart again however they are
    laid out (`Spaced`). The codecs of scalars are faithful, and arrays and records are as
    faithful as their parts: both are a series of items, and what a series comes to is put
    together from what its items come to (`series_of_takesAll`). A faithful codec reads
    every document that it writes (`Codec.Faithful.read_write`), which is the one without
    blanks.
-/

namespace NearestMount.Json

variable {α β δ σ : Type}

/-! ## Readers and the tokens they take -/

/-- A value can begin with this token. -/
def Token.beginsValue : Token → Bool
  | .mark .openBrace | .mark .openBracket | .scalar _ => true
  | _ => false

/-- The reader takes these tokens, whatever follows them, as the value `a`. -/
structure Reader.Takes (reader : Reader α) (ts : List Token) (a : α) : Prop where
  begins : ∃ t more, ts = t :: more ∧ t.beginsValue = true
  run : ∀ rest, reader.run (ts ++ rest) = .ok (a, rest)

theorem Reader.Takes.map {reader : Reader α} {ts : List Token} {a : α} (h : reader.Takes ts a)
    (f : α → β) : (reader.map f).Takes ts (f a) where
  begins := h.begins
  run rest := by
    rw [Reader.run_map, h.run]
    rfl

theorem Reader.takes_scalar {wanted : Wanted} {judge : Scalar → Except Mismatch α} {s : Scalar}
    {a : α} (h : judge s = .ok a) : (Reader.scalar wanted judge).Takes [.scalar s] a where
  begins := ⟨_, _, rfl, rfl⟩
  run rest := by
    simp [Reader.scalar, h]

/-! ## Series -/

/-- The marks that end a series. -/
def Mark.closes : Mark → Bool
  | .closeBrace | .closeBracket => true
  | _ => false

/-- The items of a series take the groups one after the other, which leads from `s` to
    the last state. -/
inductive TakesAll (item : σ → Reader σ) : σ → List (List Token) → σ → Prop where
  | nil (s : σ) : TakesAll item s [] s
  | cons {s s' s'' : σ} {ts : List Token} {groups : List (List Token)} :
    (item s).Takes ts s' → TakesAll item s' groups s'' → TakesAll item s (ts :: groups) s''

theorem advance_close {close : Mark} (first : Bool) (rest : List Token) :
    advance close first (.mark close :: rest) = .ok (false, rest) := by
  simp [advance]

theorem ne_close_of_beginsValue {close : Mark} (hclose : close.closes = true) {t : Token}
    (ht : t.beginsValue = true) : t ≠ .mark close := by
  rintro rfl
  cases close <;> simp [Mark.closes, Token.beginsValue] at hclose ht

theorem advance_first {close : Mark} (hclose : close.closes = true) {t : Token}
    (ht : t.beginsValue = true) (rest : List Token) :
    advance close true (t :: rest) = .ok (true, t :: rest) := by
  cases t with
  | mark m =>
    have hne : m ≠ close := fun heq => ne_close_of_beginsValue hclose ht (by rw [heq])
    simp [advance, hne]
  | scalar s => rfl
  | flawed isText kept skipped => cases ht

theorem advance_comma {close : Mark} (hclose : close.closes = true) {t : Token}
    (ht : t.beginsValue = true) (rest : List Token) :
    advance close false (.mark .comma :: t :: rest) = .ok (true, t :: rest) := by
  have hcomma : Mark.comma ≠ close := by
    rintro rfl
    cases hclose
  simp [advance, hcomma, ne_close_of_beginsValue hclose ht]

theorem series_done {close : Mark} {item : σ → Reader σ} {first : Bool} {s : σ}
    {ts rest : List Token} (h : advance close first ts = .ok (false, rest)) :
    series close item first s ts = .ok (s, rest) := by
  rw [series]
  split
  · next heq =>
    rw [h] at heq
    cases heq
  · next heq =>
    rw [h] at heq
    cases heq
    rfl
  · next heq =>
    rw [h] at heq
    cases heq

theorem series_item {close : Mark} {item : σ → Reader σ} {first : Bool} {s s' : σ}
    {ts here rest : List Token} (h : advance close first ts = .ok (true, here))
    (hitem : (item s).run here = .ok (s', rest)) :
    series close item first s ts = series close item false s' rest := by
  rw [series]
  split
  · next heq =>
    rw [h] at heq
    cases heq
  · next heq =>
    rw [h] at heq
    cases heq
  · next heq =>
    rw [h] at heq
    cases heq
    split
    · next heq =>
      rw [hitem] at heq
      cases heq
    · next heq =>
      rw [hitem] at heq
      cases heq
      rfl

theorem intercalate_cons (t : Token) (ts : List Token) (groups : List (List Token)) :
    [t].intercalate (ts :: groups) = ts ++ groups.flatMap (t :: ·) := by
  induction groups generalizing ts with
  | nil => simp
  | cons us groups ih => rw [List.intercalate_cons_cons, ih]; simp

/-- After the first group each one has its comma in front. -/
theorem series_of_takesAll_later {close : Mark} (hclose : close.closes = true)
    {item : σ → Reader σ} {s s' : σ} {groups : List (List Token)} (h : TakesAll item s groups s')
    (rest : List Token) :
    series close item false s (groups.flatMap (.mark .comma :: ·) ++ .mark close :: rest) =
      .ok (s', rest) := by
  induction h with
  | nil s => exact series_done (advance_close false rest)
  | @cons s s' s'' ts groups hts hgroups ih =>
    obtain ⟨t, more, rfl, ht⟩ := hts.begins
    have hrun := hts.run (groups.flatMap (.mark .comma :: ·) ++ .mark close :: rest)
    rw [List.flatMap_cons, List.append_assoc, List.cons_append]
    exact (series_item (advance_comma hclose ht _) hrun).trans ih

/-- A series takes its groups with commas between them and the closing mark after
    them. -/
theorem series_of_takesAll {close : Mark} (hclose : close.closes = true) {item : σ → Reader σ}
    {s s' : σ} {groups : List (List Token)} (h : TakesAll item s groups s') (rest : List Token) :
    series close item true s ([Token.mark .comma].intercalate groups ++ .mark close :: rest) =
      .ok (s', rest) := by
  -- the first group has no comma in front, so it is taken apart from the others
  cases h with
  | nil => exact series_done (advance_close true rest)
  | @cons _ s₁ _ ts groups hts hgroups =>
    obtain ⟨t, more, rfl, ht⟩ := hts.begins
    have hrun := hts.run (groups.flatMap (.mark .comma :: ·) ++ .mark close :: rest)
    rw [intercalate_cons, List.append_assoc]
    exact (series_item (advance_first hclose ht _) hrun).trans
      (series_of_takesAll_later hclose hgroups rest)

/-! ## Codecs -/

/-- Every value is read back from the tokens it is written with, and these are cut apart
    again. -/
structure Codec.Faithful (codec : Codec α) : Prop where
  takes : ∀ a, codec.reader.Takes (codec.tokens a) a
  spaced : ∀ a, Spaced (codec.tokens a)

namespace Codec

theorem faithful_count : count.Faithful where
  takes _ := Reader.takes_scalar rfl
  spaced _ := spaced_scalar rfl

theorem faithful_flag : flag.Faithful where
  takes _ := Reader.takes_scalar rfl
  spaced _ := spaced_scalar rfl

theorem faithful_text : text.Faithful where
  takes _ := Reader.takes_scalar rfl
  spaced _ := spaced_scalar rfl

theorem faithful_optionalText : optionalText.Faithful where
  takes s := by
    cases s with
    | none => exact Reader.takes_scalar rfl
    | some s => exact Reader.takes_scalar rfl
  spaced s := by
    cases s with
    | none => exact spaced_scalar rfl
    | some s => exact spaced_scalar rfl

/-- The items of an array are appended one after the other. -/
theorem Faithful.takesAll {item : Codec α} (h : item.Faithful) (front values : List α) :
    TakesAll (fun values => item.reader.map fun a => values ++ [a]) front
      (values.map item.tokens) (front ++ values) := by
  induction values generalizing front with
  | nil =>
    rw [List.append_nil]
    exact .nil front
  | cons a values ih =>
    have hrest := ih (front ++ [a])
    rw [List.append_assoc] at hrest
    exact .cons ((h.takes a).map _) hrest

/-- Arrays are as faithful as their items. -/
theorem Faithful.array {item : Codec α} (h : item.Faithful) : (array item).Faithful where
  takes values := by
    refine ⟨⟨_, _, rfl, rfl⟩, ?_⟩
    intro rest
    have hclose : Mark.closeBracket.closes = true := rfl
    have hseries := series_of_takesAll hclose (h.takesAll [] values) rest
    rw [List.nil_append] at hseries
    simpa [Codec.array, Reader.array] using hseries
  spaced values := by
    apply spaced_enclosed
    intro ts hmem
    obtain ⟨a, -, rfl⟩ := List.mem_map.mp hmem
    exact h.spaced a

/-! ## Documents -/

/-- A document is read as its words are. -/
theorem read_of_takes {codec : Codec α} {ws : List Word} {ts : List Token} {a : α}
    {s : String} (hcuts : Cuts ws ts) (htakes : codec.reader.Takes ts a)
    (hlaid : Laid ws s.toList) : codec.read s = .ok a := by
  have htokens := hcuts s.toList [] hlaid endsNumeral_nil
  have hrun := htakes.run []
  rw [List.append_nil, tokens_nil, List.append_nil] at htokens
  rw [List.append_nil] at hrun
  rw [read, htokens, hrun]
  rfl

/-- A document reads as the value that it was written for. -/
theorem Faithful.read_write {codec : Codec α} (h : codec.Faithful) (a : α) :
    codec.read (codec.write a) = .ok a :=
  read_of_takes (h.spaced a) (h.takes a) (laid_compact _)

theorem Faithful.write_inj {codec : Codec α} (h : codec.Faithful) {a b : α} :
    codec.write a = codec.write b ↔ a = b := by
  constructor
  · -- one document cannot be read as two values
    intro hsame
    have ha := h.read_write a
    rw [hsame, h.read_write b] at ha
    exact (Except.ok.inj ha).symm
  · exact congrArg codec.write

end Codec

/-! ## Records -/

/-- The field takes what is written for it in the value `v` as the given change. -/
structure Field.Restores (field : Field δ) (v : δ) (change : δ → δ) : Prop where
  takes : field.reader.Takes (field.tokens v) change
  spaced : Spaced (field.tokens v)

theorem Field.takes_of {codec : Codec α} {ts : List Token} {a : α}
    (h : codec.reader.Takes ts a) (name : String) (get : δ → α) (set : α → δ → δ) :
    (Field.of name codec get set).reader.Takes ts (set a) :=
  h.map set

theorem Field.restores_of {codec : Codec α} (h : codec.Faithful) (name : String) (get : δ → α)
    (set : α → δ → δ) (v : δ) : (Field.of name codec get set).Restores v (set (get v)) where
  takes := Field.takes_of (h.takes (get v)) name get set
  spaced := h.spaced (get v)

namespace Record

/-- What is written for these fields in the value `v` makes `v` of the value `d`. -/
def Restores (v : δ) : List (Field δ) → δ → Prop
  | [], d => d = v
  | field :: fields, d => ∃ change, field.Restores v change ∧ Restores v fields (change d)

theorem Restores.spaced {v d : δ} {fields : List (Field δ)} (h : Restores v fields d) :
    ∀ ts ∈ fields.map (memberTokens v), Spaced ts := by
  induction fields generalizing d with
  | nil =>
    intro ts hmem
    cases hmem
  | cons field fields ih =>
    obtain ⟨change, hfield, hfields⟩ := h
    intro ts hmem
    rcases List.mem_cons.mp hmem with rfl | hrest
    · exact hfield.spaced.member field.name
    · exact ih hfields ts hrest

variable {r : Record δ}

/-- A member whose field was not given before is read as the change of that field. -/
theorem takes_member {field : Field δ} {key : String} {ts : List Token} {d : δ} {change : δ → δ}
    {given : List String} (hfound : (r.fields.find? fun field => field.name = key) = some field)
    (hgiven : key ∉ given) (h : field.reader.Takes ts change) :
    (r.member ⟨d, given⟩).Takes (.scalar (.text key) :: .mark .colon :: ts)
      ⟨change d, key :: given⟩ where
  begins := ⟨_, _, rfl, rfl⟩
  run rest := by
    -- the key names the field, so its reader gets what follows the colon
    show r.readMember ⟨d, given⟩ key (.mark .colon :: (ts ++ rest)) = _
    simp [readMember, hfound, hgiven, readValue, h.run rest, Except.map]

/-- The members of an object are read one after the other. -/
theorem Restores.takesAll {v d : δ} {fields : List (Field δ)} {given : List String}
    (h : Restores v fields d) (hnodup : (fields.map Field.name).Nodup)
    (hfound : ∀ field ∈ fields,
      (r.fields.find? fun other => other.name = field.name) = some field)
    (hgiven : ∀ field ∈ fields, field.name ∉ given) :
    TakesAll r.member ⟨d, given⟩ (fields.map (memberTokens v))
      ⟨v, (fields.map Field.name).reverse ++ given⟩ := by
  -- along the fields; the value so far and the names that were given go along
  induction fields generalizing d given with
  | nil =>
    obtain rfl : d = v := h
    exact .nil _
  | cons field fields ih =>
    obtain ⟨change, hfield, hfields⟩ := h
    rw [List.map_cons, List.nodup_cons] at hnodup
    obtain ⟨hname, hnodup⟩ := hnodup
    -- the name of the first field is given now, and none of the others has it
    have hothers : ∀ other ∈ fields, other.name ∉ field.name :: given := by
      intro other hmem
      rw [List.mem_cons, not_or]
      refine ⟨?_, hgiven other (List.mem_cons_of_mem _ hmem)⟩
      intro heq
      exact hname (List.mem_map.mpr ⟨other, hmem, heq⟩)
    have hrest := ih hfields hnodup
      (fun other hmem => hfound other (List.mem_cons_of_mem _ hmem)) hothers
    rw [List.map_cons, List.map_cons, List.reverse_cons, List.append_assoc]
    exact .cons (takes_member (hfound field List.mem_cons_self) (hgiven field List.mem_cons_self)
      hfield.takes) hrest

/-- Fields with distinct names are found by their names. -/
theorem find?_name {fields : List (Field δ)} (hnodup : (fields.map Field.name).Nodup)
    {field : Field δ} (hmem : field ∈ fields) :
    (fields.find? fun other => other.name = field.name) = some field := by
  induction fields with
  | nil => cases hmem
  | cons first fields ih =>
    rw [List.map_cons, List.nodup_cons] at hnodup
    rcases List.mem_cons.mp hmem with rfl | hrest
    · simp
    · have hne : first.name ≠ field.name := by
        intro heq
        exact hnodup.1 (List.mem_map.mpr ⟨field, hrest, heq.symm⟩)
      rw [List.find?_cons_of_neg (by simpa using hne)]
      exact ih hnodup.2 hrest

/-- A record that was given all its fields misses none. -/
theorem finish_of_given {part : Partial δ} (h : ∀ field ∈ r.fields, field.name ∈ part.given) :
    r.finish part = .ok part.value := by
  have hnone : (r.fields.find? fun field => r.complete && field.name ∉ part.given) = none := by
    rw [List.find?_eq_none]
    intro field hmem
    simp [h field hmem]
  rw [finish, hnone]

/-- An object is read as what its members come to. -/
theorem takes_object {groups : List (List Token)} {part : Partial δ} {d : δ}
    (h : TakesAll r.member ⟨r.blank, []⟩ groups part) (hfinish : r.finish part = .ok d) :
    r.codec.reader.Takes
      (.mark .openBrace :: [Token.mark .comma].intercalate groups ++ [.mark .closeBrace]) d where
  begins := ⟨_, _, rfl, rfl⟩
  run rest := by
    have hclose : Mark.closeBrace.closes = true := rfl
    have hseries := series_of_takesAll hclose h rest
    simp [codec, reader, hseries, hfinish]

/-- Records are as faithful as their fields, if these have distinct names and together
    make up the value. -/
theorem faithful (hnodup : (r.fields.map Field.name).Nodup)
    (h : ∀ v, Restores v r.fields r.blank) : r.codec.Faithful where
  takes v := by
    have hfound : ∀ field ∈ r.fields,
        (r.fields.find? fun other => other.name = field.name) = some field :=
      fun field hmem => find?_name hnodup hmem
    have hmembers : TakesAll r.member ⟨r.blank, []⟩ (r.fields.map (memberTokens v))
        ⟨v, (r.fields.map Field.name).reverse ++ []⟩ :=
      (h v).takesAll hnodup hfound fun field _ => List.not_mem_nil
    rw [List.append_nil] at hmembers
    have hfinish : r.finish ⟨v, (r.fields.map Field.name).reverse⟩ = .ok v := by
      apply finish_of_given
      intro field hmem
      simpa using ⟨field, hmem, rfl⟩
    exact takes_object hmembers hfinish
  spaced v := spaced_enclosed _ _ (h v).spaced

end Record

end NearestMount.Json
