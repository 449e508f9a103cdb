import NearestMount.Proofs.Path.Ancestry

/-! # The grammar of paths

    What it is to spell a path is said here without the reader: `Spells` is the grammar,
    `Pieces` cuts a text at its slashes, and `FirstBad` finds the first piece that is no
    segment. `Refused` puts these together to the words in which a text is refused.

    - `spells_iff` and `Spells.unique`: the grammar allows the written forms of paths
      and nothing else, each with one list of segments.
    - `parse_eq_error_iff`: the reader stops at the first bad piece.
    - `read_exact` says what the reader answers for every text.
-/

namespace NearestMount.Path

/-! ## The grammar -/

/-- The text spells the path with these segments. -/
inductive Spells : String → List String → Prop where
  /-- The root is a slash alone and has no segment. -/
  | root : Spells "/" []
  /-- Any other path is a slash and then its segments, with one slash between each two. -/
  | below (names : List String) : names ≠ [] → (∀ name ∈ names, IsSegment name) →
      Spells ("/" ++ "/".intercalate names) names

theorem toList_join (names : List String) :
    ("/" ++ "/".intercalate names).toList = '/' :: ['/'].intercalate (names.map String.toList) := by
  rw [String.toList_append, String.toList_intercalate]
  rfl

theorem text_eq_join (p : Path) : p.text = "/" ++ "/".intercalate p.segments := by
  apply String.toList_inj.mp
  rw [toList_text, toList_join]
  rfl

theorem spells_text (p : Path) : Spells p.text p.segments := by
  by_cases hroot : p.segments = []
  · obtain rfl : p = .root := Path.ext hroot
    exact .root
  · rw [text_eq_join]
    exact .below p.segments hroot p.valid

theorem Spells.exists_path {s : String} {names : List String} (h : Spells s names) :
    ∃ p : Path, p.text = s ∧ p.segments = names := by
  cases h with
  | root => exact ⟨.root, rfl, rfl⟩
  | below names hne hvalid => exact ⟨⟨names, hvalid⟩, text_eq_join _, rfl⟩

/-- The grammar allows the written forms of paths. -/
theorem spells_iff {s : String} {p : Path} : Spells s p.segments ↔ p.text = s := by
  constructor
  · intro h
    obtain ⟨q, hq, hsegments⟩ := h.exists_path
    rw [← Path.ext hsegments, hq]
  · intro heq
    rw [← heq]
    exact spells_text p

/-- A text spells at most one list of segments. -/
theorem Spells.unique {s : String} {names others : List String} (hnames : Spells s names)
    (hothers : Spells s others) : names = others := by
  obtain ⟨p, hp, rfl⟩ := hnames.exists_path
  obtain ⟨q, hq, rfl⟩ := hothers.exists_path
  rw [text_inj.mp (hp.trans hq.symm)]

/-! ## Pieces -/

/-- What stands after the first slash of a text, cut at the other slashes. -/
structure Pieces (s : String) (pieces : List String) : Prop where
  nonempty : pieces ≠ []
  slash_notMem : ∀ piece ∈ pieces, '/' ∉ piece.toList
  joined : s = "/" ++ "/".intercalate pieces

theorem notMem_of_mem_splitOn {c : Char} {cs piece : List Char} (h : piece ∈ cs.splitOn c) :
    c ∉ piece := by
  induction cs generalizing piece with
  | nil =>
    rw [List.splitOn_nil, List.mem_singleton] at h
    simp [h]
  | cons d cs ih =>
    obtain ⟨first, rest, hsplit⟩ := List.exists_cons_of_ne_nil (List.splitOn_ne_nil c cs)
    rw [hsplit] at ih
    rw [List.splitOn_cons_eq_if_modifyHead, hsplit] at h
    split at h
    · rcases List.mem_cons.mp h with rfl | hmem
      · exact List.not_mem_nil
      · exact ih hmem
    · -- the character joins the first piece, and it is not the one that cuts
      next hne =>
      rw [List.modifyHead_cons] at h
      rcases List.mem_cons.mp h with rfl | hmem
      · rw [List.mem_cons, not_or]
        exact ⟨fun heq => hne (by simp [heq]), ih List.mem_cons_self⟩
      · exact ih (List.mem_cons_of_mem _ hmem)

/-- A text has pieces exactly if it starts with a slash, and then there is one way to cut
    it. -/
theorem pieces_iff {s : String} {pieces : List String} :
    Pieces s pieces ↔
      ∃ rest, s.toList = '/' :: rest ∧ pieces = (rest.splitOn '/').map String.ofList := by
  constructor
  · intro h
    refine ⟨['/'].intercalate (pieces.map String.toList), ?_, ?_⟩
    · rw [h.joined, toList_join]
    · have hsplit : (['/'].intercalate (pieces.map String.toList)).splitOn '/' =
          pieces.map String.toList := by
        apply List.splitOn_intercalate
        · simpa using h.slash_notMem
        · simpa using h.nonempty
      rw [hsplit, List.map_map]
      simp [Function.comp_def]
  · intro hexists
    obtain ⟨rest, hs, rfl⟩ := hexists
    refine ⟨?_, ?_, ?_⟩
    · simp
    · intro piece hmem
      obtain ⟨cs, hcs, rfl⟩ := List.mem_map.mp hmem
      rw [String.toList_ofList]
      exact notMem_of_mem_splitOn hcs
    · apply String.toList_inj.mp
      rw [toList_join, List.map_map, hs]
      simp [Function.comp_def, List.intercalate_splitOn]

theorem Pieces.unique {s : String} {pieces others : List String} (hpieces : Pieces s pieces)
    (hothers : Pieces s others) : pieces = others := by
  obtain ⟨rest, hrest, rfl⟩ := pieces_iff.mp hpieces
  obtain ⟨rest', hrest', rfl⟩ := pieces_iff.mp hothers
  rw [(List.cons.inj (hrest.symm.trans hrest')).2]

/-- The first piece that is no segment stands at `position`. -/
def FirstBad (pieces : List String) (position : Nat) (piece : String) : Prop :=
  pieces[position]? = some piece ∧ ¬ IsSegment piece ∧
    ∀ earlier < position, ∀ other, pieces[earlier]? = some other → IsSegment other

theorem firstBad_cons_iff {first : String} {pieces : List String} {position : Nat}
    {piece : String} :
    FirstBad (first :: pieces) position piece ↔
      (¬ IsSegment first ∧ position = 0 ∧ piece = first) ∨
      (IsSegment first ∧ ∃ later, position = later + 1 ∧ FirstBad pieces later piece) := by
  constructor
  · intro h
    obtain ⟨hpiece, hbad, hearlier⟩ := h
    cases position with
    | zero =>
      obtain rfl : first = piece := by simpa using hpiece
      exact Or.inl ⟨hbad, rfl, rfl⟩
    | succ later =>
      refine Or.inr ⟨hearlier 0 (Nat.succ_pos later) first rfl, later, rfl, ?_, hbad, ?_⟩
      · simpa using hpiece
      · intro earlier hlt other hother
        exact hearlier (earlier + 1) (Nat.succ_lt_succ hlt) other (by simpa using hother)
  · intro hcase
    rcases hcase with ⟨hbad, rfl, rfl⟩ | ⟨hfirst, later, rfl, hpiece, hbad, hearlier⟩
    · refine ⟨rfl, hbad, ?_⟩
      intro earlier hlt
      exact absurd hlt (Nat.not_lt_zero _)
    · refine ⟨by simpa using hpiece, hbad, ?_⟩
      intro earlier hlt other hother
      cases earlier with
      | zero =>
        obtain rfl : first = other := by simpa using hother
        exact hfirst
      | succ earlier =>
        exact hearlier earlier (Nat.lt_of_succ_lt_succ hlt) other (by simpa using hother)

/-! ## The reader -/

/-- The pieces are refused for the first that is no segment. -/
theorem ofPieces_eq_error_iff {start : Nat} {pieces : List String} {fault : Fault} :
    ofPieces start pieces = .error fault ↔
      ∃ position piece, FirstBad pieces position piece ∧
        fault = .ofPiece (start + position) piece := by
  induction pieces generalizing start with
  | nil =>
    constructor
    · intro h
      cases h
    · intro hexists
      obtain ⟨position, piece, ⟨hpiece, -⟩, -⟩ := hexists
      simp at hpiece
  | cons first pieces ih =>
    unfold ofPieces
    by_cases hfirst : IsSegment first
    · -- a good piece is passed over, and the others stand one place further on
      have hmap : ∀ result : Except Fault Path,
          result.map (cons first hfirst) = .error fault ↔ result = .error fault := by
        intro result
        cases result <;> simp [Except.map]
      rw [dif_pos hfirst, hmap, ih]
      constructor
      · intro hexists
        obtain ⟨later, piece, hbad, rfl⟩ := hexists
        refine ⟨later + 1, piece, firstBad_cons_iff.mpr (Or.inr ⟨hfirst, later, rfl, hbad⟩), ?_⟩
        rw [Nat.add_right_comm, Nat.add_assoc]
      · intro hexists
        obtain ⟨position, piece, hbad, rfl⟩ := hexists
        rcases firstBad_cons_iff.mp hbad with ⟨hnot, -⟩ | ⟨-, later, rfl, hlater⟩
        · exact absurd hfirst hnot
        · refine ⟨later, piece, hlater, ?_⟩
          rw [Nat.add_right_comm, Nat.add_assoc]
    · rw [dif_neg hfirst]
      constructor
      · intro h
        cases h
        exact ⟨0, first, firstBad_cons_iff.mpr (Or.inl ⟨hfirst, rfl, rfl⟩), rfl⟩
      · intro hexists
        obtain ⟨position, piece, hbad, rfl⟩ := hexists
        rcases firstBad_cons_iff.mp hbad with ⟨-, rfl, rfl⟩ | ⟨hsegment, -⟩
        · rfl
        · exact absurd hsegment hfirst

theorem parse_of_not_absolute {s : String} (h : ¬ ['/'] <+: s.toList) :
    parse s = .error .notAbsolute := by
  unfold parse ofChars
  split
  · next heq => exact absurd (by simp [heq]) h
  · next rest _ heq => exact absurd (by simp [heq]) h
  · rfl

theorem parse_of_pieces {s : String} {pieces : List String} (hs : s ≠ "/")
    (h : Pieces s pieces) : parse s = ofPieces 0 pieces := by
  obtain ⟨rest, hrest, rfl⟩ := pieces_iff.mp h
  unfold parse ofChars
  rw [hrest]
  split
  · next heq =>
    have hroot : s.toList = "/".toList := hrest.trans heq
    exact absurd (String.toList_inj.mp hroot) hs
  · next heq => rw [(List.cons.inj heq).2]
  · next hother => exact absurd rfl (hother rest)

/-- The reader refuses a text that does not start with a slash, and otherwise one with a
    bad piece, for the first of them. -/
theorem parse_eq_error_iff {s : String} {fault : Fault} :
    parse s = .error fault ↔
      (¬ ['/'] <+: s.toList ∧ fault = .notAbsolute) ∨
      (s ≠ "/" ∧ ∃ pieces position piece, Pieces s pieces ∧ FirstBad pieces position piece ∧
        fault = .ofPiece position piece) := by
  constructor
  · intro h
    by_cases habsolute : ['/'] <+: s.toList
    · right
      have hroot : s ≠ "/" := by
        rintro rfl
        have hread : parse "/" = .ok .root := parse_text .root
        rw [hread] at h
        cases h
      obtain ⟨rest, hrest⟩ := habsolute
      have hpieces := pieces_iff.mpr ⟨rest, hrest.symm, rfl⟩
      rw [parse_of_pieces hroot hpieces, ofPieces_eq_error_iff] at h
      obtain ⟨position, piece, hbad, rfl⟩ := h
      exact ⟨hroot, _, position, piece, hpieces, hbad, by rw [Nat.zero_add]⟩
    · left
      rw [parse_of_not_absolute habsolute] at h
      exact ⟨habsolute, (Except.error.inj h).symm⟩
  · intro hcase
    rcases hcase with ⟨hrelative, rfl⟩ | ⟨hroot, pieces, position, piece, hpieces, hbad, rfl⟩
    · exact parse_of_not_absolute hrelative
    · rw [parse_of_pieces hroot hpieces, ofPieces_eq_error_iff]
      exact ⟨position, piece, hbad, by rw [Nat.zero_add]⟩

/-! ## The words of a refusal -/

/-- Why a text is no path, in the words in which it is refused. -/
inductive Refused (s : String) : String → Prop where
  | notAbsolute : ¬ ['/'] <+: s.toList → Refused s "must be absolute"
  | emptySegment {pieces : List String} {position : Nat} :
      s ≠ "/" → Pieces s pieces → FirstBad pieces position "" →
      Refused s ("empty segment at position " ++ position.repr)
  | relativeSegment {pieces : List String} {position : Nat} {piece : String} :
      piece = "." ∨ piece = ".." → Pieces s pieces → FirstBad pieces position piece →
      Refused s ("relative segment '" ++ piece ++ "' at position " ++ position.repr)

/-- A piece that is no segment has no name, or is one of the two relative names. -/
theorem relative_of_not_isSegment {piece : String} (hslash : '/' ∉ piece.toList)
    (hbad : ¬ IsSegment piece) (hne : piece ≠ "") : piece = "." ∨ piece = ".." := by
  unfold IsSegment at hbad
  by_cases hdot : piece = "."
  · exact Or.inl hdot
  · by_cases hdots : piece = ".."
    · exact Or.inr hdots
    · exact absurd ⟨hne, hslash, hdot, hdots⟩ hbad

theorem refused_of_parse {s : String} {fault : Fault} (h : parse s = .error fault) :
    Refused s fault.message := by
  rcases parse_eq_error_iff.mp h with
    ⟨hrelative, rfl⟩ | ⟨hroot, pieces, position, piece, hpieces, hbad, rfl⟩
  · exact .notAbsolute hrelative
  · unfold Fault.ofPiece
    split
    · next hempty =>
      subst hempty
      exact .emptySegment hroot hpieces hbad
    · next hne =>
      have hslash := hpieces.slash_notMem piece (List.mem_of_getElem? hbad.1)
      exact .relativeSegment (relative_of_not_isSegment hslash hbad.2.1 hne) hpieces hbad

theorem Refused.exists_fault {s reason : String} (h : Refused s reason) :
    ∃ fault, parse s = .error fault ∧ fault.message = reason := by
  cases h with
  | notAbsolute hrelative => exact ⟨.notAbsolute, parse_of_not_absolute hrelative, rfl⟩
  | @emptySegment pieces position hroot hpieces hbad =>
    exact ⟨.emptySegment position,
      parse_eq_error_iff.mpr (Or.inr ⟨hroot, pieces, position, "", hpieces, hbad, rfl⟩), rfl⟩
  | @relativeSegment pieces position piece hname hpieces hbad =>
    have hne : piece ≠ "" := by rcases hname with rfl | rfl <;> decide
    have hroot : s ≠ "/" := by
      -- the one piece of the root is empty
      rintro rfl
      have hone := hpieces.unique (pieces_iff.mpr ⟨[], rfl, rfl⟩)
      have hmem := List.mem_of_getElem? hbad.1
      rw [hone] at hmem
      exact hne (by simpa using hmem)
    refine ⟨.relativeSegment piece position, parse_eq_error_iff.mpr ?_, rfl⟩
    exact Or.inr ⟨hroot, pieces, position, piece, hpieces, hbad, by simp [Fault.ofPiece, hne]⟩

theorem refused_mustBeAbsolute_iff {s : String} :
    Refused s "must be absolute" ↔ ¬ ['/'] <+: s.toList := by
  constructor
  · intro h
    generalize hreason : "must be absolute" = reason at h
    -- no two of the wordings begin with the same letter
    have hhead := congrArg (fun t => t.toList.head?) hreason
    cases h with
    | notAbsolute hrelative => exact hrelative
    | emptySegment => simp at hhead
    | relativeSegment => simp at hhead
  · exact .notAbsolute

/-! ## What is read and what is refused -/

theorem read_eq_ok_iff {s : String} {p : Path} : read s = .ok p ↔ p.text = s := by
  rw [← parse_eq_ok_iff, read]
  cases parse s <;> simp

theorem read_eq_error_iff {s : String} {e : Error} :
    read s = .error e ↔ ∃ fault, parse s = .error fault ∧ e = .invalidPath s fault := by
  rw [read]
  cases parse s <;> simp [eq_comm]

/-- For every text: it is read as a path exactly if it spells the segments of that path,
    and then it is the written form of the path, and there is no other list of segments
    that it spells. Any other text is refused as it stands, and in words that tell the
    first fault: that it does not start with a slash, or else the first of the pieces
    between the slashes that is empty or relative, with its position. -/
theorem read_exact (s : String) :
    (∀ p, Path.read s = .ok p ↔ Spells s p.segments) ∧
    ((∃ p, Path.read s = .ok p) ↔ ∃ names, Spells s names) ∧
    (∀ p, Path.read s = .ok p → p.text = s ∧ ∀ names, Spells s names → names = p.segments) ∧
    (∀ e, Path.read s = .error e → ∃ fault, e = .invalidPath s fault) ∧
    (∀ reason, (∃ fault, Path.read s = .error (.invalidPath s fault) ∧ fault.message = reason) ↔
      Refused s reason) ∧
    ((∃ fault, Path.read s = .error (.invalidPath s fault) ∧
      fault.message = "must be absolute") ↔ ¬ ['/'] <+: s.toList) := by
  have hok : ∀ p, Path.read s = .ok p ↔ Spells s p.segments := by
    intro p
    rw [read_eq_ok_iff, spells_iff]
  have hrefused : ∀ reason,
      (∃ fault, Path.read s = .error (.invalidPath s fault) ∧ fault.message = reason) ↔
        Refused s reason := by
    intro reason
    simp only [read_eq_error_iff]
    constructor
    · intro hexists
      obtain ⟨fault, ⟨other, hother, heq⟩, rfl⟩ := hexists
      cases heq
      exact refused_of_parse hother
    · intro h
      obtain ⟨fault, hparse, hmessage⟩ := h.exists_fault
      exact ⟨fault, ⟨fault, hparse, rfl⟩, hmessage⟩
  refine ⟨hok, ?_, ?_, ?_, hrefused, ?_⟩
  · constructor
    · intro hexists
      obtain ⟨p, hp⟩ := hexists
      exact ⟨p.segments, (hok p).mp hp⟩
    · intro hexists
      obtain ⟨names, hnames⟩ := hexists
      obtain ⟨p, hp, -⟩ := hnames.exists_path
      exact ⟨p, read_eq_ok_iff.mpr hp⟩
  · intro p hp
    exact ⟨read_eq_ok_iff.mp hp, fun names hnames => hnames.unique ((hok p).mp hp)⟩
  · intro e he
    obtain ⟨fault, -, heq⟩ := read_eq_error_iff.mp he
    exact ⟨fault, heq⟩
  · rw [hrefused, refused_mustBeAbsolute_iff]

end NearestMount.Path
