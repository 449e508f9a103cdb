import NearestMount.Path.Basic

/-! # Reading paths

    `Path.parse` accepts a text only if it is already the written form of a path:
    nothing is normalised. A refused text is answered with its first fault, found
    from left to right, and the place of that fault among the pieces between the
    slashes.

    `Path.parse_text` says that the written form of a path reads back as that path.
-/

namespace NearestMount.Path

/-- Why a text is not a path. Positions count the pieces after the leading slash,
    from zero. -/
inductive Fault where
  /-- The text does not start with a slash. -/
  | notAbsolute
  /-- Nothing stands between two slashes, or after the last one. -/
  | emptySegment (position : Nat)
  /-- The piece is `.` or `..`. -/
  | relativeSegment (name : String) (position : Nat)
  deriving DecidableEq, Repr

/-- The wording of a fault. -/
def Fault.message : Fault → String
  | .notAbsolute => "must be absolute"
  | .emptySegment position => "empty segment at position " ++ position.repr
  | .relativeSegment name position =>
    "relative segment '" ++ name ++ "' at position " ++ position.repr

/-- What is wrong with a piece that is no segment. A piece holds no slash, so it is
    either empty or relative. -/
def Fault.ofPiece (position : Nat) (piece : String) : Fault :=
  if piece = "" then .emptySegment position else .relativeSegment piece position

/-- The path with the given pieces, the first of which stands at `position`; or the
    fault of the first piece that is no segment. -/
def ofPieces (position : Nat) : List String → Except Fault Path
  | [] => .ok root
  | piece :: pieces =>
    if h : IsSegment piece then (ofPieces (position + 1) pieces).map (cons piece h)
    else .error (.ofPiece position piece)

/-- The path that the characters spell. -/
def ofChars : List Char → Except Fault Path
  | ['/'] => .ok root
  | '/' :: rest => ofPieces 0 ((rest.splitOn '/').map String.ofList)
  | _ => .error .notAbsolute

/-- The path whose written form is `s`. -/
def parse (s : String) : Except Fault Path := ofChars s.toList

/-! ## Reading a written form back -/

theorem ofPieces_segments (position : Nat) (p : Path) :
    ofPieces position p.segments = .ok p := by
  obtain ⟨segments, valid⟩ := p
  induction segments generalizing position with
  | nil => rfl
  | cons name names ih =>
    have hname : IsSegment name := valid name List.mem_cons_self
    have hnames := ih (position + 1) fun other mem => valid other (List.mem_cons_of_mem _ mem)
    simp only [ofPieces, hname, ↓reduceDIte]
    simp only at hnames
    rw [hnames]
    rfl

theorem splitOn_intercalate_segments {p : Path} (h : p.segments ≠ []) :
    (['/'].intercalate (p.segments.map String.toList)).splitOn '/' =
      p.segments.map String.toList := by
  apply List.splitOn_intercalate
  · intro piece mem
    obtain ⟨name, hname, rfl⟩ := List.mem_map.mp mem
    exact (p.valid name hname).slash_notMem
  · simpa using h

theorem ofChars_chars (p : Path) : ofChars p.chars = .ok p := by
  obtain ⟨segments, valid⟩ := p
  cases segments with
  | nil => rfl
  | cons name names =>
    have split := splitOn_intercalate_segments (p := ⟨name :: names, valid⟩) (by simp)
    have nonempty : ['/'].intercalate ((name :: names).map String.toList) ≠ [] := by
      have := (valid name List.mem_cons_self).toList_ne_nil
      cases names <;> simp_all [List.intercalate]
    unfold chars
    generalize ['/'].intercalate ((name :: names).map String.toList) = rest at split nonempty
    cases rest with
    | nil => exact absurd rfl nonempty
    | cons c cs =>
      simp only [ofChars, split]
      simpa [Function.comp_def] using ofPieces_segments 0 ⟨name :: names, valid⟩

/-- The written form of a path reads back as that path. -/
theorem parse_text (p : Path) : parse p.text = .ok p := by
  rw [parse, toList_text, ofChars_chars]

/-- Paths with the same written form are equal. -/
theorem text_inj {p q : Path} : p.text = q.text ↔ p = q := by
  constructor
  · intro same
    have read := parse_text p
    rw [same, parse_text q] at read
    exact (Except.ok.inj read).symm
  · rintro rfl
    rfl

end NearestMount.Path
