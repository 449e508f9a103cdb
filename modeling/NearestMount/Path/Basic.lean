/-! # Namespace paths

    A path is an absolute name in a tree of names, `/a/b/c`. It is held as the
    list of its segments, each known to be a proper name, so a path has exactly
    one written form and two paths are equal when their segments are.

    - `IsSegment` says which names may stand between slashes.
    - `Path.text` is the written form; paths are ordered by it.
    - `Path.take`, `Path.parent?` and `Path.covers` speak of ancestors.
-/

namespace NearestMount

/-! ## Segments -/

/-- A **segment** is a name that may stand between two slashes: it is not empty,
    holds no slash, and is neither of the relative names `.` and `..`. -/
def IsSegment (name : String) : Prop :=
  name ≠ "" ∧ '/' ∉ name.toList ∧ name ≠ "." ∧ name ≠ ".."

instance (name : String) : Decidable (IsSegment name) :=
  inferInstanceAs (Decidable (_ ∧ _))

theorem IsSegment.toList_ne_nil {name : String} (h : IsSegment name) : name.toList ≠ [] := by
  intro empty
  exact h.1 (String.toList_inj.mp (by simpa using empty))

theorem IsSegment.slash_notMem {name : String} (h : IsSegment name) : '/' ∉ name.toList :=
  h.2.1

/-! ## Paths -/

/-- An absolute path. The empty list of segments is the root `/`. -/
structure Path where
  segments : List String
  valid : ∀ name ∈ segments, IsSegment name
  deriving DecidableEq

namespace Path

@[ext] theorem ext {p q : Path} (h : p.segments = q.segments) : p = q := by
  cases p; cases q; cases h; rfl

/-- The root `/`. -/
def root : Path := ⟨[], by simp⟩

/-- The path whose first segment is `name`, followed by those of `p`. -/
def cons (name : String) (h : IsSegment name) (p : Path) : Path :=
  ⟨name :: p.segments, by
    intro other mem
    rcases List.mem_cons.mp mem with rfl | below
    · exact h
    · exact p.valid other below⟩

/-- Number of segments. -/
def depth (p : Path) : Nat := p.segments.length

/-- True of the root alone. -/
def isRoot (p : Path) : Bool := p.segments.isEmpty

@[simp] theorem segments_root : root.segments = [] := rfl

@[simp] theorem segments_cons (name : String) (h : IsSegment name) (p : Path) :
    (cons name h p).segments = name :: p.segments := rfl

theorem isRoot_iff {p : Path} : p.isRoot = true ↔ p = root := by
  simp [isRoot, Path.ext_iff]

/-! ## Written form -/

/-- The characters of a path: a slash, then the segments with one slash between
    each two. -/
def chars (p : Path) : List Char :=
  '/' :: ['/'].intercalate (p.segments.map String.toList)

/-- The written form of a path. -/
def text (p : Path) : String := String.ofList p.chars

/-- The characters that the written forms of all paths strictly beneath `p` begin
    with. -/
def stem (p : Path) : List Char := if p.isRoot then ['/'] else p.chars ++ ['/']

@[simp] theorem toList_text (p : Path) : p.text.toList = p.chars := String.toList_ofList

@[simp] theorem text_root : root.text = "/" := rfl

/-- Paths are ordered as their written forms are, character by character. -/
instance : Ord Path := ⟨fun p q => compare p.text q.text⟩

/-! ## Ancestors -/

/-- The ancestor made of the first `depth` segments; the path itself when it has
    no more than that. -/
def take (p : Path) (depth : Nat) : Path :=
  ⟨p.segments.take depth, fun name mem => p.valid name (List.mem_of_mem_take mem)⟩

/-- The enclosing path; the root has none. -/
def parent? (p : Path) : Option Path :=
  if p.isRoot then none else some (p.take (p.depth - 1))

/-- True if `q` is `p` or one of its ancestors. -/
def covers (q p : Path) : Bool := q.segments.isPrefixOf p.segments

@[simp] theorem segments_take (p : Path) (depth : Nat) :
    (p.take depth).segments = p.segments.take depth := rfl

@[simp] theorem take_zero (p : Path) : p.take 0 = root := rfl

@[simp] theorem take_depth (p : Path) : p.take p.depth = p := by
  ext1; simp [depth]

@[simp] theorem parent?_root : root.parent? = none := rfl

theorem covers_iff {q p : Path} : q.covers p = true ↔ q.segments <+: p.segments :=
  List.isPrefixOf_iff_prefix

@[simp] theorem covers_self (p : Path) : p.covers p = true :=
  covers_iff.mpr (List.prefix_refl _)

@[simp] theorem root_covers (p : Path) : root.covers p = true :=
  covers_iff.mpr List.nil_prefix

end Path

end NearestMount
