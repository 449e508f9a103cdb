import NearestMount.Error

/-! # Paths, their texts and their ancestors

    Reading and writing are inverse to each other (`Path.parse_eq_ok_iff`). Covering is
    a partial order in which the ancestors of one path form a chain
    (`Path.covers_total`), and the parent of a path is the lowest of its proper
    ancestors (`Path.covers_parent?_iff`).
-/

namespace NearestMount.Path

/-! ## Texts -/

theorem segments_of_ofPieces {pieces : List String} {position : Nat} {p : Path}
    (h : ofPieces position pieces = .ok p) : p.segments = pieces := by
  induction pieces generalizing position p with
  | nil =>
    cases h
    rfl
  | cons piece pieces ih =>
    rw [ofPieces] at h
    split at h
    · next hpiece =>
      cases hrest : ofPieces (position + 1) pieces with
      | error fault =>
        rw [hrest] at h
        cases h
      | ok rest =>
        rw [hrest] at h
        cases h
        rw [segments_cons, ih hrest]
    · cases h

theorem chars_of_ofChars {cs : List Char} {p : Path} (h : ofChars cs = .ok p) : p.chars = cs := by
  unfold ofChars at h
  split at h
  · cases h
    rfl
  · next rest _ =>
    -- the pieces between the slashes are the segments, and joining undoes splitting
    have hsegments := segments_of_ofPieces h
    have hpieces : p.segments.map String.toList = rest.splitOn '/' := by
      rw [hsegments, List.map_map]
      simp [Function.comp_def]
    rw [chars, hpieces, List.intercalate_splitOn]
  · cases h

/-- A text reads as a path exactly if it is the written form of that path. -/
theorem parse_eq_ok_iff {s : String} {p : Path} : parse s = .ok p ↔ p.text = s := by
  constructor
  · intro h
    rw [text, chars_of_ofChars h, String.ofList_toList]
  · intro heq
    subst heq
    exact parse_text p

/-- A text is refused with a fault, or it is the written form of a path. -/
theorem read_cases (s : String) :
    (∃ fault, parse s = .error fault ∧ read s = .error (.invalidPath s fault)) ∨
    ∃ p : Path, p.text = s := by
  cases h : parse s with
  | error fault => exact Or.inl ⟨fault, rfl, by simp [read, h]⟩
  | ok p => exact Or.inr ⟨p, parse_eq_ok_iff.mp h⟩

/-! ## Ancestors -/

theorem covers_trans {p q r : Path} (hpq : p.covers q = true) (hqr : q.covers r = true) :
    p.covers r = true :=
  covers_iff.mpr ((covers_iff.mp hpq).trans (covers_iff.mp hqr))

theorem covers_antisymm {p q : Path} (hpq : p.covers q = true) (hqp : q.covers p = true) :
    p = q := by
  have hp := covers_iff.mp hpq
  have hq := covers_iff.mp hqp
  exact Path.ext (hp.eq_of_length (Nat.le_antisymm hp.length_le hq.length_le))

theorem depth_le_of_covers {q p : Path} (h : q.covers p = true) : q.depth ≤ p.depth :=
  (covers_iff.mp h).length_le

/-- Of two ancestors of a path the higher one covers the other. -/
theorem covers_of_depth_le {p q r : Path} (hq : q.covers p = true) (hr : r.covers p = true)
    (hle : q.depth ≤ r.depth) : q.covers r = true :=
  covers_iff.mpr (List.prefix_of_prefix_length_le (covers_iff.mp hq) (covers_iff.mp hr) hle)

/-- The ancestors of a path form a chain. -/
theorem covers_total {p q r : Path} (hq : q.covers p = true) (hr : r.covers p = true) :
    q.covers r = true ∨ r.covers q = true := by
  rcases Nat.le_total q.depth r.depth with hle | hle
  · exact Or.inl (covers_of_depth_le hq hr hle)
  · exact Or.inr (covers_of_depth_le hr hq hle)

theorem take_covers (p : Path) (depth : Nat) : (p.take depth).covers p = true :=
  covers_iff.mpr (List.take_prefix _ _)

theorem depth_take (p : Path) (depth : Nat) : (p.take depth).depth = min depth p.depth :=
  List.length_take

/-- The ancestors of a path are its beginnings. -/
theorem eq_take_of_covers {q p : Path} (h : q.covers p = true) : q = p.take q.depth :=
  Path.ext (List.prefix_iff_eq_take.mp (covers_iff.mp h))

/-- A proper ancestor is higher up. -/
theorem depth_lt_of_covers {q p : Path} (h : q.covers p = true) (hne : q ≠ p) :
    q.depth < p.depth := by
  apply Nat.lt_of_le_of_ne (depth_le_of_covers h)
  intro heq
  apply hne
  rw [eq_take_of_covers h, heq, take_depth]

/-- The parent of a path is the lowest of its proper ancestors. -/
theorem covers_parent?_iff {p parent q : Path} (h : p.parent? = some parent) :
    q.covers parent = true ↔ q.covers p = true ∧ q ≠ p := by
  unfold parent? at h
  split at h
  · cases h
  · next hroot =>
    cases h
    -- `p` is not the root, so its parent is one segment shorter
    have hpositive : 0 < p.depth := by
      apply Nat.pos_of_ne_zero
      intro hzero
      exact hroot (by simp [isRoot, List.eq_nil_of_length_eq_zero hzero])
    constructor
    · intro hcovers
      refine ⟨covers_trans hcovers (take_covers p _), ?_⟩
      intro heq
      subst heq
      have hle := depth_le_of_covers hcovers
      rw [depth_take] at hle
      omega
    · intro hboth
      obtain ⟨hcovers, hne⟩ := hboth
      apply covers_of_depth_le hcovers (take_covers p _)
      have hlt := depth_lt_of_covers hcovers hne
      rw [depth_take]
      omega

theorem parent?_eq_none_iff {p : Path} : p.parent? = none ↔ p = root := by
  rw [← isRoot_iff, parent?]
  split <;> simp_all

end NearestMount.Path
