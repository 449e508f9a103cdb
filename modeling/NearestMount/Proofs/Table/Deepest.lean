import NearestMount.Proofs.Table.Answers

/-! # The longest path that covers another

    The index of a table finds what covers a path by walking along its segments. The
    same answer comes from looking at every mount in turn and keeping the longest path
    that covers the given one: `longestCover?`.

    - `LongestCover` says what such an answer means for a family of paths;
      `LongestCover.unique` says that the meaning leaves no choice.
    - `longestCover_longestCover?` is the scan: one mount more, then the whole list.
    - `Reachable.covering_deepest` says what a table answers for every path.
-/

namespace NearestMount

/-! ## What the answer means -/

/-- The answer is the longest path of the family that covers `p`, or nothing if none
    does. -/
structure LongestCover (family : Path → Prop) (p : Path) (answer : Option Path) : Prop where
  member : ∀ q, answer = some q → family q ∧ q.covers p = true
  longest : ∀ q r, answer = some q → family r → r.covers p = true → r.depth ≤ q.depth
  nothing : answer = none → ∀ r, family r → r.covers p = false

section

variable {family : Path → Prop} {p : Path} {answer : Option Path}

/-- Of the paths that cover `p` each has a length of its own. -/
theorem Path.eq_of_covers_of_depth_le {p q r : Path} (hq : q.covers p = true)
    (hr : r.covers p = true) (hqr : q.depth ≤ r.depth) (hrq : r.depth ≤ q.depth) : q = r :=
  covers_antisymm (covers_of_depth_le hq hr hqr) (covers_of_depth_le hr hq hrq)

theorem LongestCover.eq_some_iff (h : LongestCover family p answer) {q : Path} :
    answer = some q ↔ family q ∧ q.covers p = true ∧
      ¬ ∃ r, family r ∧ r.covers p = true ∧ q.depth < r.depth := by
  constructor
  · intro hanswer
    obtain ⟨hq, hcovers⟩ := h.member q hanswer
    refine ⟨hq, hcovers, ?_⟩
    intro hexists
    obtain ⟨r, hr, hrcovers, hlt⟩ := hexists
    exact absurd (h.longest q r hanswer hr hrcovers) (Nat.not_le.mpr hlt)
  · intro hboth
    obtain ⟨hq, hcovers, hnone⟩ := hboth
    cases hanswer : answer with
    | none => simp [h.nothing hanswer q hq] at hcovers
    | some r =>
      obtain ⟨hr, hrcovers⟩ := h.member r hanswer
      have hle : r.depth ≤ q.depth := Nat.not_lt.mp fun hlt => hnone ⟨r, hr, hrcovers, hlt⟩
      rw [Path.eq_of_covers_of_depth_le hrcovers hcovers hle (h.longest r q hanswer hq hcovers)]

theorem LongestCover.eq_none_iff (h : LongestCover family p answer) :
    answer = none ↔ ∀ r, family r → r.covers p = false := by
  constructor
  · exact h.nothing
  · intro hall
    apply Option.eq_none_iff_forall_ne_some.mpr
    intro q hanswer
    obtain ⟨hq, hcovers⟩ := h.member q hanswer
    simp [hall q hq] at hcovers

/-- There is only one answer with this meaning. -/
theorem LongestCover.unique {other : Option Path} (h : LongestCover family p answer)
    (hother : LongestCover family p other) : answer = other := by
  apply Option.ext
  intro q
  rw [h.eq_some_iff, hother.eq_some_iff]

/-- The nearest path of a family is the longest that covers `p`. -/
theorem longestCover_of_nearest (hsome : ∀ q, answer = some q → Path.Nearest family p q)
    (hnone : answer = none → ∀ r, family r → r.covers p = false) :
    LongestCover family p answer where
  member q hanswer := ⟨(hsome q hanswer).member, (hsome q hanswer).covers⟩
  longest q r hanswer hr hcovers :=
    Path.depth_le_of_covers ((hsome q hanswer).lowest r hr hcovers)
  nothing := hnone

theorem LongestCover.congr {other : Path → Prop} (h : LongestCover family p answer)
    (hsame : ∀ q, family q ↔ other q) : LongestCover other p answer := by
  have hfamily : family = other := funext fun q => propext (hsame q)
  rwa [← hfamily]

end

/-! ## Looking at every mount -/

/-- The path of a mount, if it covers `p` and is longer than the best one so far;
    otherwise the best one so far. -/
def keepLonger (p : Path) (best : Option Path) (m : Mount) : Option Path :=
  match Path.parse m.path with
  | .error _ => best
  | .ok q => if q.covers p && best.all fun b => b.depth < q.depth then some q else best

/-- The longest path of some mounts that covers `p`, found by looking at each of them. -/
def longestCover? (mounts : List Mount) (p : Path) : Option Path :=
  mounts.foldl (keepLonger p) none

/-- Some of the mounts has this path. -/
def AmongPaths (mounts : List Mount) (q : Path) : Prop := ∃ m ∈ mounts, m.path = q.text

theorem amongPaths_snoc_iff {mounts : List Mount} {m : Mount} {q : Path} :
    AmongPaths (mounts ++ [m]) q ↔ AmongPaths mounts q ∨ m.path = q.text := by
  simp [AmongPaths, or_and_right, exists_or]

/-- A path takes the place of the best so far. -/
theorem LongestCover.replace {seen : List Mount} {p q : Path} {best : Option Path}
    (h : LongestCover (AmongPaths seen) p best) {m : Mount} (hm : m.path = q.text)
    (hcovers : q.covers p = true) (hlonger : ∀ b, best = some b → b.depth < q.depth) :
    LongestCover (AmongPaths (seen ++ [m])) p (some q) where
  member r hr := by
    obtain rfl := Option.some.inj hr
    exact ⟨amongPaths_snoc_iff.mpr (Or.inr hm), hcovers⟩
  longest r r' hr hr' hrcovers := by
    obtain rfl := Option.some.inj hr
    rcases amongPaths_snoc_iff.mp hr' with hseen | hlast
    · cases hbest : best with
      | none => simp [h.nothing hbest r' hseen] at hrcovers
      | some b =>
        have hle := h.longest b r' hbest hseen hrcovers
        have hlt := hlonger b hbest
        omega
    · obtain rfl : q = r' := Path.text_inj.mp (hm.symm.trans hlast)
      exact Nat.le_refl _
  nothing hnone := by cases hnone

/-- The best so far stays the best beside a path that is no better. -/
theorem LongestCover.keep {seen : List Mount} {p : Path} {best : Option Path}
    (h : LongestCover (AmongPaths seen) p best) {m : Mount}
    (hworse : ∀ q : Path, m.path = q.text → q.covers p = true →
      ∃ b, best = some b ∧ q.depth ≤ b.depth) :
    LongestCover (AmongPaths (seen ++ [m])) p best where
  member q hq := by
    obtain ⟨hseen, hcovers⟩ := h.member q hq
    exact ⟨amongPaths_snoc_iff.mpr (Or.inl hseen), hcovers⟩
  longest q r hq hr hcovers := by
    rcases amongPaths_snoc_iff.mp hr with hseen | hlast
    · exact h.longest q r hq hseen hcovers
    · obtain ⟨b, hbest, hle⟩ := hworse r hlast hcovers
      obtain rfl := Option.some.inj (hq.symm.trans hbest)
      exact hle
  nothing hnone r hr := by
    rcases amongPaths_snoc_iff.mp hr with hseen | hlast
    · exact h.nothing hnone r hseen
    · apply Bool.eq_false_iff.mpr
      intro hcovers
      obtain ⟨b, hbest, -⟩ := hworse r hlast hcovers
      rw [hnone] at hbest
      cases hbest

/-- One mount more: its path, or still the best so far. -/
theorem LongestCover.snoc {seen : List Mount} {p : Path} {best : Option Path}
    (h : LongestCover (AmongPaths seen) p best) (m : Mount) :
    LongestCover (AmongPaths (seen ++ [m])) p (keepLonger p best m) := by
  unfold keepLonger
  cases hread : Path.parse m.path with
  | error fault =>
    apply h.keep
    intro q hq
    rw [hq, Path.parse_text] at hread
    cases hread
  | ok q =>
    have hm : m.path = q.text := (Path.parse_eq_ok_iff.mp hread).symm
    by_cases hbetter : q.covers p = true ∧ ∀ b, best = some b → b.depth < q.depth
    · have hif : (q.covers p && best.all fun b => b.depth < q.depth) = true := by
        simpa [Option.all_eq_true] using hbetter
      simp only [hif, if_true]
      exact h.replace hm hbetter.1 hbetter.2
    · have hif : (q.covers p && best.all fun b => b.depth < q.depth) = false := by
        rw [Bool.eq_false_iff]
        simpa [Option.all_eq_true] using hbetter
      simp only [hif, Bool.false_eq_true, if_false]
      apply h.keep
      intro r hr hcovers
      obtain rfl : q = r := Path.text_inj.mp (hm.symm.trans hr)
      obtain ⟨b, hb⟩ := Classical.not_forall.mp fun hall => hbetter ⟨hcovers, hall⟩
      obtain ⟨hbest, hnot⟩ := Classical.not_imp.mp hb
      exact ⟨b, hbest, Nat.not_lt.mp hnot⟩

theorem longestCover_foldl {seen : List Mount} {p : Path} {best : Option Path}
    (h : LongestCover (AmongPaths seen) p best) (mounts : List Mount) :
    LongestCover (AmongPaths (seen ++ mounts)) p (mounts.foldl (keepLonger p) best) := by
  induction mounts generalizing seen best with
  | nil => simpa using h
  | cons m mounts ih =>
    have hnext := ih (h.snoc m)
    rwa [List.append_assoc] at hnext

/-- The scan of a list finds the longest path in it that covers `p`. -/
theorem longestCover_longestCover? (mounts : List Mount) (p : Path) :
    LongestCover (AmongPaths mounts) p (longestCover? mounts p) := by
  have hstart : LongestCover (AmongPaths []) p none := by
    refine ⟨by simp, by simp, ?_⟩
    intro _ r hr
    simp [AmongPaths] at hr
  exact longestCover_foldl hstart mounts

/-! ## What a table answers -/

namespace Table

variable {t : Table}

theorem Consistent.longestCover_covering? (h : t.Consistent) (p : Path) :
    LongestCover t.Mounted p (t.covering? p) := by
  apply longestCover_of_nearest
  · intro q hq
    exact h.nearest_of_covering? hq
  · intro hnone r hr
    apply Bool.eq_false_iff.mpr
    intro hcovers
    exact h.not_mounted_of_covering?_eq_none hnone hcovers hr

theorem Consistent.longestCover_enclosing? (h : t.Consistent) (p : Path) :
    LongestCover (fun r => r ≠ p ∧ t.Mounted r) p (t.enclosing? p) := by
  apply longestCover_of_nearest
  · intro q hq
    exact h.enclosing?_eq_some_iff.mp hq
  · intro hnone r hr
    apply Bool.eq_false_iff.mpr
    intro hcovers
    obtain ⟨q, hq, -⟩ := h.exists_enclosing? hr.2 hcovers hr.1
    rw [hnone] at hq
    cases hq

theorem Consistent.amongPaths_list_iff (h : t.Consistent) {q : Path} :
    AmongPaths t.list q ↔ t.Mounted q :=
  h.isSome_get?_iff.symm

/-- The mount that covers a path is the one kept at the path that does. -/
theorem Consistent.exists_coveringMount? (h : t.Consistent) {p q : Path}
    (hq : t.covering? p = some q) :
    ∃ info, t.get? q.text = some info ∧ info.path = q.text ∧ t.coveringMount? p = some info := by
  obtain ⟨info, hinfo⟩ := mounted_iff_exists.mp (h.nearest_of_covering? hq).member
  refine ⟨info, hinfo, (h.keyed q.text info hinfo).1, ?_⟩
  simp [coveringMount?, hq, hinfo]

/-- In every table that comes from a new one by mounting and unmounting, for every path:
    the answer is the mount point that covers it and is not shorter than any other that
    does, and nothing exactly if none does. The answer reads back as itself, and the
    mount that covers the path is the one kept there. What encloses the path is the same
    answer among the mount points other than the path itself, so nothing encloses the
    root. To look at every mount of the list and to keep the longest path that covers
    gives the same answer. -/
theorem Reachable.covering_deepest (h : t.Reachable) (p : Path) :
    (∀ q, t.covering? p = some q ↔ t.Mounted q ∧ q.covers p = true ∧
      ¬ ∃ r, t.Mounted r ∧ r.covers p = true ∧ q.depth < r.depth) ∧
    (t.covering? p = none ↔ ∀ r, t.Mounted r → r.covers p = false) ∧
    (∀ q, t.covering? p = some q → Path.parse q.text = .ok q ∧
      ∃ info, t.get? q.text = some info ∧ info.path = q.text ∧ t.coveringMount? p = some info) ∧
    (t.covering? p = none → t.coveringMount? p = none) ∧
    (∀ q, t.enclosing? p = some q ↔ (q ≠ p ∧ t.Mounted q) ∧ q.covers p = true ∧
      ¬ ∃ r, (r ≠ p ∧ t.Mounted r) ∧ r.covers p = true ∧ q.depth < r.depth) ∧
    (t.enclosing? p = none ↔ ∀ r, r ≠ p ∧ t.Mounted r → r.covers p = false) ∧
    t.enclosing? .root = none ∧
    t.covering? p = longestCover? t.list p := by
  have hc := h.consistent
  have hcovering := hc.longestCover_covering? p
  have henclosing := hc.longestCover_enclosing? p
  refine ⟨fun q => hcovering.eq_some_iff, hcovering.eq_none_iff, ?_, ?_,
    fun q => henclosing.eq_some_iff, henclosing.eq_none_iff, ?_, ?_⟩
  · intro q hq
    exact ⟨Path.parse_text q, hc.exists_coveringMount? hq⟩
  · intro hnone
    simp [coveringMount?, hnone]
  · simp [enclosing?]
  · have hscan := longestCover_longestCover? t.list p
    exact hcovering.unique (hscan.congr fun q => hc.amongPaths_list_iff)

/-- A name that begins like another one is not beneath it, and neither is a path beneath
    the segments that only lead to a mount point. -/
theorem covering_beside_longer_name :
    let a : Path := .cons "a" (by decide) .root
    let ab : Path := .cons "ab" (by decide) .root
    let abc : Path := .cons "a" (by decide) (.cons "b" (by decide) (.cons "c" (by decide) .root))
    let x : Path := .cons "a" (by decide) (.cons "b" (by decide) (.cons "x" (by decide) .root))
    let t := ((Table.empty.change (.mount abc "s3://c")).change (.mount a "s3://a")).change
      (.mount ab "s3://ab")
    (¬ ∃ r, t.Mounted r ∧ r.covers x = true ∧ a.depth < r.depth) ∧
      t.coveringMount? x = some ⟨"/a", "s3://a"⟩ ∧ longestCover? t.list x = some a ∧
      (∀ r, r ≠ ab ∧ t.Mounted r → r.covers ab = false) := by
  intro a ab abc x t
  have ht : t.Reachable := .change _ (.change _ (.change _ .empty))
  obtain ⟨hsome, -, hmount, -, -, -, -, hscan⟩ := ht.covering_deepest x
  obtain ⟨-, -, -, -, -, hnone, -, -⟩ := ht.covering_deepest ab
  have hx : t.covering? x = some a := by decide +kernel
  refine ⟨((hsome a).mp hx).2.2, ?_, hscan.symm.trans hx, hnone.mp (by decide +kernel)⟩
  obtain ⟨-, info, hinfo, -, hcovering⟩ := hmount a hx
  have hkept : t.get? a.text = some ⟨"/a", "s3://a"⟩ := by decide +kernel
  rw [hcovering, ← hinfo, hkept]

end Table

end NearestMount
