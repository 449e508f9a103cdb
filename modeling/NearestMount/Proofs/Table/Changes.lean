import NearestMount.Proofs.Table.Answers

/-! # What a change of the mounts changes

    Mounting or unmounting at a path changes the answers for few paths only.

    - `covering?_register` and `covering?_withdraw`: what covers a path changes only
      where the answer was what encloses the changed path, or the changed path itself.
    - `hasBeneath_register` and `hasBeneath_withdraw`: of the mount points only the one
      that encloses the changed path can gain or lose its last mount beneath.
    - `Reachable.changes_are_local` puts this together for every table and every path.
-/

namespace NearestMount.Table

variable {t : Table}

/-! ## What covers a path -/

/-- Beneath a path that is not mounted the answer is what encloses that path, unless
    there is a mount point in between. -/
theorem Consistent.covering?_cases (h : t.Consistent) {target p : Path}
    (hnew : ¬ t.Mounted target) (hbeneath : target.covers p = true) :
    (t.covering? p = t.enclosing? target ∧
      ∀ r, t.Mounted r → r.covers p = true → r.covers target = true) ∨
    (t.covering? p ≠ t.enclosing? target ∧
      ∃ q, Path.Nearest t.Mounted p q ∧ target.covers q = true) := by
  by_cases hbetween : ∃ r, t.Mounted r ∧ r.covers p = true ∧ target.covers r = true
  · right
    obtain ⟨r, hr, hrcovers, hrbelow⟩ := hbetween
    cases hfound : t.covering? p with
    | none => exact absurd hr (h.not_mounted_of_covering?_eq_none hfound hrcovers)
    | some q =>
      have hnearest := h.nearest_of_covering? hfound
      have hlow := Path.covers_trans hrbelow (hnearest.lowest r hr hrcovers)
      refine ⟨?_, q, hnearest, hlow⟩
      intro hsame
      -- what encloses `target` lies strictly above it
      have hencloses := h.enclosing?_eq_some_iff.mp hsame.symm
      exact hencloses.member.1 (Path.covers_antisymm hencloses.covers hlow)
  · left
    have hall : ∀ r, t.Mounted r → r.covers p = true → r.covers target = true := by
      intro r hr hrcovers
      rcases Path.covers_total hrcovers hbeneath with hhigh | hlow
      · exact hhigh
      · exact absurd ⟨r, hr, hrcovers, hlow⟩ hbetween
    refine ⟨?_, hall⟩
    apply Option.ext
    intro q
    rw [h.covering?_eq_some_iff, h.enclosing?_eq_some_iff]
    constructor
    · intro hq
      refine ⟨⟨?_, hq.member⟩, hall q hq.member hq.covers, ?_⟩
      · intro heq
        exact hnew (heq ▸ hq.member)
      · intro r hfamily hrcovers
        obtain ⟨-, hr⟩ := hfamily
        exact hq.lowest r hr (Path.covers_trans hrcovers hbeneath)
    · intro hq
      refine ⟨hq.member.2, Path.covers_trans hq.covers hbeneath, ?_⟩
      intro r hr hrcovers
      apply hq.lowest r ⟨?_, hr⟩ (hall r hr hrcovers)
      intro heq
      exact hnew (heq ▸ hr)

/-- A path that is not mounted is covered by what encloses it. -/
theorem Consistent.covering?_of_not_mounted (h : t.Consistent) {p : Path}
    (hnew : ¬ t.Mounted p) : t.covering? p = t.enclosing? p := by
  rcases h.covering?_cases hnew (Path.covers_self p) with ⟨hsame, -⟩ | ⟨-, q, hq, hlow⟩
  · exact hsame
  · -- only `p` itself lies both above and beneath `p`
    exact absurd (Path.covers_antisymm hq.covers hlow ▸ hq.member) hnew

/-- A path that is newly mounted takes over the paths beneath it that had been covered
    by what encloses it. -/
theorem Consistent.covering?_register (h : t.Consistent) {target : Path} {ufs : String}
    (hnew : ¬ t.Mounted target) (p : Path) :
    (t.register target ufs).covering? p =
      if target.covers p = true ∧ t.covering? p = t.enclosing? target then some target
      else t.covering? p := by
  have hafter := h.register target ufs
  by_cases hbeneath : target.covers p = true
  · rcases h.covering?_cases hnew hbeneath with ⟨hold, hall⟩ | ⟨hold, q, hq, hlow⟩
    · rw [if_pos ⟨hbeneath, hold⟩, hafter.covering?_eq_some_iff]
      refine ⟨mounted_register.mpr (Or.inl rfl), hbeneath, ?_⟩
      intro r hr hrcovers
      rcases mounted_register.mp hr with rfl | hrbefore
      · exact Path.covers_self r
      · exact hall r hrbefore hrcovers
    · rw [if_neg fun hboth => hold hboth.2, h.covering?_eq_some_iff.mpr hq,
        hafter.covering?_eq_some_iff]
      refine ⟨mounted_register.mpr (Or.inr hq.member), hq.covers, ?_⟩
      intro r hr hrcovers
      rcases mounted_register.mp hr with rfl | hrbefore
      · exact hlow
      · exact hq.lowest r hrbefore hrcovers
  · rw [if_neg fun hboth => hbeneath hboth.1]
    apply hafter.covering?_congr h
    intro r hrcovers
    -- the new mount point is not among those that could cover `p`
    have hne : r ≠ target := by
      intro heq
      exact hbeneath (heq ▸ hrcovers)
    simp [mounted_register, hne]

/-- What encloses a path does not depend on whether the path itself is mounted. -/
theorem enclosing?_congr {u : Table} (ht : t.Consistent) (hu : u.Consistent) {p : Path}
    (hsame : ∀ r, r ≠ p → (t.Mounted r ↔ u.Mounted r)) : t.enclosing? p = u.enclosing? p := by
  apply Option.ext
  intro q
  rw [ht.enclosing?_eq_some_iff, hu.enclosing?_eq_some_iff]
  apply Path.nearest_congr
  intro r _
  exact and_congr_right fun hne => hsame r hne

theorem Consistent.enclosing?_register (h : t.Consistent) (target : Path) (ufs : String) :
    (t.register target ufs).enclosing? target = t.enclosing? target := by
  apply enclosing?_congr (h.register target ufs) h
  intro r hne
  simp [mounted_register, hne]

theorem Consistent.enclosing?_withdraw (h : t.Consistent) {target : Path}
    (hmounted : t.Mounted target) (hp : ¬ (target = .root ∧ t.pinnedRoot = true)) :
    (t.withdraw target).enclosing? target = t.enclosing? target := by
  apply enclosing?_congr (h.withdraw hmounted hp) h
  intro r hne
  simp [mounted_withdraw, hne]

/-- The paths that a mount covered fall to what encloses it. -/
theorem Consistent.covering?_withdraw (h : t.Consistent) {target : Path}
    (hmounted : t.Mounted target) (hp : ¬ (target = .root ∧ t.pinnedRoot = true)) (p : Path) :
    (t.withdraw target).covering? p =
      if t.covering? p = some target then t.enclosing? target else t.covering? p := by
  have hafter := h.withdraw hmounted hp
  -- the table before is the one after with `target` mounted again
  have hsame : ∀ r, ((t.withdraw target).register target "").Mounted r ↔ t.Mounted r := by
    intro r
    rw [mounted_register, mounted_withdraw]
    by_cases heq : r = target
    · subst heq
      simp [hmounted]
    · simp [heq]
  have hback : ((t.withdraw target).register target "").covering? p = t.covering? p :=
    (hafter.register target "").covering?_congr h fun r _ => hsame r
  have hgone : ¬ (t.withdraw target).Mounted target := by simp [mounted_withdraw]
  rw [← hback, hafter.covering?_register hgone, ← h.enclosing?_withdraw hmounted hp]
  split
  · next hboth => rw [if_pos rfl, hboth.2]
  · rw [if_neg]
    intro hfound
    exact hgone (hafter.nearest_of_covering? hfound).member

/-- What covers a path changes exactly if it is what is gone: nothing encloses itself. -/
theorem Consistent.covering?_withdraw_eq_iff (h : t.Consistent) {target : Path}
    (hmounted : t.Mounted target) (hp : ¬ (target = .root ∧ t.pinnedRoot = true)) {p : Path} :
    (t.withdraw target).covering? p = t.covering? p ↔ t.covering? p ≠ some target := by
  rw [h.covering?_withdraw hmounted hp]
  split
  · next hcovered =>
    rw [hcovered]
    refine iff_of_false ?_ (not_not_intro rfl)
    intro hself
    exact (h.enclosing?_eq_some_iff.mp hself).member.1 rfl
  · next hother => exact iff_of_true rfl hother

/-! ## What lies beneath a mount point -/

/-- Above a path, beneath a mount point that does not enclose it most closely, there is
    the mount point that does. -/
theorem Consistent.hasBeneath_of_covers (h : t.Consistent) {target q : Path}
    (hq : t.Mounted q) (hcovers : q.covers target = true) (hne : q ≠ target)
    (hother : t.enclosing? target ≠ some q) :
    ∃ parent, t.Mounted parent ∧ q.covers parent = true ∧ parent ≠ q ∧ parent ≠ target := by
  obtain ⟨parent, hparent, hqparent⟩ := h.exists_enclosing? hq hcovers hne
  have hnearest := h.enclosing?_eq_some_iff.mp hparent
  refine ⟨parent, hnearest.member.2, hqparent, ?_, hnearest.member.1⟩
  intro heq
  subst heq
  exact hother hparent

theorem Consistent.hasBeneath_register_iff (h : t.Consistent) {target q : Path} {ufs : String} :
    (t.register target ufs).hasBeneath q = true ↔
      t.hasBeneath q = true ∨ (q.covers target = true ∧ q ≠ target) := by
  rw [(h.register target ufs).hasBeneath_iff, h.hasBeneath_iff]
  constructor
  · intro hexists
    obtain ⟨r, hr, hcovers, hne⟩ := hexists
    rcases mounted_register.mp hr with rfl | hbefore
    · exact Or.inr ⟨hcovers, Ne.symm hne⟩
    · exact Or.inl ⟨r, hbefore, hcovers, hne⟩
  · intro hcase
    rcases hcase with ⟨r, hr, hcovers, hne⟩ | ⟨hcovers, hne⟩
    · exact ⟨r, mounted_register.mpr (Or.inr hr), hcovers, hne⟩
    · exact ⟨target, mounted_register.mpr (Or.inl rfl), hcovers, Ne.symm hne⟩

theorem Consistent.hasBeneath_withdraw_iff (h : t.Consistent) {target q : Path}
    (hmounted : t.Mounted target) (hp : ¬ (target = .root ∧ t.pinnedRoot = true)) :
    (t.withdraw target).hasBeneath q = true ↔
      ∃ r, t.Mounted r ∧ q.covers r = true ∧ r ≠ q ∧ r ≠ target := by
  rw [(h.withdraw hmounted hp).hasBeneath_iff]
  constructor
  · intro hexists
    obtain ⟨r, hr, hcovers, hne⟩ := hexists
    obtain ⟨hrtarget, hbefore⟩ := mounted_withdraw.mp hr
    exact ⟨r, hbefore, hcovers, hne, hrtarget⟩
  · intro hexists
    obtain ⟨r, hr, hcovers, hne, hrtarget⟩ := hexists
    exact ⟨r, mounted_withdraw.mpr ⟨hrtarget, hr⟩, hcovers, hne⟩

/-- What encloses a newly mounted path has something beneath. -/
theorem Consistent.hasBeneath_enclosing? (h : t.Consistent) {target parent : Path} {ufs : String}
    (hparent : t.enclosing? target = some parent) :
    (t.register target ufs).hasBeneath parent = true := by
  have hnearest := h.enclosing?_eq_some_iff.mp hparent
  exact h.hasBeneath_register_iff.mpr (Or.inr ⟨hnearest.covers, hnearest.member.1⟩)

/-- Mounting leaves every other mount point as it was: one further up already has a
    mount point beneath. -/
theorem Consistent.hasBeneath_register (h : t.Consistent) {target q : Path} {ufs : String}
    (hq : t.Mounted q) (hother : t.enclosing? target ≠ some q) (hne : q ≠ target) :
    (t.register target ufs).hasBeneath q = t.hasBeneath q := by
  rw [Bool.eq_iff_iff, h.hasBeneath_register_iff]
  constructor
  · intro hcase
    rcases hcase with hbefore | ⟨hcovers, -⟩
    · exact hbefore
    · obtain ⟨parent, hparent, hqparent, hpq, -⟩ := h.hasBeneath_of_covers hq hcovers hne hother
      exact h.hasBeneath_iff.mpr ⟨parent, hparent, hqparent, hpq⟩
  · exact Or.inl

/-- Unmounting leaves every other mount point as it was: one further up keeps a mount
    point beneath. -/
theorem Consistent.hasBeneath_withdraw (h : t.Consistent) {target q : Path}
    (hmounted : t.Mounted target) (hp : ¬ (target = .root ∧ t.pinnedRoot = true))
    (hq : t.Mounted q) (hother : t.enclosing? target ≠ some q) (hne : q ≠ target) :
    (t.withdraw target).hasBeneath q = t.hasBeneath q := by
  rw [Bool.eq_iff_iff, h.hasBeneath_withdraw_iff hmounted hp, h.hasBeneath_iff]
  constructor
  · intro hexists
    obtain ⟨r, hr, hcovers, hrq, -⟩ := hexists
    exact ⟨r, hr, hcovers, hrq⟩
  · intro hexists
    obtain ⟨r, hr, hcovers, hrq⟩ := hexists
    by_cases hrtarget : r = target
    · subst hrtarget
      obtain ⟨parent, hparent, hqparent, hpq, hpr⟩ := h.hasBeneath_of_covers hq hcovers hne hother
      exact ⟨parent, hparent, hqparent, hpq, hpr⟩
    · exact ⟨r, hr, hcovers, hrq, hrtarget⟩

/-! ## One change, seen from every path -/

/-- A mount at `target` takes `p` over: it covers `p`, and what has covered `p` so far, if
    anything has, lies strictly above it. -/
def TakesOver (t : Table) (target p : Path) : Prop :=
  target.covers p = true ∧
    (t.covering? p = none ∨
      ∃ q, t.covering? p = some q ∧ q.covers target = true ∧ q ≠ target)

/-- What is taken over was covered by what encloses the new mount point. -/
theorem Consistent.takesOver_iff (h : t.Consistent) {target p : Path}
    (hnew : ¬ t.Mounted target) :
    t.TakesOver target p ↔ target.covers p = true ∧ t.covering? p = t.enclosing? target := by
  constructor
  · intro htakes
    obtain ⟨hbeneath, habove⟩ := htakes
    refine ⟨hbeneath, ?_⟩
    rcases h.covering?_cases hnew hbeneath with ⟨hold, -⟩ | ⟨-, q, hq, hlow⟩
    · exact hold
    · -- a mount point in between would lie above and beneath `target`
      have hfound := h.covering?_eq_some_iff.mpr hq
      rcases habove with hnone | ⟨r, hr, hcovers, hne⟩
      · rw [hnone] at hfound
        cases hfound
      · obtain rfl : r = q := Option.some.inj (hr.symm.trans hfound)
        exact absurd (Path.covers_antisymm hcovers hlow) hne
  · intro hboth
    obtain ⟨hbeneath, hold⟩ := hboth
    refine ⟨hbeneath, ?_⟩
    cases hfound : t.covering? p with
    | none => exact Or.inl rfl
    | some q =>
      have hencloses := h.enclosing?_eq_some_iff.mp (hold.symm.trans hfound)
      exact Or.inr ⟨q, rfl, hencloses.covers, hencloses.member.1⟩

/-- In every table that comes from a new one by mounting and unmounting, and for every
    path `target`.

    A mount at `target` takes over just the paths beneath it that were covered by nothing
    or by a mount point strictly above it, and that was what encloses `target`; for every
    other path the answer stays. After an unmount the paths that were covered by `target`
    are covered by what encloses it, and for every other path the answer stays. What
    encloses `target` is the same before and after; and of the other mount points it is
    the only one for which it can change whether anything lies beneath. -/
theorem Reachable.changes_are_local (h : t.Reachable) (target : Path) :
    (∀ ufs info after, t.mount target ufs = .ok (info, after) →
      after.enclosing? target = t.enclosing? target ∧
      (∀ p, t.TakesOver target p →
        after.covering? p = some target ∧ t.covering? p = t.enclosing? target) ∧
      (∀ p, ¬ t.TakesOver target p → after.covering? p = t.covering? p) ∧
      ∀ q, q ≠ target → t.Mounted q ∨ after.Mounted q →
        after.hasBeneath q ≠ t.hasBeneath q → t.enclosing? target = some q) ∧
    (∀ info after, t.unmount target = .ok (info, after) →
      after.enclosing? target = t.enclosing? target ∧
      (∀ p, t.covering? p = some target → after.covering? p = t.enclosing? target) ∧
      (∀ p, t.covering? p ≠ some target → after.covering? p = t.covering? p) ∧
      ∀ q, q ≠ target → t.Mounted q ∨ after.Mounted q →
        after.hasBeneath q ≠ t.hasBeneath q → t.enclosing? target = some q) := by
  have hc := h.consistent
  constructor
  · intro ufs info after hmount
    obtain ⟨hnew, -, rfl⟩ := mount_cases hmount
    refine ⟨hc.enclosing?_register target ufs, ?_, ?_, ?_⟩
    · intro p htakes
      have hboth := (hc.takesOver_iff hnew).mp htakes
      exact ⟨by rw [hc.covering?_register hnew, if_pos hboth], hboth.2⟩
    · intro p hnot
      rw [hc.takesOver_iff hnew] at hnot
      rw [hc.covering?_register hnew, if_neg hnot]
    · intro q hne hq hchanged
      have hbefore : t.Mounted q := hq.elim id fun hafter =>
        (mounted_register.mp hafter).resolve_left hne
      by_cases hparent : t.enclosing? target = some q
      · exact hparent
      · exact absurd (hc.hasBeneath_register hbefore hparent hne) hchanged
  · intro info after hunmount
    obtain ⟨hp, hget, rfl⟩ := unmount_cases hunmount
    have hmounted : t.Mounted target := mounted_iff_exists.mpr ⟨info, hget⟩
    refine ⟨hc.enclosing?_withdraw hmounted hp, ?_, ?_, ?_⟩
    · intro p hcovered
      rw [hc.covering?_withdraw hmounted hp, if_pos hcovered]
    · intro p hcovered
      rw [hc.covering?_withdraw hmounted hp, if_neg hcovered]
    · intro q hne hq hchanged
      have hbefore : t.Mounted q := hq.elim id fun hafter => (mounted_withdraw.mp hafter).2
      by_cases hparent : t.enclosing? target = some q
      · exact hparent
      · exact absurd (hc.hasBeneath_withdraw hmounted hp hbefore hparent hne) hchanged

/-- A mount between two others takes over what lies beneath it and not beneath the lower
    one, and an unmount of it gives that back to the upper one. -/
theorem changes_between_two_mounts :
    let a : Path := .cons "a" (by decide) .root
    let ab : Path := .cons "a" (by decide) (.cons "b" (by decide) .root)
    let abc : Path := .cons "a" (by decide) (.cons "b" (by decide) (.cons "c" (by decide) .root))
    let x : Path := .cons "a" (by decide) (.cons "b" (by decide) (.cons "x" (by decide) .root))
    let t := (Table.empty.change (.mount abc "s3://c")).change (.mount a "s3://a")
    let u := t.register ab "s3://b"
    t.covering? x = some a ∧ u.covering? x = some ab ∧ u.covering? abc = some abc ∧
      u.hasBeneath abc = t.hasBeneath abc ∧ (u.withdraw ab).covering? x = some a := by
  intro a ab abc x t u
  have ht : t.Reachable := .change _ (.change _ .empty)
  have hmount : t.mount ab "s3://b" = .ok (⟨ab.text, "s3://b"⟩, u) :=
    mount_of_not_mounted (by decide +kernel)
  have hu : u.Reachable := by
    have hchange : t.change (.mount ab "s3://b") = u := by simp only [change, hmount]
    exact hchange ▸ .change _ ht
  have hunmount : u.unmount ab = .ok (⟨ab.text, "s3://b"⟩, u.withdraw ab) :=
    unmount_of_get? (by decide +kernel) (by decide +kernel)
  obtain ⟨-, htakes, hkeeps, hbeneath⟩ := (ht.changes_are_local ab).1 _ _ _ hmount
  obtain ⟨-, hgives, -, -⟩ := (hu.changes_are_local ab).2 _ _ hunmount
  have hx : t.covering? x = some a := by decide +kernel
  have hxab : u.covering? x = some ab := (htakes x ⟨rfl, Or.inr ⟨a, hx, rfl, by decide⟩⟩).1
  have habc : t.covering? abc = some abc := by decide +kernel
  have hnot : ¬ t.TakesOver ab abc := by
    rintro ⟨-, hnone | ⟨q, hq, hcovers, -⟩⟩
    · rw [habc] at hnone
      cases hnone
    · obtain rfl := Option.some.inj (habc.symm.trans hq)
      exact absurd hcovers (by decide)
  have henclosing : u.enclosing? ab = some a := by decide +kernel
  refine ⟨hx, hxab, (hkeeps abc hnot).trans habc, ?_, (hgives x hxab).trans henclosing⟩
  apply Decidable.byContradiction
  intro hchanged
  have hencloses := hbeneath abc (by decide) (Or.inl (by decide +kernel)) hchanged
  exact absurd hencloses (by decide +kernel)

end NearestMount.Table
