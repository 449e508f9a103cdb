import NearestMount.Table.Lemmas
import NearestMount.Proofs.Path.Ancestry
import NearestMount.Proofs.Trie.Pruned

/-! # The two halves of a table

    A table is **consistent** if its index holds the segments of exactly the paths at
    which something is mounted, and nothing else is left in either half. New tables are
    consistent, and mounting and unmounting keep them so (`Consistent.register`,
    `Consistent.withdraw`), so every table that is ever reached is consistent
    (`Reachable.consistent`).
-/

namespace NearestMount.Table

/-! ## What is mounted -/

/-- Something is mounted at `p`. -/
def Mounted (t : Table) (p : Path) : Prop := (t.get? p.text).isSome = true

instance (t : Table) (p : Path) : Decidable (t.Mounted p) :=
  inferInstanceAs (Decidable (_ = _))

theorem not_mounted_empty (p : Path) : ¬ empty.Mounted p := by
  simp [Mounted]

theorem mounted_iff_exists {t : Table} {p : Path} :
    t.Mounted p ↔ ∃ info, t.get? p.text = some info :=
  Option.isSome_iff_exists

theorem not_mounted_iff {t : Table} {p : Path} : ¬ t.Mounted p ↔ t.get? p.text = none := by
  simp [Mounted]

theorem mounted_register {t : Table} {p q : Path} {ufs : String} :
    (t.register p ufs).Mounted q ↔ q = p ∨ t.Mounted q := by
  unfold Mounted
  rw [get?_register]
  by_cases h : p = q
  · subst h
    simp
  · simp [Path.text_inj, h, Ne.symm h]

/-- The table without what is mounted at `p`. -/
def withdraw (t : Table) (p : Path) : Table :=
  { t with
    mounts := t.mounts.erase p.text
    index := ((t.index.remove? p.segments).map (·.2)).getD t.index }

@[simp] theorem pinnedRoot_withdraw (t : Table) (p : Path) :
    (t.withdraw p).pinnedRoot = t.pinnedRoot := rfl

theorem get?_withdraw (t : Table) (p : Path) (path : String) :
    (t.withdraw p).get? path = if p.text = path then none else t.get? path := by
  simp [get?, withdraw, Std.ExtTreeMap.getElem?_erase]

theorem mounted_withdraw {t : Table} {p q : Path} :
    (t.withdraw p).Mounted q ↔ q ≠ p ∧ t.Mounted q := by
  unfold Mounted
  rw [get?_withdraw]
  by_cases h : p = q
  · subst h
    simp
  · simp [Path.text_inj, h, Ne.symm h]

/-! ## What mounting and unmounting can answer -/

theorem mount_of_mounted {t : Table} {p : Path} {ufs : String} (h : t.Mounted p) :
    t.mount p ufs = .error (.occupied p.text) := by
  rw [mount_eq]
  exact if_pos h

theorem mount_of_not_mounted {t : Table} {p : Path} {ufs : String} (h : ¬ t.Mounted p) :
    t.mount p ufs = .ok (⟨p.text, ufs⟩, t.register p ufs) := by
  rw [mount_eq]
  exact if_neg h

theorem unmount_of_pinned {t : Table} (h : t.pinnedRoot = true) :
    t.unmount .root = .error .rootPinned := by
  have hroot : Path.root.isRoot = true := rfl
  simp [unmount, h, hroot]

theorem unmount_of_not_mounted {t : Table} {p : Path} (hp : ¬ (p = .root ∧ t.pinnedRoot = true))
    (h : ¬ t.Mounted p) : t.unmount p = .error (.vacant p.text) := by
  have hpinned : (p.isRoot && t.pinnedRoot) = false := by
    rw [Bool.eq_false_iff, Ne, Bool.and_eq_true, Path.isRoot_iff]
    exact hp
  simp [unmount, hpinned, not_mounted_iff.mp h]

theorem unmount_of_get? {t : Table} {p : Path} {info : Mount}
    (hp : ¬ (p = .root ∧ t.pinnedRoot = true)) (h : t.get? p.text = some info) :
    t.unmount p = .ok (info, t.withdraw p) := by
  have hpinned : (p.isRoot && t.pinnedRoot) = false := by
    rw [Bool.eq_false_iff, Ne, Bool.and_eq_true, Path.isRoot_iff]
    exact hp
  simp [unmount, hpinned, h, withdraw]

/-- All that mounting can do. -/
theorem mount_cases {t after : Table} {p : Path} {ufs : String} {info : Mount}
    (h : t.mount p ufs = .ok (info, after)) :
    ¬ t.Mounted p ∧ info = ⟨p.text, ufs⟩ ∧ after = t.register p ufs := by
  by_cases hmounted : t.Mounted p
  · rw [mount_of_mounted hmounted] at h
    cases h
  · rw [mount_of_not_mounted hmounted] at h
    cases h
    exact ⟨hmounted, rfl, rfl⟩

/-- All that unmounting can do. -/
theorem unmount_cases {t after : Table} {p : Path} {info : Mount}
    (h : t.unmount p = .ok (info, after)) :
    ¬ (p = .root ∧ t.pinnedRoot = true) ∧ t.get? p.text = some info ∧ after = t.withdraw p := by
  have hget := get?_eq_of_unmount h
  have hpinned : ¬ (p = .root ∧ t.pinnedRoot = true) := by
    intro hboth
    obtain ⟨rfl, hpinned⟩ := hboth
    rw [unmount_of_pinned hpinned] at h
    cases h
  rw [unmount_of_get? hpinned hget] at h
  cases h
  exact ⟨hpinned, hget, rfl⟩

/-! ## The invariant -/

/-- The halves of a table agree, and neither holds more than it should. -/
structure Consistent (t : Table) : Prop where
  /-- A mount is kept under its own path, which is the written form of a path. -/
  keyed : ∀ path info, t.get? path = some info → info.path = path ∧ ∃ p : Path, p.text = path
  /-- The index holds the segments of the mount points. -/
  holds_iff : ∀ sequence, t.index.Holds sequence ↔ ∃ p : Path, p.segments = sequence ∧ t.Mounted p
  /-- Every leaf of the index but its root is terminal. -/
  pruned : t.index.Pruned
  /-- A root that is mounted for good is mounted. -/
  pinned : t.pinnedRoot = true → t.Mounted .root

theorem Consistent.holds_segments_iff {t : Table} (h : t.Consistent) {p : Path} :
    t.index.Holds p.segments ↔ t.Mounted p := by
  rw [h.holds_iff]
  constructor
  · intro hexists
    obtain ⟨q, hq, hmounted⟩ := hexists
    rwa [← Path.ext hq]
  · intro hmounted
    exact ⟨p, rfl, hmounted⟩

theorem consistent_empty : empty.Consistent where
  keyed path info h := by simp at h
  holds_iff sequence := by
    constructor
    · intro h
      rw [Trie.Holds, empty, Trie.flag?_empty] at h
      split at h <;> cases h
    · intro hexists
      obtain ⟨p, -, hmounted⟩ := hexists
      exact absurd hmounted (not_mounted_empty p)
  pruned := Trie.pruned_empty
  pinned h := by cases h

theorem Consistent.register {t : Table} (h : t.Consistent) (p : Path) (ufs : String) :
    (t.register p ufs).Consistent where
  keyed path info hget := by
    rw [get?_register] at hget
    split at hget
    · next heq =>
      cases hget
      exact ⟨heq, p, heq⟩
    · exact h.keyed path info hget
  holds_iff sequence := by
    rw [holds_index_register, h.holds_iff]
    constructor
    · intro hcase
      rcases hcase with rfl | ⟨q, hq, hmounted⟩
      · exact ⟨p, rfl, mounted_register.mpr (Or.inl rfl)⟩
      · exact ⟨q, hq, mounted_register.mpr (Or.inr hmounted)⟩
    · intro hexists
      obtain ⟨q, hq, hmounted⟩ := hexists
      rcases mounted_register.mp hmounted with rfl | hbefore
      · exact Or.inl hq.symm
      · exact Or.inr ⟨q, hq, hbefore⟩
  pruned := h.pruned.insert p.segments
  pinned hpinned := mounted_register.mpr (Or.inr (h.pinned hpinned))

/-- What is mounted can be found in the index to be withdrawn from it. -/
theorem Consistent.exists_remove? {t : Table} (h : t.Consistent) {p : Path}
    (hmounted : t.Mounted p) :
    ∃ removed index, t.index.remove? p.segments = some (removed, index) := by
  have hsome := Trie.isSome_remove?_iff_holds.mpr (h.holds_segments_iff.mpr hmounted)
  obtain ⟨⟨removed, index⟩, hremove⟩ := Option.isSome_iff_exists.mp hsome
  exact ⟨removed, index, hremove⟩

theorem Consistent.withdraw {t : Table} (h : t.Consistent) {p : Path} (hmounted : t.Mounted p)
    (hp : ¬ (p = .root ∧ t.pinnedRoot = true)) : (t.withdraw p).Consistent := by
  obtain ⟨removed, index, hremove⟩ := h.exists_remove? hmounted
  have hindex : (t.withdraw p).index = index := by simp [Table.withdraw, hremove]
  refine ⟨?_, ?_, ?_, ?_⟩
  · -- the mounts that are left are those from before
    intro path info hget
    rw [get?_withdraw] at hget
    split at hget
    · cases hget
    · exact h.keyed path info hget
  · -- one sequence leaves the index, and paths with the same segments are equal
    intro sequence
    rw [hindex, Trie.holds_of_remove?_iff hremove, h.holds_iff]
    constructor
    · intro hboth
      obtain ⟨hne, q, rfl, hq⟩ := hboth
      refine ⟨q, rfl, mounted_withdraw.mpr ⟨?_, hq⟩⟩
      intro heq
      subst heq
      exact hne rfl
    · intro hexists
      obtain ⟨q, rfl, hq⟩ := hexists
      obtain ⟨hne, hbefore⟩ := mounted_withdraw.mp hq
      exact ⟨fun heq => hne (Path.ext heq), q, rfl, hbefore⟩
  · rw [hindex]
    exact h.pruned.remove? hremove
  · -- a root that is mounted for good is not what is withdrawn
    intro hpinned
    rw [pinnedRoot_withdraw] at hpinned
    refine mounted_withdraw.mpr ⟨?_, h.pinned hpinned⟩
    intro heq
    subst heq
    exact hp ⟨rfl, hpinned⟩

theorem consistent_withRoot (ufs : String) : (withRoot ufs).Consistent := by
  have h := consistent_empty.register .root ufs
  exact ⟨h.keyed, h.holds_iff, h.pruned, fun _ => mounted_register.mpr (Or.inl rfl)⟩

theorem Consistent.mount {t after : Table} {p : Path} {ufs : String} {info : Mount}
    (h : t.Consistent) (hmount : t.mount p ufs = .ok (info, after)) : after.Consistent := by
  obtain ⟨-, -, rfl⟩ := mount_cases hmount
  exact h.register p ufs

theorem Consistent.unmount {t after : Table} {p : Path} {info : Mount}
    (h : t.Consistent) (hunmount : t.unmount p = .ok (info, after)) : after.Consistent := by
  obtain ⟨hp, hget, rfl⟩ := unmount_cases hunmount
  exact h.withdraw (mounted_iff_exists.mpr ⟨info, hget⟩) hp

/-! ## Histories of a table -/

/-- A call that changes a table, unless it is refused. -/
inductive Change where
  | mount (p : Path) (ufs : String)
  | unmount (p : Path)

/-- The table after a call; one that is refused leaves it as it was. -/
def change (t : Table) : Change → Table
  | .mount p ufs =>
    match t.mount p ufs with
    | .ok (_, after) => after
    | .error _ => t
  | .unmount p =>
    match t.unmount p with
    | .ok (_, after) => after
    | .error _ => t

/-- The tables that come from a new one by any calls. -/
inductive Reachable : Table → Prop where
  | empty : Reachable .empty
  | withRoot (ufs : String) : Reachable (.withRoot ufs)
  | change {t : Table} (c : Change) : Reachable t → Reachable (t.change c)

theorem Consistent.change {t : Table} (h : t.Consistent) (c : Change) :
    (t.change c).Consistent := by
  cases c with
  | mount p ufs =>
    simp only [Table.change]
    split
    · next hmount => exact h.mount hmount
    · exact h
  | unmount p =>
    simp only [Table.change]
    split
    · next hunmount => exact h.unmount hunmount
    · exact h

theorem Reachable.consistent {t : Table} (h : t.Reachable) : t.Consistent := by
  induction h with
  | empty => exact consistent_empty
  | withRoot ufs => exact consistent_withRoot ufs
  | change c _ ih => exact ih.change c

end NearestMount.Table
