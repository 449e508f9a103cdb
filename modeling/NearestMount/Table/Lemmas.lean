import NearestMount.Table.Basic
import NearestMount.Trie.Sequences

/-! # What mounting and unmounting do to a table

    Both halves of the table are seen through their views: the mounts through `get?`,
    the index through the sequences that it holds.
-/

namespace NearestMount.Table

@[simp] theorem get?_empty (path : String) : empty.get? path = none := by
  simp [get?, empty]

theorem get?_register (t : Table) (p : Path) (ufs path : String) :
    (t.register p ufs).get? path =
      if p.text = path then some ⟨p.text, ufs⟩ else t.get? path := by
  simp [get?, register, Std.ExtTreeMap.getElem?_insert]

theorem holds_index_register {t : Table} {p : Path} {ufs : String} {sequence : List String} :
    (t.register p ufs).index.Holds sequence ↔
      sequence = p.segments ∨ t.index.Holds sequence :=
  Trie.holds_insert

@[simp] theorem pinnedRoot_register (t : Table) (p : Path) (ufs : String) :
    (t.register p ufs).pinnedRoot = t.pinnedRoot := rfl

theorem get?_withRoot (ufs path : String) :
    (withRoot ufs).get? path = if "/" = path then some ⟨"/", ufs⟩ else none := by
  have registered := get?_register empty .root ufs path
  rw [get?_empty, Path.text_root] at registered
  exact registered

theorem mem_mounts_iff {t : Table} {path : String} :
    path ∈ t.mounts ↔ (t.get? path).isSome = true := by
  simp [get?]

/-- A mount is refused exactly where there is one already. -/
theorem mount_eq {t : Table} {p : Path} {ufs : String} :
    t.mount p ufs =
      if (t.get? p.text).isSome then .error (.occupied p.text)
      else .ok (⟨p.text, ufs⟩, t.register p ufs) := by
  simp only [mount, mem_mounts_iff]

/-- What an unmount answers is the mount that was there. -/
theorem get?_eq_of_unmount {t after : Table} {p : Path} {info : Mount}
    (h : t.unmount p = .ok (info, after)) : t.get? p.text = some info := by
  unfold unmount at h
  split at h
  · cases h
  · split at h
    · cases h
    · rename_i found
      cases h
      exact found

end NearestMount.Table
