import Mathlib.Control.Monad.Basic
import NearestMount.Proofs.Resolver.Rebuild
import NearestMount.Proofs.Table.Beneath

/-! # What a reload comes to

    A reload does not look at the old table or the cache: whether it is refused, and what
    it leaves, depends on its list and the settings alone.

    - `Reloaded` is what it leaves if it is not refused, whatever was remembered before.
    - `Rooted.reload_mounts`: to reload the mounts that there are changes none of them.
    - `Fresh.reload_exact` puts this together for every history, and says when a resolver
      can be set up.
-/

namespace NearestMount.Resolver

variable {r start : Resolver} {ms : List Mount} {e : Error}

/-! ## What a reload leaves -/

/-- The mount of the permanent root, if there is to be one. -/
def rootMounts (r : Resolver) : List Mount := r.rootUfs.toList.map fun ufs => ⟨"/", ufs⟩

/-- What a reload of `ms` leaves of a resolver with the settings of `r`. -/
structure Reloaded (r : Resolver) (ms : List Mount) (s : Resolver) : Prop where
  /-- The permanent root is mounted, and all entries but those that gave way to it. -/
  mounts : s.mounts.Perm (r.rootMounts ++ Table.kept r.rootUfs.isSome ms)
  /-- The mounts stand in the order of the bytes of their paths. -/
  ordered : s.mounts.Pairwise fun a b => Text.bytes a.path < Text.bytes b.path
  /-- With seeds every mount point is remembered as its own answer, and nothing else is;
      without seeds nothing is remembered. -/
  answers : ∀ path found, s.cache.get? path = some found ↔
    r.preseed = true ∧ (s.table.get? path).isSome = true ∧ found = path
  /-- Every mount point is classified, and rightly; a question for it is answered so. -/
  classified : ∀ p, s.table.Mounted p → ∃ isNested, s.cache.isNested? p.text = some isNested ∧
    (s.hasBeneath p.text).answer = .ok isNested ∧
    (isNested = true ↔ ∃ q, s.table.Mounted q ∧ p.covers q = true ∧ q ≠ p)

/-- A classification that is remembered is the answer for its mount point. -/
theorem answer_hasBeneath_of_isNested? (h : r.table.Consistent) {p : Path} {isNested : Bool}
    (hmounted : r.table.Mounted p) (hclass : r.cache.isNested? p.text = some isNested) :
    (r.hasBeneath p.text).answer = .ok isNested := by
  simp [hasBeneath, h.isMounted_iff.mpr hmounted, hclass]

theorem list_emptyTable (r : Resolver) : r.emptyTable.list.Perm r.rootMounts := by
  unfold emptyTable rootMounts
  cases r.rootUfs with
  | none => exact List.Perm.refl _
  | some ufs => exact Table.consistent_empty.list_register (Table.not_mounted_empty .root) ufs

/-- Whatever was remembered before, a reload that is not refused leaves the mounts of its
    list with a cache that fits them. -/
theorem reloaded_of_answer (h : (r.reload ms).answer = .ok ()) :
    Reloaded r ms (r.reload ms).next := by
  rcases r.reload_cases ms with ⟨e, -, herror, -⟩ | ⟨table, hload, htable, -, hnext⟩
  · rw [herror] at h
    cases h
  · rw [hnext]
    refine ⟨?_, htable.pairwise_list, ?_, ?_⟩
    · have hlist := r.consistent_emptyTable.list_load hload
      rw [pinnedRoot_emptyTable] at hlist
      exact hlist.trans (r.list_emptyTable.append_right _)
    · intro path found
      rw [get?_replaceEdits r r.cache htable]
      split
      · next hseeded => simp [hseeded, eq_comm]
      · next hnot =>
        simp only [reduceCtorEq, false_iff]
        rintro ⟨hpreseed, hmounted, -⟩
        exact hnot ⟨hpreseed, hmounted⟩
    · intro p hp
      have hclass := isNested?_replaceEdits_of_mounted r r.cache htable hp
      exact ⟨table.hasBeneath p, hclass, answer_hasBeneath_of_isNested? htable hp hclass,
        htable.hasBeneath_iff⟩

/-- To reload the mounts that there are is never refused and changes none of them. -/
theorem Rooted.reload_mounts (h : r.Rooted) :
    (r.reload r.mounts).answer = .ok () ∧ (r.reload r.mounts).next.mounts = r.mounts ∧
      (r.reload r.mounts).next.table.pinnedRoot = r.table.pinnedRoot := by
  obtain ⟨table, hload, hget⟩ := h.exists_load (r := r) rfl (List.Perm.refl _)
  rcases r.reload_cases r.mounts with ⟨e, herror, -⟩ | ⟨other, hother, -, hanswer, hnext⟩
  · rw [hload] at herror
    cases herror
  · obtain rfl : table = other := Except.ok.inj (hload.symm.trans hother)
    have hmounts : table.mounts = r.table.mounts := Std.ExtTreeMap.ext_getElem? hget
    refine ⟨hanswer, ?_, ?_⟩
    · rw [hnext]
      show table.list = r.table.list
      rw [Table.list, hmounts, Table.list]
    · rw [hnext]
      show table.pinnedRoot = r.table.pinnedRoot
      rw [Table.pinnedRoot_load hload, pinnedRoot_emptyTable, h.sound.pinned]

/-! ## Every history -/

/-- After every history of calls, direct calls of the cache included.

    A reload is accepted exactly if every path in its list reads and, but for the entries
    that give way to a permanent root, no path occurs twice; otherwise its error is that
    of the first entry that is refused. A reload that is accepted leaves the permanent
    root and the entries of the list, in the order of the bytes of their paths, and a
    cache that fits them. To reload the mounts that there are is accepted and leaves them
    and the mark of the permanent root as they were.

    A resolver can be set up exactly if its settings are valid, there is room for the
    cache and a reload of their mounts would be accepted; what is wrong with the settings
    is told before what is wrong with a mount. Where there is no room, valid settings stop
    the program, whatever their mounts are. -/
theorem Fresh.reload_exact (h : start.Fresh) (history : List Command) :
    (∀ ms, ((start.run history).reload ms).answer = .ok () ↔
      Table.Loadable start.rootUfs.isSome ms) ∧
    (∀ ms e, ((start.run history).reload ms).answer = .error e ↔
      Table.FirstOffence start.rootUfs.isSome ms e) ∧
    (∀ ms, ((start.run history).reload ms).answer = .ok () →
      Reloaded start ms ((start.run history).reload ms).next) ∧
    (((start.run history).reload (start.run history).mounts).answer = .ok () ∧
      ((start.run history).reload (start.run history).mounts).next.mounts =
        (start.run history).mounts ∧
      ((start.run history).reload (start.run history).mounts).next.table.pinnedRoot =
        (start.run history).table.pinnedRoot) ∧
    ∀ (memory : Memory) (c : Settings),
      ((∃ found, Resolver.ofSettings memory c = .ok found) ↔
        c.validate = .ok () ∧ memory.hasRoom c.capacities = true ∧
          Table.Loadable c.rootUfs.isSome c.mounts) ∧
      (∀ fault, c.validate = .error fault →
        Resolver.ofSettings memory c = .error (.refused (.settings fault))) ∧
      (Resolver.ofSettings memory c = .error .noRoom ↔
        c.validate = .ok () ∧ memory.hasRoom c.capacities = false) ∧
      ∀ e, c.validate = .ok () → memory.hasRoom c.capacities = true →
        (Resolver.ofSettings memory c = .error (.refused e) ↔
          Table.FirstOffence c.rootUfs.isSome c.mounts e) := by
  have hsettings := h.rooted.sound.settings_run history
  rw [← hsettings.1]
  refine ⟨fun ms => answer_reload_eq_ok_iff, fun ms e => answer_reload_eq_error_iff, ?_,
    (h.rooted.run history).reload_mounts, ?_⟩
  · intro ms hanswer
    have hreloaded := reloaded_of_answer hanswer
    refine ⟨?_, hreloaded.ordered, ?_, hreloaded.classified⟩
    · have hmounts := hreloaded.mounts
      rw [rootMounts, hsettings.1] at hmounts
      exact hmounts
    · have hanswers := hreloaded.answers
      rw [hsettings.2] at hanswers
      exact hanswers
  · intro memory c
    exact ⟨exists_ofSettings_eq_ok_iff, fun fault => ofSettings_of_validate_error,
      ofSettings_eq_noRoom_iff, fun e => ofSettings_eq_refused_iff⟩

/-- An answer that was made up and a wrong classification are gone after a reload; a path
    that does not read is refused before a later entry that is there twice. At setup two
    entries for the root give way to the permanent one; without room for the cache a path
    that does not read is not looked at. -/
theorem reload_after_direct_writes :
    let s := Resolver.empty.run [.mount "/a" "s3://a", .cache (.edit (.add "/a/x" "/gone")),
      .cache (.edit (.classify "/b" false))]
    Reloaded .empty [⟨"/b/c", "s3://c"⟩, ⟨"/b", "s3://b"⟩]
        (s.reload [⟨"/b/c", "s3://c"⟩, ⟨"/b", "s3://b"⟩]).next ∧
      (s.reload [⟨"/b", "s3://b"⟩, ⟨"/b/", "s3://x"⟩, ⟨"/b", "s3://y"⟩]).answer =
        .error (.invalidPath "/b/" (.emptySegment 1)) ∧
      (∃ found, Resolver.ofSettings (.upTo 100)
        { rootUfs := some "s3://r", mounts := [⟨"/", "s3://x"⟩, ⟨"/", "s3://y"⟩] } = .ok found) ∧
      Resolver.ofSettings (.upTo 99) { mounts := [⟨"/b/", "s3://b"⟩] } = .error .noRoom := by
  intro s
  have hexact := Fresh.empty.reload_exact [.mount "/a" "s3://a",
    .cache (.edit (.add "/a/x" "/gone")), .cache (.edit (.classify "/b" false))]
  have hanswer : (s.reload [⟨"/b/c", "s3://c"⟩, ⟨"/b", "s3://b"⟩]).answer = .ok () := by
    decide +kernel
  have hfirst : Table.FirstOffence false
      [⟨"/b", "s3://b"⟩, ⟨"/b/", "s3://x"⟩, ⟨"/b", "s3://y"⟩]
      (.invalidPath "/b/" (.emptySegment 1)) := by
    refine ⟨[⟨"/b", "s3://b"⟩], ⟨"/b/", "s3://x"⟩, [⟨"/b", "s3://y"⟩], rfl, ⟨?_, by decide⟩,
      .unreadable (by decide +kernel)⟩
    intro m hmem
    obtain rfl := List.mem_singleton.mp hmem
    exact ⟨⟨["b"], by decide⟩, by decide +kernel⟩
  obtain ⟨-, hrefused, hreloaded, -, hsetup⟩ := hexact
  refine ⟨hreloaded _ hanswer, (hrefused _ _).mpr hfirst, ?_, ?_⟩
  · apply (hsetup _ _).1.mpr
    refine ⟨by decide, by decide, ?_, by decide⟩
    intro m hmem
    have hpath : m.path = "/" := by
      simp only [List.mem_cons, List.not_mem_nil, or_false] at hmem
      rcases hmem with rfl | rfl <;> rfl
    rw [hpath]
    exact ⟨.root, by decide +kernel⟩
  · exact (hsetup _ _).2.2.1.mpr ⟨by decide, by decide⟩

/-- There is nothing to refuse in these settings, and still no machine sets up a resolver
    with them. -/
theorem no_room_for_valid_settings :
    let c : Settings := { capacities :=
      { exact := 36028797018963968, nested := 18446744073709551615 } }
    c.validate = .ok () ∧ Table.Loadable c.rootUfs.isSome c.mounts ∧
      ∀ memory : Memory, Resolver.ofSettings memory c = .error .noRoom := by
  intro c
  have hvalid : c.validate = .ok () := by decide
  refine ⟨hvalid, Table.loadable_nil, ?_⟩
  intro memory
  have hroom : memory.hasRoom c.capacities = false := memory.hasRoom_eq_false (by decide)
  exact ofSettings_eq_noRoom_iff.mpr ⟨hvalid, hroom⟩

end NearestMount.Resolver
