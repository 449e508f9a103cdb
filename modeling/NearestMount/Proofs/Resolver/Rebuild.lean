import NearestMount.Proofs.Cache.Classes
import NearestMount.Proofs.Trie.Siblings
import NearestMount.Proofs.Resolver.Root

/-! # The state does not depend on the history

    Single mounts and unmounts repair the table and the cache here and there, a reload
    makes both anew. As long as no answer is looked up and remembered, the two ways
    come to the same state.

    - `Settled` says what the cache then holds: one answer for every mount point if
      there are seeds, none without them, and one classification for every mount point.
      Every step that remembers no answer keeps this (`Step.settled`).
    - `Settled.alike`: settled resolvers with the same mounts are the same, but for the
      order of siblings in the index.
    - `Rooted.exists_load`: the mounts of a resolver can be mounted anew in any order.
    - `rebuilt_from_mounts` puts these together.
-/

namespace NearestMount

namespace Table

variable {t u : Table}

/-- What lies beneath a path depends on what is mounted alone. -/
theorem Consistent.hasBeneath_congr (ht : t.Consistent) (hu : u.Consistent)
    (hsame : ∀ p, t.Mounted p ↔ u.Mounted p) (p : Path) : t.hasBeneath p = u.hasBeneath p := by
  rw [Bool.eq_iff_iff, ht.hasBeneath_iff, hu.hasBeneath_iff]
  simp only [hsame]

end Table

namespace Resolver

variable {r s : Resolver}

/-! ## The same state -/

/-- The two resolvers are the same but for the order of siblings in the index. -/
structure Alike (r s : Resolver) : Prop where
  mounts : r.table.mounts = s.table.mounts
  index : r.table.index.Reordered s.table.index
  pinnedRoot : r.table.pinnedRoot = s.table.pinnedRoot
  cache : r.cache = s.cache
  rootUfs : r.rootUfs = s.rootUfs
  preseed : r.preseed = s.preseed

/-- The cache holds what the table calls for, and nothing else. -/
structure Settled (r : Resolver) : Prop where
  classified : r.Classified
  answers : ∀ path, r.cache.get? path =
    if r.preseed = true ∧ (r.table.get? path).isSome = true then some path else none
  exclusive : r.cache.Exclusive

/-- Settled resolvers with the same mounts and settings are alike. -/
theorem Settled.alike (hr : r.Settled) (hs : s.Settled)
    (hget : ∀ path, r.table.get? path = s.table.get? path)
    (hpinned : r.table.pinnedRoot = s.table.pinnedRoot) (hroot : r.rootUfs = s.rootUfs)
    (hpreseed : r.preseed = s.preseed) : r.Alike s := by
  have hrc := hr.classified.consistent
  have hsc := hs.classified.consistent
  have hmounts : r.table.mounts = s.table.mounts := Std.ExtTreeMap.ext_getElem? hget
  have hmounted : ∀ p, r.table.Mounted p ↔ s.table.Mounted p := by
    intro p
    rw [Table.Mounted, hget, Table.Mounted]
  refine ⟨hmounts, ?_, hpinned, ?_, hroot, hpreseed⟩
  · -- the index is determined by the list of mounts
    apply Trie.same_iff_reordered.mp
    apply hrc.same_index hsc
    rw [Table.list, hmounts, Table.list]
  · -- and so is all that the two caches answer
    apply hr.exclusive.eq_of_answers hs.exclusive
    · intro path
      rw [hr.answers, hs.answers, hget, hpreseed]
    · intro path
      cases hfound : r.table.get? path with
      | none =>
        rw [hr.classified.of_not_mounted path hfound,
          hs.classified.of_not_mounted path (hget path ▸ hfound)]
      | some info =>
        obtain ⟨-, p, rfl⟩ := hrc.keyed path info hfound
        have hp : r.table.Mounted p := Table.mounted_iff_exists.mpr ⟨info, hfound⟩
        rw [hr.classified.of_mounted p hp, hs.classified.of_mounted p ((hmounted p).mp hp),
          hrc.hasBeneath_congr hsc hmounted]

/-! ## Steps that remember no answer -/

/-- True of a call that looks an answer up and remembers it, and of a direct change of
    the cache. -/
def Command.remembers : Command → Bool
  | .resolve _ | .mountCovering _ | .cache (.edit _) => true
  | _ => false

theorem Command.isEdit_of_remembers {call : Command} (h : call.remembers = false) :
    call.isEdit = false := by
  cases call with
  | cache call =>
    cases call with
    | edit e => cases h
    | get path => rfl
    | isNested mountPoint => rfl
    | size => rfl
  | _ => rfl

/-- After a mount the new mount point is seeded, and so is every one from before: the
    one whose entry was purged has it back. -/
theorem answers_mount (h : r.Settled) (p : Path) (ufs path : String) :
    (r.cache.applyAll (r.mountEdits (r.table.register p ufs) p)).get? path =
      if r.preseed = true ∧ ((r.table.register p ufs).get? path).isSome = true then some path
      else none := by
  have hc := h.classified.consistent
  by_cases hseeded : r.preseed = true ∧ ((r.table.register p ufs).get? path).isSome = true
  · rw [if_pos hseeded]
    obtain ⟨hpreseed, hmounted⟩ := hseeded
    apply get?_mountEdits_self hpreseed
    rw [Table.get?_register] at hmounted
    split at hmounted
    · next heq => exact Or.inl heq.symm
    · right
      rw [h.answers, if_pos ⟨hpreseed, hmounted⟩]
  · rw [if_neg hseeded, get?_mountEdits, hc.enclosing?_register, if_neg, h.answers, if_neg,
      Option.filter_none]
    · -- what was mounted before still is
      rintro ⟨hpreseed, hbefore⟩
      apply hseeded ⟨hpreseed, ?_⟩
      rw [Table.get?_register]
      split
      · rfl
      · exact hbefore
    · -- the seeds are mount points
      rintro ⟨hpreseed, hpath⟩
      apply hseeded ⟨hpreseed, ?_⟩
      rcases hpath with rfl | hparent
      · rw [Table.get?_register, if_pos rfl]
        rfl
      · obtain ⟨parent, hfound, rfl⟩ := Option.map_eq_some_iff.mp hparent
        have hbefore := (hc.enclosing?_eq_some_iff.mp hfound).member.2
        exact Table.mounted_register.mpr (Or.inr hbefore)

/-- After an unmount every mount point but the one that is gone is still seeded. -/
theorem answers_unmount (h : r.Settled) (p : Path) (path : String) :
    (r.cache.applyAll (unmountEdits (r.table.withdraw p) p)).get? path =
      if r.preseed = true ∧ ((r.table.withdraw p).get? path).isSome = true then some path
      else none := by
  rw [get?_unmountEdits, h.answers, Table.get?_withdraw]
  by_cases hpath : path = p.text
  · subst hpath
    split <;> simp
  · rw [if_neg (Ne.symm hpath)]
    split
    · simpa using hpath
    · rfl

/-- Every step that remembers no answer leaves the cache settled. -/
theorem Step.settled {call : Command} (hstep : Step r call s) (h : r.Settled)
    (hcall : call.remembers = false) : s.Settled := by
  have hclassified := hstep.classified h.classified (Command.isEdit_of_remembers hcall)
  cases hstep with
  | idle => exact h
  | mount hnew =>
    exact ⟨hclassified, answers_mount h _ _, h.exclusive.applyAll _⟩
  | unmount hmounted hp =>
    exact ⟨hclassified, answers_unmount h _, h.exclusive.applyAll _⟩
  | remember hasked hmiss hfound =>
    rcases hasked with rfl | rfl <;> cases hcall
  | classify hmounted hmiss =>
    -- every mount point is classified already
    rw [h.classified.of_mounted _ hmounted] at hmiss
    cases hmiss
  | reload hload htable =>
    exact ⟨hclassified, get?_replaceEdits r r.cache htable, h.exclusive.applyAll _⟩
  | edit e => cases hcall

theorem settled_bare (rootUfs : Option String) (preseed : Bool) :
    Settled ⟨.empty, .empty, rootUfs, preseed⟩ where
  classified := classified_bare rootUfs preseed
  answers path := by
    rw [Table.get?_empty, Cache.get?_empty]
    simp
  exclusive := Cache.exclusive_empty

theorem Fresh.settled {start : Resolver} (h : start.Fresh) : start.Settled := by
  cases h with
  | empty => exact settled_bare none true
  | @ofSettings _ c _ _ hset =>
    obtain ⟨bare, rfl, -, rfl⟩ := exists_reload_of_ofSettings hset
    -- unlike the permanent root, this holds before the first reload too
    have hbare := settled_bare c.rootUfs c.preseed
    exact (step_exec hbare.classified.consistent (.reload c.mounts)).settled hbare rfl

theorem Settled.run {start : Resolver} (h : start.Settled) {history : List Command}
    (hhistory : ∀ call ∈ history, call.remembers = false) : (start.run history).Settled :=
  run_induction (P := Settled) history h fun _ call hmem hs =>
    (step_exec hs.classified.consistent call).settled hs (hhistory call hmem)

/-! ## Setting up without mounts -/

/-- Settings that are accepted are accepted without their mounts. -/
theorem exists_ofSettings_without_mounts {memory : Memory} {c : Settings} {start : Resolver}
    {events : List Event} (h : ofSettings memory c = .ok (start, events)) :
    ∃ bare events', ofSettings memory { c with mounts := [] } = .ok (bare, events') := by
  obtain ⟨hvalid, hroom, -⟩ := exists_ofSettings_eq_ok_iff.mp ⟨_, h⟩
  have hroot : c.rootUfs ≠ some "" := by
    intro heq
    simp [Settings.validate, heq] at hvalid
  have hwithout : ({ c with mounts := [] } : Settings).validate = .ok () := by
    simp [Settings.validate, hroot]
  obtain ⟨⟨bare, events'⟩, hbare⟩ :=
    exists_ofSettings_eq_ok_iff.mpr ⟨hwithout, hroom, Table.loadable_nil⟩
  exact ⟨bare, events', hbare⟩

/-! ## Rebuilding -/

/-- A reload of the mounts of another resolver with the same settings, in any order, is
    not refused, and has these mounts. -/
theorem Rooted.exists_load (h : s.Rooted) (hroot : r.rootUfs = s.rootUfs) {mounts : List Mount}
    (hmounts : mounts.Perm s.mounts) :
    ∃ table, (r.emptyTable.load mounts).table = .ok table ∧
      ∀ path, table.get? path = s.table.get? path := by
  have hc := h.sound.consistent
  have hnodup : (mounts.map Mount.path).Nodup :=
    (hmounts.map Mount.path).nodup_iff.mpr hc.nodup_paths
  have hfound : ∀ path, (mounts.find? fun m => m.path = path) = s.table.get? path :=
    hc.find?_path (fun info => hmounts.mem_iff) hnodup
  have hloadable : Table.Loadable r.emptyTable.pinnedRoot mounts := by
    refine ⟨?_, hnodup.sublist (List.filter_sublist.map Mount.path)⟩
    intro m hmem
    obtain ⟨p, hp⟩ := hc.readable m (hmounts.mem_iff.mp hmem)
    exact ⟨p, Path.parse_eq_ok_iff.mpr hp⟩
  obtain ⟨table, hload, hget⟩ := Table.exists_load hloadable r.bare_emptyTable.free
  refine ⟨table, hload, ?_⟩
  intro path
  rw [hget]
  cases hbefore : r.emptyTable.get? path with
  | none =>
    -- then the path is not that of the permanent root, so nothing is passed over for it
    have hkept : ¬ (r.emptyTable.pinnedRoot = true ∧ path = "/") := by
      rintro ⟨hpinned, rfl⟩
      rw [pinnedRoot_emptyTable, Option.isSome_iff_exists] at hpinned
      obtain ⟨ufs, hufs⟩ := hpinned
      rw [get?_emptyTable_iff.mpr ⟨rfl, ufs, hufs, rfl⟩] at hbefore
      cases hbefore
    rw [Option.none_or, Table.find?_kept hkept, hfound]
  | some info =>
    -- the permanent root is the same on both sides
    obtain ⟨rfl, ufs, hufs, rfl⟩ := get?_emptyTable_iff.mp hbefore
    rw [Option.some_or]
    exact (h.root ufs (hroot.symm.trans hufs)).symm

/-- After every history in which no answer is looked up and no direct change of the
    cache is made, calls that are refused included, the state is that of a resolver
    which was set up without mounts and then got the mounts that are left in one reload,
    in whatever order. -/
theorem rebuilt_from_mounts {memory : Memory} {c : Settings} {start : Resolver}
    {events : List Event} (hset : ofSettings memory c = .ok (start, events)) {history : List Command}
    (hhistory : ∀ call ∈ history, call.remembers = false) {mounts : List Mount}
    (hmounts : mounts.Perm (start.run history).mounts) :
    ∃ bare events', ofSettings memory { c with mounts := [] } = .ok (bare, events') ∧
      (bare.reload mounts).answer = .ok () ∧
      (bare.reload mounts).next.Alike (start.run history) := by
  obtain ⟨bare, events', hbare⟩ := exists_ofSettings_without_mounts hset
  refine ⟨bare, events', hbare, ?_⟩
  have hfresh : start.Fresh := .ofSettings hset
  have hbareFresh : bare.Fresh := .ofSettings hbare
  have hrun := hfresh.rooted.run history
  -- the settings of both are those of `c`
  have hsettings := hfresh.rooted.sound.settings_run history
  have hroot : bare.rootUfs = (start.run history).rootUfs := by
    rw [(ofSettings_settings hbare).1, hsettings.1, (ofSettings_settings hset).1]
  have hpreseed : bare.preseed = (start.run history).preseed := by
    rw [(ofSettings_settings hbare).2, hsettings.2, (ofSettings_settings hset).2]
  obtain ⟨table, hload, hget⟩ := hrun.exists_load hroot hmounts
  -- the reload is one more step, so it leaves a settled resolver
  have hstep := step_exec hbareFresh.consistent (.reload mounts)
  have hsettled : (bare.reload mounts).next.Settled := hstep.settled hbareFresh.settled rfl
  have hsound : (bare.reload mounts).next.Sound := hstep.sound hbareFresh.rooted.sound
  rcases bare.reload_cases mounts with ⟨e, herror, -⟩ | ⟨table', hload', -, hanswer, hnext⟩
  · rw [hload] at herror
    cases herror
  · obtain rfl : table = table' := Except.ok.inj (hload.symm.trans hload')
    refine ⟨hanswer, ?_⟩
    rw [hnext] at hsettled hsound ⊢
    apply hsettled.alike (hfresh.settled.run hhistory) hget ?_ hroot hpreseed
    rw [hsound.pinned, hrun.sound.pinned]
    exact congrArg Option.isSome hroot

/-- A middle mount that comes and goes, refused calls and a question in between leave
    no trace. -/
theorem rebuilt_after_middle_unmount :
    let c : Settings := { rootUfs := some "s3://r", mounts := [⟨"/a", "s3://a"⟩] }
    let history : List Command := [.mount "/a/b/c" "s3://c", .mount "/a/b" "s3://b",
      .hasBeneath "/a", .unmount "/", .unmount "/a/b", .mount "/a" "s3://x"]
    ∃ start events bare events', ofSettings (.upTo 100) c = .ok (start, events) ∧
      ofSettings (.upTo 100) { c with mounts := [] } = .ok (bare, events') ∧
      (bare.reload [⟨"/a/b/c", "s3://c"⟩, ⟨"/", "s3://r"⟩, ⟨"/a", "s3://a"⟩]).next.Alike
        (start.run history) := by
  intro c history
  have hmounts : (ofSettings (.upTo 100) c).map (fun found => (found.1.run history).mounts) =
      .ok [⟨"/", "s3://r"⟩, ⟨"/a", "s3://a"⟩, ⟨"/a/b/c", "s3://c"⟩] := by decide +kernel
  cases hset : ofSettings (.upTo 100) c with
  | error e =>
    rw [hset] at hmounts
    cases hmounts
  | ok found =>
    obtain ⟨start, events⟩ := found
    rw [hset] at hmounts
    have hleft : (start.run history).mounts =
        [⟨"/", "s3://r"⟩, ⟨"/a", "s3://a"⟩, ⟨"/a/b/c", "s3://c"⟩] := Except.ok.inj hmounts
    have hhistory : ∀ call ∈ history, call.remembers = false := by decide
    have hperm : [⟨"/a/b/c", "s3://c"⟩, ⟨"/", "s3://r"⟩, ⟨"/a", "s3://a"⟩].Perm
        (start.run history).mounts := by
      rw [hleft]
      decide
    obtain ⟨bare, events', hbare, -, halike⟩ := rebuilt_from_mounts hset hhistory hperm
    exact ⟨start, events, bare, events', rfl, hbare, halike⟩

end Resolver

end NearestMount
