import Mathlib.Control.Monad.Basic
import NearestMount.Proofs.Resolver.Coherence
import NearestMount.Proofs.Resolver.MountMap

/-! # The resolver refines the plain map

    `Resolver.view` is the map that a resolver stands for. Every call changes the view
    as it would change the map (`view_exec`), and answers as the map does: always, if
    the call reads the table, and as long as what is remembered of the path is right,
    if it reads the cache. `Setup.refines` puts both together over every history.
-/

namespace NearestMount

/-! ## Views -/

namespace Table

/-- The map that a table stands for, beside the location of the permanent root. -/
def view (t : Table) (root : Option String) : MountMap where
  ufs := t.mounts.map fun _ info => info.ufs
  root := root

variable {t : Table} {root : Option String}

theorem get?_view (path : String) : (t.view root).get? path = (t.get? path).map (·.ufs) := by
  simp [view, MountMap.get?, get?]

theorem mounted_view {p : Path} : (t.view root).Mounted p ↔ t.Mounted p := by
  simp [MountMap.Mounted, Mounted, get?_view]

theorem view_empty : empty.view root = ⟨∅, root⟩ := by
  simp only [view, empty, MountMap.mk.injEq, and_true]
  apply Std.ExtTreeMap.ext_getElem?
  intro path
  simp

theorem view_register (p : Path) (ufs : String) :
    (t.register p ufs).view root =
      { t.view root with ufs := (t.view root).ufs.insert p.text ufs } := by
  simp only [view, register, MountMap.mk.injEq, and_true]
  apply Std.ExtTreeMap.ext_getElem?
  intro path
  simp only [Std.ExtTreeMap.getElem?_map, Std.ExtTreeMap.getElem?_insert]
  split <;> rfl

theorem view_withdraw (p : Path) :
    (t.withdraw p).view root = { t.view root with ufs := (t.view root).ufs.erase p.text } := by
  simp only [view, withdraw, MountMap.mk.injEq, and_true]
  apply Std.ExtTreeMap.ext_getElem?
  intro path
  simp only [Std.ExtTreeMap.getElem?_map, Std.ExtTreeMap.getElem?_erase]
  split <;> rfl

/-- A mount is known by its path and its location. -/
theorem Consistent.eq_of_get? (h : t.Consistent) {path : String} {info : Mount}
    (hget : t.get? path = some info) : info = ⟨path, info.ufs⟩ := by
  obtain ⟨hpath, -⟩ := h.keyed path info hget
  rw [← hpath]

theorem Consistent.mounts_view (h : t.Consistent) : (t.view root).mounts = t.list := by
  simp only [MountMap.mounts, view, list, Std.ExtTreeMap.toList_map, List.map_map]
  apply List.map_congr_left
  intro entry hmem
  obtain ⟨path, info⟩ := entry
  exact (h.eq_of_get? (Std.ExtTreeMap.mem_toList_iff_getElem?_eq_some.mp hmem)).symm

/-- The lookup in the index finds the longest key of the map. -/
theorem Consistent.nearest?_view (h : t.Consistent) (p : Path) :
    (t.view root).nearest? p = t.covering? p := by
  apply Option.ext
  intro q
  rw [MountMap.nearest?_eq_some_iff, h.covering?_eq_some_iff]
  exact Path.nearest_congr fun r _ => mounted_view

theorem Consistent.anyBeneath_view (h : t.Consistent) (p : Path) :
    (t.view root).anyBeneath p = t.hasBeneath p := by
  rw [Bool.eq_iff_iff, MountMap.anyBeneath, List.any_eq_true, h.hasBeneath_iff, h.mounts_view]
  constructor
  · intro hexists
    obtain ⟨info, hmem, hbeneath⟩ := hexists
    obtain ⟨q, hq⟩ := h.readable info hmem
    rw [← hq, Path.parse_text] at hbeneath
    refine ⟨q, ?_, by simpa using hbeneath⟩
    rw [Mounted, h.isSome_get?_iff]
    exact ⟨info, hmem, hq.symm⟩
  · intro hexists
    obtain ⟨q, hq, hcovers, hne⟩ := hexists
    obtain ⟨info, hmem, hpath⟩ := h.isSome_get?_iff.mp hq
    refine ⟨info, hmem, ?_⟩
    rw [hpath, Path.parse_text]
    simp [hcovers, hne]

/-! ## Filling a table -/

/-- Filling a table fills the map, and stops at the same entry with the same error. -/
theorem view_load (root : Option String) (ms : List Mount)
    (hpinned : t.pinnedRoot = root.isSome) :
    (t.load ms).table.map (fun u => u.view root) = (t.view root).load ms := by
  induction ms generalizing t with
  | nil => rfl
  | cons m ms ih =>
    rcases t.load_cons_cases m ms with
      ⟨fault, hparse, heq⟩ | ⟨hroot, hguard, heq⟩ | ⟨p, hp, hguard, hcases⟩
    · -- the path of the entry cannot be read, so it is not that of the root
      have hroot : ¬ (m.path = "/" ∧ (t.view root).root.isSome = true) := by
        intro hboth
        obtain ⟨hpath, -⟩ := hboth
        have hread : Path.parse m.path = .ok .root := by
          rw [hpath]
          exact Path.parse_text .root
        rw [hread] at hparse
        cases hparse
      rw [heq, MountMap.load, if_neg hroot]
      simp [MountMap.mount, hparse, Except.map]
    · -- the entry gives way to the permanent root
      have hskip : m.path = "/" ∧ (t.view root).root.isSome = true :=
        ⟨hroot, hpinned.symm.trans hguard⟩
      rw [heq, MountMap.load, if_pos hskip, ih hpinned]
    · -- the entry is mounted, or it comes too late
      have hroot : ¬ (m.path = "/" ∧ (t.view root).root.isSome = true) := by
        intro hboth
        obtain ⟨hpath, hsome⟩ := hboth
        exact hguard ⟨Path.text_inj.mp (hp.trans hpath), hpinned.trans hsome⟩
      have hparse : Path.parse m.path = .ok p := by rw [← hp, Path.parse_text]
      rw [MountMap.load, if_neg hroot]
      rcases hcases with ⟨hmounted, heq⟩ | ⟨hmounted, heq⟩
      · rw [heq]
        simp [MountMap.mount, hparse, mounted_view, hmounted, Except.map]
      · rw [heq, ih (t := t.register p m.ufs) hpinned, view_register, hp]
        simp [MountMap.mount, hparse, mounted_view, hmounted]

end Table

namespace Resolver

/-- The map that a resolver stands for. -/
def view (r : Resolver) : MountMap := r.table.view r.rootUfs

/-- The table is consistent, and its root is mounted for good exactly if there is a
    permanent root. -/
structure Sound (r : Resolver) : Prop where
  consistent : r.table.Consistent
  pinned : r.table.pinnedRoot = r.rootUfs.isSome

theorem view_emptyTable (r : Resolver) : r.emptyTable.view r.rootUfs = MountMap.bare r.rootUfs := by
  unfold emptyTable
  split
  · next ufs heq =>
    rw [heq]
    show (Table.empty.register .root ufs).view (some ufs) = _
    rw [Table.view_register, Table.view_empty, Path.text_root]
    rfl
  · next heq =>
    rw [heq, Table.view_empty]
    rfl

theorem Step.sound {r s : Resolver} {call : Command} (hstep : Step r call s) (h : r.Sound) :
    s.Sound := by
  refine ⟨hstep.consistent h.consistent, ?_⟩
  cases hstep with
  | idle => exact h.pinned
  | mount hnew => exact h.pinned
  | unmount hmounted hp => exact h.pinned
  | remember hcall hmiss hfound => exact h.pinned
  | classify hmounted hmiss => exact h.pinned
  | reload hload htable =>
    show Table.pinnedRoot _ = _
    rw [Table.pinnedRoot_load hload]
    exact r.pinnedRoot_emptyTable
  | edit e => exact h.pinned

/-! ## Calls that change the map -/

variable {r : Resolver}

/-- A mount is refused by both with the same error, or done by both. -/
theorem view_mount (path ufs : String) :
    (r.mount path ufs).answer = (r.view.mount path ufs).map (fun _ => ()) ∧
      (r.mount path ufs).next.view = r.view.next (.mount path ufs) := by
  rcases r.mount_cases path ufs with ⟨fault, hparse, heq⟩ | ⟨p, rfl, ⟨hmounted, heq⟩ | ⟨hnew, heq⟩⟩
  · have hview : r.view.mount path ufs = .error (.invalidPath path fault) := by
      simp [MountMap.mount, hparse]
    rw [heq, MountMap.next, hview]
    exact ⟨rfl, rfl⟩
  · have hview : r.view.mount p.text ufs = .error (.occupied p.text) := by
      simp [MountMap.mount, Path.parse_text, view, Table.mounted_view, hmounted]
    rw [heq, MountMap.next, hview]
    exact ⟨rfl, rfl⟩
  · have hview : r.view.mount p.text ufs = .ok ((r.table.register p ufs).view r.rootUfs) := by
      rw [Table.view_register]
      simp [MountMap.mount, Path.parse_text, view, Table.mounted_view, hnew]
    rw [heq, MountMap.next, hview]
    exact ⟨rfl, rfl⟩

/-- An unmount is refused by both with the same error, or takes the same mount from
    both. -/
theorem view_unmount (h : r.Sound) (path : String) :
    (r.unmount path).answer = (r.view.unmount path).map (·.1) ∧
      (r.unmount path).next.view = r.view.next (.unmount path) := by
  rcases r.unmount_cases path with
    ⟨fault, hparse, heq⟩ | ⟨rfl, hroot, heq⟩ | ⟨p, rfl, hp, ⟨hvacant, heq⟩ | ⟨info, hget, heq⟩⟩
  · have hview : r.view.unmount path = .error (.invalidPath path fault) := by
      simp [MountMap.unmount, hparse]
    rw [heq, MountMap.next, hview]
    exact ⟨rfl, rfl⟩
  · have hview : r.view.unmount Path.root.text = .error .rootPinned := by
      have hsome : r.view.root.isSome = true := h.pinned.symm.trans hroot
      simp only [MountMap.unmount, Path.parse_text, hsome, and_self, if_true]
    rw [heq, MountMap.next, hview]
    exact ⟨rfl, rfl⟩
  · have hview : r.view.unmount p.text = .error (.vacant p.text) := by
      have hguard : ¬ (p = .root ∧ r.view.root.isSome = true) := by
        rw [h.pinned] at hp
        exact hp
      have hnone : r.view.get? p.text = none := by
        rw [view, Table.get?_view, Table.not_mounted_iff.mp hvacant]
        rfl
      simp only [MountMap.unmount, Path.parse_text, if_neg hguard, hnone]
    rw [heq, MountMap.next, hview]
    exact ⟨rfl, rfl⟩
  · have hview : r.view.unmount p.text = .ok (info, (r.table.withdraw p).view r.rootUfs) := by
      have hguard : ¬ (p = .root ∧ r.view.root.isSome = true) := by
        rw [h.pinned] at hp
        exact hp
      have hsome : r.view.get? p.text = some info.ufs := by
        rw [view, Table.get?_view, hget]
        rfl
      rw [Table.view_withdraw]
      simp only [MountMap.unmount, Path.parse_text, if_neg hguard, hsome,
        ← h.consistent.eq_of_get? hget]
      rfl
    rw [heq, MountMap.next, hview]
    exact ⟨rfl, rfl⟩

/-- A reload is refused by both with the error of the same entry, or done by both. -/
theorem view_reload (mounts : List Mount) :
    (r.reload mounts).answer = (r.view.reload mounts).map (fun _ => ()) ∧
      (r.reload mounts).next.view = r.view.next (.reload mounts) := by
  have hload := Table.view_load r.rootUfs mounts r.pinnedRoot_emptyTable
  rw [view_emptyTable] at hload
  have hreload : r.view.reload mounts = (MountMap.bare r.rootUfs).load mounts := rfl
  rcases r.reload_cases mounts with
    ⟨e, htable, hanswer, hnext⟩ | ⟨table, htable, -, hanswer, hnext⟩
  · rw [hanswer, hnext, MountMap.next, hreload, ← hload, htable]
    exact ⟨rfl, rfl⟩
  · rw [hanswer, hnext, MountMap.next, hreload, ← hload, htable]
    exact ⟨rfl, rfl⟩

/-- Every call changes the view as it changes the map. -/
theorem view_exec (h : r.Sound) (call : Command) : (r.exec call).next.view = r.view.next call := by
  have hresolve : ∀ path, (r.resolve path).next.view = r.view := by
    intro path
    rcases r.resolve_cases path with
      ⟨mountPoint, -, heq⟩ | ⟨-, ⟨fault, -, heq⟩ | ⟨p, -, ⟨-, heq⟩ | ⟨q, -, heq⟩⟩⟩ <;>
      rw [heq] <;> rfl
  cases call with
  | mount path ufs => exact (view_mount path ufs).2
  | unmount path => exact (view_unmount h path).2
  | resolve path => exact hresolve path
  | mountCovering path => exact hresolve path
  | isMounted path => rfl
  | hasBeneath path =>
    show (r.hasBeneath path).next.view = r.view
    rcases hasBeneath_cases h.consistent path with
      ⟨fault, -, heq⟩ | ⟨p, -, ⟨-, heq⟩ | ⟨-, ⟨isNested, -, heq⟩ | ⟨-, heq⟩⟩⟩ <;>
      rw [heq] <;> rfl
  | mounts => rfl
  | reload mounts => exact (view_reload mounts).2
  | cache call => rfl

/-! ## Questions -/

theorem answer_isMounted (h : r.Sound) (path : String) :
    (r.isMounted path).answer = r.view.isMounted path := by
  rcases Path.read_cases path with ⟨fault, hparse, hread⟩ | ⟨p, rfl⟩
  · simp [isMounted, MountMap.isMounted, hparse, hread, Except.map]
  · have hflag : r.table.isMounted p = decide (r.view.Mounted p) := by
      rw [Bool.eq_iff_iff, h.consistent.isMounted_iff, decide_eq_true_iff]
      exact Table.mounted_view.symm
    simp [isMounted, MountMap.isMounted, Path.parse_text, hflag, Except.map]

theorem Sound.nearest?_view (h : r.Sound) (p : Path) : r.view.nearest? p = r.table.covering? p :=
  h.consistent.nearest?_view p

/-- As long as what is remembered of a path is right, the answer is that of the map. -/
theorem answer_resolve (h : r.Sound) {path : String} (hpath : r.AnswerRight path) :
    (r.resolve path).answer = r.view.resolve path := by
  rcases r.resolve_cases path with
    ⟨mountPoint, hget, heq⟩ | ⟨-, ⟨fault, hparse, heq⟩ | ⟨p, rfl, ⟨hnone, heq⟩ | ⟨q, hfound, heq⟩⟩⟩
  · -- what is remembered is what the table would have found
    obtain ⟨p, q, rfl, hfound, rfl⟩ := hpath mountPoint hget
    rw [heq, MountMap.resolve_text, h.nearest?_view, hfound]
    rfl
  · rw [heq, MountMap.resolve, hparse]
    rfl
  · rw [heq, MountMap.resolve_text, h.nearest?_view, hnone]
    rfl
  · rw [heq, MountMap.resolve_text, h.nearest?_view, hfound]

theorem answer_mountCovering (h : r.Sound) {path : String} (hpath : r.AnswerRight path) :
    (r.mountCovering path).answer = r.view.mountCovering path := by
  have hresolve := answer_resolve h hpath
  rcases Path.read_cases path with ⟨fault, hparse, -⟩ | ⟨p, rfl⟩
  · rw [MountMap.resolve, hparse] at hresolve
    rw [answer_mountCovering_of_error hresolve, MountMap.mountCovering, hparse]
  · rw [MountMap.resolve_text, h.nearest?_view] at hresolve
    rw [MountMap.mountCovering_text, h.nearest?_view]
    cases hfound : r.table.covering? p with
    | none =>
      rw [hfound] at hresolve
      exact answer_mountCovering_of_error hresolve
    | some q =>
      rw [hfound] at hresolve
      -- what covers the path is mounted, so its mount is found
      have hmounted := (h.consistent.nearest_of_covering? hfound).member
      obtain ⟨info, hget⟩ := Table.mounted_iff_exists.mp hmounted
      have hview : r.view.get? q.text = some info.ufs := by
        rw [view, Table.get?_view, hget]
        rfl
      rw [answer_mountCovering_of_get? hresolve hget, Option.bind_some, hview, Option.map_some,
        ← h.consistent.eq_of_get? hget]

theorem answer_hasBeneath (h : r.Sound) {path : String}
    (hpath : ∀ p : Path, p.text = path → r.ClassRight p) :
    (r.hasBeneath path).answer = r.view.hasBeneath path := by
  have hview : ∀ p, r.view.Mounted p ↔ r.table.Mounted p := fun p => Table.mounted_view
  have hbeneath : ∀ p, r.view.anyBeneath p = r.table.hasBeneath p := h.consistent.anyBeneath_view
  rcases hasBeneath_cases h.consistent path with
    ⟨fault, hparse, heq⟩ | ⟨p, rfl, ⟨hvacant, heq⟩ | ⟨hmounted, ⟨isNested, hclass, heq⟩ | ⟨-, heq⟩⟩⟩
  · rw [heq, MountMap.hasBeneath, hparse]
    rfl
  · rw [heq, MountMap.hasBeneath_text, if_neg (mt (hview p).mp hvacant)]
    rfl
  · -- the classification that is remembered is the one that the table has
    rw [heq, MountMap.hasBeneath_text, if_pos ((hview p).mpr hmounted), hbeneath,
      hpath p rfl hmounted isNested hclass]
    rfl
  · rw [heq, MountMap.hasBeneath_text, if_pos ((hview p).mpr hmounted), hbeneath]

/-! ## Histories -/

/-- A resolver as it is set up, with the map of the same settings. -/
inductive Setup : Resolver → MountMap → Prop where
  | empty : Setup .empty (.bare none)
  | ofSettings {memory : Memory} {c : Settings} {r : Resolver} {events : List Event} :
    ofSettings memory c = .ok (r, events) →
      Setup r ((MountMap.bare c.rootUfs).next (.reload c.mounts))

variable {start : Resolver} {M : MountMap}

theorem Setup.fresh (h : Setup start M) : start.Fresh := by
  cases h with
  | empty => exact .empty
  | ofSettings hset => exact .ofSettings hset

theorem Setup.sound (h : Setup start M) : start.Sound := by
  cases h with
  | empty => exact ⟨Table.consistent_empty, rfl⟩
  | @ofSettings _ c _ _ hset =>
    obtain ⟨bare, -, hanswer, rfl⟩ := exists_reload_of_ofSettings hset
    rcases bare.reload_cases c.mounts with ⟨e, -, herror, -⟩ | ⟨table, hload, htable, -, hnext⟩
    · rw [herror] at hanswer
      cases hanswer
    · rw [hnext]
      refine ⟨htable, ?_⟩
      show table.pinnedRoot = bare.rootUfs.isSome
      rw [Table.pinnedRoot_load hload, pinnedRoot_emptyTable]

theorem Setup.view_eq (h : Setup start M) : start.view = M := by
  cases h with
  | empty => exact Table.view_empty
  | @ofSettings _ c _ _ hset =>
    obtain ⟨bare, hbare, hanswer, rfl⟩ := exists_reload_of_ofSettings hset
    obtain ⟨hsame, hview⟩ := view_reload (r := bare) c.mounts
    -- the permanent root is all that a reload takes from the map before it
    have hreload : (MountMap.bare c.rootUfs).reload c.mounts = bare.view.reload c.mounts := by
      rw [hbare]
      rfl
    rw [hview, MountMap.next, MountMap.next, hreload]
    rw [hanswer] at hsame
    cases hloaded : bare.view.reload c.mounts with
    | error e =>
      rw [hloaded] at hsame
      cases hsame
    | ok after => rfl

theorem Sound.run (h : start.Sound) (history : List Command) : (start.run history).Sound :=
  run_induction (P := Sound) history h fun _ call _ hs => (step_exec hs.consistent call).sound hs

/-- The view of the resolver goes through the same history as the map. -/
theorem Sound.view_run (h : start.Sound) (history : List Command) :
    (start.run history).view = start.view.run history := by
  induction history generalizing start with
  | nil => rfl
  | cons call history ih =>
    rw [run_cons, ih ((step_exec h.consistent call).sound h), view_exec h call]
    rfl

/-- After every history of calls, direct calls of the cache included, a resolver answers
    as the plain map with the same history does. What reads the table needs no more
    than that. A path is resolved as on the map unless an answer for it was written
    into the cache directly, since the start or the last reload that was not refused;
    and what lies beneath it is told as on the map unless it was classified directly. -/
theorem Setup.refines (h : Setup start M) (history : List Command) :
    ((∀ path ufs, ((start.run history).mount path ufs).answer =
        ((M.run history).mount path ufs).map fun _ => ()) ∧
      (∀ path, ((start.run history).unmount path).answer =
        ((M.run history).unmount path).map fun (info, _) => info) ∧
      (∀ mounts, ((start.run history).reload mounts).answer =
        ((M.run history).reload mounts).map fun _ => ()) ∧
      (∀ path, ((start.run history).isMounted path).answer = (M.run history).isMounted path) ∧
      (start.run history).mounts = (M.run history).mounts) ∧
    (∀ path, Undisturbed start history (Command.Writes path) →
      ((start.run history).resolve path).answer = (M.run history).resolve path ∧
      ((start.run history).mountCovering path).answer = (M.run history).mountCovering path) ∧
    (∀ path, Undisturbed start history (Command.Classifies path) →
      ((start.run history).hasBeneath path).answer = (M.run history).hasBeneath path) := by
  have hsound := h.sound.run history
  have hview : (start.run history).view = M.run history := by
    rw [h.sound.view_run, h.view_eq]
  rw [← hview]
  refine ⟨⟨?_, ?_, ?_, ?_, ?_⟩, ?_, ?_⟩
  · intro path ufs
    exact (view_mount path ufs).1
  · intro path
    exact (view_unmount hsound path).1
  · intro mounts
    exact (view_reload mounts).1
  · intro path
    exact answer_isMounted hsound path
  · exact hsound.consistent.mounts_view.symm
  · intro path hhistory
    have hright := h.fresh.answerRight hhistory
    exact ⟨answer_resolve hsound hright, answer_mountCovering hsound hright⟩
  · intro path hhistory
    apply answer_hasBeneath hsound
    rintro p rfl
    exact h.fresh.classRight hhistory

/-- An answer that was made up before a reload is not seen after it. -/
theorem refines_after_reload :
    let history := [.cache (.edit (.add "/b/c/x" "/gone")), .reload [⟨"/b", "s3://b"⟩],
      .mount "/b/c" "s3://c"]
    ((Resolver.empty.run history).resolve "/b/c/x").answer = .ok "/b/c" ∧
      ((Resolver.empty.run history).mountCovering "/b/c/x").answer = .ok ⟨"/b/c", "s3://c"⟩ := by
  intro history
  have hhistory : Undisturbed .empty history (Command.Writes "/b/c/x") := by
    refine ⟨[.cache (.edit (.add "/b/c/x" "/gone")), .reload [⟨"/b", "s3://b"⟩]],
      [.mount "/b/c" "s3://c"], rfl, Or.inr ⟨[_], _, rfl, ?_⟩, ?_⟩
    · decide +kernel
    · rintro call hmem ⟨mountPoint, rfl⟩
      cases List.mem_singleton.mp hmem
  obtain ⟨hresolve, hcovering⟩ := (Setup.empty.refines history).2.1 _ hhistory
  rw [hresolve, hcovering]
  decide +kernel

end Resolver

end NearestMount
