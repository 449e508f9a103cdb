import NearestMount.Proofs.Resolver.Refinement

/-! # The permanent root

    Three things have to agree for the root to be permanent: the location among the
    settings, the mount in the table, and the mark of the table that this mount stays.
    A reload takes the table apart and makes a new one, so what carries the agreement
    over it is that the filling of a table takes no mount away (`get?_of_load`).

    - `Rooted` is the agreement; every step keeps it (`Step.rooted`).
    - `head?_list_of_root`: a mount of the root is the first of the list.
    - `permanent_root` says what follows for every history, with a permanent root and
      without one.
-/

namespace NearestMount

/-- No path is written before the root. -/
theorem Path.not_text_lt_root (p : Path) : ¬ p.text < "/" := by
  rw [String.lt_iff, Path.toList_text, Path.chars]
  intro hlt
  rcases List.cons_lt_cons_iff.mp hlt with hhead | ⟨-, htail⟩
  · exact absurd hhead (by decide)
  · exact List.not_lt_nil _ htail

theorem Path.parse_root : Path.parse "/" = .ok .root := Path.parse_text .root

namespace Table

variable {t u : Table}

/-- The mount of the root comes before all others. -/
theorem Consistent.head?_list_of_root (h : t.Consistent) {info : Mount}
    (hroot : t.get? "/" = some info) : t.list.head? = some info := by
  have hmem : ("/", info) ∈ t.mounts.toList := Std.ExtTreeMap.mem_toList_iff_getElem?_eq_some.mpr hroot
  have hkeys : ∀ entry ∈ t.mounts.toList, ¬ entry.1 < "/" := by
    intro entry hentry
    have hget : t.get? entry.1 = some entry.2 :=
      Std.ExtTreeMap.mem_toList_iff_getElem?_eq_some.mp hentry
    obtain ⟨-, p, hp⟩ := h.keyed entry.1 entry.2 hget
    rw [← hp]
    exact p.not_text_lt_root
  -- the entries are ordered by their paths, so only the first can be least
  have hordered := Std.ExtTreeMap.ordered_keys_toList (t := t.mounts)
  unfold list
  cases hlist : t.mounts.toList with
  | nil =>
    rw [hlist] at hmem
    cases hmem
  | cons first rest =>
    rw [hlist] at hmem hkeys hordered
    rcases List.mem_cons.mp hmem with rfl | hrest
    · rfl
    · -- then the first entry would come before the root
      have hlt := (List.pairwise_cons.mp hordered).1 _ hrest
      exact absurd (compareOfLessAndEq_eq_lt.mp hlt) (hkeys first List.mem_cons_self)

end Table

namespace Resolver

/-! ## The agreement -/

/-- The permanent root, if there is to be one, is mounted with its location, and for
    good. -/
structure Rooted (r : Resolver) : Prop where
  sound : r.Sound
  root : ∀ ufs, r.rootUfs = some ufs → r.table.get? "/" = some ⟨"/", ufs⟩

variable {r s start : Resolver}

/-- A table that was filled anew has the permanent root. -/
theorem rooted_load {mounts : List Mount} {table : Table}
    (hload : (r.emptyTable.load mounts).table = .ok table) (htable : table.Consistent)
    (cache : Cache) : Rooted { r with table, cache } where
  sound := by
    refine ⟨htable, ?_⟩
    show table.pinnedRoot = r.rootUfs.isSome
    rw [Table.pinnedRoot_load hload, pinnedRoot_emptyTable]
  root ufs hufs := Table.get?_of_load hload (get?_emptyTable_iff.mpr ⟨rfl, ufs, hufs, rfl⟩)

/-- No step changes the settings. -/
theorem Step.settings {call : Command} (hstep : Step r call s) :
    s.rootUfs = r.rootUfs ∧ s.preseed = r.preseed := by
  cases hstep <;> exact ⟨rfl, rfl⟩

theorem Step.rooted {call : Command} (hstep : Step r call s) (h : r.Rooted) : s.Rooted := by
  refine ⟨hstep.sound h.sound, ?_⟩
  intro ufs hufs
  have hroot := h.root ufs (hstep.settings.1 ▸ hufs)
  cases hstep with
  | idle => exact hroot
  | @mount p _ hnew =>
    show (r.table.register p _).get? "/" = _
    rw [Table.get?_register, if_neg, hroot]
    -- the root is taken, so it is not what is mounted
    intro heq
    exact hnew (Table.mounted_iff_exists.mpr ⟨_, heq ▸ hroot⟩)
  | @unmount p hmounted hp =>
    show (r.table.withdraw p).get? "/" = _
    rw [Table.get?_withdraw, if_neg, hroot]
    -- the root is mounted for good, so it is not what is taken away
    intro heq
    have hpinned : r.table.pinnedRoot = true := by
      rw [h.sound.pinned, Option.isSome_iff_exists]
      exact ⟨ufs, hufs⟩
    exact hp ⟨Path.text_inj.mp heq, hpinned⟩
  | remember hcall hmiss hfound => exact hroot
  | classify hmounted hmiss => exact hroot
  | reload hload htable => exact (rooted_load hload htable _).root ufs hufs
  | edit e => exact hroot

/-! ## Histories -/

theorem Fresh.rooted (h : start.Fresh) : start.Rooted := by
  cases h with
  | empty =>
    refine ⟨⟨Table.consistent_empty, rfl⟩, ?_⟩
    intro ufs hufs
    cases hufs
  | @ofSettings _ c _ _ hset =>
    -- the resolver before its first reload has no root yet, so no step keeps one
    obtain ⟨bare, -, hanswer, rfl⟩ := exists_reload_of_ofSettings hset
    rcases bare.reload_cases c.mounts with ⟨e, -, herror, -⟩ | ⟨table, hload, htable, -, hnext⟩
    · rw [herror] at hanswer
      cases hanswer
    · rw [hnext]
      exact rooted_load hload htable _

theorem Rooted.run (h : start.Rooted) (history : List Command) : (start.run history).Rooted :=
  run_induction (P := Rooted) history h fun _ call _ hs =>
    (step_exec hs.sound.consistent call).rooted hs

/-- No history changes the settings. -/
theorem Sound.settings_run (h : start.Sound) (history : List Command) :
    (start.run history).rootUfs = start.rootUfs ∧ (start.run history).preseed = start.preseed := by
  -- calls take steps only where the table is consistent, so soundness goes along
  have hrun : (start.run history).Sound ∧
      (start.run history).rootUfs = start.rootUfs ∧ (start.run history).preseed = start.preseed := by
    refine run_induction (P := fun s => s.Sound ∧ s.rootUfs = start.rootUfs ∧
      s.preseed = start.preseed) history ⟨h, rfl, rfl⟩ ?_
    intro s call _ hs
    obtain ⟨hsound, hroot, hpreseed⟩ := hs
    have hexec := step_exec hsound.consistent call
    exact ⟨hexec.sound hsound, hexec.settings.1.trans hroot, hexec.settings.2.trans hpreseed⟩
  exact hrun.2

theorem ofSettings_settings {memory : Memory} {c : Settings} {events : List Event}
    (h : ofSettings memory c = .ok (start, events)) :
    start.rootUfs = c.rootUfs ∧ start.preseed = c.preseed := by
  obtain ⟨bare, hbare, -, rfl⟩ := exists_reload_of_ofSettings h
  have hconsistent : bare.table.Consistent := by
    rw [hbare]
    exact Table.consistent_empty
  have hstep := (step_exec hconsistent (.reload c.mounts)).settings
  rw [hbare] at hstep ⊢
  exact hstep

/-! ## With and without a permanent root -/

/-- With the root mounted, every path is covered by a mount. -/
theorem Rooted.answer_mountCovering (h : r.Rooted) {ufs : String} (hufs : r.rootUfs = some ufs)
    {p : Path} (hp : r.AnswerRight p.text) :
    (∃ q, (r.resolve p.text).answer = .ok q) ∧
      ∃ info, (r.mountCovering p.text).answer = .ok info := by
  have hroot : r.table.Mounted .root := Table.mounted_iff_exists.mpr ⟨_, h.root ufs hufs⟩
  have hc := h.sound.consistent
  cases hfound : r.table.covering? p with
  | none => exact absurd hroot (hc.not_mounted_of_covering?_eq_none hfound (Path.root_covers p))
  | some q =>
    have hresolve : (r.resolve p.text).answer = .ok q.text := by
      rw [answer_resolve h.sound hp, MountMap.resolve_text, h.sound.nearest?_view, hfound]
    obtain ⟨info, hget⟩ := Table.mounted_iff_exists.mp (hc.nearest_of_covering? hfound).member
    exact ⟨⟨q.text, hresolve⟩, info, answer_mountCovering_of_get? hresolve hget⟩

theorem Rooted.unmount_root (h : r.Rooted) {ufs : String} (hufs : r.rootUfs = some ufs) :
    (r.unmount "/").answer = .error .rootPinned := by
  have hpinned : r.table.pinnedRoot = true := by
    rw [h.sound.pinned, hufs]
    rfl
  rcases r.unmount_cases "/" with ⟨fault, hparse, -⟩ | ⟨-, -, heq⟩ | ⟨p, hp, hguard, -⟩
  · rw [Path.parse_root] at hparse
    cases hparse
  · rw [heq]
    rfl
  · exact absurd ⟨Path.text_inj.mp hp, hpinned⟩ hguard

theorem Rooted.mount_root (h : r.Rooted) {ufs : String} (hufs : r.rootUfs = some ufs)
    (other : String) : (r.mount "/" other).answer = .error (.occupied "/") := by
  have hroot : r.table.Mounted .root := Table.mounted_iff_exists.mpr ⟨_, h.root ufs hufs⟩
  rcases r.mount_cases "/" other with ⟨fault, hparse, -⟩ | ⟨p, hp, ⟨-, heq⟩ | ⟨hnew, -⟩⟩
  · rw [Path.parse_root] at hparse
    cases hparse
  · rw [heq]
    rfl
  · obtain rfl : p = .root := Path.text_inj.mp hp
    exact absurd hroot hnew

theorem unmount_ne_rootPinned (hpinned : r.table.pinnedRoot = false) (path : String) :
    (r.unmount path).answer ≠ .error .rootPinned := by
  intro hanswer
  rcases r.unmount_cases path with
    ⟨fault, -, heq⟩ | ⟨-, hroot, -⟩ | ⟨p, -, -, ⟨-, heq⟩ | ⟨info, -, heq⟩⟩
  · rw [heq] at hanswer
    cases hanswer
  · -- the only case with that answer needs a root that is mounted for good
    rw [hpinned] at hroot
    cases hroot
  · rw [heq] at hanswer
    cases hanswer
  · rw [heq] at hanswer
    cases hanswer

/-- Where no root is mounted for good, whatever is mounted can be taken away, and
    nothing else goes with it. -/
theorem unmount_of_not_pinned (hpinned : r.table.pinnedRoot = false) {p : Path} {info : Mount}
    (hget : r.table.get? p.text = some info) :
    (r.unmount p.text).answer = .ok info ∧
      ∀ path, (r.unmount p.text).next.table.get? path =
        if path = p.text then none else r.table.get? path := by
  have hguard : ¬ (p = .root ∧ r.table.pinnedRoot = true) := by
    rw [hpinned]
    exact fun hboth => Bool.false_ne_true hboth.2
  have heq : r.unmount p.text =
      r.adopt (r.table.withdraw p) (unmountEdits (r.table.withdraw p) p)
        (.unmounted info.ufs info.path) info := by
    simp only [unmount, Path.read_text, Table.unmount_of_get? hguard hget]
  rw [heq]
  refine ⟨rfl, ?_⟩
  intro path
  show (r.table.withdraw p).get? path = _
  rw [Table.get?_withdraw]
  simp only [eq_comm]

/-- After every history of calls, direct calls of the cache included.

    With a permanent root: the root stays mounted for good, and is the first of the
    mounts, with the location of the settings; every path is resolved, unless an answer
    for it was written into the cache directly, since the start or the last reload that
    was not refused; and the root can neither be taken away nor mounted again.

    Without one: the root is never mounted for good, and a mount of the root can be
    taken away like every other one. -/
theorem permanent_root {start : Resolver} (history : List Command) :
    (∀ (memory : Memory) (c : Settings) (events : List Event) (ufs : String),
      ofSettings memory c = .ok (start, events) → c.rootUfs = some ufs →
      (start.run history).table.pinnedRoot = true ∧
      (start.run history).mounts.head? = some ⟨"/", ufs⟩ ∧
      (∀ path p, Path.parse path = .ok p → Undisturbed start history (Command.Writes path) →
        (∃ mountPoint, ((start.run history).resolve path).answer = .ok mountPoint) ∧
        ∃ info, ((start.run history).mountCovering path).answer = .ok info) ∧
      ((start.run history).unmount "/").answer = .error .rootPinned ∧
      ∀ other, ((start.run history).mount "/" other).answer = .error (.occupied "/")) ∧
    (start = .empty ∨
        (∃ memory c events, ofSettings memory c = .ok (start, events) ∧ c.rootUfs = none) →
      (start.run history).table.pinnedRoot = false ∧
      ((start.run history).unmount "/").answer ≠ .error .rootPinned ∧
      ∀ (p : Path) (info : Mount), (start.run history).table.get? p.text = some info →
        ((start.run history).unmount p.text).answer = .ok info ∧
        ∀ path, ((start.run history).unmount p.text).next.table.get? path =
          if path = p.text then none else (start.run history).table.get? path) := by
  constructor
  · intro memory c events ufs hset hufs
    have hfresh : start.Fresh := .ofSettings hset
    have hrun := hfresh.rooted.run history
    have hroot : (start.run history).rootUfs = some ufs := by
      rw [(hfresh.rooted.sound.settings_run history).1, (ofSettings_settings hset).1, hufs]
    refine ⟨?_, ?_, ?_, hrun.unmount_root hroot, hrun.mount_root hroot⟩
    · rw [hrun.sound.pinned, hroot]
      rfl
    · exact hrun.sound.consistent.head?_list_of_root (hrun.root ufs hroot)
    · intro path p hparse hhistory
      obtain rfl : p.text = path := Path.parse_eq_ok_iff.mp hparse
      exact hrun.answer_mountCovering hroot (hfresh.answerRight hhistory)
  · intro hstart
    -- however it was set up, there is no location for a permanent root
    have hboth : start.Sound ∧ start.rootUfs = none := by
      rcases hstart with rfl | ⟨memory, c, events, hset, hnone⟩
      · exact ⟨Fresh.empty.rooted.sound, rfl⟩
      · exact ⟨(Fresh.ofSettings hset).rooted.sound, (ofSettings_settings hset).1.trans hnone⟩
    obtain ⟨hsound, hnone⟩ := hboth
    have hpinned : (start.run history).table.pinnedRoot = false := by
      rw [(hsound.run history).pinned, (hsound.settings_run history).1, hnone]
      rfl
    exact ⟨hpinned, unmount_ne_rootPinned hpinned "/", fun p info => unmount_of_not_pinned hpinned⟩

/-- The root is permanent through reloads that bring a root of their own or are
    refused; and where it is not configured, a root that a reload brings can be taken
    away. -/
theorem root_after_reloads :
    let reloads : List Command := [.reload [⟨"/", "s3://x"⟩, ⟨"/b", "s3://b"⟩, ⟨"/", "s3://y"⟩],
      .cache (.edit (.add "/b/y" "/gone")), .reload [⟨"/c", "s3://c"⟩, ⟨"c", "s3://c"⟩],
      .unmount "/"]
    (∃ start events, ofSettings (.upTo 100) { rootUfs := some "s3://r" } = .ok (start, events) ∧
      (start.run reloads).mounts.head? = some ⟨"/", "s3://r"⟩ ∧
      (∃ mountPoint, ((start.run reloads).resolve "/b/x").answer = .ok mountPoint) ∧
      ((start.run reloads).unmount "/").answer = .error .rootPinned) ∧
    (((Resolver.empty.run [.reload [⟨"/", "s3://x"⟩]]).unmount "/").answer = .ok ⟨"/", "s3://x"⟩) := by
  intro reloads
  constructor
  · obtain ⟨⟨start, events⟩, hset⟩ :
        ∃ found, ofSettings (.upTo 100) { rootUfs := some "s3://r" } = .ok found := by
      cases hset : ofSettings (.upTo 100) { rootUfs := some "s3://r" } with
      | ok found => exact ⟨found, rfl⟩
      | error e =>
        have hok : (ofSettings (.upTo 100) { rootUfs := some "s3://r" }).isOk = true := by decide +kernel
        rw [hset] at hok
        cases hok
    obtain ⟨-, hhead, hresolve, hunmount, -⟩ :=
      (permanent_root reloads).1 _ _ events "s3://r" hset rfl
    refine ⟨start, events, hset, hhead, ?_, hunmount⟩
    have hhistory : Undisturbed start reloads (Command.Writes "/b/x") := by
      refine ⟨[], reloads, rfl, Or.inl rfl, ?_⟩
      rintro call hmem ⟨mountPoint, rfl⟩
      simp [reloads] at hmem
    exact (hresolve "/b/x" _ (Path.parse_text
      (.cons "b" (by decide) (.cons "x" (by decide) .root))) hhistory).1
  · have hget : (Resolver.empty.run [.reload [⟨"/", "s3://x"⟩]]).table.get? Path.root.text =
        some ⟨"/", "s3://x"⟩ := by decide +kernel
    exact ((permanent_root _).2 (Or.inl rfl)).2.2 .root _ hget |>.1

end Resolver

end NearestMount
