import NearestMount.Proofs.Resolver.Classification

/-! # What is remembered of one path stays right

    The cache may be changed directly, so nothing can be said of it as a whole. But the
    two things that it remembers of one path, its answer (`AnswerRight`) and its
    classification (`ClassRight`), are each kept right by every step except the direct
    write of that very thing; and a reload makes both right again. So both are right as
    long as they were `Undisturbed` since the start or the last reload.
-/

namespace NearestMount.Resolver

/-! ## The two things that are remembered -/

/-- If an answer is remembered for the path, it is the one that the table has. -/
def AnswerRight (r : Resolver) (path : String) : Prop :=
  ∀ mountPoint, r.cache.get? path = some mountPoint →
    ∃ p q : Path, p.text = path ∧ r.table.covering? p = some q ∧ q.text = mountPoint

/-- If the mount point is classified, it is classified as the table has it. -/
def ClassRight (r : Resolver) (p : Path) : Prop :=
  r.table.Mounted p → ∀ isNested, r.cache.isNested? p.text = some isNested →
    isNested = r.table.hasBeneath p

/-- A direct call that writes an answer for the path. -/
def Command.Writes (path : String) (call : Command) : Prop :=
  ∃ mountPoint, call = .cache (.edit (.add path mountPoint))

/-- A direct call that classifies the path. -/
def Command.Classifies (path : String) (call : Command) : Prop :=
  ∃ isNested, call = .cache (.edit (.classify path isNested))

/-! ## Answers -/

/-- A mount changes the answers only for paths that were answered by the mount point
    that encloses the new one, and those are forgotten. -/
theorem answerRight_mount {r : Resolver} (h : r.table.Consistent) {p : Path} {ufs path : String}
    (hnew : ¬ r.table.Mounted p) (hpath : r.AnswerRight path) :
    AnswerRight
      { r with
        table := r.table.register p ufs
        cache := r.cache.applyAll (r.mountEdits (r.table.register p ufs) p) } path := by
  have hafter := h.register p ufs
  intro mountPoint hget
  rw [get?_mountEdits, h.enclosing?_register] at hget
  split at hget
  · next hseed =>
    -- a seed: the path is a mount point
    cases hget
    have hmounted : ∃ q : Path, q.text = path ∧ (r.table.register p ufs).Mounted q := by
      rcases hseed.2 with rfl | hparent
      · exact ⟨p, rfl, Table.mounted_register.mpr (Or.inl rfl)⟩
      · obtain ⟨parent, hfound, rfl⟩ := Option.map_eq_some_iff.mp hparent
        have hbefore := (h.enclosing?_eq_some_iff.mp hfound).member.2
        exact ⟨parent, rfl, Table.mounted_register.mpr (Or.inr hbefore)⟩
    obtain ⟨q, rfl, hq⟩ := hmounted
    exact ⟨q, q, rfl, hafter.covering?_of_mounted hq, rfl⟩
  · -- kept from before: then it was not the answer that the purge takes
    obtain ⟨hold, hother⟩ := Option.filter_eq_some_iff.mp hget
    obtain ⟨p', q, rfl, hfound, rfl⟩ := hpath mountPoint hold
    refine ⟨p', q, rfl, ?_, rfl⟩
    rw [h.covering?_register hnew, if_neg, hfound]
    intro hboth
    obtain ⟨-, hsame⟩ := hboth
    rw [← hsame, hfound] at hother
    simp at hother

/-- An unmount changes the answers only for paths that were answered by what is gone,
    and those are forgotten. -/
theorem answerRight_unmount {r : Resolver} (h : r.table.Consistent) {p : Path} {path : String}
    (hmounted : r.table.Mounted p) (hp : ¬ (p = .root ∧ r.table.pinnedRoot = true))
    (hpath : r.AnswerRight path) :
    AnswerRight
      { r with
        table := r.table.withdraw p
        cache := r.cache.applyAll (unmountEdits (r.table.withdraw p) p) } path := by
  intro mountPoint hget
  rw [get?_unmountEdits] at hget
  obtain ⟨hold, hother⟩ := Option.filter_eq_some_iff.mp hget
  obtain ⟨p', q, rfl, hfound, rfl⟩ := hpath mountPoint hold
  refine ⟨p', q, rfl, ?_, rfl⟩
  rw [h.covering?_withdraw hmounted hp, if_neg, hfound]
  rw [hfound]
  intro hsame
  rw [Option.some.inj hsame] at hother
  simp at hother

/-- After a replacement of the mounts every answer that is remembered is right. -/
theorem answerRight_replace (r : Resolver) {table : Table} (h : table.Consistent)
    (path : String) :
    AnswerRight { r with table, cache := r.cache.applyAll (r.replaceEdits table) } path := by
  intro mountPoint hget
  rw [get?_replaceEdits r r.cache h] at hget
  split at hget
  · next hmounted =>
    cases hget
    obtain ⟨info, hinfo⟩ := Option.isSome_iff_exists.mp hmounted.2
    obtain ⟨-, p, rfl⟩ := h.keyed path info hinfo
    exact ⟨p, p, rfl, h.covering?_of_mounted hmounted.2, rfl⟩
  · cases hget

/-- No direct call but the one that writes an answer for the path makes a new one. -/
theorem get?_of_get?_apply {c : Cache} {path mountPoint : String} {e : Cache.Edit}
    (he : ¬ Command.Writes path (.cache (.edit e)))
    (hget : (c.apply e).get? path = some mountPoint) : c.get? path = some mountPoint := by
  cases e with
  | add other found =>
    have hne : other ≠ path := by
      intro heq
      subst heq
      exact he ⟨found, rfl⟩
    rwa [Cache.apply, Cache.get?_add_ne _ _ hne] at hget
  | purge gone =>
    rw [Cache.apply, Cache.get?_purge] at hget
    exact (Option.filter_eq_some_iff.mp hget).1
  | clear =>
    rw [Cache.apply, Cache.get?_clear] at hget
    cases hget
  | classify other isNested => rwa [Cache.apply, Cache.get?_classify] at hget
  | declassify other => rwa [Cache.apply, Cache.get?_declassify] at hget

theorem answerRight_edit {r : Resolver} {path : String} {e : Cache.Edit}
    (he : ¬ Command.Writes path (.cache (.edit e))) (hpath : r.AnswerRight path) :
    AnswerRight { r with cache := r.cache.apply e } path :=
  fun mountPoint hget => hpath mountPoint (get?_of_get?_apply he hget)

/-- Every step keeps what is remembered as the answer for a path right, but for the
    direct call that writes it. -/
theorem Step.answerRight {r s : Resolver} {call : Command} (hstep : Step r call s)
    (h : r.table.Consistent) {path : String} (hcall : ¬ call.Writes path)
    (hpath : r.AnswerRight path) : s.AnswerRight path := by
  cases hstep with
  | idle => exact hpath
  | mount hnew => exact answerRight_mount h hnew hpath
  | unmount hmounted hp => exact answerRight_unmount h hmounted hp hpath
  | @remember p q _ _ hmiss hfound =>
    intro mountPoint hget
    rw [Cache.get?_add] at hget
    split at hget
    · next heq =>
      cases hget
      exact ⟨p, q, heq, hfound, rfl⟩
    · exact hpath mountPoint hget
  | classify hmounted hmiss =>
    intro mountPoint hget
    rw [Cache.get?_classify] at hget
    exact hpath mountPoint hget
  | reload hload htable => exact answerRight_replace r htable path
  | edit e => exact answerRight_edit hcall hpath

/-! ## Classifications -/

theorem classRight_edit {r : Resolver} {p : Path} {e : Cache.Edit}
    (he : ¬ Command.Classifies p.text (.cache (.edit e))) (hp : r.ClassRight p) :
    ClassRight { r with cache := r.cache.apply e } p := by
  intro hmounted isNested hclass
  apply hp hmounted isNested
  cases e with
  | add path mountPoint => exact hclass
  | purge mountPoint => exact hclass
  | clear => exact hclass
  | classify other found =>
    have hne : ¬ other = p.text := by
      intro heq
      subst heq
      exact he ⟨found, rfl⟩
    rwa [Cache.apply, Cache.isNested?_classify, if_neg hne] at hclass
  | declassify other =>
    rw [Cache.apply, Cache.isNested?_declassify] at hclass
    split at hclass
    · cases hclass
    · exact hclass

/-- Every step keeps what is remembered as the classification of a mount point right,
    but for the direct call that writes it. -/
theorem Step.classRight {r s : Resolver} {call : Command} (hstep : Step r call s)
    (h : r.table.Consistent) {p : Path} (hcall : ¬ call.Classifies p.text)
    (hp : r.ClassRight p) : s.ClassRight p := by
  cases hstep with
  | idle => exact hp
  | mount hnew =>
    intro hmounted isNested hclass
    rcases isNested?_mount h hmounted with hright | ⟨hbefore, hbeneath, hkept⟩
    · exact Option.some.inj (hclass.symm.trans hright)
    · rw [hbeneath]
      exact hp hbefore isNested (hkept.symm.trans hclass)
  | unmount hgone hguard =>
    intro hmounted isNested hclass
    rcases isNested?_unmount h hgone hguard hmounted with hright | ⟨hbefore, hbeneath, hkept⟩
    · exact Option.some.inj (hclass.symm.trans hright)
    · rw [hbeneath]
      exact hp hbefore isNested (hkept.symm.trans hclass)
  | remember hasked hmiss hfound => exact hp
  | @classify q hmounted hmiss =>
    intro hpmounted isNested hclass
    rw [Cache.isNested?_classify] at hclass
    split at hclass
    · next heq =>
      rw [← Path.text_inj.mp heq]
      exact (Option.some.inj hclass).symm
    · exact hp hpmounted isNested hclass
  | reload hload htable =>
    intro hmounted isNested hclass
    have hright := isNested?_replaceEdits_of_mounted r r.cache htable hmounted
    exact Option.some.inj (hclass.symm.trans hright)
  | edit e => exact classRight_edit hcall hp

/-! ## Histories -/

/-- Since the start of a history, or since the last reload in it that was not refused,
    no call disturbs. -/
def Undisturbed (start : Resolver) (history : List Command) (disturbs : Command → Prop) : Prop :=
  ∃ before after, history = before ++ after ∧
    (before = [] ∨ ∃ earlier mounts, before = earlier ++ [.reload mounts] ∧
      ((start.run earlier).reload mounts).answer = .ok ()) ∧
    ∀ call ∈ after, ¬ disturbs call

theorem Undisturbed.mono {start : Resolver} {history : List Command}
    {disturbs fewer : Command → Prop} (h : Undisturbed start history disturbs)
    (hle : ∀ call, fewer call → disturbs call) : Undisturbed start history fewer := by
  obtain ⟨before, after, hsplit, hbefore, hafter⟩ := h
  exact ⟨before, after, hsplit, hbefore, fun call hmem hcall => hafter call hmem (hle call hcall)⟩

/-- A reload that is not refused makes everything right. -/
theorem right_of_reload {r : Resolver} {mounts : List Mount}
    (h : (r.reload mounts).answer = .ok ()) :
    (∀ path, (r.reload mounts).next.AnswerRight path) ∧
      ∀ p, (r.reload mounts).next.ClassRight p := by
  rcases r.reload_cases mounts with ⟨e, -, herror, -⟩ | ⟨table, -, htable, -, hnext⟩
  · rw [herror] at h
    cases h
  · rw [hnext]
    refine ⟨answerRight_replace r htable, ?_⟩
    intro p hmounted isNested hclass
    have hright := isNested?_replaceEdits_of_mounted r r.cache htable hmounted
    exact Option.some.inj (hclass.symm.trans hright)

theorem Fresh.right {r : Resolver} (h : r.Fresh) :
    (∀ path, r.AnswerRight path) ∧ ∀ p, r.ClassRight p := by
  cases h with
  | empty =>
    refine ⟨?_, ?_⟩
    · intro path mountPoint hget
      have hnone : Resolver.empty.cache.get? path = none := Cache.get?_empty path
      rw [hnone] at hget
      cases hget
    · intro p hmounted
      exact absurd hmounted (Table.not_mounted_empty p)
  | ofSettings hset =>
    obtain ⟨bare, -, hanswer, rfl⟩ := exists_reload_of_ofSettings hset
    exact right_of_reload hanswer

/-- A property that holds at the start and after every reload, and is kept by every
    call that does not disturb, holds as long as nothing disturbs. -/
theorem Fresh.undisturbed_induction {P : Resolver → Prop} {start : Resolver} (h : start.Fresh)
    {history : List Command} {disturbs : Command → Prop}
    (hhistory : Undisturbed start history disturbs) (hstart : P start)
    (hreload : ∀ r mounts, (Resolver.reload r mounts).answer = .ok () → P (r.reload mounts).next)
    (hstep : ∀ r call s, r.table.Consistent → Step r call s → ¬ disturbs call → P r → P s) :
    P (start.run history) := by
  obtain ⟨before, after, rfl, hbefore, hafter⟩ := hhistory
  rw [run_append]
  have hbase : P (start.run before) := by
    rcases hbefore with rfl | ⟨earlier, mounts, rfl, hanswer⟩
    · exact hstart
    · rw [run_append]
      exact hreload _ mounts hanswer
  -- from there on the consistency of the table goes along with `P`
  have hboth : (start.run before).table.Consistent ∧ P (start.run before) :=
    ⟨h.consistent_run before, hbase⟩
  refine (run_induction (P := fun r => r.table.Consistent ∧ P r) after hboth ?_).2
  intro r call hmem hboth
  obtain ⟨hconsistent, hr⟩ := hboth
  have hexec := step_exec hconsistent call
  exact ⟨hexec.consistent hconsistent, hstep r call _ hconsistent hexec (hafter call hmem) hr⟩

theorem Fresh.answerRight {start : Resolver} (h : start.Fresh) {history : List Command}
    {path : String} (hhistory : Undisturbed start history (Command.Writes path)) :
    (start.run history).AnswerRight path :=
  h.undisturbed_induction (P := fun r => r.AnswerRight path) hhistory (h.right.1 path)
    (fun _ _ hanswer => (right_of_reload hanswer).1 path)
    (fun _ _ _ hconsistent hstep hcall hr => hstep.answerRight hconsistent hcall hr)

theorem Fresh.classRight {start : Resolver} (h : start.Fresh) {history : List Command}
    {p : Path} (hhistory : Undisturbed start history (Command.Classifies p.text)) :
    (start.run history).ClassRight p :=
  h.undisturbed_induction (P := fun r => r.ClassRight p) hhistory (h.right.2 p)
    (fun _ _ hanswer => (right_of_reload hanswer).2 p)
    (fun _ _ _ hconsistent hstep hcall hr => hstep.classRight hconsistent hcall hr)

end NearestMount.Resolver
