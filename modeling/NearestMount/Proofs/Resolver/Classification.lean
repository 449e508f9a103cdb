import NearestMount.Proofs.Resolver.Edits

/-! # Classifications follow the table

    A call that changes the table classifies two mount points at most: the changed one
    and the one that encloses it. `isNested?_mount` and `isNested?_unmount` say why
    that is enough for every other one, at whatever distance. So as long as nobody
    changes the cache directly, exactly the mount points are classified, each as the
    table has it (`Fresh.classification_exact`).
-/

namespace NearestMount.Resolver

/-! ## One change of the table -/

/-- After a mount every mount point is classified anew and rightly, or it is as it was
    before and so is its classification. -/
theorem isNested?_mount {r : Resolver} (h : r.table.Consistent) {p q : Path} {ufs : String}
    (hq : (r.table.register p ufs).Mounted q) :
    (r.cache.applyAll (r.mountEdits (r.table.register p ufs) p)).isNested? q.text =
        some ((r.table.register p ufs).hasBeneath q) ∨
      (r.table.Mounted q ∧ (r.table.register p ufs).hasBeneath q = r.table.hasBeneath q ∧
        (r.cache.applyAll (r.mountEdits (r.table.register p ufs) p)).isNested? q.text =
          r.cache.isNested? q.text) := by
  rw [isNested?_mountEdits, h.enclosing?_register]
  by_cases hqp : q = p
  · -- the new mount point itself
    subst hqp
    left
    rw [if_pos rfl]
  · have hbefore : r.table.Mounted q := (Table.mounted_register.mp hq).resolve_left hqp
    have htext : ¬ q.text = p.text := fun heq => hqp (Path.text_inj.mp heq)
    rw [if_neg htext]
    by_cases hparent : r.table.enclosing? p = some q
    · -- the one that encloses it has something beneath now
      left
      rw [hparent, Option.map_some, if_pos rfl, h.hasBeneath_enclosing? hparent]
    · -- every other one is left alone, and rightly so
      right
      refine ⟨hbefore, h.hasBeneath_register hbefore hparent hqp, ?_⟩
      rw [if_neg]
      intro heq
      obtain ⟨parent, hfound, hsame⟩ := Option.map_eq_some_iff.mp heq
      rw [Path.text_inj.mp hsame] at hfound
      exact hparent hfound

/-- After an unmount every mount point that is left is classified anew and rightly, or
    it is as it was before and so is its classification. -/
theorem isNested?_unmount {r : Resolver} (h : r.table.Consistent) {p q : Path}
    (hmounted : r.table.Mounted p) (hp : ¬ (p = .root ∧ r.table.pinnedRoot = true))
    (hq : (r.table.withdraw p).Mounted q) :
    (r.cache.applyAll (unmountEdits (r.table.withdraw p) p)).isNested? q.text =
        some ((r.table.withdraw p).hasBeneath q) ∨
      (r.table.Mounted q ∧ (r.table.withdraw p).hasBeneath q = r.table.hasBeneath q ∧
        (r.cache.applyAll (unmountEdits (r.table.withdraw p) p)).isNested? q.text =
          r.cache.isNested? q.text) := by
  obtain ⟨hqp, hbefore⟩ := Table.mounted_withdraw.mp hq
  have htext : ¬ q.text = p.text := fun heq => hqp (Path.text_inj.mp heq)
  rw [isNested?_unmountEdits, h.enclosing?_withdraw hmounted hp, if_neg htext]
  by_cases hparent : r.table.enclosing? p = some q
  · -- the one that encloses what is gone is asked anew
    left
    rw [hparent, Option.bind_some, if_pos rfl, Option.some_or]
  · -- every other one is left alone, and rightly so
    right
    refine ⟨hbefore, h.hasBeneath_withdraw hmounted hp hbefore hparent hqp, ?_⟩
    cases hfound : r.table.enclosing? p with
    | none => rfl
    | some parent =>
      have hne : ¬ q.text = parent.text := by
        intro heq
        rw [hfound, Path.text_inj.mp heq] at hparent
        exact hparent rfl
      rw [Option.bind_some, if_neg hne, Option.none_or]

/-! ## The invariant -/

/-- Exactly the mount points are classified, each as the table has it. -/
structure Classified (r : Resolver) : Prop where
  consistent : r.table.Consistent
  of_mounted : ∀ p, r.table.Mounted p → r.cache.isNested? p.text = some (r.table.hasBeneath p)
  of_not_mounted : ∀ path, r.table.get? path = none → r.cache.isNested? path = none

theorem classified_bare (rootUfs : Option String) (preseed : Bool) :
    Classified ⟨.empty, .empty, rootUfs, preseed⟩ where
  consistent := Table.consistent_empty
  of_mounted p hp := absurd hp (Table.not_mounted_empty p)
  of_not_mounted path _ := Cache.isNested?_empty path

/-- True of a direct change of the cache. -/
def Command.isEdit : Command → Bool
  | .cache (.edit _) => true
  | _ => false

/-- Every step but a direct change of the cache keeps the classification exact. -/
theorem Step.classified {r s : Resolver} {call : Command} (hstep : Step r call s)
    (h : r.Classified) (hcall : call.isEdit = false) : s.Classified := by
  have hafter := hstep.consistent h.consistent
  cases hstep with
  | idle => exact h
  | @mount p ufs hnew =>
    refine ⟨hafter, ?_, ?_⟩
    · intro q hq
      rcases isNested?_mount h.consistent hq with hright | ⟨hbefore, hbeneath, hkept⟩
      · exact hright
      · rw [hkept, hbeneath, h.of_mounted q hbefore]
    · intro path hpath
      -- neither the new mount point nor the one that encloses it is absent
      have hgone : r.table.get? path = none ∧ ¬ path = p.text := by
        rw [Table.get?_register] at hpath
        split at hpath
        · cases hpath
        · next hne => exact ⟨hpath, fun heq => hne heq.symm⟩
      rw [isNested?_mountEdits, h.consistent.enclosing?_register, if_neg hgone.2, if_neg]
      · exact h.of_not_mounted path hgone.1
      · intro heq
        obtain ⟨parent, hfound, rfl⟩ := Option.map_eq_some_iff.mp heq
        have hparent := (h.consistent.enclosing?_eq_some_iff.mp hfound).member.2
        exact Table.not_mounted_iff.mpr hgone.1 hparent
  | @unmount p hmounted hp =>
    refine ⟨hafter, ?_, ?_⟩
    · intro q hq
      rcases isNested?_unmount h.consistent hmounted hp hq with hright | ⟨hbefore, hbeneath, hkept⟩
      · exact hright
      · rw [hkept, hbeneath, h.of_mounted q hbefore]
    · intro path hpath
      -- what was not mounted had no classification, and what is gone loses its own
      have hleft : (if path = p.text then none else r.cache.isNested? path) = none := by
        split
        · rfl
        · next hne =>
          rw [Table.get?_withdraw, if_neg (Ne.symm hne)] at hpath
          exact h.of_not_mounted path hpath
      rw [isNested?_unmountEdits, hleft, Option.or_none]
      cases hfound : (r.table.withdraw p).enclosing? p with
      | none => rfl
      | some parent =>
        have hparent := (hafter.enclosing?_eq_some_iff.mp hfound).member.2
        rw [Option.bind_some, if_neg]
        intro heq
        subst heq
        exact Table.not_mounted_iff.mpr hpath hparent
  | remember hcall hmiss hfound => exact ⟨hafter, h.of_mounted, h.of_not_mounted⟩
  | @classify p hmounted hmiss =>
    -- every mount point is classified already
    rw [h.of_mounted p hmounted] at hmiss
    cases hmiss
  | reload hload htable =>
    refine ⟨hafter, ?_, ?_⟩
    · intro p hp
      exact isNested?_replaceEdits_of_mounted r r.cache htable hp
    · intro path hpath
      rw [isNested?_replaceEdits_of_not_mounted r r.cache h.consistent htable hpath]
      split
      · rfl
      · next hold => exact h.of_not_mounted path (by simpa using hold)
  | edit e => cases hcall

/-! ## Histories -/

theorem Fresh.classified {r : Resolver} (h : r.Fresh) : r.Classified := by
  cases h with
  | empty => exact classified_bare none true
  | @ofSettings _ c r events hset =>
    obtain ⟨bare, rfl, -, rfl⟩ := exists_reload_of_ofSettings hset
    have hbare := classified_bare c.rootUfs c.preseed
    exact (step_exec hbare.consistent (.reload c.mounts)).classified hbare rfl

/-- After every history in which nobody changes the cache directly, calls that are
    refused included: a text is classified exactly if it is a mount point, and then as
    nested exactly if another mount point lies beneath it. -/
theorem Fresh.classification_exact {start : Resolver} (h : start.Fresh) {history : List Command}
    (hhistory : ∀ call ∈ history, call.isEdit = false) (path : String) (isNested : Bool) :
    (start.run history).cache.isNested? path = some isNested ↔
      ((start.run history).table.get? path).isSome = true ∧
      (isNested = true ↔ ∃ p q : Path, p.text = path ∧ (start.run history).table.Mounted q ∧
        p.covers q = true ∧ q ≠ p) := by
  have hrun : (start.run history).Classified :=
    run_induction (P := Classified) history h.classified
      fun s call hmem hs => (step_exec hs.consistent call).classified hs (hhistory call hmem)
  generalize start.run history = r at hrun
  cases hget : r.table.get? path with
  | none =>
    rw [hrun.of_not_mounted path hget]
    simp
  | some info =>
    obtain ⟨-, p, rfl⟩ := hrun.consistent.keyed path info hget
    have hbeneath : r.table.hasBeneath p = true ↔
        ∃ p' q : Path, p'.text = p.text ∧ r.table.Mounted q ∧ p'.covers q = true ∧ q ≠ p' := by
      rw [hrun.consistent.hasBeneath_iff]
      constructor
      · intro hexists
        obtain ⟨q, hq⟩ := hexists
        exact ⟨p, q, rfl, hq⟩
      · intro hexists
        obtain ⟨p', q, htext, hq⟩ := hexists
        rw [Path.text_inj.mp htext] at hq
        exact ⟨q, hq⟩
    rw [hrun.of_mounted p (Table.mounted_iff_exists.mpr ⟨info, hget⟩), ← hbeneath]
    cases isNested <;> simp

/-- A mount point that was put between two others, and is gone again, is not
    classified; the one above it still is. -/
theorem classification_after_middle_unmount :
    let s := Resolver.empty.run [.mount "/a/b/c" "s3://c", .mount "/a" "s3://a",
      .mount "/a/b" "s3://b", .unmount "/a/b"]
    s.cache.isNested? "/a/b" = none ∧ s.cache.isNested? "/a" = some true ∧
      ∃ p q : Path, p.text = "/a" ∧ s.table.Mounted q ∧ p.covers q = true ∧ q ≠ p := by
  intro s
  have hhistory : ∀ call ∈ [.mount "/a/b/c" "s3://c", .mount "/a" "s3://a",
      .mount "/a/b" "s3://b", .unmount "/a/b"], Command.isEdit call = false := by decide
  have hexact := Fresh.empty.classification_exact hhistory
  have hnested : s.cache.isNested? "/a" = some true := by decide +kernel
  refine ⟨?_, hnested, ((hexact "/a" true).mp hnested).2.mp rfl⟩
  cases hclass : s.cache.isNested? "/a/b" with
  | none => rfl
  | some isNested =>
    have hmounted := ((hexact "/a/b" isNested).mp hclass).1
    exact absurd hmounted (by decide +kernel)

end NearestMount.Resolver
