import Mathlib.Control.Monad.Basic
import NearestMount.Proofs.Resolver.Coherence

/-! # No more is forgotten than has to be

    `AnswerRight` says that no wrong answer is remembered. A cache that forgets everything
    at every change has that too, so here is the other half: what a change of the mounts
    leaves of the answers.

    - `UnmountPrecise`: an answer is forgotten exactly if it has changed.
    - `MountPrecise`: only answers that named what encloses the new mount point can be
      forgotten, and only seeds are written.
    - `Fresh.invalidation_precise`: this is so as long as nobody writes an answer into the
      cache directly.
-/

namespace NearestMount.Resolver

/-! ## Unmounting -/

/-- What an unmount that leads from `r` to `s` makes of the remembered answers. -/
structure UnmountPrecise (r s : Resolver) : Prop where
  /-- An answer stays exactly if it is still what the table answers. -/
  kept : ∀ key found, r.cache.get? key = some found → ∃ p : Path, p.text = key ∧
    (s.cache.get? key = some found ↔ s.table.covering? p = r.table.covering? p)
  /-- Nothing new is remembered. -/
  nothing_new : ∀ key found, s.cache.get? key = some found → r.cache.get? key = some found

theorem unmountPrecise {r : Resolver} (hc : r.table.Consistent)
    (hright : ∀ key, r.AnswerRight key) {target : Path} (hmounted : r.table.Mounted target)
    (hp : ¬ (target = .root ∧ r.table.pinnedRoot = true)) :
    UnmountPrecise r
      { r with
        table := r.table.withdraw target
        cache := r.cache.applyAll (unmountEdits (r.table.withdraw target) target) } := by
  constructor
  · intro key found hget
    obtain ⟨p, q, hkey, hcovering, rfl⟩ := hright key found hget
    refine ⟨p, hkey, ?_⟩
    -- both sides say that the answer did not name what is gone
    rw [hc.covering?_withdraw_eq_iff hmounted hp, hcovering, get?_unmountEdits, hget]
    simp [Option.filter_eq_some_iff, Path.text_inj]
  · intro key found hget
    rw [get?_unmountEdits] at hget
    exact (Option.filter_eq_some_iff.mp hget).1

/-! ## Mounting -/

/-- What a mount at `target` that leads from `r` to `s` makes of the remembered
    answers. -/
structure MountPrecise (r : Resolver) (target : Path) (s : Resolver) : Prop where
  /-- An answer that does not name what encloses the new mount point stays. -/
  kept : ∀ key found, r.cache.get? key = some found →
    (r.table.enclosing? target).map Path.text ≠ some found → s.cache.get? key = some found
  /-- An answer that is no longer what the table answers is gone or put right. -/
  changed : ∀ key found, r.cache.get? key = some found → ∃ p : Path, p.text = key ∧
    (s.table.covering? p ≠ r.table.covering? p →
      s.cache.get? key = none ∨
        ∃ q, s.table.covering? p = some q ∧ s.cache.get? key = some q.text)
  /-- With seeds, the new mount point and what encloses it are their own answers. -/
  seeded : r.preseed = true → ∀ key,
    key = target.text ∨ (r.table.enclosing? target).map Path.text = some key →
      s.cache.get? key = some key
  /-- Nothing else is new. -/
  new : ∀ key found, s.cache.get? key = some found → r.cache.get? key ≠ some found →
    r.preseed = true ∧ found = key ∧
      (key = target.text ∨ (r.table.enclosing? target).map Path.text = some key)

/-- An answer that a seed takes the place of names what encloses the new mount point, both
    for the new mount point and for what encloses it. -/
theorem AnswerRight.names_enclosing {r : Resolver} (hc : r.table.Consistent) {target : Path}
    {key found : String} (hright : r.AnswerRight key) (hnew : ¬ r.table.Mounted target)
    (hkey : key = target.text ∨ (r.table.enclosing? target).map Path.text = some key)
    (hget : r.cache.get? key = some found) :
    (r.table.enclosing? target).map Path.text = some found := by
  obtain ⟨p, q, hp, hcovering, rfl⟩ := hright found hget
  rcases hkey with rfl | hparent
  · obtain rfl := Path.text_inj.mp hp
    rw [← hc.covering?_of_not_mounted hnew, hcovering, Option.map_some]
  · obtain ⟨parent, hencloses, rfl⟩ := Option.map_eq_some_iff.mp hparent
    obtain rfl := Path.text_inj.mp hp
    have hmounted := (hc.enclosing?_eq_some_iff.mp hencloses).member.2
    rw [hc.covering?_of_mounted hmounted] at hcovering
    rw [hencloses, hcovering, Option.map_some]

theorem mountPrecise {r : Resolver} (hc : r.table.Consistent)
    (hright : ∀ key, r.AnswerRight key) {target : Path} (hnew : ¬ r.table.Mounted target)
    (ufs : String) :
    MountPrecise r target
      { r with
        table := r.table.register target ufs
        cache := r.cache.applyAll (r.mountEdits (r.table.register target ufs) target) } := by
  constructor
  · intro key found hget hother
    simp only [get?_mountEdits, hc.enclosing?_register]
    rw [if_neg, hget]
    · simpa [Option.filter_eq_some_iff] using hother
    · rintro ⟨-, hkey⟩
      exact hother ((hright key).names_enclosing hc hnew hkey hget)
  · intro key found hget
    obtain ⟨p, -, hkey, -, -⟩ := hright key found hget
    refine ⟨p, hkey, ?_⟩
    intro _
    refine (Option.eq_none_or_eq_some _).imp id ?_
    rintro ⟨answer, hanswer⟩
    -- whatever is remembered afterwards is right
    obtain ⟨p', q, hkey', hcovering, rfl⟩ :=
      answerRight_mount hc hnew (hright key) answer hanswer
    rw [Path.text_inj.mp (hkey.trans hkey'.symm)]
    exact ⟨q, hcovering, hanswer⟩
  · intro hpreseed key hkey
    simp only [get?_mountEdits, hc.enclosing?_register]
    rw [if_pos ⟨hpreseed, hkey⟩]
  · intro key found hget hold
    simp only [get?_mountEdits, hc.enclosing?_register] at hget
    split at hget
    · next hseeded => exact ⟨hseeded.1, (Option.some.inj hget).symm, hseeded.2⟩
    · exact absurd (Option.filter_eq_some_iff.mp hget).1 hold

/-! ## Every history -/

/-- After every history with no answer written into the cache directly since the start or
    the last reload: an unmount that is not refused forgets just the answers that have
    changed; a mount that is not refused forgets answers that named what encloses the new
    mount point at most, leaves none that is wrong, and remembers only the seeds anew. -/
theorem Fresh.invalidation_precise {start : Resolver} (h : start.Fresh) {history : List Command}
    (hhistory : Undisturbed start history fun call => ∃ key, call.Writes key) :
    (∀ path info, ((start.run history).unmount path).answer = .ok info →
      UnmountPrecise (start.run history) ((start.run history).unmount path).next) ∧
    ∀ path ufs, ((start.run history).mount path ufs).answer = .ok () →
      ∃ target, Path.parse path = .ok target ∧
        MountPrecise (start.run history) target ((start.run history).mount path ufs).next := by
  have hc := h.consistent_run history
  have hright : ∀ key, (start.run history).AnswerRight key := fun key =>
    h.answerRight (hhistory.mono fun call hcall => ⟨key, hcall⟩)
  generalize start.run history = r at hc hright
  constructor
  · intro path info hanswer
    rcases r.unmount_cases path with
      ⟨fault, -, heq⟩ | ⟨-, -, heq⟩ | ⟨target, rfl, hp, ⟨-, heq⟩ | ⟨found, hget, heq⟩⟩
    · rw [heq] at hanswer
      cases hanswer
    · rw [heq] at hanswer
      cases hanswer
    · rw [heq] at hanswer
      cases hanswer
    · rw [heq]
      exact unmountPrecise hc hright (Table.mounted_iff_exists.mpr ⟨found, hget⟩) hp
  · intro path ufs hanswer
    rcases r.mount_cases path ufs with ⟨fault, -, heq⟩ | ⟨target, rfl, ⟨-, heq⟩ | ⟨hnew, heq⟩⟩
    · rw [heq] at hanswer
      cases hanswer
    · rw [heq] at hanswer
      cases hanswer
    · rw [heq]
      exact ⟨target, Path.parse_text target, mountPrecise hc hright hnew ufs⟩

/-- A mount beneath one of two neighbours forgets the answers that named it; its unmount
    leaves those that named the other. -/
theorem precision_beside_neighbour :
    let r := Resolver.empty.run [.mount "/a" "s3://a", .mount "/b" "s3://b", .resolve "/a/x",
      .resolve "/b/y"]
    (∃ target, Path.parse "/a/c" = .ok target ∧
      MountPrecise r target (r.mount "/a/c" "s3://c").next) ∧
    UnmountPrecise r (r.unmount "/a").next ∧
    (r.mount "/a/c" "s3://c").next.cache.get? "/a/x" = none ∧
    (r.unmount "/a").next.cache.get? "/b/y" = some "/b" := by
  intro r
  have hhistory : Undisturbed .empty [.mount "/a" "s3://a", .mount "/b" "s3://b",
      .resolve "/a/x", .resolve "/b/y"] fun call => ∃ key, call.Writes key :=
    ⟨[], _, rfl, Or.inl rfl, by simp [Command.Writes]⟩
  have hprecise := Fresh.empty.invalidation_precise hhistory
  have hmount : (r.mount "/a/c" "s3://c").answer = .ok () := by decide +kernel
  have hunmount : (r.unmount "/a").answer = .ok ⟨"/a", "s3://a"⟩ := by decide +kernel
  exact ⟨hprecise.2 _ _ hmount, hprecise.1 _ _ hunmount, by decide +kernel, by decide +kernel⟩

end NearestMount.Resolver
