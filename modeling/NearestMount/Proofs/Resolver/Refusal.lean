import Mathlib.Control.Monad.Basic
import NearestMount.Proofs.Resolver.Steps

/-! # A refused call changes nothing

    Whatever was written into the cache before, a call that answers with an error
    leaves the whole resolver as it was. Two calls could break this: a reload, which
    reads paths again after the new table is in place, and the question for the
    covering mount, which may remember a mount point and then find no mount there. The
    consistency of the table rules both out.
-/

namespace NearestMount

theorem Outcome.answer_of_map_error {α β : Type} {f : α → β} {o : Outcome α} {e : Error}
    (h : (o.map f).answer = .error e) : o.answer = .error e := by
  unfold Outcome.map at h
  cases hanswer : o.answer with
  | error other =>
    rw [hanswer] at h
    cases h
    rfl
  | ok a =>
    rw [hanswer] at h
    cases h

namespace Resolver

variable {r : Resolver} {e : Error}

theorem next_of_mount_error {path ufs : String} (h : (r.mount path ufs).answer = .error e) :
    (r.mount path ufs).next = r := by
  rcases r.mount_cases path ufs with ⟨fault, -, heq⟩ | ⟨p, -, ⟨-, heq⟩ | ⟨-, heq⟩⟩
  · rw [heq]
    rfl
  · rw [heq]
    rfl
  · rw [heq] at h
    cases h

theorem next_of_unmount_error {path : String} (h : (r.unmount path).answer = .error e) :
    (r.unmount path).next = r := by
  rcases r.unmount_cases path with
    ⟨fault, -, heq⟩ | ⟨-, -, heq⟩ | ⟨p, -, -, ⟨-, heq⟩ | ⟨info, -, heq⟩⟩
  · rw [heq]
    rfl
  · rw [heq]
    rfl
  · rw [heq]
    rfl
  · rw [heq] at h
    cases h

theorem next_of_resolve_error {path : String} (h : (r.resolve path).answer = .error e) :
    (r.resolve path).next = r := by
  rcases r.resolve_cases path with
    ⟨mountPoint, -, heq⟩ | ⟨-, ⟨fault, -, heq⟩ | ⟨p, -, ⟨-, heq⟩ | ⟨q, -, heq⟩⟩⟩
  · rw [heq]
    rfl
  · rw [heq]
    rfl
  · rw [heq]
    rfl
  · rw [heq] at h
    cases h

/-- A mount point that was looked up has its mount, so only a remembered one can turn
    out to have none. -/
theorem next_of_mountCovering_error (hc : r.table.Consistent) {path : String}
    (h : (r.mountCovering path).answer = .error e) : (r.mountCovering path).next = r := by
  rw [next_mountCovering]
  rcases r.resolve_cases path with
    ⟨mountPoint, -, heq⟩ | ⟨-, ⟨fault, -, heq⟩ | ⟨p, -, ⟨-, heq⟩ | ⟨q, hfound, heq⟩⟩⟩
  · rw [heq]
    rfl
  · rw [heq]
    rfl
  · rw [heq]
    rfl
  · have hmounted := (hc.nearest_of_covering? hfound).member
    obtain ⟨info, hget⟩ := Table.mounted_iff_exists.mp hmounted
    have hanswer : (r.resolve path).answer = .ok q.text := by rw [heq]
    rw [answer_mountCovering_of_get? hanswer hget] at h
    cases h

theorem next_of_hasBeneath_error (hc : r.table.Consistent) {path : String}
    (h : (r.hasBeneath path).answer = .error e) : (r.hasBeneath path).next = r := by
  rcases hasBeneath_cases hc path with
    ⟨fault, -, heq⟩ | ⟨p, -, ⟨-, heq⟩ | ⟨-, ⟨isNested, -, heq⟩ | ⟨-, heq⟩⟩⟩
  · rw [heq]
    rfl
  · rw [heq]
    rfl
  · rw [heq]
    rfl
  · rw [heq] at h
    cases h

theorem next_of_reload_error {mounts : List Mount} (h : (r.reload mounts).answer = .error e) :
    (r.reload mounts).next = r := by
  rcases r.reload_cases mounts with ⟨other, -, -, hnext⟩ | ⟨table, -, -, hanswer, -⟩
  · exact hnext
  · rw [hanswer] at h
    cases h

/-- A refused call leaves a resolver with a consistent table as it was. -/
theorem next_of_exec_error (hc : r.table.Consistent) {call : Command}
    (h : (r.exec call).answer = .error e) : (r.exec call).next = r := by
  cases call with
  | mount path ufs => exact next_of_mount_error (Outcome.answer_of_map_error h)
  | unmount path => exact next_of_unmount_error (Outcome.answer_of_map_error h)
  | resolve path => exact next_of_resolve_error (Outcome.answer_of_map_error h)
  | mountCovering path => exact next_of_mountCovering_error hc (Outcome.answer_of_map_error h)
  | isMounted path => rfl
  | hasBeneath path => exact next_of_hasBeneath_error hc (Outcome.answer_of_map_error h)
  | mounts => rfl
  | reload mounts => exact next_of_reload_error (Outcome.answer_of_map_error h)
  | cache call => cases h

/-- After every history, direct calls of the cache included, a refused call leaves the
    table, the cache and the settings as they were. In particular a reload does not
    fail once all entries are mounted in the new table, for the paths of its mounts
    read back; and a question for the covering mount that remembers anything has an
    answer. -/
theorem Fresh.refusal_changes_nothing {start : Resolver} (h : start.Fresh)
    (history : List Command) :
    (∀ call e, ((start.run history).exec call).answer = .error e →
      ((start.run history).exec call).next = start.run history) ∧
    (∀ mounts table, ((start.run history).emptyTable.load mounts).table = .ok table →
      ((start.run history).settleEdits table table.list).2 = none ∧
      ((start.run history).reload mounts).answer = .ok ()) ∧
    (∀ path, ((start.run history).mountCovering path).next ≠ start.run history →
      ∃ info, ((start.run history).mountCovering path).answer = .ok info) := by
  have hc := h.consistent_run history
  refine ⟨?_, ?_, ?_⟩
  · intro call e hanswer
    exact next_of_exec_error hc hanswer
  · intro mounts table hload
    have htable := (start.run history).consistent_emptyTable.load hload
    refine ⟨settleEdits_fault htable.readable, ?_⟩
    rcases (start.run history).reload_cases mounts with ⟨e, herror, -⟩ | ⟨-, -, -, hanswer, -⟩
    · rw [hload] at herror
      cases herror
    · exact hanswer
  · intro path hnext
    cases hanswer : ((start.run history).mountCovering path).answer with
    | error e => exact absurd (next_of_mountCovering_error hc hanswer) hnext
    | ok info => exact ⟨info, rfl⟩

/-- A made-up answer leads to no mount; the refusal leaves even that answer in
    place. -/
theorem refusal_after_direct_write :
    let s := Resolver.empty.run [.mount "/a" "s3://a", .cache (.edit (.add "/a/x" "/gone"))]
    (s.exec (.mountCovering "/a/x")).answer = .error (.uncovered "/gone") ∧
      (s.exec (.mountCovering "/a/x")).next = s := by
  intro s
  have hanswer : (s.exec (.mountCovering "/a/x")).answer = .error (.uncovered "/gone") := by
    decide +kernel
  exact ⟨hanswer, (Fresh.empty.refusal_changes_nothing _).1 _ _ hanswer⟩

end Resolver

end NearestMount
