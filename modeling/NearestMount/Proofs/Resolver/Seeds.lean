import Mathlib.Control.Monad.Basic
import NearestMount.Proofs.Resolver.Coherence
import NearestMount.Proofs.Resolver.Refusal
import NearestMount.Proofs.Resolver.Reloading

/-! # Why an answer is remembered

    An answer gets into the cache as a seed or because somebody asked.

    - With seeds every mount point is its own answer, however the answers for other paths
      come and go (`Seeded`, kept by every step but a direct change of the cache).
    - Without seeds every answer was asked for, and the cache was not replaced since
      (`AskedFor`).
    - `Fresh.origin_of_answers` puts both together for every history.
-/

namespace NearestMount.Resolver

variable {r s start : Resolver} {call : Command} {history : List Command} {path found : String}

/-! ## With seeds -/

/-- Every mount point is remembered as its own answer. -/
structure Seeded (r : Resolver) : Prop where
  preseed : r.preseed = true
  answers : ∀ path, (r.table.get? path).isSome = true → r.cache.get? path = some path

/-- Every step but a direct change of the cache keeps the seeds. -/
theorem Step.seeded (hstep : Step r call s) (h : r.Seeded) (hcall : call.isEdit = false) :
    s.Seeded := by
  cases hstep with
  | idle => exact h
  | @mount p ufs hnew =>
    refine ⟨h.preseed, ?_⟩
    intro path hmounted
    apply get?_mountEdits_self h.preseed
    rw [Table.get?_register] at hmounted
    split at hmounted
    · next heq => exact Or.inl heq.symm
    · exact Or.inr (h.answers path hmounted)
  | @unmount p _ _ =>
    refine ⟨h.preseed, ?_⟩
    intro path hmounted
    rw [Table.get?_withdraw] at hmounted
    split at hmounted
    · cases hmounted
    · next hne => exact get?_unmountEdits_self (Ne.symm hne) (h.answers path hmounted)
  | @remember p q _ hasked hmiss hfound =>
    refine ⟨h.preseed, ?_⟩
    intro path hmounted
    -- what is remembered anew was no mount point, for those are remembered already
    have hne : p.text ≠ path := by
      rintro rfl
      rw [h.answers _ hmounted] at hmiss
      cases hmiss
    rw [Cache.get?_add_ne _ _ hne]
    exact h.answers path hmounted
  | classify hmounted hmiss =>
    refine ⟨h.preseed, ?_⟩
    intro path hpath
    rw [Cache.get?_classify]
    exact h.answers path hpath
  | reload hload htable =>
    refine ⟨h.preseed, ?_⟩
    intro path hmounted
    rw [get?_replaceEdits r r.cache htable, if_pos ⟨h.preseed, hmounted⟩]
  | edit e => cases hcall

theorem Fresh.seeded_run (h : start.Fresh) (hpreseed : start.preseed = true)
    (hhistory : ∀ call ∈ history, call.isEdit = false) : (start.run history).Seeded := by
  have hstart : start.Seeded := by
    refine ⟨hpreseed, ?_⟩
    intro path hmounted
    rw [h.settled.answers, if_pos ⟨hpreseed, hmounted⟩]
  refine (run_induction (P := fun r => r.table.Consistent ∧ r.Seeded) history
    ⟨h.consistent, hstart⟩ ?_).2
  intro r call hmem hr
  have hstep := step_exec hr.1 call
  exact ⟨hstep.consistent hr.1, hstep.seeded hr.2 (hhistory call hmem)⟩

/-- What is remembered is the answer, and nothing changes. -/
theorem resolve_of_get? (h : r.cache.get? path = some found) :
    r.resolve path = r.unchanged (.ok found) := by
  simp only [resolve, h]

/-! ## Without seeds -/

/-- A question for what covers the path. -/
def Command.AsksFor (path : String) (call : Command) : Prop :=
  call = .resolve path ∨ call = .mountCovering path

/-- In this history the path was asked for with an answer, and every reload since then
    was refused. -/
def AskedFor (start : Resolver) (history : List Command) (path : String) : Prop :=
  ∃ before call after, history = before ++ call :: after ∧ call.AsksFor path ∧
    (∃ answer, ((start.run before).exec call).answer = .ok answer) ∧
    ∀ front mounts back, after = front ++ .reload mounts :: back →
      ((start.run (before ++ call :: front)).reload mounts).answer ≠ .ok ()

/-- Without seeds only a question for the path remembers an answer for it. -/
theorem Step.asksFor_of_new (hstep : Step r call s) (hpreseed : r.preseed = false)
    (hcall : ¬ call.Writes path) (hget : s.cache.get? path = some found)
    (hnew : r.cache.get? path ≠ some found) : call.AsksFor path := by
  cases hstep with
  | idle => exact absurd hget hnew
  | mount _ =>
    rw [get?_mountEdits, if_neg (by simp [hpreseed])] at hget
    exact absurd (Option.filter_eq_some_iff.mp hget).1 hnew
  | unmount _ _ =>
    rw [get?_unmountEdits] at hget
    exact absurd (Option.filter_eq_some_iff.mp hget).1 hnew
  | @remember p q _ hasked _ _ =>
    by_cases hpath : p.text = path
    · exact hpath ▸ hasked
    · rw [Cache.get?_add_ne _ _ hpath] at hget
      exact absurd hget hnew
  | classify _ _ =>
    rw [Cache.get?_classify] at hget
    exact absurd hget hnew
  | reload _ htable =>
    rw [get?_replaceEdits r r.cache htable, if_neg (by simp [hpreseed])] at hget
    cases hget
  | edit e => exact absurd (get?_of_get?_apply hcall hget) hnew

/-- Without seeds a call that remembers no answer makes no new one. -/
theorem Step.get?_of_not_remembers (hstep : Step r call s) (hpreseed : r.preseed = false)
    (hcall : call.remembers = false) (hget : s.cache.get? path = some found) :
    r.cache.get? path = some found := by
  by_cases hbefore : r.cache.get? path = some found
  · exact hbefore
  · have hwrites : ¬ call.Writes path := by
      rintro ⟨mountPoint, rfl⟩
      cases hcall
    rcases hstep.asksFor_of_new hpreseed hwrites hget hbefore with rfl | rfl <;> cases hcall

theorem askedFor_now (hasks : call.AsksFor path) {answer : Answer}
    (hanswer : ((start.run history).exec call).answer = .ok answer) :
    AskedFor start (history ++ [call]) path := by
  refine ⟨history, call, [], rfl, hasks, ⟨answer, hanswer⟩, ?_⟩
  intro front mounts back hafter
  simp at hafter

/-- What was asked for still is after a call that is no reload, or a refused one. -/
theorem AskedFor.snoc (h : AskedFor start history path)
    (hcall : ∀ mounts, call = .reload mounts →
      ((start.run history).reload mounts).answer ≠ .ok ()) :
    AskedFor start (history ++ [call]) path := by
  obtain ⟨before, asking, after, rfl, hasks, hanswer, hafter⟩ := h
  refine ⟨before, asking, after ++ [call], by simp, hasks, hanswer, ?_⟩
  intro front mounts back hsplit
  rcases List.eq_nil_or_concat back with rfl | ⟨back, last, rfl⟩
  · -- the reload is the last call
    obtain ⟨rfl, hlast⟩ := List.append_inj' hsplit rfl
    exact hcall mounts (List.cons.inj hlast).1
  · rw [List.concat_eq_append, ← List.cons_append, ← List.append_assoc] at hsplit
    exact hafter front mounts back (List.append_inj_left' hsplit rfl)

theorem Fresh.askedFor (h : start.Fresh) (hpreseed : start.preseed = false)
    (hhistory : ∀ call ∈ history, ¬ call.Writes path)
    (hget : (start.run history).cache.get? path = some found) :
    AskedFor start history path := by
  induction history using List.reverseRecOn with
  | nil =>
    rw [run_nil, h.settled.answers, if_neg (by simp [hpreseed])] at hget
    cases hget
  | append_singleton history call ih =>
    have hc := h.consistent_run history
    have hsettings := h.rooted.sound.settings_run history
    have hoff : (start.run history).preseed = false := hsettings.2.trans hpreseed
    rw [run_append, run_cons, run_nil] at hget
    by_cases hbefore : (start.run history).cache.get? path = some found
    · refine (ih (fun other hmem => hhistory other (by simp [hmem])) hbefore).snoc ?_
      rintro mounts rfl hanswer
      -- a reload that is not refused leaves no answers without seeds
      have hseeded := ((reloaded_of_answer hanswer).answers path found).mp hget
      rw [hoff] at hseeded
      cases hseeded.1
    · have hasks := (step_exec hc call).asksFor_of_new hoff (hhistory call (by simp)) hget hbefore
      cases hanswer : ((start.run history).exec call).answer with
      | ok answer => exact askedFor_now hasks hanswer
      | error e =>
        rw [next_of_exec_error hc hanswer] at hget
        exact absurd hget hbefore

/-! ## Every history -/

/-- After every history of calls.

    With seeds, and if nobody changed the cache directly, every mount point is remembered
    as its own answer, so a question for it is answered from the cache.

    Without seeds a mount, an unmount, a reload, and every other call but a question for
    what covers a path and a direct change of the cache, remembers no answer that was not
    there before. So every answer that nobody wrote directly was asked for since the last
    reload. -/
theorem Fresh.origin_of_answers (h : start.Fresh) (history : List Command) :
    (start.preseed = true → (∀ call ∈ history, call.isEdit = false) →
      ∀ path, ((start.run history).table.get? path).isSome = true →
        (start.run history).cache.get? path = some path ∧
        (start.run history).resolve path = (start.run history).unchanged (.ok path)) ∧
    (start.preseed = false →
      (∀ call, call.remembers = false → ∀ path found,
        ((start.run history).exec call).next.cache.get? path = some found →
          (start.run history).cache.get? path = some found) ∧
      ∀ path found, (∀ call ∈ history, ¬ call.Writes path) →
        (start.run history).cache.get? path = some found → AskedFor start history path) := by
  constructor
  · intro hpreseed hhistory path hmounted
    have hget := (h.seeded_run hpreseed hhistory).answers path hmounted
    exact ⟨hget, resolve_of_get? hget⟩
  · intro hpreseed
    have hoff : (start.run history).preseed = false :=
      (h.rooted.sound.settings_run history).2.trans hpreseed
    refine ⟨?_, fun path found => h.askedFor hpreseed⟩
    intro call hcall path found hget
    exact (step_exec (h.consistent_run history) call).get?_of_not_remembers hoff hcall hget

/-- A mount beneath a mount point purges the seed of that mount point and puts it back;
    without seeds the only answer is the one that was asked for after the reload. -/
theorem origin_with_and_without_seeds :
    let c : Settings := { preseed := false }
    let seeding : List Command :=
      [.mount "/a" "s3://a", .resolve "/a/b/x", .mount "/a/b" "s3://b"]
    let asking : List Command := [.resolve "/a/x", .reload [⟨"/a", "s3://a"⟩],
      .mount "/b" "s3://b", .mountCovering "/a/x"]
    (Resolver.empty.run seeding).resolve "/a" =
      (Resolver.empty.run seeding).unchanged (.ok "/a") ∧
    ∃ start events, ofSettings (.upTo 100) c = .ok (start, events) ∧
      AskedFor start asking "/a/x" := by
  intro c seeding asking
  refine ⟨?_, ?_⟩
  · have hhistory : ∀ call ∈ seeding, call.isEdit = false := by decide
    have hmounted : ((Resolver.empty.run seeding).table.get? "/a").isSome = true := by
      decide +kernel
    exact ((Fresh.empty.origin_of_answers seeding).1 rfl hhistory "/a" hmounted).2
  · have hrun : (ofSettings (.upTo 100) c).map (fun found =>
        (found.1.preseed, (found.1.run asking).cache.get? "/a/x")) = .ok (false, some "/a") := by
      decide +kernel
    cases hset : ofSettings (.upTo 100) c with
    | error e =>
      rw [hset] at hrun
      cases hrun
    | ok found =>
      obtain ⟨start, events⟩ := found
      rw [hset] at hrun
      obtain ⟨hpreseed, hget⟩ := Prod.mk.inj (Except.ok.inj hrun)
      have hfresh : start.Fresh := .ofSettings hset
      have hwrites : ∀ call ∈ asking, ¬ call.Writes "/a/x" := by simp [asking, Command.Writes]
      exact ⟨start, events, rfl,
        ((hfresh.origin_of_answers asking).2 hpreseed).2 "/a/x" "/a" hwrites hget⟩

end NearestMount.Resolver
