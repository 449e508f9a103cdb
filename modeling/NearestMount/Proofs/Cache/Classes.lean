import NearestMount.Cache.Edit
import NearestMount.Cache.Lemmas

/-! # The two sets of classifications

    A mount point that is classified anew moves from one set to the other, so no change
    ever leaves it in both (`Exclusive.applyAll`). Caches of which this is true are
    equal as soon as they give the same answers (`Exclusive.eq_of_answers`).
-/

namespace NearestMount.Cache

/-- No mount point is in both sets. -/
def Exclusive (c : Cache) : Prop :=
  ∀ mountPoint, mountPoint ∈ c.nested → mountPoint ∉ c.nonNested

theorem exclusive_empty : empty.Exclusive := by
  intro mountPoint hmem
  simp [empty] at hmem

theorem Exclusive.classify {c : Cache} (h : c.Exclusive) (mountPoint : String) (isNested : Bool) :
    (c.classify mountPoint isNested).Exclusive := by
  intro other hnested hnonNested
  -- what enters one set has left the other
  cases isNested with
  | true =>
    simp only [Cache.classify, if_true, Std.ExtTreeSet.mem_insert, Std.ExtTreeSet.mem_erase]
      at hnested hnonNested
    exact h other (hnested.resolve_left hnonNested.1) hnonNested.2
  | false =>
    simp only [Cache.classify, Bool.false_eq_true, if_false, Std.ExtTreeSet.mem_insert,
      Std.ExtTreeSet.mem_erase] at hnested hnonNested
    exact h other hnested.2 (hnonNested.resolve_left hnested.1)

theorem Exclusive.declassify {c : Cache} (h : c.Exclusive) (mountPoint : String) :
    (c.declassify mountPoint).Exclusive := by
  intro other hnested hnonNested
  simp only [Cache.declassify, Std.ExtTreeSet.mem_erase] at hnested hnonNested
  exact h other hnested.2 hnonNested.2

theorem Exclusive.apply {c : Cache} (h : c.Exclusive) (e : Edit) : (c.apply e).Exclusive := by
  cases e with
  | add path mountPoint => exact h
  | purge mountPoint => exact h
  | clear => exact h
  | classify mountPoint isNested => exact h.classify mountPoint isNested
  | declassify mountPoint => exact h.declassify mountPoint

theorem Exclusive.applyAll {c : Cache} (h : c.Exclusive) (edits : List Edit) :
    (c.applyAll edits).Exclusive := by
  induction edits generalizing c with
  | nil => exact h
  | cons e edits ih => exact ih (h.apply e)

theorem mem_nested_iff {c : Cache} {mountPoint : String} :
    mountPoint ∈ c.nested ↔ c.isNested? mountPoint = some true := by
  unfold isNested?
  split <;> simp_all

theorem Exclusive.mem_nonNested_iff {c : Cache} (h : c.Exclusive) {mountPoint : String} :
    mountPoint ∈ c.nonNested ↔ c.isNested? mountPoint = some false := by
  have hboth := h mountPoint
  unfold isNested?
  split <;> simp_all

/-- Caches that give the same answers are equal. -/
theorem Exclusive.eq_of_answers {c d : Cache} (hc : c.Exclusive) (hd : d.Exclusive)
    (hget : ∀ path, c.get? path = d.get? path)
    (hclass : ∀ mountPoint, c.isNested? mountPoint = d.isNested? mountPoint) : c = d := by
  -- a mount point in both sets would be answered as one in the first set alone
  have hexact : c.exact = d.exact := Std.ExtTreeMap.ext_getElem? hget
  have hnested : c.nested = d.nested := by
    apply Std.ExtTreeSet.ext_mem
    intro mountPoint
    rw [mem_nested_iff, mem_nested_iff, hclass]
  have hnonNested : c.nonNested = d.nonNested := by
    apply Std.ExtTreeSet.ext_mem
    intro mountPoint
    rw [hc.mem_nonNested_iff, hd.mem_nonNested_iff, hclass]
  cases c
  cases d
  cases hexact
  cases hnested
  cases hnonNested
  rfl

end NearestMount.Cache
