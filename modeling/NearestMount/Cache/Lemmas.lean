import NearestMount.Cache.Basic

/-! # What the operations of the cache do

    Each operation is seen through `get?` and `isNested?`. The last section says that
    operations on answers leave classifications alone, and the other way round.
-/

namespace NearestMount

/-! ## New caches -/

/-- No machine has room for what cannot be asked for. -/
theorem Memory.hasRoom_eq_false (memory : Memory) {c : Capacities}
    (h : c.atMost largestRequest = false) : memory.hasRoom c = false := by
  cases hroom : memory.hasRoom c with
  | false => rfl
  | true =>
    rw [memory.bounded c hroom] at h
    cases h

namespace Cache

theorem ofCapacities?_eq_some_iff {memory : Memory} {capacities : Capacities} {c : Cache} :
    ofCapacities? memory capacities = some c ↔ memory.hasRoom capacities = true ∧ c = empty := by
  unfold ofCapacities?
  split
  · next hroom => simp [hroom, eq_comm]
  · next hroom => simp [hroom]

theorem ofCapacities?_eq_none_iff {memory : Memory} {capacities : Capacities} :
    ofCapacities? memory capacities = none ↔ memory.hasRoom capacities = false := by
  simp [ofCapacities?]

/-! ## Answers -/

@[simp] theorem get?_empty (path : String) : empty.get? path = none := by
  simp [get?, empty]

theorem get?_add (c : Cache) (path mountPoint other : String) :
    (c.add path mountPoint).get? other =
      if path = other then some mountPoint else c.get? other := by
  simp [get?, add, Std.ExtTreeMap.getElem?_insert]

@[simp] theorem get?_add_self (c : Cache) (path mountPoint : String) :
    (c.add path mountPoint).get? path = some mountPoint := by
  simp [get?_add]

theorem get?_add_ne (c : Cache) {path other : String} (mountPoint : String)
    (h : path ≠ other) : (c.add path mountPoint).get? other = c.get? other := by
  simp [get?_add, h]

theorem get?_purge (c : Cache) (mountPoint path : String) :
    (c.purge mountPoint).get? path = (c.get? path).filter (· ≠ mountPoint) := by
  simp only [get?, purge, Std.ExtTreeMap.getElem?_filter]
  cases c.exact[path]? <;> simp [Option.pfilter, Option.filter]

@[simp] theorem get?_clear (c : Cache) (path : String) : c.clear.get? path = none := by
  simp [get?, clear]

/-! ## Classification -/

@[simp] theorem isNested?_empty (mountPoint : String) : empty.isNested? mountPoint = none := by
  simp [isNested?, empty]

theorem isNested?_classify (c : Cache) (mountPoint other : String) (isNested : Bool) :
    (c.classify mountPoint isNested).isNested? other =
      if mountPoint = other then some isNested else c.isNested? other := by
  cases isNested <;> by_cases h : mountPoint = other <;>
    simp [isNested?, classify, h, Std.ExtTreeSet.mem_insert, Std.ExtTreeSet.mem_erase]

theorem isNested?_declassify (c : Cache) (mountPoint other : String) :
    (c.declassify mountPoint).isNested? other =
      if mountPoint = other then none else c.isNested? other := by
  by_cases h : mountPoint = other <;>
    simp [isNested?, declassify, h, Std.ExtTreeSet.mem_erase]

/-- There is something to forget exactly where there is an answer. -/
theorem isClassified_eq (c : Cache) (mountPoint : String) :
    c.isClassified mountPoint = (c.isNested? mountPoint).isSome := by
  unfold isClassified isNested?
  by_cases hnested : mountPoint ∈ c.nested
  · simp [hnested]
  · by_cases hnonNested : mountPoint ∈ c.nonNested <;> simp [hnested, hnonNested]

/-! ## The two halves do not meet -/

@[simp] theorem get?_classify (c : Cache) (mountPoint path : String) (isNested : Bool) :
    (c.classify mountPoint isNested).get? path = c.get? path := by
  cases isNested <;> rfl

@[simp] theorem get?_declassify (c : Cache) (mountPoint path : String) :
    (c.declassify mountPoint).get? path = c.get? path := rfl

@[simp] theorem isNested?_add (c : Cache) (path mountPoint other : String) :
    (c.add path mountPoint).isNested? other = c.isNested? other := rfl

@[simp] theorem isNested?_purge (c : Cache) (mountPoint other : String) :
    (c.purge mountPoint).isNested? other = c.isNested? other := rfl

@[simp] theorem isNested?_clear (c : Cache) (other : String) :
    c.clear.isNested? other = c.isNested? other := rfl

end Cache

end NearestMount
