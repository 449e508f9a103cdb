import NearestMount.Cache.Lemmas
import NearestMount.Proofs.Resolver.Steps

/-! # What the calls write into the cache

    The lists of changes that go with mounting, unmounting and a replacement of the
    mounts, each seen through `get?` and `isNested?`. These equations hold of every
    cache, whatever it remembers.
-/

namespace NearestMount.Resolver

/-! ## Seeds -/

theorem get?_seed (r : Resolver) (c : Cache) (mountPoint path : String) :
    (c.applyAll (r.seed mountPoint)).get? path =
      if r.preseed = true ∧ path = mountPoint then some path else c.get? path := by
  unfold seed
  by_cases hpreseed : r.preseed = true
  · rw [if_pos hpreseed]
    by_cases hpath : path = mountPoint
    · subst hpath
      simp [Cache.apply, hpreseed]
    · simp [Cache.apply, Cache.get?_add, hpath, Ne.symm hpath]
  · rw [if_neg hpreseed, Cache.applyAll_nil, if_neg fun hboth => hpreseed hboth.1]

@[simp] theorem isNested?_seed (r : Resolver) (c : Cache) (mountPoint other : String) :
    (c.applyAll (r.seed mountPoint)).isNested? other = c.isNested? other := by
  unfold seed
  split <;> simp [Cache.apply]

/-! ## Mounting -/

/-- After a mount the enclosing mount point is the answer to no path but itself, and
    it and the new mount point are seeded. -/
theorem get?_mountEdits (r : Resolver) (c : Cache) (table : Table) (target : Path)
    (path : String) :
    (c.applyAll (r.mountEdits table target)).get? path =
      if r.preseed = true ∧
          (path = target.text ∨ (table.enclosing? target).map Path.text = some path) then
        some path
      else (c.get? path).filter fun found => (table.enclosing? target).map Path.text ≠ some found := by
  unfold mountEdits
  cases table.enclosing? target with
  | none =>
    have hkeep : (c.get? path).filter (fun _ => true) = c.get? path := by
      cases c.get? path <;> rfl
    simp [Cache.apply, get?_seed, hkeep]
  | some parent =>
    have hparent : parent.text = path ↔ path = parent.text := eq_comm
    have hvalue : ∀ found, parent.text = found ↔ found = parent.text := fun found => eq_comm
    -- the purge comes first, so a seed that follows is not undone by it
    by_cases htarget : path = target.text
    · subst htarget
      by_cases hpreseed : r.preseed = true <;>
        simp [Cache.applyAll_append, Cache.apply, get?_seed, Cache.get?_purge, hpreseed, hvalue]
    · simp [Cache.applyAll_append, Cache.apply, get?_seed, Cache.get?_purge, htarget, hparent,
        hvalue]

/-- With seeds, a mount leaves every path that is its own answer so: the one that the purge
    takes is put back. -/
theorem get?_mountEdits_self {r : Resolver} (hpreseed : r.preseed = true) {c : Cache}
    {table : Table} {target : Path} {path : String}
    (h : path = target.text ∨ c.get? path = some path) :
    (c.applyAll (r.mountEdits table target)).get? path = some path := by
  rw [get?_mountEdits]
  split
  · rfl
  · next hnot =>
    have hpath : path ≠ target.text := fun heq => hnot ⟨hpreseed, Or.inl heq⟩
    have hparent : (table.enclosing? target).map Path.text ≠ some path :=
      fun heq => hnot ⟨hpreseed, Or.inr heq⟩
    rw [h.resolve_left hpath, Option.filter_eq_some_iff]
    exact ⟨rfl, decide_eq_true hparent⟩

/-- After a mount the new mount point is classified by the table, and the enclosing one
    has something beneath. -/
theorem isNested?_mountEdits (r : Resolver) (c : Cache) (table : Table) (target : Path)
    (path : String) :
    (c.applyAll (r.mountEdits table target)).isNested? path =
      if path = target.text then some (table.hasBeneath target)
      else if (table.enclosing? target).map Path.text = some path then some true
      else c.isNested? path := by
  have htarget : target.text = path ↔ path = target.text := eq_comm
  unfold mountEdits
  cases table.enclosing? target with
  | none => simp [Cache.apply, Cache.isNested?_classify, htarget]
  | some parent =>
    simp [Cache.applyAll_append, Cache.apply, Cache.isNested?_classify, htarget]

/-! ## Unmounting -/

/-- After an unmount what is gone is the answer to no path. -/
theorem get?_unmountEdits (c : Cache) (table : Table) (target : Path) (path : String) :
    (c.applyAll (unmountEdits table target)).get? path =
      (c.get? path).filter (· ≠ target.text) := by
  unfold unmountEdits
  cases table.enclosing? target <;> simp [Cache.apply, Cache.get?_purge]

/-- An unmount leaves every other path that is its own answer so. -/
theorem get?_unmountEdits_self {c : Cache} {table : Table} {target : Path} {path : String}
    (hpath : path ≠ target.text) (h : c.get? path = some path) :
    (c.applyAll (unmountEdits table target)).get? path = some path := by
  rw [get?_unmountEdits, h, Option.filter_eq_some_iff]
  exact ⟨rfl, decide_eq_true hpath⟩

/-- After an unmount the enclosing mount point is classified anew, and what is gone is
    not classified. -/
theorem isNested?_unmountEdits (c : Cache) (table : Table) (target : Path) (path : String) :
    (c.applyAll (unmountEdits table target)).isNested? path =
      ((table.enclosing? target).bind fun parent =>
        if path = parent.text then some (table.hasBeneath parent) else none).or
      (if path = target.text then none else c.isNested? path) := by
  have htarget : target.text = path ↔ path = target.text := eq_comm
  unfold unmountEdits
  cases table.enclosing? target with
  | none => simp [Cache.apply, Cache.isNested?_declassify, htarget]
  | some parent =>
    have hparent : parent.text = path ↔ path = parent.text := eq_comm
    by_cases hpath : path = parent.text <;>
      simp [Cache.apply, Cache.isNested?_declassify, Cache.isNested?_classify, htarget, hparent, hpath]

/-! ## Replacing all mounts -/

theorem get?_forget (c : Cache) (ms : List Mount) (path : String) :
    (c.applyAll (ms.map fun m => .declassify m.path)).get? path = c.get? path := by
  induction ms generalizing c with
  | nil => rfl
  | cons m ms ih => simp [Cache.apply, ih]

theorem isNested?_forget (c : Cache) (ms : List Mount) (path : String) :
    (c.applyAll (ms.map fun m => .declassify m.path)).isNested? path =
      if ∃ m ∈ ms, m.path = path then none else c.isNested? path := by
  induction ms generalizing c with
  | nil => simp
  | cons m ms ih =>
    rw [List.map_cons, Cache.applyAll_cons, ih, Cache.apply, Cache.isNested?_declassify]
    by_cases hm : m.path = path <;> simp [hm]

/-- The first mount of a list is classified and seeded before the others. -/
theorem applyAll_settleEdits_cons (r : Resolver) (c : Cache) (table : Table) {p : Path} {m : Mount}
    (ms : List Mount) (hp : p.text = m.path) :
    c.applyAll (r.settleEdits table (m :: ms)).1 =
      ((c.classify p.text (table.hasBeneath p)).applyAll (r.seed p.text)).applyAll
        (r.settleEdits table ms).1 := by
  simp [settleEdits, ← hp, Cache.applyAll_append, Cache.apply]

theorem get?_settleEdits (r : Resolver) (c : Cache) (table : Table) {ms : List Mount}
    (h : ∀ m ∈ ms, ∃ p : Path, p.text = m.path) (path : String) :
    (c.applyAll (r.settleEdits table ms).1).get? path =
      if r.preseed = true ∧ ∃ m ∈ ms, m.path = path then some path else c.get? path := by
  induction ms generalizing c with
  | nil => simp [settleEdits]
  | cons m ms ih =>
    obtain ⟨p, hp⟩ := h m List.mem_cons_self
    rw [applyAll_settleEdits_cons r c table ms hp,
      ih _ fun other hmem => h other (List.mem_cons_of_mem _ hmem), get?_seed, Cache.get?_classify]
    have hpath : path = p.text ↔ m.path = path := by rw [hp, eq_comm]
    by_cases hpreseed : r.preseed = true <;> by_cases hm : m.path = path <;>
      simp [hpreseed, hpath, hm]

/-- What is not in the list keeps its classification. -/
theorem isNested?_settleEdits_of_notMem (r : Resolver) (c : Cache) (table : Table)
    {ms : List Mount} (h : ∀ m ∈ ms, ∃ p : Path, p.text = m.path) {path : String}
    (hpath : ¬ ∃ m ∈ ms, m.path = path) :
    (c.applyAll (r.settleEdits table ms).1).isNested? path = c.isNested? path := by
  induction ms generalizing c with
  | nil => rfl
  | cons m ms ih =>
    obtain ⟨p, hp⟩ := h m List.mem_cons_self
    -- neither the first mount of the list nor a later one has this path
    have hfirst : ¬ p.text = path := fun heq => hpath ⟨m, List.mem_cons_self, hp ▸ heq⟩
    have hlater : ¬ ∃ m ∈ ms, m.path = path := by
      intro hexists
      obtain ⟨other, hmem, heq⟩ := hexists
      exact hpath ⟨other, List.mem_cons_of_mem _ hmem, heq⟩
    rw [applyAll_settleEdits_cons r c table ms hp,
      ih _ (fun other hmem => h other (List.mem_cons_of_mem _ hmem)) hlater, isNested?_seed,
      Cache.isNested?_classify, if_neg hfirst]

/-- What is in the list is classified by the table. -/
theorem isNested?_settleEdits_of_mem (r : Resolver) (c : Cache) (table : Table) {ms : List Mount}
    (h : ∀ m ∈ ms, ∃ p : Path, p.text = m.path) {p : Path} (hp : ∃ m ∈ ms, m.path = p.text) :
    (c.applyAll (r.settleEdits table ms).1).isNested? p.text = some (table.hasBeneath p) := by
  induction ms generalizing c with
  | nil =>
    obtain ⟨m, hmem, -⟩ := hp
    cases hmem
  | cons m ms ih =>
    obtain ⟨q, hq⟩ := h m List.mem_cons_self
    have hreadable : ∀ m ∈ ms, ∃ p : Path, p.text = m.path :=
      fun other hmem => h other (List.mem_cons_of_mem _ hmem)
    rw [applyAll_settleEdits_cons r c table ms hq]
    by_cases hlater : ∃ m ∈ ms, m.path = p.text
    · -- a later mount with the same path classifies it again
      exact ih _ hreadable hlater
    · -- then the first mount is the one, and no later one touches it
      have hfirst : q = p := by
        obtain ⟨other, hmem, heq⟩ := hp
        rcases List.mem_cons.mp hmem with rfl | hrest
        · exact Path.text_inj.mp (hq.trans heq)
        · exact absurd ⟨other, hrest, heq⟩ hlater
      subst hfirst
      rw [isNested?_settleEdits_of_notMem r _ table hreadable hlater, isNested?_seed,
        Cache.isNested?_classify, if_pos rfl]

/-- After a replacement exactly the mount points are remembered, each as its own
    answer, or nothing at all without seeds. -/
theorem get?_replaceEdits (r : Resolver) (c : Cache) {table : Table} (h : table.Consistent)
    (path : String) :
    (c.applyAll (r.replaceEdits table)).get? path =
      if r.preseed = true ∧ (table.get? path).isSome = true then some path else none := by
  rw [replaceEdits, Cache.applyAll_append, get?_settleEdits r _ table h.readable,
    Cache.applyAll_cons, get?_forget]
  simp only [h.isSome_get?_iff, Cache.apply, Cache.get?_clear]

/-- After a replacement every mount point is classified by the new table. -/
theorem isNested?_replaceEdits_of_mounted (r : Resolver) (c : Cache) {table : Table}
    (h : table.Consistent) {p : Path} (hp : table.Mounted p) :
    (c.applyAll (r.replaceEdits table)).isNested? p.text = some (table.hasBeneath p) := by
  rw [replaceEdits, Cache.applyAll_append]
  exact isNested?_settleEdits_of_mem r _ table h.readable (h.isSome_get?_iff.mp hp)

/-- After a replacement a mount point that is gone is not classified. -/
theorem isNested?_replaceEdits_of_not_mounted (r : Resolver) (c : Cache) {table : Table}
    (hold : r.table.Consistent) (h : table.Consistent) {path : String}
    (hpath : table.get? path = none) :
    (c.applyAll (r.replaceEdits table)).isNested? path =
      if (r.table.get? path).isSome = true then none else c.isNested? path := by
  have hgone : ¬ ∃ m ∈ table.list, m.path = path := by
    rw [← h.isSome_get?_iff, hpath]
    simp
  rw [replaceEdits, Cache.applyAll_append,
    isNested?_settleEdits_of_notMem r _ table h.readable hgone, Cache.applyAll_cons,
    isNested?_forget]
  simp only [hold.isSome_get?_iff, Cache.apply, Cache.isNested?_clear]

end NearestMount.Resolver
