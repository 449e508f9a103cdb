import Mathlib.Data.Set.Card
import NearestMount.Proofs.Cache.Classes

/-! # The cache as a pair of partial maps

    A cache stands for two partial maps: from paths to the mount points that were found
    for them, and from mount points to their classifications. Each call reads or changes
    one of the maps and leaves the other alone.

    - `Maps.apply` and `Maps.answer` say what each call means for the maps.
    - `maps_apply` and `answer_maps` are one call, `maps_run` is a whole history.
    - `Made.behaves_as_maps` says that no history tells a cache from its maps.
-/

namespace NearestMount.Cache

/-! ## The maps -/

/-- Two partial maps, of which the first is defined at finitely many paths. -/
@[ext] structure Maps where
  /-- The mount point that was found for a path. -/
  found : String → Option String
  /-- The classification of a mount point. -/
  classed : String → Option Bool
  finite : {path | found path ≠ none}.Finite

namespace Maps

/-- The maps that are defined nowhere. -/
def empty : Maps := ⟨fun _ => none, fun _ => none, by simp⟩

/-- The first map with one more path, or with another mount point for a path. -/
def add (M : Maps) (path mountPoint : String) : Maps where
  found other := if path = other then some mountPoint else M.found other
  classed := M.classed
  finite := by
    apply (M.finite.insert path).subset
    intro other hother
    by_cases h : path = other
    · exact Or.inl h.symm
    · exact Or.inr (by simpa [h] using hother)

/-- The first map without the paths for which this mount point was found. -/
def purge (M : Maps) (mountPoint : String) : Maps where
  found path := if M.found path = some mountPoint then none else M.found path
  classed := M.classed
  finite := by
    apply M.finite.subset
    intro path hpath hnone
    exact hpath (by simp [hnone])

/-- The maps after a change. -/
def apply (M : Maps) : Edit → Maps
  | .add path mountPoint => M.add path mountPoint
  | .purge mountPoint => M.purge mountPoint
  | .clear => { M with found := fun _ => none, finite := by simp }
  | .classify mountPoint isNested =>
    { M with classed := fun other => if mountPoint = other then some isNested else M.classed other }
  | .declassify mountPoint =>
    { M with classed := fun other => if mountPoint = other then none else M.classed other }

/-- The answer to a call, read off the maps. A purge answers how many paths had the mount
    point as their value. -/
noncomputable def answer (M : Maps) : Command → Answer
  | .get path => .mountPoint (M.found path)
  | .isNested mountPoint => .isNested (M.classed mountPoint)
  | .size => .size {path | M.found path ≠ none}.ncard
  | .edit (.purge mountPoint) => .purged {path | M.found path = some mountPoint}.ncard
  | .edit (.declassify mountPoint) => .declassified (M.classed mountPoint).isSome
  | .edit _ => .done

/-- The maps after a call. -/
def exec (M : Maps) : Command → Maps
  | .edit e => M.apply e
  | .get _ | .isNested _ | .size => M

/-- The maps after some calls, in order. -/
def run (M : Maps) (calls : List Command) : Maps := calls.foldl exec M

end Maps

/-! ## Counting paths -/

variable (c : Cache)

theorem coe_keys_exact : {path | c.get? path ≠ none} = (c.exact.keys.toFinset : Set String) := by
  ext path
  simp [get?]

theorem finite_get? : {path | c.get? path ≠ none}.Finite := by
  rw [coe_keys_exact]
  exact Finset.finite_toSet _

/-- The size is the number of paths that have an answer. -/
theorem size_eq_ncard : c.size = {path | c.get? path ≠ none}.ncard := by
  have hnodup : c.exact.keys.Nodup := Std.ExtTreeMap.nodup_keys
  rw [coe_keys_exact, Set.ncard_coe_finset, List.toFinset_card_of_nodup hnodup,
    Std.ExtTreeMap.length_keys]
  rfl

/-- A purge forgets as many paths as have the mount point for their answer. -/
theorem purgeCount_eq_ncard (mountPoint : String) :
    c.purgeCount mountPoint = {path | c.get? path = some mountPoint}.ncard := by
  have hsubset : {path | (c.purge mountPoint).get? path ≠ none} ⊆ {path | c.get? path ≠ none} := by
    intro path hpath hnone
    exact hpath (by simp [get?_purge, hnone])
  -- what has the mount point for its answer is what is gone afterwards
  have hgone : {path | c.get? path = some mountPoint} =
      {path | c.get? path ≠ none} \ {path | (c.purge mountPoint).get? path ≠ none} := by
    ext path
    cases hget : c.get? path with
    | none => simp [hget]
    | some found => simp [get?_purge, hget, Option.filter]
  rw [hgone, Set.ncard_sdiff hsubset (finite_get? _), ← size_eq_ncard, ← size_eq_ncard]
  rfl

/-! ## One call -/

/-- The maps that a cache stands for. -/
def maps : Maps := ⟨c.get?, c.isNested?, c.finite_get?⟩

theorem maps_empty : Cache.empty.maps = Maps.empty := by
  ext1
  · funext path
    exact get?_empty path
  · funext mountPoint
    exact isNested?_empty mountPoint

/-- A change of the cache is the same change of its maps. -/
theorem maps_apply (e : Edit) : (c.apply e).maps = c.maps.apply e := by
  cases e with
  | add path mountPoint =>
    ext1
    · funext other
      exact get?_add c path mountPoint other
    · rfl
  | purge mountPoint =>
    ext1
    · funext path
      show (c.purge mountPoint).get? path =
        if c.get? path = some mountPoint then none else c.get? path
      rw [get?_purge]
      cases hget : c.get? path with
      | none => rfl
      | some found => by_cases h : found = mountPoint <;> simp [h, Option.filter]
    · rfl
  | clear =>
    ext1
    · funext path
      exact get?_clear c path
    · rfl
  | classify mountPoint isNested =>
    ext1
    · funext path
      exact get?_classify c mountPoint path isNested
    · funext other
      exact isNested?_classify c mountPoint other isNested
  | declassify mountPoint =>
    ext1
    · rfl
    · funext other
      exact isNested?_declassify c mountPoint other

/-- Every answer of the cache is the one read off its maps. -/
theorem answer_maps (call : Command) : c.answer call = c.maps.answer call := by
  cases call with
  | get path => rfl
  | isNested mountPoint => rfl
  | size =>
    show Answer.size c.size = .size {path | c.get? path ≠ none}.ncard
    rw [size_eq_ncard]
  | edit e =>
    cases e with
    | purge mountPoint =>
      show Answer.purged (c.purgeCount mountPoint) =
        .purged {path | c.get? path = some mountPoint}.ncard
      rw [purgeCount_eq_ncard]
    | declassify mountPoint =>
      show Answer.declassified (c.isClassified mountPoint) =
        .declassified (c.isNested? mountPoint).isSome
      rw [isClassified_eq]
    | add path mountPoint => rfl
    | clear => rfl
    | classify mountPoint isNested => rfl

theorem isEmpty_iff_maps : c.isEmpty = true ↔ ∀ path, c.maps.found path = none := by
  rw [isEmpty, beq_iff_eq, size_eq_ncard, Set.ncard_eq_zero c.finite_get?,
    Set.eq_empty_iff_forall_notMem]
  simp [maps]

theorem maps_exec (call : Command) : (c.exec call).maps = c.maps.exec call := by
  cases call with
  | edit e => exact maps_apply c e
  | get path => rfl
  | isNested mountPoint => rfl
  | size => rfl

/-! ## A whole history -/

/-- The maps of a cache go through the same history as the cache. -/
theorem maps_run (history : List Command) : (c.run history).maps = c.maps.run history := by
  induction history generalizing c with
  | nil => rfl
  | cons call history ih =>
    rw [run_cons, ih, maps_exec]
    rfl

theorem Exclusive.run {c : Cache} (h : c.Exclusive) (history : List Command) :
    (c.run history).Exclusive := by
  induction history generalizing c with
  | nil => exact h
  | cons call history ih =>
    apply ih
    cases call with
    | edit e => exact h.apply e
    | _ => exact h

/-- True of a call that changes classifications. -/
def Command.isClassification : Command → Bool
  | .edit (.classify ..) | .edit (.declassify _) => true
  | _ => false

namespace Maps

variable {M N : Maps}

theorem found_exec_congr (h : M.found = N.found) (call : Command) :
    (M.exec call).found = (N.exec call).found := by
  cases call with
  | edit e => cases e <;> simp [exec, apply, add, purge, h]
  | _ => exact h

theorem found_exec_of_isClassification {call : Command} (hcall : call.isClassification = true) :
    (M.exec call).found = M.found := by
  cases call with
  | edit e => cases e <;> simp_all [Command.isClassification, exec, apply]
  | _ => rfl

theorem classed_exec_congr (h : M.classed = N.classed) (call : Command) :
    (M.exec call).classed = (N.exec call).classed := by
  cases call with
  | edit e => cases e <;> simp [exec, apply, add, purge, h]
  | _ => exact h

theorem classed_exec_of_not_isClassification {call : Command}
    (hcall : call.isClassification = false) : (M.exec call).classed = M.classed := by
  cases call with
  | edit e => cases e <;> simp_all [Command.isClassification, exec, apply, add, purge]
  | _ => rfl

/-- The first map goes its way without the calls that change classifications. -/
theorem found_run_filter (h : M.found = N.found) (history : List Command) :
    (M.run history).found = (N.run (history.filter fun call => !call.isClassification)).found := by
  induction history generalizing M N with
  | nil => exact h
  | cons call history ih =>
    by_cases hclassing : call.isClassification = true
    · rw [List.filter_cons_of_neg (by simp [hclassing])]
      exact ih ((found_exec_of_isClassification hclassing).trans h)
    · rw [List.filter_cons_of_pos (by simp [hclassing])]
      exact ih (found_exec_congr h call)

/-- The second map goes its way with these calls alone. -/
theorem classed_run_filter (h : M.classed = N.classed) (history : List Command) :
    (M.run history).classed = (N.run (history.filter Command.isClassification)).classed := by
  induction history generalizing M N with
  | nil => exact h
  | cons call history ih =>
    by_cases hclassing : call.isClassification = true
    · rw [List.filter_cons_of_pos hclassing]
      exact ih (classed_exec_congr h call)
    · rw [List.filter_cons_of_neg hclassing]
      exact ih ((classed_exec_of_not_isClassification (by simpa using hclassing)).trans h)

/-- A value of the first map comes from nowhere but an `add`. -/
theorem found_exec_ne {mountPoint : String} (h : ∀ path, M.found path ≠ some mountPoint)
    {call : Command} (hcall : ∀ path, call ≠ .edit (.add path mountPoint)) (path : String) :
    (M.exec call).found path ≠ some mountPoint := by
  cases call with
  | edit e =>
    cases e with
    | add other found =>
      show (if other = path then some found else M.found path) ≠ some mountPoint
      split
      · intro heq
        exact hcall other (by rw [Option.some.inj heq])
      · exact h path
    | purge other =>
      show (if M.found path = some other then none else M.found path) ≠ some mountPoint
      split
      · exact (Option.some_ne_none _).symm
      · exact h path
    | clear => exact (Option.some_ne_none _).symm
    | classify other isNested => exact h path
    | declassify other => exact h path
  | _ => exact h path

theorem found_run_ne {mountPoint : String} (h : ∀ path, M.found path ≠ some mountPoint)
    {history : List Command} (hhistory : ∀ path, .edit (.add path mountPoint) ∉ history) :
    ∀ path, (M.run history).found path ≠ some mountPoint := by
  induction history generalizing M with
  | nil => exact h
  | cons call history ih =>
    have hcall : ∀ path, call ≠ .edit (.add path mountPoint) := by
      intro path heq
      exact hhistory path (heq ▸ List.mem_cons_self)
    exact ih (found_exec_ne h hcall) fun path hmem => hhistory path (List.mem_cons_of_mem _ hmem)

theorem found_purge_ne (M : Maps) (mountPoint path : String) :
    (M.purge mountPoint).found path ≠ some mountPoint := by
  show (if M.found path = some mountPoint then none else M.found path) ≠ some mountPoint
  split
  · exact (Option.some_ne_none _).symm
  · next hother => exact hother

end Maps

/-- The caches that one begins with. -/
inductive Made : Cache → Prop where
  | empty : Made .empty
  | withCapacity {memory : Memory} {exact : UInt64} {c : Cache} :
    withCapacity? memory exact = some c → Made c
  | ofCapacities {memory : Memory} {capacities : Capacities} {c : Cache} :
    ofCapacities? memory capacities = some c → Made c

theorem Made.eq_empty {start : Cache} (h : start.Made) : start = .empty := by
  cases h with
  | empty => rfl
  | withCapacity hmade => exact (ofCapacities?_eq_some_iff.mp hmade).2
  | ofCapacities hmade => exact (ofCapacities?_eq_some_iff.mp hmade).2

theorem Made.maps_run {start : Cache} (h : start.Made) (history : List Command) :
    (start.run history).maps = Maps.empty.run history := by
  rw [Cache.maps_run, h.eq_empty, maps_empty]

/-- After every history of calls, whatever room was made to begin with, every call is
    answered from the two partial maps that went through the same history. No mount
    point is in both sets of classifications. The mount points found for paths are those
    that there would be without the calls that change classifications, and the
    classifications are those that there would be with these calls alone. A mount point
    that was purged is not found again for any path before it is added again. -/
theorem Made.behaves_as_maps {start : Cache} (h : start.Made) (history : List Command) :
    (∀ call, (start.run history).answer call = (Maps.empty.run history).answer call) ∧
    ((start.run history).isEmpty = true ↔
      ∀ path, (Maps.empty.run history).found path = none) ∧
    (∀ mountPoint, mountPoint ∈ (start.run history).nested →
      mountPoint ∉ (start.run history).nonNested) ∧
    (∀ path, (start.run history).get? path =
      (start.run (history.filter fun call => !call.isClassification)).get? path) ∧
    (∀ mountPoint, (start.run history).isNested? mountPoint =
      (start.run (history.filter Command.isClassification)).isNested? mountPoint) ∧
    (∀ before after mountPoint, history = before ++ .edit (.purge mountPoint) :: after →
      (∀ path, .edit (.add path mountPoint) ∉ after) →
      ∀ path, (start.run history).get? path ≠ some mountPoint) := by
  have hrun : ∀ history, (start.run history).maps = Maps.empty.run history := h.maps_run
  refine ⟨?_, ?_, ?_, ?_, ?_, ?_⟩
  · intro call
    rw [answer_maps, hrun]
  · rw [isEmpty_iff_maps, hrun]
  · have hstart : start.Exclusive := by
      rw [h.eq_empty]
      exact exclusive_empty
    exact hstart.run history
  · intro path
    show (start.run history).maps.found path = (start.run _).maps.found path
    rw [hrun, hrun, Maps.found_run_filter rfl]
  · intro mountPoint
    show (start.run history).maps.classed mountPoint = (start.run _).maps.classed mountPoint
    rw [hrun, hrun, Maps.classed_run_filter rfl]
  · intro before after mountPoint hhistory hafter path
    show (start.run history).maps.found path ≠ some mountPoint
    have hsplit : (start.run history).maps =
        ((Maps.empty.run before).purge mountPoint).run after := by
      rw [hhistory, run_append, run_cons, Cache.maps_run, maps_exec, hrun]
      rfl
    rw [hsplit]
    exact Maps.found_run_ne (Maps.found_purge_ne _ mountPoint) hafter path

/-- A path that was found anew, one that is the value of others, and a mount point that
    was classified twice: the purge takes the one path that still has the value, and
    leaves the path with that name. -/
theorem behaves_after_overwriting :
    let history : List Command := [.edit (.add "/a/x" "/a"), .edit (.add "/a" "/"),
      .edit (.classify "/a" true), .edit (.add "/a/x" "/b"), .edit (.add "/a/y" "/a"),
      .edit (.purge "/a"), .edit (.classify "/a" false), .size, .edit (.add "/a/z" "/b")]
    {path | (Maps.empty.run history).found path ≠ none}.ncard = 3 ∧
      {path | (Maps.empty.run history).found path = some "/b"}.ncard = 2 ∧
      (Maps.empty.run history).classed "/a" = some false ∧
      ∃ start, withCapacity? (.upTo 100) 0 = some start ∧
        ∀ path, (start.run history).get? path ≠ some "/a" := by
  intro history
  have hmade : withCapacity? (.upTo 100) 0 = some .empty := rfl
  obtain ⟨hanswer, -, -, -, -, hpurged⟩ := (Made.withCapacity hmade).behaves_as_maps history
  refine ⟨?_, ?_, ?_, .empty, hmade, ?_⟩
  · have hsize := hanswer .size
    exact (Answer.size.inj hsize).symm.trans (by decide +kernel)
  · have hcount := hanswer (.edit (.purge "/b"))
    exact (Answer.purged.inj hcount).symm.trans (by decide +kernel)
  · have hclass := hanswer (.isNested "/a")
    exact (Answer.isNested.inj hclass).symm.trans (by decide +kernel)
  · apply hpurged [.edit (.add "/a/x" "/a"), .edit (.add "/a" "/"), .edit (.classify "/a" true),
      .edit (.add "/a/x" "/b"), .edit (.add "/a/y" "/a")]
      [.edit (.classify "/a" false), .size, .edit (.add "/a/z" "/b")] "/a" rfl
    intro path hmem
    simp at hmem

end NearestMount.Cache
