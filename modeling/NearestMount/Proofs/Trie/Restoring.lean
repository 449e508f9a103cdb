import NearestMount.Proofs.Trie.Lookup
import NearestMount.Proofs.Trie.Siblings

/-! # Insertion and withdrawal undo each other

    An insertion makes the nodes that the way to the sequence lacks; they hang below the
    deepest node that the trie already has on that way, its **foot**. A withdrawal
    detaches them again, and the foot as well if nothing else needs it.

    - `LowestAlong.flag?_ne_none_iff` says which part of the way a trie has, and
      `LowestAlong.exists_deadEndAt_iff` when a dead end is on it.
    - `same_insert_of_remove?` and `same_of_remove?_insert_iff` say when a change is
      undone, from what it does to the sequences held and to the dead ends.
    - `insert_remove_undo` puts this together, with the count of the nodes made.
-/

namespace NearestMount.Trie

variable {K : Type} [DecidableEq K]

/-! ## The foot of a way -/

/-- On every way there is a deepest node, for the root is there. -/
theorem exists_lookup?_foot (t : Trie K) (sequence : List K) :
    ∃ foot, t.lookup? ⟨false, false⟩ sequence = some foot ∧ t.LowestAlong false sequence foot := by
  cases hfoot : t.deepest? false sequence with
  | none => exact absurd (qualifies_nil_iff.mpr rfl) (deepest?_eq_none_iff.mp hfoot [] List.nil_prefix)
  | some foot => exact ⟨foot, hfoot, lowestAlong_of_deepest?_eq_some hfoot⟩

theorem qualifies_false_iff {t : Trie K} {address : List K} :
    t.Qualifies false address ↔ t.flag? address ≠ none := by
  simp [Qualifies, qualifies, flag?, Option.ne_none_iff_exists']

/-- A trie has the way as far as its foot, and no further. -/
theorem LowestAlong.flag?_ne_none_iff {t : Trie K} {sequence address : List K} {foot : Match K}
    (h : t.LowestAlong false sequence foot) (hfront : address <+: sequence) :
    t.flag? address ≠ none ↔ address.length ≤ foot.depth := by
  rw [List.prefix_iff_eq_take.mp hfront, List.length_take_of_le hfront.length_le]
  constructor
  · intro hflag
    apply Nat.not_lt.mp
    intro hlt
    exact h.none_lower address.length hlt hfront.length_le (qualifies_false_iff.mpr hflag)
  · intro hle
    have hfoot : t.flag? (sequence.take foot.depth) ≠ none :=
      qualifies_false_iff.mp ⟨foot.node, h.at?_eq, h.qualifies⟩
    exact flag?_ne_none_of_prefix (List.take_prefix_take_left hle) hfoot

/-- A dead end on the way can only be the foot, and then the foot is not the root. -/
theorem LowestAlong.exists_deadEndAt_iff {t : Trie K} {sequence : List K} {foot : Match K}
    (h : t.LowestAlong false sequence foot) :
    (∃ address, address <+: sequence ∧ t.DeadEndAt address) ↔
      foot.depth ≠ 0 ∧ foot.node.isDeadEnd = true := by
  constructor
  · intro hexists
    obtain ⟨address, hfront, hdead⟩ := hexists
    obtain ⟨hne, hflag, hnone⟩ := deadEndAt_iff_flag?.mp hdead
    have hle : address.length ≤ foot.depth :=
      (h.flag?_ne_none_iff hfront).mp (by rw [hflag]; exact Option.some_ne_none false)
    -- a dead end has nothing below it, so the way ends there or goes on without a node
    have hdepth : address.length = foot.depth := by
      apply Nat.le_antisymm hle
      apply Nat.not_lt.mp
      intro hlt
      have hproper : address ≠ sequence := by
        intro heq
        rw [heq] at hlt
        exact Nat.not_lt.mpr h.depth_le hlt
      obtain ⟨key, hkey⟩ := exists_prefix_snoc hfront hproper
      refine (h.flag?_ne_none_iff hkey).mpr ?_ (hnone key)
      rw [List.length_append]
      exact hlt
    have hfoot := h.at?_eq
    rw [← hdepth, ← List.prefix_iff_eq_take.mp hfront] at hfoot
    obtain ⟨-, node, hat, hunused⟩ := hdead
    obtain rfl : foot.node = node := Option.some.inj (hfoot.symm.trans hat)
    refine ⟨?_, hunused⟩
    rw [← hdepth]
    exact fun hzero => hne (List.eq_nil_of_length_eq_zero hzero)
  · intro hboth
    obtain ⟨hdepth, hunused⟩ := hboth
    refine ⟨sequence.take foot.depth, List.take_prefix _ _, ?_, foot.node, h.at?_eq, hunused⟩
    intro hnil
    have hlength := congrArg List.length hnil
    rw [List.length_take_of_le h.depth_le] at hlength
    exact hdepth hlength

/-! ## What an insertion makes -/

/-- The flags of the end of the sequence, of the nodes made on the way to it, and of all
    others. -/
theorem flag?_insert_of_ne (t : Trie K) {sequence address : List K} (hne : address ≠ sequence) :
    (t.insert sequence).flag? address =
      if t.flag? address = none ∧ address <+: sequence then some false else t.flag? address := by
  rw [flag?_insert, if_neg hne]
  cases hflag : t.flag? address <;> simp

theorem flag?_insert_ne_none_iff {t : Trie K} {sequence address : List K} :
    (t.insert sequence).flag? address ≠ none ↔ t.flag? address ≠ none ∨ address <+: sequence := by
  by_cases hend : address = sequence
  · subst hend
    simp [flag?_insert]
  · rw [flag?_insert_of_ne t hend]
    cases hflag : t.flag? address <;> simp

theorem deepest?_empty (keys : List K) : (empty : Trie K).deepest? false keys = some ⟨0, empty⟩ := by
  cases keys <;> rfl

/-- As many nodes are made as the way is longer than what the trie has of it. -/
theorem nodeCount_insert {t : Trie K} {sequence : List K} {foot : Match K}
    (h : t.deepest? false sequence = some foot) :
    (t.insert sequence).nodeCount = t.nodeCount + (sequence.length - foot.depth) := by
  induction sequence generalizing t foot with
  | nil =>
    rw [List.length_nil, Nat.zero_sub, Nat.add_zero]
    rfl
  | cons key keys ih =>
    rw [deepest?_cons] at h
    rw [insert, List.length_cons]
    cases hchild : t.child? key with
    | none =>
      -- the whole branch is made below this node, which is the foot
      have hbranch : ((empty : Trie K).insert keys).nodeCount =
          (empty : Trie K).nodeCount + (keys.length - 0) := ih (deepest?_empty keys)
      have hsingle : (empty : Trie K).nodeCount = 1 := rfl
      have hfoot : foot.depth = 0 := by
        rw [hchild, Option.bind_none, Option.map_none, Option.none_or] at h
        simp only [here?, qualifies, Bool.not_false, Bool.true_or, if_true, Option.some.injEq] at h
        rw [← h]
      have hset : (t.setChild key (empty.insert keys)).nodeCount =
          t.nodeCount + ((empty : Trie K).insert keys).nodeCount :=
        nodeCount_setChild_of_none hchild
      rw [Option.getD_none, hset, hbranch, hsingle, hfoot]
      omega
    | some child =>
      obtain ⟨lower, hlower, -⟩ := child.exists_lookup?_foot keys
      have hdeepest : child.deepest? false keys = some lower := hlower
      have hbelow : (child.insert keys).nodeCount = child.nodeCount + (keys.length - lower.depth) :=
        ih hlower
      rw [hchild, Option.bind_some, hdeepest, Option.map_some, Option.some_or, Option.some.injEq] at h
      have hset : (t.setChild key (child.insert keys)).nodeCount + child.nodeCount =
          t.nodeCount + (child.insert keys).nodeCount := nodeCount_setChild hchild
      rw [Option.getD_some, ← h, Match.depth_lower]
      omega

/-! ## One change after the other -/

/-- What was withdrawn can be inserted again, and nothing shows that it was gone. -/
theorem same_insert_of_remove? {t u : Trie K} {removed : Removal} {sequence : List K}
    (h : t.remove? sequence = some (removed, u)) : (u.insert sequence).Same t := by
  have hheld : t.Holds sequence := holds_of_remove? h
  refine same_iff_holds_and_deadEnds.mpr ⟨fun other => ?_, fun address => ?_⟩
  · rw [holds_insert, holds_of_remove?_iff h]
    by_cases heq : other = sequence
    · subst heq
      simp [hheld]
    · simp [heq]
  · -- no dead end is on the way to what is held
    rw [deadEndAt_insert_iff, deadEndAt_of_remove?_iff h]
    exact and_iff_left_of_imp fun hdead hfront => hheld.not_deadEndAt hfront hdead

/-- What was inserted can be withdrawn again; this restores the trie if and only if no dead
    end was on the way. -/
theorem same_of_remove?_insert_iff {t u : Trie K} {removed : Removal} {sequence : List K}
    (hnew : ¬ t.Holds sequence) (h : (t.insert sequence).remove? sequence = some (removed, u)) :
    u.Same t ↔ ¬ ∃ address, address <+: sequence ∧ t.DeadEndAt address := by
  have hholds : ∀ other, u.Holds other ↔ t.Holds other := by
    intro other
    rw [holds_of_remove?_iff h, holds_insert]
    by_cases heq : other = sequence
    · subst heq
      simp [hnew]
    · simp [heq]
  have hdead : ∀ address, u.DeadEndAt address ↔ t.DeadEndAt address ∧ ¬ address <+: sequence := by
    intro address
    rw [deadEndAt_of_remove?_iff h, deadEndAt_insert_iff]
  rw [same_iff_holds_and_deadEnds, and_iff_right hholds, not_exists]
  refine forall_congr' fun address => ?_
  rw [hdead address, and_iff_left_iff_imp, not_and']

/-- An insertion makes the nodes below the foot of the way, marks the end of the sequence
    and changes no other mark. A withdrawal followed by the insertion restores every trie.
    An insertion followed by the withdrawal restores it if and only if the foot is the root
    or no dead end. -/
theorem insert_remove_undo (t : Trie K) (sequence : List K) :
    (∀ removed u, t.remove? sequence = some (removed, u) → (u.insert sequence).Reordered t) ∧
    ∃ foot, t.lookup? ⟨false, false⟩ sequence = some foot ∧ t.LowestAlong false sequence foot ∧
      (¬ t.Holds sequence → ∃ removed u,
        (t.insert sequence).remove? sequence = some (removed, u) ∧
        (u.Reordered t ↔ foot.depth = 0 ∨ foot.node.isDeadEnd = false)) ∧
      (t.insert sequence).nodeCount = t.nodeCount + (sequence.length - foot.depth) ∧
      (∀ address, t.flag? address = none ∧ (t.insert sequence).flag? address ≠ none ↔
        address <+: sequence ∧ foot.depth < address.length) ∧
      (t.insert sequence).flag? sequence = some true ∧
      ∀ address, address ≠ sequence → (t.insert sequence).flag? address =
        if t.flag? address = none ∧ address <+: sequence then some false
        else t.flag? address := by
  refine ⟨fun removed u h => same_iff_reordered.mp (same_insert_of_remove? h), ?_⟩
  obtain ⟨foot, hlookup, hfoot⟩ := t.exists_lookup?_foot sequence
  have hheld : (t.insert sequence).Holds sequence := holds_insert.mpr (Or.inl rfl)
  refine ⟨foot, hlookup, hfoot, ?_, nodeCount_insert hlookup, ?_, hheld,
    fun _ => flag?_insert_of_ne t⟩
  · intro hnew
    obtain ⟨⟨removed, u⟩, hremove⟩ := Option.isSome_iff_exists.mp (isSome_remove?_iff_holds.mpr hheld)
    refine ⟨removed, u, hremove, ?_⟩
    rw [← same_iff_reordered, same_of_remove?_insert_iff hnew hremove, hfoot.exists_deadEndAt_iff,
      Decidable.not_and_iff_not_or_not, Decidable.not_not, Bool.not_eq_true]
  · intro address
    rw [flag?_insert_ne_none_iff]
    constructor
    · intro hmade
      obtain ⟨hnone, hpresent⟩ := hmade
      have hfront : address <+: sequence := hpresent.resolve_left (fun hsome => hsome hnone)
      refine ⟨hfront, Nat.not_le.mp fun hle => ?_⟩
      exact (hfoot.flag?_ne_none_iff hfront).mpr hle hnone
    · intro hway
      obtain ⟨hfront, hlt⟩ := hway
      refine ⟨Classical.byContradiction fun hsome => ?_, Or.inr hfront⟩
      exact Nat.not_le.mpr hlt ((hfoot.flag?_ne_none_iff hfront).mp hsome)

/-- A dead end on the way is pruned with what was inserted below it; beside the way it is
    left, and all is as before. -/
theorem undo_below_dead_end :
    let t : Trie Nat := ((empty.insert [1]).modifyAt? (·.setChild 2 empty) [1]).getD empty
    (¬ t.Holds [1, 2, 3] ∧ ∃ removed u, (t.insert [1, 2, 3]).remove? [1, 2, 3] = some (removed, u) ∧
      ¬ u.Reordered t) ∧
    (¬ t.Holds [1, 5, 6] ∧ ∃ removed u, (t.insert [1, 5, 6]).remove? [1, 5, 6] = some (removed, u) ∧
      u.Reordered t) := by
  intro t
  have hbelow : ¬ t.Holds [1, 2, 3] := by decide +kernel
  have hbeside : ¬ t.Holds [1, 5, 6] := by decide +kernel
  -- the foot of the one way is the dead end, that of the other the node above it
  have hdead : (t.lookup? ⟨false, false⟩ [1, 2, 3]).map (fun m => (m.depth, m.node.isDeadEnd)) =
      some (2, true) := by decide +kernel
  have hused : (t.lookup? ⟨false, false⟩ [1, 5, 6]).map (fun m => (m.depth, m.node.isDeadEnd)) =
      some (1, false) := by decide +kernel
  refine ⟨⟨hbelow, ?_⟩, ⟨hbeside, ?_⟩⟩
  · obtain ⟨-, foot, hfoot, -, hundo, -⟩ := insert_remove_undo t [1, 2, 3]
    obtain ⟨removed, u, hremove, hiff⟩ := hundo hbelow
    refine ⟨removed, u, hremove, ?_⟩
    rw [hfoot, Option.map_some, Option.some.injEq, Prod.mk.injEq] at hdead
    rw [hiff, hdead.1, hdead.2]
    decide
  · obtain ⟨-, foot, hfoot, -, hundo, -⟩ := insert_remove_undo t [1, 5, 6]
    obtain ⟨removed, u, hremove, hiff⟩ := hundo hbeside
    refine ⟨removed, u, hremove, hiff.mpr (Or.inr ?_)⟩
    rw [hfoot, Option.map_some, Option.some.injEq, Prod.mk.injEq] at hused
    exact hused.2

end NearestMount.Trie
