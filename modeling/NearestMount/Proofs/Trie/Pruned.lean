import NearestMount.Proofs.Trie.DeadEnds

/-! # Tries without dead ends

    A trie is **pruned** if every leaf but the root is terminal. Insertion and
    withdrawal keep a trie pruned, and a pruned trie is determined by the sequences
    that it holds:

    - `Pruned.flag?_ne_none_iff` says that its nodes are the root and the prefixes of
      what it holds.
    - `Pruned.same_of_holds_iff` says that two pruned tries that hold the same
      sequences are the same.
-/

namespace NearestMount.Trie

variable {K : Type} [DecidableEq K]

/-- Every leaf but the root is terminal. -/
def Pruned (t : Trie K) : Prop :=
  ∀ address node, address ≠ [] → t.at? address = some node → node.isLeaf = true →
    node.terminal = true

theorem pruned_iff_deadEndAt {t : Trie K} : t.Pruned ↔ ∀ address, ¬ t.DeadEndAt address := by
  constructor
  · intro h address hdead
    obtain ⟨hne, node, hat, hunused⟩ := hdead
    obtain ⟨hterminal, hleaf⟩ := isDeadEnd_iff.mp hunused
    rw [h address node hne hat hleaf] at hterminal
    cases hterminal
  · intro h address node hne hat hleaf
    cases hterminal : node.terminal with
    | true => rfl
    | false => exact absurd ⟨hne, node, hat, isDeadEnd_iff.mpr ⟨hterminal, hleaf⟩⟩ (h address)

theorem not_holds_empty (sequence : List K) : ¬ (empty : Trie K).Holds sequence := by
  rw [Holds, flag?_empty]
  split <;> simp

/-- A dead end is a trie that holds nothing and has no dead end below it. -/
theorem isDeadEnd_iff_pruned {t : Trie K} :
    t.isDeadEnd = true ↔ t.Pruned ∧ ∀ sequence, ¬ t.Holds sequence := by
  rw [isDeadEnd_iff_same_empty, same_iff_holds_and_deadEnds, pruned_iff_deadEndAt, and_comm]
  simp only [not_deadEndAt_empty, not_holds_empty, iff_false]

/-! ## What keeps a trie pruned -/

theorem pruned_empty : (empty : Trie K).Pruned :=
  pruned_iff_deadEndAt.mpr not_deadEndAt_empty

theorem Pruned.insert {t : Trie K} (h : t.Pruned) (sequence : List K) :
    (t.insert sequence).Pruned := by
  rw [pruned_iff_deadEndAt] at h ⊢
  intro address hdead
  exact h address (deadEndAt_insert_iff.mp hdead).1

/-- A withdrawal that takes place neither makes a trie pruned nor undoes it. -/
theorem pruned_of_remove?_iff {t u : Trie K} {removed : Removal} {sequence : List K}
    (h : t.remove? sequence = some (removed, u)) : u.Pruned ↔ t.Pruned := by
  rw [pruned_iff_deadEndAt, pruned_iff_deadEndAt]
  exact forall_congr' fun _ => not_congr (deadEndAt_of_remove?_iff h)

theorem Pruned.remove? {t u : Trie K} {removed : Removal} {sequence : List K}
    (h : t.Pruned) (hremove : t.remove? sequence = some (removed, u)) : u.Pruned :=
  (pruned_of_remove?_iff hremove).mpr h

/-! ## A pruned trie is determined by what it holds -/

/-- The nodes of a pruned trie are the root and the prefixes of what it holds. -/
theorem Pruned.flag?_ne_none_iff {t : Trie K} (h : t.Pruned) {address : List K} :
    t.flag? address ≠ none ↔ address = [] ∨ ∃ sequence, address <+: sequence ∧ t.Holds sequence := by
  rw [pruned_iff_deadEndAt] at h
  rw [Trie.flag?_ne_none_iff]
  simp only [h, or_false]

/-- Two pruned tries that hold the same sequences are the same. -/
theorem Pruned.same_of_holds_iff {t u : Trie K} (ht : t.Pruned) (hu : u.Pruned)
    (h : ∀ sequence, t.Holds sequence ↔ u.Holds sequence) : t.Same u := by
  rw [pruned_iff_deadEndAt] at ht hu
  refine same_iff_holds_and_deadEnds.mpr ⟨h, fun address => ?_⟩
  exact iff_of_false (ht address) (hu address)

end NearestMount.Trie
