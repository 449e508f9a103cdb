import NearestMount.Trie.Edit
import NearestMount.Trie.Sequences

/-! # Withdrawing a sequence, seen through the view

    `flag?_of_remove?` says what a withdrawal does to every address: the end of the
    sequence is no longer terminal, the lowest `pruned` nodes on the way to it are
    gone, and nothing else changes. `not_isDeadEnd_of_remove?` says that the pruning
    went as far as it could, and `holds_of_remove?_iff` what all this means for the
    sequences held.
-/

namespace NearestMount.Trie

variable {K : Type}

/-! ## The pruned part of a way -/

/-- The pruned part of the way along `sequence`: its addresses longer than what is
    left of it. -/
def Cut (sequence : List K) (pruned : Nat) (address : List K) : Prop :=
  address <+: sequence ∧ sequence.length - pruned < address.length

theorem not_cut_nil (sequence : List K) (pruned : Nat) : ¬ Cut sequence pruned [] := by
  intro hboth
  obtain ⟨-, hlt⟩ := hboth
  simp at hlt

theorem cut_cons_iff {key : K} {keys address : List K} {pruned : Nat}
    (h : pruned ≤ keys.length) :
    Cut (key :: keys) pruned (key :: address) ↔ Cut keys pruned address := by
  simp only [Cut, List.cons_prefix_cons, true_and, List.length_cons]
  have hlength : keys.length + 1 - pruned < address.length + 1 ↔
      keys.length - pruned < address.length := by omega
  rw [hlength]

variable [DecidableEq K]

instance (sequence : List K) (pruned : Nat) (address : List K) :
    Decidable (Cut sequence pruned address) :=
  inferInstanceAs (Decidable (_ ∧ _))

/-! ## Presence along a sequence -/

/-- Above a node there are nodes. -/
theorem flag?_ne_none_of_prefix {t : Trie K} {front address : List K}
    (hfront : front <+: address) (h : t.flag? address ≠ none) : t.flag? front ≠ none := by
  obtain ⟨back, rfl⟩ := hfront
  intro hnone
  apply h
  have hat : t.at? front = none := by simpa [flag?] using hnone
  rw [flag?, at?_append, hat]
  rfl

theorem Holds.flag?_ne_none {t : Trie K} {sequence front : List K}
    (h : t.Holds sequence) (hfront : front <+: sequence) : t.flag? front ≠ none := by
  apply flag?_ne_none_of_prefix hfront
  rw [h]
  exact Option.some_ne_none true

/-- A dead end is a trie that holds nothing and has nothing to prune. -/
theorem isDeadEnd_iff_same_empty {t : Trie K} : t.isDeadEnd = true ↔ t.Same empty := by
  constructor
  · intro h address
    have hterminal : t.terminal = false := by
      cases ht : t.terminal
      · rfl
      · simp [isDeadEnd, ht] at h
    have hleaf : t.isLeaf = true := by simpa [isDeadEnd, hterminal] using h
    cases address with
    | nil => simp [hterminal, empty]
    | cons key keys =>
      rw [flag?_cons, isLeaf_iff_child?.mp hleaf key]
      rfl
  · intro h
    have hterminal : t.terminal = false := by
      have hroot := h []
      simpa [empty] using hroot
    have hleaf : t.isLeaf = true := by
      rw [isLeaf_iff_child?]
      intro key
      have hbelow := h [key]
      rw [flag?_empty, flag?_cons] at hbelow
      cases hchild : t.child? key with
      | none => rfl
      | some child =>
        rw [hchild] at hbelow
        simp at hbelow
    simp [isDeadEnd, hterminal, hleaf]

/-! ## One step of a withdrawal -/

theorem remove?_nil (t : Trie K) :
    t.remove? [] = if t.terminal then some (⟨0, 0⟩, t.mark false) else none := rfl

/-- All that a withdrawal can do at a node: it withdraws the rest of the sequence from
    the child, and then detaches the child or puts it back. -/
theorem remove?_cons_cases {t u : Trie K} {removed : Removal} {key : K} {keys : List K}
    (h : t.remove? (key :: keys) = some (removed, u)) :
    ∃ child below rest, t.child? key = some child ∧ child.remove? keys = some (below, rest) ∧
      removed.depth = below.depth + 1 ∧
      ((rest.isDeadEnd = true ∧ removed.pruned = below.pruned + 1 ∧ u = t.eraseChild key) ∨
        (rest.isDeadEnd = false ∧ removed.pruned = below.pruned ∧ u = t.setChild key rest)) := by
  rw [remove?, Option.map_eq_some_iff] at h
  obtain ⟨⟨below, rest⟩, hrest, heq⟩ := h
  obtain ⟨child, hchild, hremove⟩ := Option.bind_eq_some_iff.mp hrest
  refine ⟨child, below, rest, hchild, hremove, ?_⟩
  cases hdead : rest.isDeadEnd with
  | true =>
    simp only [hdead, if_true, Prod.mk.injEq] at heq
    obtain ⟨rfl, rfl⟩ := heq
    exact ⟨rfl, Or.inl ⟨rfl, rfl, rfl⟩⟩
  | false =>
    simp only [hdead, Bool.false_eq_true, if_false, Prod.mk.injEq] at heq
    obtain ⟨rfl, rfl⟩ := heq
    exact ⟨rfl, Or.inr ⟨rfl, rfl, rfl⟩⟩

/-- What is withdrawn was held. -/
theorem holds_of_remove? {t u : Trie K} {removed : Removal} {sequence : List K}
    (h : t.remove? sequence = some (removed, u)) : t.Holds sequence := by
  induction sequence generalizing t u removed with
  | nil =>
    rw [remove?_nil] at h
    split at h
    · next hterminal => simp [Holds, hterminal]
    · cases h
  | cons key keys ih =>
    obtain ⟨child, below, rest, hchild, hremove, -⟩ := remove?_cons_cases h
    show t.flag? (key :: keys) = some true
    rw [flag?_cons, hchild]
    exact ih hremove

/-- A withdrawal takes place exactly where there is something to withdraw. -/
theorem isSome_remove?_iff_holds {t : Trie K} {sequence : List K} :
    (t.remove? sequence).isSome = true ↔ t.Holds sequence := by
  constructor
  · intro h
    obtain ⟨⟨removed, u⟩, hremove⟩ := Option.isSome_iff_exists.mp h
    exact holds_of_remove? hremove
  · intro h
    induction sequence generalizing t with
    | nil =>
      have hterminal : t.terminal = true := by simpa [Holds] using h
      simp [remove?_nil, hterminal]
    | cons key keys ih =>
      rw [Holds, flag?_cons] at h
      obtain ⟨child, hchild, hheld⟩ := Option.bind_eq_some_iff.mp h
      have hbelow : (child.remove? keys).isSome = true := ih hheld
      simpa [remove?, hchild] using hbelow

theorem remove?_eq_none_iff {t : Trie K} {sequence : List K} :
    t.remove? sequence = none ↔ ¬ t.Holds sequence := by
  rw [← isSome_remove?_iff_holds, Option.not_isSome_iff_eq_none]

theorem depth_of_remove? {t u : Trie K} {removed : Removal} {sequence : List K}
    (h : t.remove? sequence = some (removed, u)) : removed.depth = sequence.length := by
  induction sequence generalizing t u removed with
  | nil =>
    rw [remove?_nil] at h
    split at h <;> cases h
    rfl
  | cons key keys ih =>
    obtain ⟨child, below, rest, -, hremove, hdepth, -⟩ := remove?_cons_cases h
    rw [hdepth, ih hremove, List.length_cons]

theorem pruned_le_of_remove? {t u : Trie K} {removed : Removal} {sequence : List K}
    (h : t.remove? sequence = some (removed, u)) : removed.pruned ≤ sequence.length := by
  induction sequence generalizing t u removed with
  | nil =>
    rw [remove?_nil] at h
    split at h <;> cases h
    exact Nat.le_refl 0
  | cons key keys ih =>
    obtain ⟨child, below, rest, -, hremove, -, hcases⟩ := remove?_cons_cases h
    have hle := ih hremove
    rw [List.length_cons]
    rcases hcases with ⟨-, hpruned, -⟩ | ⟨-, hpruned, -⟩ <;> omega

/-! ## The flags afterwards -/

/-- The flags that are left of those of `t` when the end of the sequence is unmarked
    and the part of the way below the cut is gone. -/
def flagAfter? (t : Trie K) (sequence : List K) (pruned : Nat) (address : List K) :
    Option Bool :=
  if Cut sequence pruned address then none
  else if address = sequence then some false
  else t.flag? address

theorem flagAfter?_nil (t : Trie K) (key : K) (keys : List K) (pruned : Nat) :
    t.flagAfter? (key :: keys) pruned [] = some t.terminal := by
  rw [flagAfter?, if_neg (not_cut_nil _ _), if_neg (by simp), flag?_nil]

/-- Off the way nothing changes. -/
theorem flagAfter?_cons_ne (t : Trie K) {key other : K} (keys others : List K) (pruned : Nat)
    (hkey : key ≠ other) :
    t.flagAfter? (key :: keys) pruned (other :: others) = t.flag? (other :: others) := by
  rw [flagAfter?, if_neg, if_neg]
  · intro heq
    exact hkey (List.cons.inj heq).1.symm
  · intro hboth
    obtain ⟨hfront, -⟩ := hboth
    exact hkey (List.cons_prefix_cons.mp hfront).1.symm

theorem flag?_cons_of_child? {t child : Trie K} {key : K} (h : t.child? key = some child)
    (keys : List K) : t.flag? (key :: keys) = child.flag? keys := by
  rw [flag?_cons, h]
  rfl

/-- On the way, as long as the first child stays, what changes is what changes in the
    child. -/
theorem flagAfter?_cons {t child : Trie K} {key : K} {keys : List K} {pruned : Nat}
    (hchild : t.child? key = some child) (hle : pruned ≤ keys.length) (others : List K) :
    t.flagAfter? (key :: keys) pruned (key :: others) = child.flagAfter? keys pruned others := by
  unfold flagAfter?
  rw [flag?_cons_of_child? hchild]
  simp only [cut_cons_iff hle, List.cons.injEq, true_and]

/-- If the whole way is pruned and the first child has nothing else, then nothing is
    left of it. -/
theorem flagAfter?_cons_of_all {t child : Trie K} {key : K} {keys others : List K}
    (hchild : t.child? key = some child)
    (hnone : others ≠ [] → child.flagAfter? keys keys.length others = none) :
    t.flagAfter? (key :: keys) (keys.length + 1) (key :: others) = none := by
  unfold flagAfter?
  by_cases hcut : others <+: keys
  · rw [if_pos]
    refine ⟨by simpa using hcut, ?_⟩
    rw [List.length_cons, List.length_cons]
    omega
  · -- aside of the way the child has no node, by what is left of it
    have hne : others ≠ [] := by
      intro heq
      subst heq
      exact hcut List.nil_prefix
    have hother : others ≠ keys := by
      intro heq
      subst heq
      exact hcut (List.prefix_refl _)
    have hrest := hnone hne
    rw [flagAfter?, if_neg (fun hc => hcut hc.1), if_neg hother] at hrest
    rw [if_neg (fun hc => hcut (by simpa using hc.1)), if_neg (by simpa using hother),
      flag?_cons_of_child? hchild, hrest]

/-- If what is left is a dead end, everything on the way was pruned. -/
theorem pruned_eq_length_of_isDeadEnd {t u : Trie K} {removed : Removal} {sequence : List K}
    (hremove : t.remove? sequence = some (removed, u))
    (hflags : ∀ address, u.flag? address = t.flagAfter? sequence removed.pruned address)
    (hdead : u.isDeadEnd = true) : removed.pruned = sequence.length := by
  have hle := pruned_le_of_remove? hremove
  refine Nat.le_antisymm hle (Nat.not_lt.mp fun hlt => ?_)
  -- otherwise the last node above the cut is still there, and it is not the root
  have hlength : (sequence.take (sequence.length - removed.pruned)).length =
      sequence.length - removed.pruned := by
    rw [List.length_take]
    omega
  have hnone : u.flag? (sequence.take (sequence.length - removed.pruned)) = none := by
    rw [isDeadEnd_iff_same_empty.mp hdead, flag?_empty, if_neg]
    intro hnil
    rw [hnil, List.length_nil] at hlength
    omega
  have hkept := hflags (sequence.take (sequence.length - removed.pruned))
  rw [hnone, flagAfter?, if_neg] at hkept
  · split at hkept
    · cases hkept
    · exact (holds_of_remove? hremove).flag?_ne_none (List.take_prefix _ _) hkept.symm
  · intro hboth
    obtain ⟨-, hlt⟩ := hboth
    omega

/-- A withdrawal unmarks the end of the sequence and prunes the way to it, and does
    nothing else. -/
theorem flag?_of_remove? {t u : Trie K} {removed : Removal} {sequence : List K}
    (h : t.remove? sequence = some (removed, u)) (address : List K) :
    u.flag? address = t.flagAfter? sequence removed.pruned address := by
  induction sequence generalizing t u removed address with
  | nil =>
    rw [remove?_nil] at h
    split at h
    · cases h
      cases address with
      | nil => simp [flagAfter?, not_cut_nil]
      | cons key keys => simp [flagAfter?, Cut]
    · cases h
  | cons key keys ih =>
    obtain ⟨child, below, rest, hchild, hremove, -, hcases⟩ := remove?_cons_cases h
    have hflags : ∀ address, rest.flag? address = child.flagAfter? keys below.pruned address :=
      fun address => ih hremove address
    have hle := pruned_le_of_remove? hremove
    cases address with
    | nil =>
      -- the root itself is never pruned or unmarked by a step into a child
      rw [flagAfter?_nil]
      rcases hcases with ⟨-, -, rfl⟩ | ⟨-, -, rfl⟩ <;> rfl
    | cons other others =>
      by_cases hkey : key = other
      · subst hkey
        rcases hcases with ⟨hdead, hpruned, rfl⟩ | ⟨-, hpruned, rfl⟩
        · -- the child went as a dead end: whatever was under it was on the way
          have hall := pruned_eq_length_of_isDeadEnd hremove hflags hdead
          rw [flag?_eraseChild_cons, if_pos rfl, hpruned, hall]
          symm
          apply flagAfter?_cons_of_all hchild
          intro hne
          rw [← hall, ← hflags, isDeadEnd_iff_same_empty.mp hdead, flag?_empty, if_neg hne]
        · rw [flag?_setChild_cons, if_pos rfl, hflags, hpruned, flagAfter?_cons hchild hle]
      · rw [flagAfter?_cons_ne t keys others _ hkey]
        rcases hcases with ⟨-, -, rfl⟩ | ⟨-, -, rfl⟩
        · rw [flag?_eraseChild_cons, if_neg hkey]
        · rw [flag?_setChild_cons, if_neg hkey]

/-- The pruned part of the way is gone. -/
theorem flag?_of_remove?_cut {t u : Trie K} {removed : Removal} {sequence address : List K}
    (h : t.remove? sequence = some (removed, u)) (hcut : Cut sequence removed.pruned address) :
    u.flag? address = none := by
  rw [flag?_of_remove? h, flagAfter?, if_pos hcut]

/-- The nodes that are left are those that were there and were not pruned. -/
theorem flag?_of_remove?_ne_none_iff {t u : Trie K} {removed : Removal}
    {sequence address : List K} (h : t.remove? sequence = some (removed, u)) :
    u.flag? address ≠ none ↔ t.flag? address ≠ none ∧ ¬ Cut sequence removed.pruned address := by
  rw [flag?_of_remove? h, flagAfter?]
  by_cases hcut : Cut sequence removed.pruned address
  · simp [hcut]
  · by_cases hend : address = sequence
    · subst hend
      have hheld : t.flag? address = some true := holds_of_remove? h
      simp [hcut, hheld]
    · simp [hcut, hend]

/-- The pruning stops only at the root or at a node that is still in use. -/
theorem not_isDeadEnd_of_remove? {t u : Trie K} {removed : Removal} {sequence : List K}
    (h : t.remove? sequence = some (removed, u)) (hlt : removed.pruned < sequence.length) :
    ∃ node, u.at? (sequence.take (sequence.length - removed.pruned)) = some node ∧
      node.isDeadEnd = false := by
  induction sequence generalizing t u removed with
  | nil => simp at hlt
  | cons key keys ih =>
    -- the pruning stops in the child, or at the child itself, or does not stop
    obtain ⟨child, below, rest, hchild, hremove, -, hcases⟩ := remove?_cons_cases h
    have hle := pruned_le_of_remove? hremove
    rw [List.length_cons] at hlt ⊢
    rcases hcases with ⟨hdead, hpruned, rfl⟩ | ⟨hused, hpruned, rfl⟩
    · have hall := pruned_eq_length_of_isDeadEnd hremove (flag?_of_remove? hremove) hdead
      omega
    · have htake : (key :: keys).take (keys.length + 1 - removed.pruned) =
          key :: keys.take (keys.length - below.pruned) := by
        rw [show keys.length + 1 - removed.pruned = keys.length - below.pruned + 1 by omega,
          List.take_succ_cons]
      rw [htake, at?_cons, child?_setChild_self, Option.bind_some]
      by_cases hbelow : below.pruned < keys.length
      · exact ih hremove hbelow
      · refine ⟨rest, ?_, hused⟩
        rw [show keys.length - below.pruned = 0 by omega, List.take_zero, at?_nil]

/-- The nodes that were pruned above the end of the sequence were not terminal. -/
theorem flag?_of_cut {t u : Trie K} {removed : Removal} {sequence address : List K}
    (h : t.remove? sequence = some (removed, u)) (hcut : Cut sequence removed.pruned address)
    (hne : address ≠ sequence) : t.flag? address = some false := by
  induction sequence generalizing t u removed address with
  | nil => exact absurd (List.prefix_nil.mp hcut.1) hne
  | cons key keys ih =>
    obtain ⟨child, below, rest, hchild, hremove, -, hcases⟩ := remove?_cons_cases h
    have hle := pruned_le_of_remove? hremove
    cases address with
    | nil => exact absurd hcut (not_cut_nil _ _)
    | cons other others =>
      obtain rfl : other = key := (List.cons_prefix_cons.mp hcut.1).1
      have hothers : others ≠ keys := fun heq => hne (by rw [heq])
      rw [flag?_cons_of_child? hchild]
      by_cases hdeep : Cut keys below.pruned others
      · exact ih hremove hdeep hothers
      · rcases hcases with ⟨hdead, hpruned, -⟩ | ⟨-, hpruned, -⟩
        · -- only the child itself is cut now that was not cut before
          have hall := pruned_eq_length_of_isDeadEnd hremove (flag?_of_remove? hremove) hdead
          have hnil : others = [] := by
            apply List.eq_nil_of_length_eq_zero
            have hfront : others <+: keys := (List.cons_prefix_cons.mp hcut.1).2
            have hshort : ¬ keys.length - below.pruned < others.length :=
              fun hlt => hdeep ⟨hfront, hlt⟩
            omega
          subst hnil
          have hroot := flag?_of_remove? hremove []
          rw [isDeadEnd_iff_same_empty.mp hdead, flag?_empty, if_pos rfl, flagAfter?,
            if_neg (not_cut_nil _ _), if_neg hothers] at hroot
          exact hroot.symm
        · rw [hpruned, cut_cons_iff hle] at hcut
          exact absurd hcut hdeep

/-! ## The sequences afterwards -/

/-- A withdrawal takes the sequence out of those held, and no other. -/
theorem holds_of_remove?_iff {t u : Trie K} {removed : Removal} {sequence other : List K}
    (h : t.remove? sequence = some (removed, u)) :
    u.Holds other ↔ other ≠ sequence ∧ t.Holds other := by
  unfold Holds
  rw [flag?_of_remove? h, flagAfter?]
  by_cases hother : other = sequence
  · subst hother
    split <;> simp
  · rw [if_neg hother]
    split
    · next hcut => simp [flag?_of_cut h hcut hother]
    · simp [hother]

/-- A withdrawal changes nothing, or takes place. -/
theorem edit_remove_cases (t : Trie K) (sequence : List K) :
    (t.remove? sequence = none ∧ t.edit (.remove sequence) = t) ∨
      ∃ removed u, t.remove? sequence = some (removed, u) ∧ t.edit (.remove sequence) = u := by
  cases hremove : t.remove? sequence with
  | none => exact Or.inl ⟨rfl, by simp [edit, hremove]⟩
  | some found =>
    obtain ⟨removed, u⟩ := found
    exact Or.inr ⟨removed, u, rfl, by simp [edit, hremove]⟩

/-- Whether the withdrawal takes place or not, the sequence is not held afterwards, and
    every other one is as before. -/
theorem holds_edit_remove_iff {t : Trie K} {sequence other : List K} :
    (t.edit (.remove sequence)).Holds other ↔ other ≠ sequence ∧ t.Holds other := by
  rcases t.edit_remove_cases sequence with ⟨hnone, hedit⟩ | ⟨removed, u, hremove, hedit⟩
  · -- what cannot be withdrawn was not held
    have hheld : ¬ t.Holds sequence := remove?_eq_none_iff.mp hnone
    rw [hedit]
    refine ⟨fun h => ⟨?_, h⟩, And.right⟩
    rintro rfl
    exact hheld h
  · rw [hedit, holds_of_remove?_iff hremove]

end NearestMount.Trie
