import NearestMount.Trie.Edit
import NearestMount.Proofs.Trie.DeadEnds

/-! # What a withdrawal prunes

    A node on the way to a sequence is **spare** if nothing but that sequence needs it:
    it has no child aside of the way, and unless it is the end of the way it is not
    terminal. A withdrawal detaches as many nodes, from the end of the way upwards, as
    are spare one after the other, and touches nothing else:

    - `sparePart_of_remove?` and `le_pruned_of_sparePart` say that `pruned` is the
      greatest such number.
    - `nodeCount_of_remove?` says that so many nodes fewer are left.
    - `withdraw_eq` says that the same comes out if the nodes are changed where they
      stand, and that a withdrawal that fails then puts everything back.
    - `withdrawal_exact` puts this together: a withdrawal takes place exactly for what is
      held, whatever dead ends the trie has, and then it is `Withdrawn`.
-/

namespace NearestMount.Trie

variable {K : Type} [DecidableEq K]

/-- Nothing but the sequence needs the node at the address: whatever child it has is the
    next node on the way, and it is not terminal unless the way ends there. -/
def Spare (t : Trie K) (sequence address : List K) : Prop :=
  ∃ node, t.at? address = some node ∧
    (∀ key, node.child? key ≠ none → address ++ [key] <+: sequence) ∧
    (address ≠ sequence → node.terminal = false)

/-- The lowest `count` nodes on the way to the end of the sequence, none of which is the
    root, are spare. -/
def SparePart (t : Trie K) (sequence : List K) (count : Nat) : Prop :=
  count ≤ sequence.length ∧ ∀ address, Cut sequence count address → t.Spare sequence address

/-- A withdrawal on the nodes themselves: the child is taken where it stands, and put back
    or detached on the way up. The depth is counted on the way down. -/
def withdraw (t : Trie K) (depth : Nat) : List K → Option Removal × Trie K
  | [] => if t.terminal then (some ⟨depth, 0⟩, t.mark false) else (none, t)
  | key :: keys =>
    match t.child? key with
    | none => (none, t)
    | some child =>
      match child.withdraw (depth + 1) keys with
      | (none, child) => (none, t.setChild key child)
      | (some removed, child) =>
        if child.isDeadEnd then
          (some { removed with pruned := removed.pruned + 1 }, t.eraseChild key)
        else (some removed, t.setChild key child)

/-- What a withdrawal that takes place makes of `t`: the trie `u`. -/
structure Withdrawn (t u : Trie K) (sequence : List K) (removed : Removal) : Prop where
  /-- The depth is the length of the sequence. -/
  depth_eq : removed.depth = sequence.length
  /-- The sequence is no longer held, and every other one is as before. -/
  holds_iff : ∀ other, u.Holds other ↔ t.Holds other ∧ other ≠ sequence
  /-- What was pruned was spare, -/
  spare : t.SparePart sequence removed.pruned
  /-- and no more of the way was. -/
  greatest : ∀ count, t.SparePart sequence count → count ≤ removed.pruned
  /-- The pruned nodes were there and are gone. -/
  gone : ∀ address, Cut sequence removed.pruned address →
    t.at? address ≠ none ∧ u.at? address = none
  /-- Every other node keeps its place, its flag unless it is the end of the sequence, and
      those of its children that were not pruned. -/
  kept : ∀ address node, t.at? address = some node → ¬ Cut sequence removed.pruned address →
    ∃ left, u.at? address = some left ∧
      left.terminal = (if address = sequence then false else node.terminal) ∧
      ∀ key, left.child? key ≠ none ↔
        node.child? key ≠ none ∧ ¬ Cut sequence removed.pruned (address ++ [key])
  /-- No node is made. -/
  none_made : ∀ address, t.at? address = none → u.at? address = none
  /-- The root is not among the pruned nodes, -/
  root_kept : ¬ Cut sequence removed.pruned []
  /-- of which there are as many as there are nodes fewer, -/
  nodeCount_eq : u.nodeCount + removed.pruned = t.nodeCount
  /-- and no more than the way is long. -/
  pruned_le : removed.pruned ≤ removed.depth
  /-- The dead ends are the same ones. -/
  deadEndAt_iff : ∀ address, u.DeadEndAt address ↔ t.DeadEndAt address

/-! ## How far the pruning goes -/

theorem spare_iff_flag? {t : Trie K} {sequence address : List K} :
    t.Spare sequence address ↔ t.flag? address ≠ none ∧
      (∀ key, t.flag? (address ++ [key]) ≠ none → address ++ [key] <+: sequence) ∧
      (address ≠ sequence → t.flag? address = some false) := by
  constructor
  · intro h
    obtain ⟨node, hat, hchild, hterminal⟩ := h
    rw [flag?_of_at? hat]
    refine ⟨Option.some_ne_none _, fun key hkey => hchild key ?_, fun hne => ?_⟩
    · exact mt (child?_eq_none_iff_flag? hat key).mp hkey
    · rw [hterminal hne]
  · intro h
    obtain ⟨hpresent, hchild, hterminal⟩ := h
    obtain ⟨b, hb⟩ := Option.ne_none_iff_exists'.mp hpresent
    obtain ⟨node, hat, rfl⟩ := exists_at?_of_flag? hb
    refine ⟨node, hat, fun key hkey => hchild key ?_, fun hne => ?_⟩
    · exact mt (child?_eq_none_iff_flag? hat key).mpr hkey
    · exact Option.some.inj (hb.symm.trans (hterminal hne))

/-- What a withdrawal prunes is spare. -/
theorem sparePart_of_remove? {t u : Trie K} {removed : Removal} {sequence : List K}
    (h : t.remove? sequence = some (removed, u)) : t.SparePart sequence removed.pruned := by
  refine ⟨pruned_le_of_remove? h, fun address hcut => ?_⟩
  have hgone : u.flag? address = none := flag?_of_remove?_cut h hcut
  refine spare_iff_flag?.mpr ⟨(holds_of_remove? h).flag?_ne_none hcut.1, ?_, flag?_of_cut h hcut⟩
  -- a child aside of the way would be left without the node above it
  intro key hkey
  apply Classical.byContradiction
  intro haside
  rw [← flag?_of_remove?_aside h haside] at hkey
  exact flag?_ne_none_of_prefix (List.prefix_append address [key]) hkey hgone

/-- The pruning stops only where a node is not spare, or at the root. -/
theorem le_pruned_of_sparePart {t u : Trie K} {removed : Removal} {sequence : List K}
    {count : Nat} (h : t.remove? sequence = some (removed, u))
    (hspare : t.SparePart sequence count) : count ≤ removed.pruned := by
  apply Nat.not_lt.mp
  intro hlt
  obtain ⟨hle, hall⟩ := hspare
  -- the lowest node that is left would be spare, and so it would be a dead end now
  have hlength : (sequence.take (sequence.length - removed.pruned)).length =
      sequence.length - removed.pruned := by
    rw [List.length_take]
    omega
  have hfront := List.take_prefix (sequence.length - removed.pruned) sequence
  generalize sequence.take (sequence.length - removed.pruned) = lowest at hlength hfront
  obtain ⟨-, hchild, hterminal⟩ := spare_iff_flag?.mp (hall lowest ⟨hfront, by omega⟩)
  refine not_deadEndAt_of_remove? h hfront (deadEndAt_iff_flag?.mpr ⟨?_, ?_, ?_⟩)
  · intro hnil
    rw [hnil, List.length_nil] at hlength
    omega
  · have hleft : ¬ Cut sequence removed.pruned lowest := fun hcut => by
      have hlong := hcut.2
      omega
    rw [flag?_of_remove? h, flagAfter?, if_neg hleft]
    split
    · rfl
    · next hne => exact hterminal hne
  · intro key
    apply Classical.byContradiction
    intro hkey
    obtain ⟨hbefore, hleft⟩ := (flag?_of_remove?_ne_none_iff h).mp hkey
    refine hleft ⟨hchild key hbefore, ?_⟩
    rw [List.length_append, List.length_singleton]
    omega

/-- So many nodes fewer are left as were pruned. -/
theorem nodeCount_of_remove? {t u : Trie K} {removed : Removal} {sequence : List K}
    (h : t.remove? sequence = some (removed, u)) :
    u.nodeCount + removed.pruned = t.nodeCount := by
  induction sequence generalizing t u removed with
  | nil =>
    rw [remove?_nil] at h
    split at h <;> cases h
    rfl
  | cons key keys ih =>
    obtain ⟨child, below, rest, hchild, hremove, -, hcases⟩ := remove?_cons_cases h
    have hrest := ih hremove
    rcases hcases with ⟨hdead, hpruned, rfl⟩ | ⟨-, hpruned, rfl⟩
    · -- the rest of the child is the one node that goes here
      have hsingle := nodeCount_of_isLeaf (isDeadEnd_iff.mp hdead).2
      have herase := nodeCount_eraseChild hchild
      omega
    · have hset : (t.setChild key rest).nodeCount + child.nodeCount =
          t.nodeCount + rest.nodeCount := nodeCount_setChild hchild
      omega

/-! ## Where the nodes stand -/

/-- On the nodes themselves a withdrawal comes to the same, whether it takes place or
    not. -/
theorem withdraw_eq (t : Trie K) (depth : Nat) (sequence : List K) :
    t.withdraw depth sequence =
      ((t.remove? sequence).map fun found => { found.1 with depth := depth + found.1.depth },
        t.edit (.remove sequence)) := by
  induction sequence generalizing t depth with
  | nil => cases hterminal : t.terminal <;> simp [withdraw, edit, remove?, hterminal]
  | cons key keys ih =>
    cases hchild : t.child? key with
    | none => simp [withdraw, edit, remove?, hchild]
    | some child =>
      simp only [withdraw, hchild, ih child (depth + 1), edit, remove?, Option.bind_some]
      cases hremove : child.remove? keys with
      | none => simp [setChild_self hchild]
      | some found =>
        obtain ⟨removed, rest⟩ := found
        simp only [Option.map_some, Option.getD_some]
        split <;> simp [Nat.add_comm, Nat.add_left_comm]

/-! ## The withdrawal as a whole -/

theorem withdrawn_of_remove? {t u : Trie K} {removed : Removal} {sequence : List K}
    (h : t.remove? sequence = some (removed, u)) : t.Withdrawn u sequence removed where
  depth_eq := depth_of_remove? h
  holds_iff other := by rw [holds_of_remove?_iff h, and_comm]
  spare := sparePart_of_remove? h
  greatest _ := le_pruned_of_sparePart h
  gone address hcut := by
    have hbefore := (holds_of_remove? h).flag?_ne_none hcut.1
    have hafter : u.flag? address = none := flag?_of_remove?_cut h hcut
    simpa [flag?] using And.intro hbefore hafter
  kept address node hat hleft := by
    have hflag : u.flag? address = some (if address = sequence then false else node.terminal) := by
      rw [flag?_of_remove? h, flagAfter?, if_neg hleft, flag?_of_at? hat]
      split <;> rfl
    obtain ⟨left, hleft', hterminal⟩ := exists_at?_of_flag? hflag
    refine ⟨left, hleft', hterminal, fun key => ?_⟩
    rw [ne_eq, ne_eq, child?_eq_none_iff_flag? hleft', child?_eq_none_iff_flag? hat]
    exact flag?_of_remove?_ne_none_iff h
  none_made address hnone := by
    have hbefore : t.flag? address = none := by rw [flag?, hnone]; rfl
    have hafter : u.flag? address = none := Classical.byContradiction fun hflag =>
      ((flag?_of_remove?_ne_none_iff h).mp hflag).1 hbefore
    simpa [flag?] using hafter
  root_kept := not_cut_nil _ _
  nodeCount_eq := nodeCount_of_remove? h
  pruned_le := by
    rw [depth_of_remove? h]
    exact pruned_le_of_remove? h
  deadEndAt_iff _ := deadEndAt_of_remove?_iff h

/-- A withdrawal takes place exactly for what is held, and otherwise the trie stays as it
    is. What it takes away is then one mark and the spare part of the way, and no more. -/
theorem withdrawal_exact (t : Trie K) (sequence : List K) :
    (t.remove? sequence = none ↔ ¬ t.Holds sequence) ∧
    (¬ t.Holds sequence → t.withdraw 0 sequence = (none, t) ∧ t.edit (.remove sequence) = t) ∧
    ∀ removed u, t.remove? sequence = some (removed, u) →
      t.withdraw 0 sequence = (some removed, u) ∧ t.edit (.remove sequence) = u ∧
        t.Withdrawn u sequence removed := by
  have hnone : t.remove? sequence = none ↔ ¬ t.Holds sequence := by
    rw [← isSome_remove?_iff_holds, Bool.not_eq_true, Option.isSome_eq_false_iff,
      Option.isNone_iff_eq_none]
  refine ⟨hnone, ?_, ?_⟩
  · intro hheld
    have hedit : t.edit (.remove sequence) = t := by simp [edit, hnone.mpr hheld]
    refine ⟨?_, hedit⟩
    rw [withdraw_eq, hedit, hnone.mpr hheld]
    rfl
  · intro removed u h
    have hedit : t.edit (.remove sequence) = u := by simp [edit, h]
    refine ⟨?_, hedit, withdrawn_of_remove? h⟩
    rw [withdraw_eq, hedit, h]
    simp

/-- A dead end beside the way ends the pruning, as a terminal node on it would, and stays. -/
theorem withdrawal_beside_dead_end :
    let t : Trie Nat := (((empty.insert [1]).insert [1, 2, 3, 4]).modifyAt?
      (·.setChild 9 empty) [1, 2]).getD empty
    let u := t.edit (.remove [1, 2, 3, 4])
    t.remove? [1, 2, 3, 4] = some (⟨4, 2⟩, u) ∧ t.Withdrawn u [1, 2, 3, 4] ⟨4, 2⟩ ∧
      ¬ t.Holds [1, 2] ∧ t.withdraw 0 [1, 2] = (none, t) := by
  intro t u
  have hremove : t.remove? [1, 2, 3, 4] = some (⟨4, 2⟩, u) := by decide +kernel
  have hheld : ¬ t.Holds [1, 2] := by decide +kernel
  obtain ⟨-, -, htakes⟩ := withdrawal_exact t [1, 2, 3, 4]
  obtain ⟨-, hfails, -⟩ := withdrawal_exact t [1, 2]
  exact ⟨hremove, (htakes _ u hremove).2.2, hheld, (hfails hheld).1⟩

end NearestMount.Trie
