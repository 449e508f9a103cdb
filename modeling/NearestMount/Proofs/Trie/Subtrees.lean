import NearestMount.Trie.Edit
import NearestMount.Proofs.Trie.DeadEnds

/-! # Changes below an address

    A change can be made at any node of a trie. What it does is told here from the root:

    - `exists_modifyAt?` says that a change at a node leaves every address that does not
      lead through the node as it was.
    - An insertion at a node is the insertion of the longer sequence (`modifyAt?_insert`).
    - A withdrawal at a node withdraws the longer sequence, but it takes the node for the
      root and so prunes no further up (`pruned_eq_min`).
    - Grafting and detaching replace the whole subtree at an address (`Regrown`).

    `edits_in_place` puts this together.
-/

namespace NearestMount.Trie

variable {K : Type} [DecidableEq K]

/-! ## One node changed -/

/-- A node can be changed where it stands. The address leads to the new node then, and
    nothing changes for the addresses that do not lead through it. -/
theorem exists_modifyAt? {t node : Trie K} {address : List K} (f : Trie K → Trie K)
    (h : t.at? address = some node) :
    ∃ u, t.modifyAt? f address = some u ∧ u.at? address = some (f node) ∧
      ∀ other, ¬ address <+: other → u.flag? other = t.flag? other := by
  induction address generalizing t with
  | nil =>
    obtain rfl : t = node := Option.some.inj h
    exact ⟨f t, rfl, rfl, fun other haside => absurd List.nil_prefix haside⟩
  | cons key keys ih =>
    rw [at?_cons] at h
    obtain ⟨child, hchild, hat⟩ := Option.bind_eq_some_iff.mp h
    obtain ⟨below, hmodify, hbelow, haside⟩ := ih hat
    refine ⟨t.setChild key below, ?_, ?_, ?_⟩
    · simp only [modifyAt?, hchild, Option.bind_some, hmodify, Option.map_some]
    · rw [at?_cons, child?_setChild_self, Option.bind_some, hbelow]
    · intro other hother
      cases other with
      | nil => rfl
      | cons first others =>
        rw [flag?_setChild_cons]
        split
        · -- in the child the rest of the address is aside as well
          next hkey =>
          subst hkey
          rw [flag?_cons_of_child? hchild]
          exact haside others fun hfront => hother (List.cons_prefix_cons.mpr ⟨rfl, hfront⟩)
        · rfl

/-- What is changed is there. -/
theorem exists_at?_of_modifyAt? {f : Trie K → Trie K} {t u : Trie K} {address : List K}
    (h : t.modifyAt? f address = some u) : ∃ node, t.at? address = some node := by
  induction address generalizing t u with
  | nil => exact ⟨t, rfl⟩
  | cons key keys ih =>
    unfold modifyAt? at h
    obtain ⟨child, hchild, hmap⟩ := Option.bind_eq_some_iff.mp h
    obtain ⟨below, hbelow, -⟩ := Option.map_eq_some_iff.mp hmap
    obtain ⟨node, hat⟩ := ih hbelow
    exact ⟨node, by rw [at?_cons, hchild, Option.bind_some, hat]⟩

theorem flag?_append {t node : Trie K} {address : List K} (h : t.at? address = some node)
    (back : List K) : t.flag? (address ++ back) = node.flag? back := by
  rw [flag?, at?_append, h]
  rfl

/-! ## Insertion -/

/-- To insert at a node is to insert the sequence that leads through it. -/
theorem modifyAt?_insert {t node : Trie K} {address : List K} (h : t.at? address = some node)
    (sequence : List K) :
    t.modifyAt? (·.insert sequence) address = some (t.insert (address ++ sequence)) := by
  induction address generalizing t with
  | nil => rfl
  | cons key keys ih =>
    rw [at?_cons] at h
    obtain ⟨child, hchild, hat⟩ := Option.bind_eq_some_iff.mp h
    simp only [modifyAt?, hchild, Option.bind_some, ih hat, Option.map_some, List.cons_append,
      insert, Option.getD_some]

/-! ## Withdrawal -/

/-- What a node holds, the trie holds with the address in front. -/
theorem holds_append_iff {t node : Trie K} {address sequence : List K}
    (h : t.at? address = some node) : t.Holds (address ++ sequence) ↔ node.Holds sequence := by
  rw [Holds, Holds, flag?_append h]

/-- Withdrawn from the root, the longer sequence is pruned as far as at the node, and
    further only if the whole of the sequence was pruned there. -/
theorem pruned_of_remove?_append {t node u rest : Trie K} {removed below : Removal}
    {address sequence : List K} (hat : t.at? address = some node)
    (h : t.remove? (address ++ sequence) = some (removed, u))
    (hbelow : node.remove? sequence = some (below, rest)) :
    removed.pruned = below.pruned ∨
      (below.pruned = sequence.length ∧ below.pruned ≤ removed.pruned) := by
  induction address generalizing t u removed with
  | nil =>
    obtain rfl : t = node := Option.some.inj hat
    rw [List.nil_append, hbelow, Option.some.injEq, Prod.mk.injEq] at h
    exact Or.inl (by rw [h.1])
  | cons key keys ih =>
    rw [List.cons_append] at h
    obtain ⟨child, above, left, hchild, hremove, -, hcases⟩ := remove?_cons_cases h
    rw [at?_cons, hchild, Option.bind_some] at hat
    have hchain := ih hat hremove
    rcases hcases with ⟨hdead, hpruned, -⟩ | ⟨-, hpruned, -⟩
    · -- the child went as well, so everything below it had gone before
      have hall := pruned_eq_length_of_isDeadEnd hremove (flag?_of_remove? hremove) hdead
      have hle := pruned_le_of_remove? hbelow
      rw [List.length_append] at hall
      omega
    · omega

/-- At the node the pruning is that from the root, as far as it stays below the node. -/
theorem pruned_eq_min {t node u rest : Trie K} {removed below : Removal}
    {address sequence : List K} (hat : t.at? address = some node)
    (h : t.remove? (address ++ sequence) = some (removed, u))
    (hbelow : node.remove? sequence = some (below, rest)) :
    below.pruned = min removed.pruned sequence.length := by
  have hle := pruned_le_of_remove? hbelow
  have hcases := pruned_of_remove?_append hat h hbelow
  omega

/-- Withdrawn at the node or from the root, the same sequences are left. -/
theorem exists_remove {t node : Trie K} {address : List K} (h : t.at? address = some node)
    (sequence : List K) :
    ∃ u, t.editAt? address (.remove sequence) = some u ∧ ∀ other,
      u.Holds other ↔ (t.edit (.remove (address ++ sequence))).Holds other := by
  obtain ⟨u, hedit, hchanged, haside⟩ := exists_modifyAt? (·.edit (.remove sequence)) h
  refine ⟨u, hedit, fun other => ?_⟩
  rw [holds_edit_remove_iff]
  by_cases hfront : address <+: other
  · obtain ⟨back, rfl⟩ := hfront
    rw [holds_append_iff hchanged, holds_append_iff h, holds_edit_remove_iff, ne_eq, ne_eq,
      List.append_cancel_left_eq]
  · -- what is withdrawn leads through the node, so it is not the one asked for
    have hne : other ≠ address ++ sequence := by
      rintro rfl
      exact hfront (List.prefix_append address sequence)
    rw [Holds, haside other hfront]
    exact ⟨fun hheld => ⟨hne, hheld⟩, And.right⟩

/-! ## Whole subtrees -/

/-- In `u` the address leads to the root of `sub`, or to no node at all, and whatever does
    not lead there is as it is in `t`. -/
structure Regrown (t u : Trie K) (address : List K) (sub : Option (Trie K)) : Prop where
  /-- The sequences held. -/
  holds_iff : ∀ sequence, u.Holds sequence ↔
    (∃ back new, sequence = address ++ back ∧ sub = some new ∧ new.Holds back) ∨
      (¬ address <+: sequence ∧ t.Holds sequence)
  /-- The sequences that lead to a node. -/
  present_iff : ∀ sequence, u.at? sequence ≠ none ↔
    (∃ back new, sequence = address ++ back ∧ sub = some new ∧ new.at? back ≠ none) ∨
      (¬ address <+: sequence ∧ t.at? sequence ≠ none)

theorem at?_ne_none_iff_flag? {t : Trie K} {address : List K} :
    t.at? address ≠ none ↔ t.flag? address ≠ none := by
  rw [flag?, ne_eq, ne_eq, Option.map_eq_none_iff]

/-- A subtree has regrown if its flags are those of the new one and all others are the
    old ones. -/
theorem regrown_of_flag? {t u : Trie K} {address : List K} {sub : Option (Trie K)}
    (hbelow : ∀ back, u.flag? (address ++ back) = sub.bind (·.flag? back))
    (haside : ∀ other, ¬ address <+: other → u.flag? other = t.flag? other) :
    t.Regrown u address sub := by
  -- what is to be said of flags with some property says both parts
  have hflags : ∀ P : Option Bool → Prop, ¬ P none → ∀ sequence, P (u.flag? sequence) ↔
      (∃ back new, sequence = address ++ back ∧ sub = some new ∧ P (new.flag? back)) ∨
        (¬ address <+: sequence ∧ P (t.flag? sequence)) := by
    intro P hnone sequence
    by_cases hfront : address <+: sequence
    · obtain ⟨back, rfl⟩ := hfront
      rw [hbelow]
      cases sub with
      | none => simp [hnone]
      | some new => simp
    · rw [haside sequence hfront]
      constructor
      · exact fun h => Or.inr ⟨hfront, h⟩
      · rintro (⟨back, new, rfl, -⟩ | ⟨-, h⟩)
        · exact absurd (List.prefix_append address back) hfront
        · exact h
  refine ⟨hflags (· = some true) (by simp), fun sequence => ?_⟩
  simp only [at?_ne_none_iff_flag?]
  exact hflags (· ≠ none) (by simp) sequence

/-- If the node at the address gets another child at one key, and nothing else about it
    changes, then the subtree at that key regrows. -/
theorem regrown_of_child? {t u node changed : Trie K} {address : List K} {key : K}
    {sub : Option (Trie K)} (hat : t.at? address = some node)
    (hchanged : u.at? address = some changed)
    (haside : ∀ other, ¬ address <+: other → u.flag? other = t.flag? other)
    (hterminal : changed.terminal = node.terminal)
    (hchild : ∀ other, changed.child? other = if key = other then sub else node.child? other) :
    t.Regrown u (address ++ [key]) sub := by
  apply regrown_of_flag?
  · intro back
    rw [List.append_assoc, List.singleton_append, flag?_append hchanged, flag?_cons, hchild,
      if_pos rfl]
  · intro other hother
    by_cases hfront : address <+: other
    · obtain ⟨back, rfl⟩ := hfront
      rw [flag?_append hchanged, flag?_append hat]
      cases back with
      | nil => rw [flag?_nil, flag?_nil, hterminal]
      | cons first keys =>
        -- the address goes on at the node, and not by the key
        have hkey : key ≠ first := by
          rintro rfl
          exact hother ⟨keys, by simp⟩
        rw [flag?_cons, flag?_cons, hchild, if_neg hkey]
    · exact haside other hfront

/-- Grafting at a node of the trie. -/
theorem exists_graft {t node : Trie K} {address : List K} (h : t.at? address = some node)
    (key : K) (sub : Trie K) :
    ∃ u, t.editAt? address (.graft key sub) = some u ∧
      u.at? address = some (node.setChild key sub) ∧
      t.Regrown u (address ++ [key]) (some sub) := by
  obtain ⟨u, hedit, hchanged, haside⟩ := exists_modifyAt? (·.edit (.graft key sub)) h
  exact ⟨u, hedit, hchanged, regrown_of_child? h hchanged haside rfl (child?_setChild node sub key)⟩

/-- Detaching at a node of the trie. -/
theorem exists_detach {t node : Trie K} {address : List K} (h : t.at? address = some node)
    (key : K) :
    ∃ u, t.editAt? address (.detach key) = some u ∧ t.Regrown u (address ++ [key]) none := by
  obtain ⟨u, hedit, hchanged, haside⟩ := exists_modifyAt? (·.edit (.detach key)) h
  exact ⟨u, hedit, regrown_of_child? h hchanged haside rfl (child?_eraseChild node key)⟩

/-- What is at a key of a node is what the longer address leads to. -/
theorem child?_eq_at? {t node : Trie K} {address : List K} (h : t.at? address = some node)
    (key : K) : node.child? key = t.at? (address ++ [key]) := by
  rw [at?_append, h, Option.bind_some, at?_cons]
  cases node.child? key <;> rfl

/-! ## The four changes -/

/-- A change at the node to which an address leads, told from the root. The insertion is
    that of the longer sequence. The withdrawal takes place when that of the longer sequence
    does, and leaves the same sequences held; its depth counts from the node, and it prunes
    the same part of the way but nothing above. Grafting and detaching answer with the
    subtree at the key and put the new one, or none, in its place; what was grafted comes
    back when it is detached. -/
theorem edits_in_place (t node : Trie K) (address : List K) (h : t.at? address = some node) :
    (∀ sequence, t.editAt? address (.insert sequence) = some (t.insert (address ++ sequence))) ∧
    (∀ sequence,
      ((node.remove? sequence).isSome = true ↔ (t.remove? (address ++ sequence)).isSome = true) ∧
      (∃ u, t.editAt? address (.remove sequence) = some u ∧ ∀ other,
        u.Holds other ↔ (t.edit (.remove (address ++ sequence))).Holds other) ∧
      ∀ below rest removed v, node.remove? sequence = some (below, rest) →
        t.remove? (address ++ sequence) = some (removed, v) →
        removed.depth = address.length + below.depth ∧
          below.pruned = min removed.pruned sequence.length) ∧
    (∀ key sub, ∃ u v, t.editAt? address (.graft key sub) = some u ∧
      t.Regrown u (address ++ [key]) (some sub) ∧
      u.at? address = some v ∧ (v.yield (.detach key)).subtree = some sub) ∧
    (∀ key, ∃ u, t.editAt? address (.detach key) = some u ∧
      t.Regrown u (address ++ [key]) none) ∧
    (∀ key sub, (node.yield (.graft key sub)).subtree = t.at? (address ++ [key]) ∧
      (node.yield (.detach key)).subtree = t.at? (address ++ [key])) ∧
    ∀ key old, t.at? (address ++ [key]) = some old → ∀ back,
      (old.Holds back ↔ t.Holds (address ++ [key] ++ back)) ∧
      (old.at? back ≠ none ↔ t.at? (address ++ [key] ++ back) ≠ none) := by
  refine ⟨modifyAt?_insert h, ?_, ?_, exists_detach h, ?_, ?_⟩
  · intro sequence
    refine ⟨?_, exists_remove h sequence, ?_⟩
    · rw [isSome_remove?_iff_holds, isSome_remove?_iff_holds, holds_append_iff h]
    · intro below rest removed v hbelow hremove
      refine ⟨?_, pruned_eq_min h hremove hbelow⟩
      rw [depth_of_remove? hremove, depth_of_remove? hbelow, List.length_append]
  · intro key sub
    obtain ⟨u, hedit, hchanged, hregrown⟩ := exists_graft h key sub
    exact ⟨u, node.setChild key sub, hedit, hregrown, hchanged, child?_setChild_self node sub key⟩
  · intro key sub
    exact ⟨child?_eq_at? h key, child?_eq_at? h key⟩
  · intro key old hold back
    rw [holds_append_iff hold, at?_append, hold]
    exact ⟨Iff.rfl, Iff.rfl⟩

/-- A node whose last child is withdrawn there stays as a dead end. Withdrawn from the root,
    the same sequence takes that node and the one above with it. -/
theorem edits_below_dead_end :
    let t : Trie Nat := (empty.insert [1, 2, 3]).insert [7]
    ∃ node u below rest, t.at? [1, 2] = some node ∧
      t.editAt? [1, 2] (.remove [3]) = some u ∧ u.flag? [1, 2] = some false ∧
      (∀ other, u.Holds other ↔ (t.edit (.remove [1, 2, 3])).Holds other) ∧
      (t.remove? [1, 2, 3]).map (·.1) = some ⟨3, 3⟩ ∧
      node.remove? [3] = some (below, rest) ∧ 3 = 2 + below.depth ∧ below.pruned = min 3 1 := by
  intro t
  have hat : (t.at? [1, 2]).isSome = true := by decide +kernel
  obtain ⟨node, hnode⟩ := Option.isSome_iff_exists.mp hat
  obtain ⟨-, hremove, -⟩ := edits_in_place t node [1, 2] hnode
  obtain ⟨hsame, ⟨u, hedit, hholds⟩, hcounts⟩ := hremove [3]
  have hflag : ((t.editAt? [1, 2] (.remove [3])).bind (·.flag? [1, 2])) = some false := by
    decide +kernel
  rw [hedit, Option.bind_some] at hflag
  have hroot : (t.remove? [1, 2, 3]).map (·.1) = some ⟨3, 3⟩ := by decide +kernel
  obtain ⟨⟨removed, v⟩, hwhole, rfl⟩ := Option.map_eq_some_iff.mp hroot
  have hlocal : (node.remove? [3]).isSome = true := hsame.mpr (by simp [hwhole])
  obtain ⟨⟨below, rest⟩, hbelow⟩ := Option.isSome_iff_exists.mp hlocal
  obtain ⟨hdepth, hpruned⟩ := hcounts below rest ⟨3, 3⟩ v hbelow hwhole
  exact ⟨node, u, below, rest, hnode, hedit, hflag, hholds, hroot, hbelow, hdepth, hpruned⟩

end NearestMount.Trie
