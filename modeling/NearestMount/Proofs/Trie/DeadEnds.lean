import NearestMount.Proofs.Trie.Removal

/-! # Dead ends

    A node other than the root is a **dead end** if it is a leaf that is not terminal:
    nothing that the trie holds needs it. A trie may have dead ends, for subtrees can be
    attached and detached as they are.

    - `BareAt` is the same with the root among the nodes; what is said of it holds of a
      node whether it is seen from the root or as the root of its own subtree.
    - `deadEndAt_insert_iff` says that an insertion revives the dead ends on its way and
      makes none; `deadEndAt_of_remove?_iff` that a withdrawal leaves all of them, and
      leaves no others.
    - `flag?_ne_none_iff` says that the nodes of a trie are the root and the prefixes of
      what it holds and of its dead ends. So the sequences held and the dead ends
      determine a trie: `same_iff_holds_and_deadEnds`.
-/

namespace NearestMount.Trie

variable {K : Type} [DecidableEq K]

/-- There is a node at the address, it is not the root, and it is a dead end. -/
def DeadEndAt (t : Trie K) (address : List K) : Prop :=
  address ≠ [] ∧ ∃ node, t.at? address = some node ∧ node.isDeadEnd = true

/-- There is a node at the address, be it the root, and it is a leaf that is not terminal. -/
def BareAt (t : Trie K) (address : List K) : Prop :=
  ∃ node, t.at? address = some node ∧ node.isDeadEnd = true

theorem deadEndAt_iff_bareAt {t : Trie K} {address : List K} :
    t.DeadEndAt address ↔ address ≠ [] ∧ t.BareAt address := Iff.rfl

omit [DecidableEq K] in
theorem isDeadEnd_iff {t : Trie K} : t.isDeadEnd = true ↔ t.terminal = false ∧ t.isLeaf = true := by
  simp [isDeadEnd]

/-! ## Through the view -/

theorem child?_eq_none_iff_flag? {t node : Trie K} {address : List K}
    (h : t.at? address = some node) (key : K) :
    node.child? key = none ↔ t.flag? (address ++ [key]) = none := by
  have hbelow : t.flag? (address ++ [key]) = (node.child? key).map (·.terminal) := by
    rw [flag?, at?_append, h, Option.bind_some, at?_cons]
    cases node.child? key <;> rfl
  rw [hbelow, Option.map_eq_none_iff]

theorem isLeaf_iff_flag? {t node : Trie K} {address : List K} (h : t.at? address = some node) :
    node.isLeaf = true ↔ ∀ key, t.flag? (address ++ [key]) = none := by
  rw [isLeaf_iff_child?]
  exact forall_congr' (child?_eq_none_iff_flag? h)

theorem flag?_of_at? {t node : Trie K} {address : List K} (h : t.at? address = some node) :
    t.flag? address = some node.terminal := by
  rw [flag?, h]
  rfl

theorem exists_at?_of_flag? {t : Trie K} {address : List K} {b : Bool}
    (h : t.flag? address = some b) : ∃ node, t.at? address = some node ∧ node.terminal = b :=
  Option.map_eq_some_iff.mp h

/-- Whether a node is bare is a matter of the flags alone. -/
theorem bareAt_iff_flag? {t : Trie K} {address : List K} :
    t.BareAt address ↔ t.flag? address = some false ∧
      ∀ key, t.flag? (address ++ [key]) = none := by
  constructor
  · intro h
    obtain ⟨node, hat, hdead⟩ := h
    obtain ⟨hterminal, hleaf⟩ := isDeadEnd_iff.mp hdead
    refine ⟨?_, (isLeaf_iff_flag? hat).mp hleaf⟩
    rw [flag?_of_at? hat, hterminal]
  · intro h
    obtain ⟨hflag, hnone⟩ := h
    obtain ⟨node, hat, hterminal⟩ := exists_at?_of_flag? hflag
    exact ⟨node, hat, isDeadEnd_iff.mpr ⟨hterminal, (isLeaf_iff_flag? hat).mpr hnone⟩⟩

theorem deadEndAt_iff_flag? {t : Trie K} {address : List K} :
    t.DeadEndAt address ↔ address ≠ [] ∧ t.flag? address = some false ∧
      ∀ key, t.flag? (address ++ [key]) = none := by
  rw [deadEndAt_iff_bareAt, bareAt_iff_flag?]

/-! ## Along a sequence and aside of it -/

omit [DecidableEq K] in
/-- A proper prefix goes on inside the sequence. -/
theorem exists_prefix_snoc {front sequence : List K} (h : front <+: sequence)
    (hne : front ≠ sequence) : ∃ key, front ++ [key] <+: sequence := by
  obtain ⟨back, rfl⟩ := h
  cases back with
  | nil => exact absurd (List.append_nil front).symm hne
  | cons key keys => exact ⟨key, keys, by simp⟩

omit [DecidableEq K] in
/-- What leaves the sequence does not come back to it. -/
theorem not_prefix_snoc {front sequence : List K} (h : ¬ front <+: sequence) (key : K) :
    ¬ front ++ [key] <+: sequence := by
  intro hlong
  exact h ((List.prefix_append front [key]).trans hlong)

/-- No bare node is on the way to what a trie holds. -/
theorem Holds.not_bareAt {t : Trie K} {sequence address : List K} (h : t.Holds sequence)
    (hfront : address <+: sequence) : ¬ t.BareAt address := by
  rw [bareAt_iff_flag?]
  intro hbare
  obtain ⟨hflag, hnone⟩ := hbare
  by_cases hend : address = sequence
  · rw [hend, h] at hflag
    cases hflag
  · -- further up the next node of the way is below the address
    obtain ⟨key, hkey⟩ := exists_prefix_snoc hfront hend
    exact h.flag?_ne_none hkey (hnone key)

theorem Holds.not_deadEndAt {t : Trie K} {sequence address : List K} (h : t.Holds sequence)
    (hfront : address <+: sequence) : ¬ t.DeadEndAt address :=
  fun hdead => h.not_bareAt hfront hdead.2

/-- Two tries that agree aside of a sequence have the same bare nodes there. -/
theorem bareAt_congr_aside {t u : Trie K} {sequence address : List K}
    (hsame : ∀ other, ¬ other <+: sequence → u.flag? other = t.flag? other)
    (haside : ¬ address <+: sequence) : u.BareAt address ↔ t.BareAt address := by
  have hbelow : ∀ key, u.flag? (address ++ [key]) = t.flag? (address ++ [key]) :=
    fun key => hsame _ (not_prefix_snoc haside key)
  rw [bareAt_iff_flag?, bareAt_iff_flag?, hsame address haside]
  simp only [hbelow]

/-! ## Changes -/

/-- Aside of the way an insertion leaves every node as it was. -/
theorem flag?_insert_aside {t : Trie K} {sequence address : List K}
    (haside : ¬ address <+: sequence) : (t.insert sequence).flag? address = t.flag? address := by
  rw [flag?_insert, if_neg, if_neg haside]
  intro heq
  exact haside (heq ▸ List.prefix_refl _)

/-- Aside of the way a withdrawal leaves every node as it was. -/
theorem flag?_of_remove?_aside {t u : Trie K} {removed : Removal}
    {sequence address : List K} (h : t.remove? sequence = some (removed, u))
    (haside : ¬ address <+: sequence) : u.flag? address = t.flag? address := by
  rw [flag?_of_remove? h, flagAfter?, if_neg fun hcut => haside hcut.1, if_neg]
  intro heq
  exact haside (heq ▸ List.prefix_refl _)

theorem not_deadEndAt_empty (address : List K) : ¬ (empty : Trie K).DeadEndAt address := by
  rw [deadEndAt_iff_flag?]
  intro hdead
  obtain ⟨hne, hflag, -⟩ := hdead
  rw [flag?_empty, if_neg hne] at hflag
  cases hflag

/-- An insertion revives the bare nodes on the way and makes none. -/
theorem bareAt_insert_iff {t : Trie K} {sequence address : List K} :
    (t.insert sequence).BareAt address ↔ t.BareAt address ∧ ¬ address <+: sequence := by
  by_cases hfront : address <+: sequence
  · have hheld : (t.insert sequence).Holds sequence := holds_insert.mpr (Or.inl rfl)
    simp [hheld.not_bareAt hfront, hfront]
  · rw [bareAt_congr_aside (fun _ => flag?_insert_aside) hfront]
    simp [hfront]

theorem deadEndAt_insert_iff {t : Trie K} {sequence address : List K} :
    (t.insert sequence).DeadEndAt address ↔ t.DeadEndAt address ∧ ¬ address <+: sequence := by
  rw [deadEndAt_iff_bareAt, bareAt_insert_iff, deadEndAt_iff_bareAt, and_assoc]

/-- What is left on the way after a withdrawal goes on somewhere, unless it is terminal or
    the root. -/
theorem not_deadEndAt_of_remove? {t u : Trie K} {removed : Removal} {sequence address : List K}
    (h : t.remove? sequence = some (removed, u)) (hfront : address <+: sequence) :
    ¬ u.DeadEndAt address := by
  intro hdead
  obtain ⟨hne, hflag, hnone⟩ := deadEndAt_iff_flag?.mp hdead
  have hshort : address.length ≤ sequence.length - removed.pruned := by
    apply Nat.not_lt.mp
    intro hlt
    rw [flag?_of_remove?_cut h ⟨hfront, hlt⟩] at hflag
    cases hflag
  rcases Nat.eq_or_lt_of_le hshort with hlowest | hlt
  · -- the pruning stopped at the lowest node that is left, so it is in use
    have hpos := List.length_pos_iff.mpr hne
    obtain ⟨node, hat, hused⟩ := not_isDeadEnd_of_remove? h (by omega)
    rw [← hlowest, ← List.prefix_iff_eq_take.mp hfront] at hat
    obtain ⟨-, other, hother, hunused⟩ := hdead
    obtain rfl : node = other := Option.some.inj (hat.symm.trans hother)
    rw [hused] at hunused
    cases hunused
  · -- further up the next node of the way is left
    have hproper : address ≠ sequence := by
      intro heq
      rw [heq] at hlt
      omega
    obtain ⟨key, hkey⟩ := exists_prefix_snoc hfront hproper
    have hleft : ¬ Cut sequence removed.pruned (address ++ [key]) := by
      intro hcut
      have hlong := hcut.2
      rw [List.length_append, List.length_singleton] at hlong
      omega
    have hbefore := (holds_of_remove? h).flag?_ne_none hkey
    exact (flag?_of_remove?_ne_none_iff h).mpr ⟨hbefore, hleft⟩ (hnone key)

/-- A withdrawal leaves every dead end and leaves no other. -/
theorem deadEndAt_of_remove?_iff {t u : Trie K} {removed : Removal} {sequence address : List K}
    (h : t.remove? sequence = some (removed, u)) : u.DeadEndAt address ↔ t.DeadEndAt address := by
  by_cases hfront : address <+: sequence
  · exact iff_of_false (not_deadEndAt_of_remove? h hfront)
      ((holds_of_remove? h).not_deadEndAt hfront)
  · exact and_congr_right fun _ => bareAt_congr_aside (fun _ => flag?_of_remove?_aside h) hfront

/-! ## Leaves -/

/-- Somewhere every trie ends. -/
theorem exists_leaf (t : Trie K) : ∃ back leaf, t.at? back = some leaf ∧ leaf.isLeaf = true := by
  by_cases hleaf : t.isLeaf = true
  · exact ⟨[], t, rfl, hleaf⟩
  · rw [isLeaf_iff_child?] at hleaf
    obtain ⟨key, hkey⟩ := Classical.not_forall.mp hleaf
    obtain ⟨child, hchild⟩ := Option.ne_none_iff_exists'.mp hkey
    -- the recursion goes down into this child, which has fewer nodes
    have hlt := nodeCount_child?_lt hchild
    obtain ⟨back, leaf, hat, hend⟩ := child.exists_leaf
    refine ⟨key :: back, leaf, ?_, hend⟩
    rw [at?_cons, hchild]
    exact hat
termination_by t.nodeCount

/-- The nodes of a trie are the root and the prefixes of what it holds and of its dead
    ends. -/
theorem flag?_ne_none_iff {t : Trie K} {address : List K} :
    t.flag? address ≠ none ↔
      address = [] ∨ ∃ sequence, address <+: sequence ∧ (t.Holds sequence ∨ t.DeadEndAt sequence) := by
  constructor
  · intro hflag
    by_cases hroot : address = []
    · exact Or.inl hroot
    · right
      obtain ⟨b, hb⟩ := Option.ne_none_iff_exists'.mp hflag
      obtain ⟨node, hat, -⟩ := exists_at?_of_flag? hb
      obtain ⟨back, leaf, hleaf, hend⟩ := node.exists_leaf
      have hlong : t.at? (address ++ back) = some leaf := by rw [at?_append, hat, Option.bind_some, hleaf]
      refine ⟨address ++ back, List.prefix_append _ _, ?_⟩
      cases hterminal : leaf.terminal with
      | true => exact Or.inl (by rw [Holds, flag?_of_at? hlong, hterminal])
      | false => exact Or.inr ⟨by simp [hroot], leaf, hlong, isDeadEnd_iff.mpr ⟨hterminal, hend⟩⟩
  · intro hcase
    rcases hcase with rfl | ⟨sequence, hfront, hheld | hdead⟩
    · simp
    · exact hheld.flag?_ne_none hfront
    · apply flag?_ne_none_of_prefix hfront
      rw [(deadEndAt_iff_flag?.mp hdead).2.1]
      exact Option.some_ne_none false

/-- Two tries are the same if and only if they hold the same sequences and have the same
    dead ends. -/
theorem same_iff_holds_and_deadEnds {t u : Trie K} :
    t.Same u ↔ (∀ sequence, t.Holds sequence ↔ u.Holds sequence) ∧
      ∀ address, t.DeadEndAt address ↔ u.DeadEndAt address := by
  constructor
  · intro h
    refine ⟨fun sequence => ?_, fun address => ?_⟩
    · rw [Holds, Holds, h sequence]
    · rw [deadEndAt_iff_flag?, deadEndAt_iff_flag?, h address]
      simp only [h (address ++ [_])]
  · intro h address
    obtain ⟨hholds, hdead⟩ := h
    -- both have a node at the same addresses, and mark the same nodes
    have hpresent : t.flag? address ≠ none ↔ u.flag? address ≠ none := by
      rw [flag?_ne_none_iff, flag?_ne_none_iff]
      simp only [hholds, hdead]
    have hheld : t.flag? address = some true ↔ u.flag? address = some true := hholds address
    cases ht : t.flag? address with
    | none => simpa [ht, eq_comm] using hpresent
    | some b =>
      cases hu : u.flag? address with
      | none => simp [ht, hu] at hpresent
      | some c => cases b <;> cases c <;> simp_all

end NearestMount.Trie
