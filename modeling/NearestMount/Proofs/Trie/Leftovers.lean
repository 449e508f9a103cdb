import Mathlib.Data.List.Induction
import NearestMount.Proofs.Trie.History
import NearestMount.Proofs.Trie.Subtrees

/-! # Where dead ends come from

    A withdrawal prunes the way to its sequence and looks at nothing else, so a dead end
    somewhere else outlasts it. Three changes can leave one: a withdrawal at an inner node,
    which takes that node for the root and does not detach it; the detaching of the only
    child of an inner node; and the grafting of a subtree that has one or is one. Which dead
    ends a trie has can therefore be told from its history alone (`LeftBy`):

    - `bareAt_edit_iff` says which nodes are bare after a change at the root,
      `deadEndAt_editAt?_iff` which dead ends there are after a change at any node.
    - `deadEndAt_iff_leftBy` follows the dead ends through a whole history.
    - `Step.Tidy` are the steps that leave none.

    `Reachable.dead_ends_accounted_for` puts this together with the withdrawal at the root,
    which adds nothing to the account and takes nothing from it.
-/

namespace NearestMount.Trie

variable {K : Type}

/-- A change, and the address of the node at which it is made. -/
structure Step (K : Type) where
  address : List K
  change : Edit K

variable [DecidableEq K]

/-- The trie after some steps, in order; nothing if one of them finds no node at its
    address. -/
def editAllAt? (t : Trie K) : List (Step K) → Option (Trie K)
  | [] => some t
  | step :: steps => (t.editAt? step.address step.change).bind (·.editAllAt? steps)

/-- What a change at the root leaves bare that was not bare before, or not there. The root
    itself is left so by the withdrawal of all that was in the trie, and by the detaching of
    all that was below it; whatever is bare in a subtree stays so when it is grafted. -/
def Leaves (t : Trie K) : Edit K → List K → Prop
  | .insert _, _ => False
  | .remove sequence, address =>
    address = [] ∧ t.Pruned ∧ ∀ other, t.Holds other ↔ other = sequence
  | .graft key sub, address => ∃ back, address = key :: back ∧ sub.BareAt back
  | .detach key, address =>
    address = [] ∧ t.terminal = false ∧ ∀ other, t.child? other ≠ none ↔ other = key

/-- Where a change at the root lets nothing stay bare that was: the node is marked, gets a
    child or is taken away. -/
def Edit.Clears : Edit K → List K → Prop
  | .insert sequence, address => address <+: sequence
  | .remove _, _ => False
  | .graft key _, address => address = [] ∨ [key] <+: address
  | .detach key, address => [key] <+: address

/-- The step leaves a dead end at the address: its change leaves a node bare there that is
    not the root of the whole trie. -/
def LeavesAt (t : Trie K) (step : Step K) (address : List K) : Prop :=
  address ≠ [] ∧ ∃ node back, t.at? step.address = some node ∧
    address = step.address ++ back ∧ node.Leaves step.change back

/-- No dead end that was at the address outlasts the step. -/
def Step.Clears (step : Step K) (address : List K) : Prop :=
  ∃ back, address = step.address ++ back ∧ step.change.Clears back

/-- One of the steps left a dead end at the address, and no later one cleared it. -/
def LeftBy (steps : List (Step K)) (address : List K) : Prop :=
  ∃ before step after t, steps = before ++ step :: after ∧
    empty.editAllAt? before = some t ∧ t.LeavesAt step address ∧
    ∀ later ∈ after, ¬ later.Clears address

/-- True of a step that leaves no dead end in any trie: an insertion anywhere, a withdrawal
    or a detaching at the root, and the grafting of a subtree that has no dead end and is
    none. -/
def Step.Tidy (step : Step K) : Prop :=
  match step.change with
  | .insert _ => True
  | .remove _ | .detach _ => step.address = []
  | .graft _ sub => sub.Pruned ∧ sub.isDeadEnd = false

/-! ## Bare nodes, seen from above -/

theorem bareAt_nil_iff {t : Trie K} : t.BareAt [] ↔ t.isDeadEnd = true := by
  simp [BareAt]

theorem bareAt_append {t node : Trie K} {address : List K} (h : t.at? address = some node)
    (back : List K) : t.BareAt (address ++ back) ↔ node.BareAt back := by
  rw [BareAt, at?_append, h, Option.bind_some, BareAt]

theorem bareAt_cons_iff {t : Trie K} {key : K} {keys : List K} :
    t.BareAt (key :: keys) ↔ ∃ child, t.child? key = some child ∧ child.BareAt keys := by
  cases hchild : t.child? key with
  | none => simp [BareAt, at?_cons, hchild]
  | some child => simp [BareAt, at?_cons, hchild]

/-- A node with a child is not bare. -/
theorem not_bareAt_nil_of_child? {t child : Trie K} {key : K} (h : t.child? key = some child) :
    ¬ t.BareAt [] := by
  rw [bareAt_nil_iff, isDeadEnd_iff, isLeaf_iff_child?]
  intro hboth
  rw [hboth.2 key] at h
  cases h

theorem Pruned.not_bareAt {t : Trie K} (h : t.Pruned) (hroot : t.isDeadEnd = false)
    (address : List K) : ¬ t.BareAt address := by
  intro hbare
  by_cases hne : address = []
  · subst hne
    rw [bareAt_nil_iff, hroot] at hbare
    cases hbare
  · exact pruned_iff_deadEndAt.mp h address ⟨hne, hbare⟩

/-! ## A change at the root -/

theorem bareAt_setChild_iff {t sub : Trie K} {key : K} {address : List K} :
    (t.setChild key sub).BareAt address ↔
      (∃ back, address = key :: back ∧ sub.BareAt back) ∨
        (t.BareAt address ∧ ¬ (address = [] ∨ [key] <+: address)) := by
  cases address with
  | nil => simp [not_bareAt_nil_of_child? (child?_setChild_self t sub key)]
  | cons first rest =>
    rw [bareAt_cons_iff, bareAt_cons_iff, child?_setChild]
    by_cases hkey : key = first
    · subst hkey
      simp
    · simp [hkey, Ne.symm hkey]

theorem bareAt_eraseChild_iff {t : Trie K} {key : K} {address : List K} :
    (t.eraseChild key).BareAt address ↔
      (address = [] ∧ t.terminal = false ∧ ∀ other, t.child? other ≠ none ↔ other = key) ∨
        (t.BareAt address ∧ ¬ [key] <+: address) := by
  cases address with
  | nil =>
    -- the root is a leaf afterwards if it had no child aside of the one detached
    have hleaf : (t.eraseChild key).isLeaf = true ↔ ∀ other, other ≠ key → t.child? other = none := by
      rw [isLeaf_iff_child?]
      refine forall_congr' fun other => ?_
      rw [child?_eraseChild]
      by_cases hkey : key = other
      · simp [hkey]
      · simp [hkey, Ne.symm hkey]
    rw [bareAt_nil_iff, bareAt_nil_iff, isDeadEnd_iff, isDeadEnd_iff, terminal_eraseChild, hleaf,
      isLeaf_iff_child?]
    -- with no child at the key nothing is detached; with one the root was not bare before
    cases hchild : t.child? key with
    | none => grind
    | some child => grind
  | cons first rest =>
    rw [bareAt_cons_iff, bareAt_cons_iff, child?_eraseChild]
    by_cases hkey : key = first
    · simp [hkey]
    · simp [hkey]

/-- A withdrawal empties a trie that holds the sequence and nothing else and has no dead
    end, and no other. -/
theorem isDeadEnd_of_remove?_iff {t u : Trie K} {removed : Removal} {sequence : List K}
    (h : t.remove? sequence = some (removed, u)) :
    u.isDeadEnd = true ↔ t.Pruned ∧ ∀ other, t.Holds other ↔ other = sequence := by
  have hheld : t.Holds sequence := holds_of_remove? h
  rw [isDeadEnd_iff_pruned, pruned_of_remove?_iff h]
  refine and_congr_right fun _ => forall_congr' fun other => ?_
  rw [holds_of_remove?_iff h]
  constructor
  · intro hnot
    refine ⟨fun hother => ?_, fun heq => heq ▸ hheld⟩
    exact Classical.byContradiction fun hne => hnot ⟨hne, hother⟩
  · intro hiff hboth
    exact hboth.1 (hiff.mp hboth.2)

theorem bareAt_edit_remove_iff {t : Trie K} {sequence address : List K} :
    (t.edit (.remove sequence)).BareAt address ↔
      (address = [] ∧ t.Pruned ∧ ∀ other, t.Holds other ↔ other = sequence) ∨
        t.BareAt address := by
  rcases t.edit_remove_cases sequence with ⟨hnone, hedit⟩ | ⟨removed, u, hremove, hedit⟩
  · -- a sequence that cannot be withdrawn is not the only one held
    have hheld : ¬ t.Holds sequence := remove?_eq_none_iff.mp hnone
    rw [hedit]
    refine ⟨Or.inr, fun hcase => hcase.resolve_left ?_⟩
    intro honly
    exact hheld ((honly.2.2 sequence).mpr rfl)
  · rw [hedit]
    by_cases hroot : address = []
    · -- before the withdrawal the root was on the way to something held
      subst hroot
      have hbefore : ¬ t.BareAt [] := (holds_of_remove? hremove).not_bareAt List.nil_prefix
      rw [bareAt_nil_iff, isDeadEnd_of_remove?_iff hremove]
      simp [hbefore]
    · have hdead : u.DeadEndAt address ↔ t.DeadEndAt address := deadEndAt_of_remove?_iff hremove
      simpa [deadEndAt_iff_bareAt, hroot] using hdead

/-- Which nodes are bare after a change at the root. -/
theorem bareAt_edit_iff {t : Trie K} {e : Edit K} {address : List K} :
    (t.edit e).BareAt address ↔ t.Leaves e address ∨ (t.BareAt address ∧ ¬ e.Clears address) := by
  cases e with
  | insert sequence =>
    rw [Leaves, false_or]
    exact bareAt_insert_iff
  | remove sequence =>
    rw [Leaves, Edit.Clears, not_false_eq_true, and_true]
    exact bareAt_edit_remove_iff
  | graft key sub => exact bareAt_setChild_iff
  | detach key => exact bareAt_eraseChild_iff

/-! ## A change at any node -/

/-- A change at a node makes no difference to whether a node elsewhere is bare. -/
theorem bareAt_congr_elsewhere {t u node changed : Trie K} {place address : List K}
    (hat : t.at? place = some node) (hchanged : u.at? place = some changed)
    (haside : ∀ other, ¬ place <+: other → u.flag? other = t.flag? other)
    (helse : ¬ place <+: address) : u.BareAt address ↔ t.BareAt address := by
  rw [bareAt_iff_flag?, bareAt_iff_flag?, haside address helse]
  refine and_congr_right fun _ => forall_congr' fun key => ?_
  by_cases hbelow : place <+: address ++ [key]
  · -- the node that was changed is this child, and it is there before and after
    obtain rfl : place = address ++ [key] := (List.prefix_concat_iff.mp hbelow).resolve_right helse
    rw [flag?_of_at? hat, flag?_of_at? hchanged]
    simp
  · rw [haside _ hbelow]

theorem leavesAt_append_iff {t node : Trie K} {step : Step K} {back : List K}
    (h : t.at? step.address = some node) :
    t.LeavesAt step (step.address ++ back) ↔
      step.address ++ back ≠ [] ∧ node.Leaves step.change back := by
  constructor
  · intro hleaves
    obtain ⟨hne, other, rest, hother, heq, hlocal⟩ := hleaves
    obtain rfl : node = other := Option.some.inj (h.symm.trans hother)
    obtain rfl : back = rest := List.append_cancel_left heq
    exact ⟨hne, hlocal⟩
  · intro hboth
    exact ⟨hboth.1, node, back, h, rfl, hboth.2⟩

omit [DecidableEq K] in
theorem Step.clears_append_iff {step : Step K} {back : List K} :
    step.Clears (step.address ++ back) ↔ step.change.Clears back := by
  constructor
  · intro hclears
    obtain ⟨rest, heq, hlocal⟩ := hclears
    rw [List.append_cancel_left heq]
    exact hlocal
  · exact fun hlocal => ⟨back, rfl, hlocal⟩

/-- Which dead ends there are after a change at any node: those that it leaves, and those
    from before that it does not clear. -/
theorem deadEndAt_editAt?_iff {t u : Trie K} {step : Step K}
    (h : t.editAt? step.address step.change = some u) {address : List K} :
    u.DeadEndAt address ↔
      t.LeavesAt step address ∨ (t.DeadEndAt address ∧ ¬ step.Clears address) := by
  obtain ⟨node, hat⟩ := exists_at?_of_modifyAt? h
  obtain ⟨v, hedit, hchanged, haside⟩ := exists_modifyAt? (·.edit step.change) hat
  obtain rfl : u = v := Option.some.inj (h.symm.trans hedit)
  by_cases hfront : step.address <+: address
  · -- at the node and below it the change is one at the root of its subtree
    obtain ⟨back, rfl⟩ := hfront
    rw [deadEndAt_iff_bareAt, bareAt_append hchanged, bareAt_edit_iff, leavesAt_append_iff hat,
      Step.clears_append_iff, deadEndAt_iff_bareAt, bareAt_append hat, and_or_left, and_assoc]
  · have hleaves : ¬ t.LeavesAt step address := by
      intro hleaves
      obtain ⟨-, _, back, -, rfl, -⟩ := hleaves
      exact hfront (List.prefix_append step.address back)
    have hclears : ¬ step.Clears address := by
      intro hclears
      obtain ⟨back, rfl, -⟩ := hclears
      exact hfront (List.prefix_append step.address back)
    rw [deadEndAt_iff_bareAt, bareAt_congr_elsewhere hat hchanged haside hfront, deadEndAt_iff_bareAt]
    simp [hleaves, hclears]

/-- A withdrawal at the root neither leaves a dead end nor clears one. -/
theorem deadEndAt_edit_remove_iff {t : Trie K} {sequence address : List K} :
    (t.edit (.remove sequence)).DeadEndAt address ↔ t.DeadEndAt address := by
  rw [deadEndAt_iff_bareAt, bareAt_edit_remove_iff, deadEndAt_iff_bareAt]
  refine and_congr_right fun hne => ?_
  simp [hne]

/-! ## A whole history -/

theorem editAllAt?_cons (t : Trie K) (step : Step K) (steps : List (Step K)) :
    t.editAllAt? (step :: steps) =
      (t.editAt? step.address step.change).bind (·.editAllAt? steps) := rfl

theorem editAllAt?_append (t : Trie K) (front back : List (Step K)) :
    t.editAllAt? (front ++ back) = (t.editAllAt? front).bind (·.editAllAt? back) := by
  induction front generalizing t with
  | nil => rfl
  | cons step steps ih =>
    rw [List.cons_append, editAllAt?_cons, editAllAt?_cons, Option.bind_assoc]
    congr 1
    exact funext fun u => ih u

theorem editAllAt?_snoc_eq_some_iff {t u : Trie K} {steps : List (Step K)} {step : Step K} :
    t.editAllAt? (steps ++ [step]) = some u ↔
      ∃ v, t.editAllAt? steps = some v ∧ v.editAt? step.address step.change = some u := by
  rw [editAllAt?_append, Option.bind_eq_some_iff]
  refine exists_congr fun v => and_congr_right fun _ => ?_
  rw [editAllAt?_cons]
  show (v.editAt? step.address step.change).bind some = some u ↔ _
  rw [Option.bind_fun_some]

theorem reachable_iff_editAllAt? {t : Trie K} :
    t.Reachable ↔ ∃ steps, empty.editAllAt? steps = some t := by
  constructor
  · intro h
    induction h with
    | empty => exact ⟨[], rfl⟩
    | edit address e _ hedit ih =>
      obtain ⟨steps, hsteps⟩ := ih
      exact ⟨steps ++ [⟨address, e⟩], editAllAt?_snoc_eq_some_iff.mpr ⟨_, hsteps, hedit⟩⟩
  · intro h
    obtain ⟨steps, hsteps⟩ := h
    induction steps using List.reverseRecOn generalizing t with
    | nil =>
      obtain rfl : empty = t := Option.some.inj hsteps
      exact Reachable.empty
    | append_singleton steps step ih =>
      obtain ⟨v, hbefore, hedit⟩ := editAllAt?_snoc_eq_some_iff.mp hsteps
      exact Reachable.edit step.address step.change (ih hbefore) hedit

/-- What is left after one more step: what it leaves, and what was left before unless it
    clears that. -/
theorem leftBy_snoc_iff {steps : List (Step K)} {step : Step K} {t : Trie K}
    (h : empty.editAllAt? steps = some t) {address : List K} :
    LeftBy (steps ++ [step]) address ↔
      t.LeavesAt step address ∨ (LeftBy steps address ∧ ¬ step.Clears address) := by
  constructor
  · intro hleft
    obtain ⟨before, other, after, u, hsteps, hrun, hleaves, hkept⟩ := hleft
    rcases snoc_eq_append_cons hsteps with ⟨-, rfl, rfl⟩ | ⟨rest, rfl, rfl⟩
    · obtain rfl : t = u := Option.some.inj (h.symm.trans hrun)
      exact Or.inl hleaves
    · refine Or.inr ⟨⟨before, other, rest, u, rfl, hrun, hleaves, ?_⟩, ?_⟩
      · intro later hlater
        exact hkept later (List.mem_append_left _ hlater)
      · exact hkept step (by simp)
  · intro hcase
    rcases hcase with hleaves | ⟨⟨before, other, after, u, rfl, hrun, hleaves, hkept⟩, hclears⟩
    · exact ⟨steps, step, [], t, rfl, h, hleaves, by simp⟩
    · refine ⟨before, other, after ++ [step], u, by simp, hrun, hleaves, ?_⟩
      intro later hlater
      rcases List.mem_append.mp hlater with hin | hin
      · exact hkept later hin
      · rw [List.mem_singleton.mp hin]
        exact hclears

/-- The dead ends of a trie are those that its history left. -/
theorem deadEndAt_iff_leftBy {steps : List (Step K)} {t : Trie K}
    (h : empty.editAllAt? steps = some t) {address : List K} :
    t.DeadEndAt address ↔ LeftBy steps address := by
  -- from the last step backwards, for a step is judged by the trie that it finds
  induction steps using List.reverseRecOn generalizing t with
  | nil =>
    obtain rfl : empty = t := Option.some.inj h
    refine iff_of_false (not_deadEndAt_empty address) ?_
    intro hleft
    obtain ⟨before, step, after, -, hsteps, -⟩ := hleft
    simp at hsteps
  | append_singleton steps step ih =>
    obtain ⟨u, hbefore, hedit⟩ := editAllAt?_snoc_eq_some_iff.mp h
    rw [deadEndAt_editAt?_iff hedit, leftBy_snoc_iff hbefore, ih hbefore]

/-! ## Steps that leave nothing -/

theorem Step.Tidy.not_leavesAt {step : Step K} (h : step.Tidy) (t : Trie K) (address : List K) :
    ¬ t.LeavesAt step address := by
  intro hleaves
  obtain ⟨hne, node, back, -, rfl, hlocal⟩ := hleaves
  obtain ⟨place, change⟩ := step
  cases change with
  | insert sequence => exact hlocal
  | remove sequence =>
    obtain rfl : place = [] := h
    exact hne hlocal.1
  | graft key sub =>
    obtain ⟨rest, -, hbare⟩ := hlocal
    exact h.1.not_bareAt h.2 rest hbare
  | detach key =>
    obtain rfl : place = [] := h
    exact hne hlocal.1

theorem not_leftBy_of_tidy {steps : List (Step K)} (h : ∀ step ∈ steps, step.Tidy)
    (address : List K) : ¬ LeftBy steps address := by
  intro hleft
  obtain ⟨before, step, after, t, rfl, -, hleaves, -⟩ := hleft
  exact (h step (by simp)).not_leavesAt t address hleaves

/-! ## After a withdrawal at the root -/

/-- A leaf that is not terminal outlasts a withdrawal at the root that takes place, for it
    is not on the way to the sequence. Here a withdrawal at the node above has left it. -/
theorem leaf_outlasts_withdrawal :
    let steps : List (Step Nat) :=
      [⟨[], .insert [1, 2]⟩, ⟨[1], .remove [2]⟩, ⟨[], .insert [3]⟩]
    ∃ t u, empty.editAllAt? steps = some t ∧ t.Reachable ∧
      t.remove? [3] = some (⟨1, 1⟩, u) ∧ t.edit (.remove [3]) = u ∧ ¬ u.Pruned := by
  intro steps
  let t : Trie Nat := (empty.editAllAt? steps).getD empty
  let u : Trie Nat := t.edit (.remove [3])
  have hrun : empty.editAllAt? steps = some t := by decide +kernel
  have hremove : t.remove? [3] = some (⟨1, 1⟩, u) := by decide +kernel
  have hleaf : (u.at? [1]).map (fun node => (node.isLeaf, node.terminal)) = some (true, false) := by
    decide +kernel
  refine ⟨t, u, hrun, reachable_iff_editAllAt?.mpr ⟨steps, hrun⟩, hremove, rfl, ?_⟩
  intro hpruned
  obtain ⟨node, hat, hnode⟩ := Option.map_eq_some_iff.mp hleaf
  obtain ⟨hisLeaf, hterminal⟩ := Prod.mk.inj hnode
  rw [hpruned [1] node (by decide) hat hisLeaf] at hterminal
  cases hterminal

/-- Every trie that can be made has a history, and whatever history it has, its dead ends are
    those that the history left. A withdrawal at the root, whether it takes place or not,
    changes nothing about them: every leaf but the root is terminal afterwards if and only if
    the history left no dead end. So it is after every history of insertions anywhere,
    withdrawals and detachings at the root, and graftings of subtrees in which it is so and
    which are no dead ends themselves. -/
theorem Reachable.dead_ends_accounted_for {t : Trie K} (h : t.Reachable) :
    (∃ steps, Trie.empty.editAllAt? steps = some t) ∧
    ∀ steps, Trie.empty.editAllAt? steps = some t →
      (∀ address, t.DeadEndAt address ↔ LeftBy steps address) ∧
      (∀ sequence address, (t.edit (.remove sequence)).DeadEndAt address ↔ LeftBy steps address) ∧
      (∀ sequence, (t.edit (.remove sequence)).Pruned ↔ ∀ address, ¬ LeftBy steps address) ∧
      ((∀ step ∈ steps, step.Tidy) → ∀ sequence, (t.edit (.remove sequence)).Pruned) := by
  refine ⟨reachable_iff_editAllAt?.mp h, fun steps hsteps => ?_⟩
  have hbefore : ∀ address, t.DeadEndAt address ↔ LeftBy steps address :=
    fun address => deadEndAt_iff_leftBy hsteps
  have hafter : ∀ sequence address,
      (t.edit (.remove sequence)).DeadEndAt address ↔ LeftBy steps address := by
    intro sequence address
    rw [deadEndAt_edit_remove_iff, hbefore]
  have hpruned : ∀ sequence,
      (t.edit (.remove sequence)).Pruned ↔ ∀ address, ¬ LeftBy steps address := by
    intro sequence
    rw [pruned_iff_deadEndAt]
    exact forall_congr' fun address => not_congr (hafter sequence address)
  refine ⟨hbefore, hafter, hpruned, ?_⟩
  intro htidy sequence
  exact (hpruned sequence).mpr (not_leftBy_of_tidy htidy)

/-- A dead end that an insertion below it has cleared, and a detaching has left again, is
    there after every withdrawal at the root. -/
theorem dead_end_left_again :
    let steps : List (Step Nat) :=
      [⟨[], .insert [1, 2]⟩, ⟨[1], .remove [2]⟩, ⟨[1], .insert [5]⟩, ⟨[1], .detach 5⟩]
    ∃ t, t.Reachable ∧ empty.editAllAt? steps = some t ∧ LeftBy steps [1] ∧
      (∀ sequence, (t.edit (.remove sequence)).DeadEndAt [1]) ∧
      ∀ sequence, ¬ (t.edit (.remove sequence)).Pruned := by
  intro steps
  let t : Trie Nat := (empty.editAllAt? steps).getD empty
  have hrun : empty.editAllAt? steps = some t := by decide +kernel
  have hreachable : t.Reachable := reachable_iff_editAllAt?.mpr ⟨steps, hrun⟩
  obtain ⟨-, haccount⟩ := Reachable.dead_ends_accounted_for hreachable
  obtain ⟨hbefore, hafter, hpruned, -⟩ := haccount steps hrun
  have hbare : (t.at? [1]).map (·.isDeadEnd) = some true := by decide +kernel
  have hleft : LeftBy steps [1] :=
    (hbefore [1]).mp ⟨by decide, Option.map_eq_some_iff.mp hbare⟩
  refine ⟨t, hreachable, hrun, hleft, fun sequence => (hafter sequence [1]).mpr hleft, ?_⟩
  intro sequence hnone
  exact (hpruned sequence).mp hnone [1] hleft

end NearestMount.Trie
