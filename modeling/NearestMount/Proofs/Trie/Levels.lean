import NearestMount.Trie.Walk
import NearestMount.Proofs.Trie.Lookup

/-! # Walks level by level

    Siblings stand in no particular order, so a walk may take the children of a node in
    any order, at every node in another one: `SiblingOrder`. Two facts about the queue
    carry over from one turn of a walk to the next, and everything else follows from
    them:

    - `Layered` says that its places are in the order of their depth and lie on two
      levels at most, so a walk goes level by level.
    - `Apart` says that none of its places is below another, so no place is visited
      twice.

    `mem_walk_iff` says which places are visited, and `descendants_exact` what this
    means for the collection of nodes, whether it stops early or not.
-/

namespace NearestMount

/-! ## Children and places below -/

namespace Forest

variable {K : Type}

theorem map_fst_tries {f : Forest K} (h : f.Distinct) : (f.tries h).map (·.1) = f.keys := by
  induction f with
  | nil => rfl
  | cons k b below rest _ ih => simp [tries, keys, ih h.2.2]

theorem Distinct.nodup_keys {f : Forest K} (h : f.Distinct) : f.keys.Nodup := by
  induction f with
  | nil => exact List.nodup_nil
  | cons k b below rest _ ih => exact List.nodup_cons.mpr ⟨h.1, ih h.2.2⟩

variable [DecidableEq K]

theorem mem_tries_iff {f : Forest K} (h : f.Distinct) {key : K} {child : Trie K} :
    (key, child) ∈ f.tries h ↔ f.child? h key = some child := by
  induction f with
  | nil => simp [tries, child?]
  | cons k b below rest _ ih =>
    rw [tries, child?, List.mem_cons, ih h.2.2]
    by_cases hkey : k = key
    · subst hkey
      -- no later sibling has the key of this one
      have hnone : rest.child? h.2.2 k = none := (child?_eq_none_iff h.2.2).mpr h.1
      simp [hnone, eq_comm]
    · simp [hkey, Ne.symm hkey]

end Forest

namespace Place

variable {K : Type}

/-- How far the place is from the root. -/
def depth (p : Place K) : Nat := p.address.length

/-- Neither place is at or below the other. -/
def Apart (p q : Place K) : Prop := ¬ p.address <+: q.address ∧ ¬ q.address <+: p.address

theorem weight_perm {queue queue' : List (Place K)} (h : queue.Perm queue') :
    weight queue = weight queue' := by
  induction h with
  | nil => rfl
  | cons p _ ih => rw [weight_cons, weight_cons, ih]
  | swap p q rest =>
    simp only [weight_cons]
    omega
  | trans _ _ ih ih' => exact ih.trans ih'

theorem depth_of_mem_below {p q : Place K} (h : q ∈ p.below) : q.depth = p.depth + 1 := by
  obtain ⟨entry, -, rfl⟩ := List.mem_map.mp h
  simp [depth]

/-- The places one step further down are apart from each other. -/
theorem pairwise_below (p : Place K) : p.below.Pairwise Apart := by
  have hkeys : p.node.entries.Pairwise fun e e' => e.1 ≠ e'.1 := by
    rw [← List.pairwise_map, Trie.entries, Forest.map_fst_tries]
    exact p.node.distinct.nodup_keys
  refine List.pairwise_map.mpr (hkeys.imp fun hne => ?_)
  simp [Apart, List.prefix_append_right_inj, hne, Ne.symm hne]

variable [DecidableEq K]

theorem mem_below_iff {p q : Place K} :
    q ∈ p.below ↔ ∃ key child, p.node.child? key = some child ∧ q = ⟨p.address ++ [key], child⟩ := by
  have hentries : ∀ key child, (key, child) ∈ p.node.entries ↔ p.node.child? key = some child :=
    fun key child => Forest.mem_tries_iff p.node.distinct
  simp only [below, List.mem_map, Prod.exists, hentries, eq_comm]

/-- The places at and below a place, by the rest of their addresses. -/
def Reaches (p q : Place K) : Prop :=
  ∃ rest, q.address = p.address ++ rest ∧ p.node.at? rest = some q.node

theorem Reaches.prefix_address {p q : Place K} (h : p.Reaches q) : p.address <+: q.address := by
  obtain ⟨rest, haddress, -⟩ := h
  exact ⟨rest, haddress.symm⟩

/-- What is at or below a place is the place itself, or at or below one of those a step
    further down. -/
theorem reaches_iff {p q : Place K} :
    p.Reaches q ↔ q = p ∨ ∃ next ∈ p.below, next.Reaches q := by
  constructor
  · intro hexists
    obtain ⟨rest, haddress, hat⟩ := hexists
    cases rest with
    | nil =>
      left
      obtain ⟨address, node⟩ := q
      rw [List.append_nil] at haddress
      rw [Trie.at?_nil] at hat
      simp only at haddress hat
      rw [haddress, ← Option.some.inj hat]
    | cons key keys =>
      right
      rw [Trie.at?_cons] at hat
      obtain ⟨child, hchild, hbelow⟩ := Option.bind_eq_some_iff.mp hat
      refine ⟨⟨p.address ++ [key], child⟩, mem_below_iff.mpr ⟨key, child, hchild, rfl⟩, keys, ?_, hbelow⟩
      rw [haddress]
      simp
  · intro hcase
    rcases hcase with rfl | ⟨next, hnext, rest, haddress, hat⟩
    · exact ⟨[], (List.append_nil _).symm, rfl⟩
    · obtain ⟨key, child, hchild, rfl⟩ := mem_below_iff.mp hnext
      refine ⟨key :: rest, ?_, ?_⟩
      · rw [haddress]
        simp
      · rw [Trie.at?_cons, hchild]
        exact hat

end Place

/-! ## Orders of siblings -/

/-- An order in which to take the children of every place. -/
structure SiblingOrder (K : Type) where
  below : Place K → List (Place K)
  perm : ∀ p, (below p).Perm p.below

namespace SiblingOrder

variable {K : Type}

/-- The order in which the children stand. -/
def asHeld : SiblingOrder K := ⟨Place.below, fun _ => .refl _⟩

variable (order : SiblingOrder K)

theorem weight_advance (p : Place K) (queue : List (Place K)) :
    Place.weight (queue ++ order.below p) + 1 = Place.weight (p :: queue) := by
  have hbelow := p.weight_below
  rw [Place.weight_append, Place.weight_cons, Place.weight_perm (order.perm p)]
  omega

theorem depth_of_mem_below {p q : Place K} (h : q ∈ order.below p) : q.depth = p.depth + 1 :=
  Place.depth_of_mem_below ((order.perm p).mem_iff.mp h)

theorem pairwise_below (p : Place K) : (order.below p).Pairwise Place.Apart := by
  have hsymm : ∀ {q r : Place K}, q.Apart r → r.Apart q := And.symm
  exact ((order.perm p).pairwise_iff hsymm).mpr p.pairwise_below

/-- Every place at or below those of the queue, in the order of the visit. -/
def walk : List (Place K) → List (Place K)
  | [] => []
  | p :: queue => p :: walk (queue ++ order.below p)
termination_by queue => Place.weight queue
decreasing_by exact Nat.lt_of_succ_le (Nat.le_of_eq (order.weight_advance p queue))

/-- One turn after the other: the first place of the queue is collected if it is in
    scope, and its children go to the end of the queue. -/
def collect (scope : Trie.Scope) (atStart : Bool) : List (Place K) → List (Place K)
  | [] => []
  | p :: queue =>
    if p.node.qualifies scope.terminalOnly && (scope.includeSelf || !atStart) then
      if scope.firstOnly then [p]
      else p :: collect scope false (queue ++ order.below p)
    else collect scope false (queue ++ order.below p)
termination_by queue => Place.weight queue
decreasing_by
  all_goals exact Nat.lt_of_succ_le (Nat.le_of_eq (order.weight_advance p queue))

/-- The nodes in scope at and below the root of a trie, each with its address. -/
def descendants (t : Trie K) (scope : Trie.Scope) : List (Place K) :=
  order.collect scope true [⟨[], t⟩]

@[simp] theorem walk_nil : order.walk [] = [] := by
  rw [walk]

theorem walk_cons (p : Place K) (queue : List (Place K)) :
    order.walk (p :: queue) = p :: order.walk (queue ++ order.below p) := by
  rw [walk]

/-- Every place of a walk takes one turn. -/
theorem length_walk (queue : List (Place K)) : (order.walk queue).length = Place.weight queue := by
  fun_induction walk order queue with
  | case1 => rfl
  | case2 p queue ih => rw [List.length_cons, ih, weight_advance]

/-! ## What a walk visits -/

/-- A walk visits the places at and below those of its queue, and no others. -/
theorem mem_walk_iff [DecidableEq K] {queue : List (Place K)} {q : Place K} :
    q ∈ order.walk queue ↔ ∃ p ∈ queue, p.Reaches q := by
  fun_induction walk order queue with
  | case1 => simp
  | case2 p queue ih =>
    -- the first place is visited, and what it puts into the queue is what is below it
    rw [List.mem_cons, ih]
    simp only [List.mem_append, (order.perm p).mem_iff, List.mem_cons, or_and_right, exists_or,
      exists_eq_left, Place.reaches_iff (p := p), or_assoc]
    exact or_congr_right or_comm

/-! ## In which order -/

/-- The places of a queue are in the order of their depth, on two levels at most. -/
structure Layered (queue : List (Place K)) : Prop where
  sorted : queue.Pairwise fun p q => p.depth ≤ q.depth
  narrow : ∀ p ∈ queue, ∀ q ∈ queue, q.depth ≤ p.depth + 1

/-- One turn of a walk keeps the levels apart. -/
theorem Layered.advance {p : Place K} {queue : List (Place K)} (h : Layered (p :: queue)) :
    Layered (queue ++ order.below p) := by
  have hfirst := List.pairwise_cons.mp h.sorted
  have hbelow : ∀ q ∈ order.below p, q.depth = p.depth + 1 := fun _ => order.depth_of_mem_below
  -- all of the new queue is on the level of the first place or on the next one
  have hrange : ∀ q ∈ queue ++ order.below p, p.depth ≤ q.depth ∧ q.depth ≤ p.depth + 1 := by
    intro q hq
    rcases List.mem_append.mp hq with hqueue | hnext
    · exact ⟨hfirst.1 q hqueue, h.narrow p List.mem_cons_self q (List.mem_cons_of_mem _ hqueue)⟩
    · have hdepth := hbelow q hnext
      omega
  constructor
  · refine List.pairwise_append.mpr ⟨hfirst.2, ?_, ?_⟩
    · refine (order.pairwise_below p).imp_of_mem fun {q r} hq hr _ => ?_
      exact Nat.le_of_eq ((hbelow q hq).trans (hbelow r hr).symm)
    · intro q hq r hr
      rw [hbelow r hr]
      exact (hrange q (List.mem_append_left _ hq)).2
  · intro q hq r hr
    have hlow := (hrange q hq).1
    have hhigh := (hrange r hr).2
    omega

/-- A walk goes level by level. -/
theorem Layered.pairwise_walk [DecidableEq K] {queue : List (Place K)} (h : Layered queue) :
    (order.walk queue).Pairwise fun p q => p.depth ≤ q.depth := by
  fun_induction walk order queue with
  | case1 => exact .nil
  | case2 p queue ih =>
    have hnext := h.advance order
    refine List.pairwise_cons.mpr ⟨fun q hq => ?_, ih hnext⟩
    -- what comes later is at or below a place of the next queue
    obtain ⟨r, hr, hreaches⟩ := order.mem_walk_iff.mp hq
    have hrq : r.depth ≤ q.depth := hreaches.prefix_address.length_le
    have hpr : p.depth ≤ r.depth := by
      rcases List.mem_append.mp hr with hqueue | hbelow
      · exact (List.pairwise_cons.mp h.sorted).1 r hqueue
      · rw [order.depth_of_mem_below hbelow]
        exact Nat.le_succ _
    exact Nat.le_trans hpr hrq

/-- One turn of a walk keeps the places of the queue apart from each other. -/
theorem apart_advance [DecidableEq K] {p : Place K} {queue : List (Place K)}
    (h : (p :: queue).Pairwise Place.Apart) :
    (queue ++ order.below p).Pairwise Place.Apart := by
  have hfirst := List.pairwise_cons.mp h
  refine List.pairwise_append.mpr ⟨hfirst.2, order.pairwise_below p, ?_⟩
  intro q hq r hr
  obtain ⟨key, child, -, rfl⟩ := Place.mem_below_iff.mp ((order.perm p).mem_iff.mp hr)
  obtain ⟨hpq, hqp⟩ := hfirst.1 q hq
  constructor
  · -- the address before its last key is that of the first place
    intro hlong
    rcases List.prefix_concat_iff.mp hlong with heq | hshort
    · exact hpq (heq ▸ List.prefix_append _ _)
    · exact hqp hshort
  · intro hbelow
    exact hpq ((List.prefix_append _ _).trans hbelow)

/-- A walk visits no place twice. -/
theorem nodup_walk [DecidableEq K] {queue : List (Place K)} (h : queue.Pairwise Place.Apart) :
    ((order.walk queue).map (·.address)).Nodup := by
  fun_induction walk order queue with
  | case1 => exact List.nodup_nil
  | case2 p queue ih =>
    have hnext := order.apart_advance h
    rw [List.map_cons, List.nodup_cons]
    refine ⟨?_, ih hnext⟩
    intro hagain
    obtain ⟨q, hq, heq⟩ := List.mem_map.mp hagain
    obtain ⟨r, hr, hreaches⟩ := order.mem_walk_iff.mp hq
    have hrp : r.address <+: p.address := heq ▸ hreaches.prefix_address
    rcases List.mem_append.mp hr with hqueue | hbelow
    · exact ((List.pairwise_cons.mp h).1 r hqueue).2 hrp
    · -- the places further down have longer addresses
      have hdepth := order.depth_of_mem_below hbelow
      have hlength := hrp.length_le
      simp only [Place.depth] at hdepth
      omega

/-! ## Collections -/

/-- The queue with which a collection begins: the start, or else its children. -/
def start (t : Trie K) (includeSelf : Bool) : List (Place K) :=
  if includeSelf then [⟨[], t⟩] else order.below ⟨[], t⟩

/-- After the start a collection takes what is in scope of a walk: the first of it, or all. -/
theorem collect_eq (scope : Trie.Scope) (queue : List (Place K)) :
    order.collect scope false queue =
      if scope.firstOnly then
        ((order.walk queue).find? fun p => p.node.qualifies scope.terminalOnly).toList
      else (order.walk queue).filter fun p => p.node.qualifies scope.terminalOnly := by
  generalize hstart : false = atStart
  fun_induction collect order scope atStart queue with
  | case1 => simp
  | case2 atStart p queue accepted first =>
    have hq : p.node.qualifies scope.terminalOnly = true := (Bool.and_eq_true_iff.mp accepted).1
    simp [walk_cons, first, hq]
  | case3 atStart p queue accepted all ih =>
    have hq : p.node.qualifies scope.terminalOnly = true := (Bool.and_eq_true_iff.mp accepted).1
    simp [walk_cons, all, hq, ih rfl]
  | case4 atStart p queue refused ih =>
    subst hstart
    have hq : p.node.qualifies scope.terminalOnly = false := by simpa using refused
    simp [walk_cons, hq, ih rfl]

/-- The start is passed over unless it counts, and then its children are next. -/
theorem descendants_eq_collect (t : Trie K) (scope : Trie.Scope) :
    order.descendants t scope = order.collect scope false (order.start t scope.includeSelf) := by
  cases hself : scope.includeSelf <;> simp [descendants, start, collect, hself]

theorem descendants_all (t : Trie K) (terminalOnly includeSelf : Bool) :
    order.descendants t ⟨terminalOnly, includeSelf, false⟩ =
      (order.walk (order.start t includeSelf)).filter fun p => p.node.qualifies terminalOnly := by
  rw [descendants_eq_collect, collect_eq]
  rfl

/-- To stop at the first node found is to collect all and keep the first. -/
theorem descendants_first (t : Trie K) (terminalOnly includeSelf : Bool) :
    order.descendants t ⟨terminalOnly, includeSelf, true⟩ =
      (order.descendants t ⟨terminalOnly, includeSelf, false⟩).head?.toList := by
  rw [descendants_all, List.head?_filter, descendants_eq_collect, collect_eq]
  rfl

theorem layered_start (t : Trie K) (includeSelf : Bool) : Layered (order.start t includeSelf) := by
  have hroot : Layered [(⟨[], t⟩ : Place K)] := ⟨List.pairwise_singleton _ _, by simp⟩
  cases includeSelf with
  | true => exact hroot
  | false => exact hroot.advance order

theorem apart_start (t : Trie K) (includeSelf : Bool) :
    (order.start t includeSelf).Pairwise Place.Apart := by
  cases includeSelf with
  | true => exact List.pairwise_singleton _ _
  | false => exact order.pairwise_below _

variable [DecidableEq K]

/-- The places that a collection visits, by their addresses. -/
theorem mem_walk_start_iff {t : Trie K} {includeSelf : Bool} {q : Place K} :
    q ∈ order.walk (order.start t includeSelf) ↔
      t.at? q.address = some q.node ∧ (includeSelf = true ∨ q.address ≠ []) := by
  have hroot : (⟨[], t⟩ : Place K).Reaches q ↔ t.at? q.address = some q.node := by
    simp [Place.Reaches]
  rw [mem_walk_iff]
  cases includeSelf with
  | true => simp [start, hroot]
  | false =>
    simp only [start, Bool.false_eq_true, if_false, false_or, (order.perm _).mem_iff]
    constructor
    · intro hexists
      obtain ⟨next, hnext, hreaches⟩ := hexists
      refine ⟨hroot.mp (Place.reaches_iff.mpr (Or.inr ⟨next, hnext, hreaches⟩)), ?_⟩
      have hlength := hreaches.prefix_address.length_le
      have hdepth := Place.depth_of_mem_below hnext
      intro hnil
      rw [hnil] at hlength
      simp only [Place.depth, List.length_nil] at hdepth hlength
      omega
    · intro hboth
      obtain ⟨hat, hne⟩ := hboth
      rcases Place.reaches_iff.mp (hroot.mpr hat) with rfl | hbelow
      · exact absurd rfl hne
      · exact hbelow

end SiblingOrder

namespace Trie

variable {K : Type}

/-- The places are those of the nodes in scope at and below the root of `t`. -/
structure Enumerates [DecidableEq K] (t : Trie K) (terminalOnly includeSelf : Bool)
    (found : List (Place K)) : Prop where
  /-- Every node in scope is there, and no other place, -/
  mem_iff : ∀ p, p ∈ found ↔ t.at? p.address = some p.node ∧
    p.node.qualifies terminalOnly = true ∧ (includeSelf = true ∨ p.address ≠ [])
  /-- each of them once, -/
  nodup : (found.map (·.address)).Nodup
  /-- and those nearer to the root come before those further down. -/
  sorted : found.Pairwise fun p q => p.depth ≤ q.depth

theorem enumerates_descendants [DecidableEq K] (order : SiblingOrder K) (t : Trie K)
    (terminalOnly includeSelf : Bool) :
    t.Enumerates terminalOnly includeSelf
      (order.descendants t ⟨terminalOnly, includeSelf, false⟩) := by
  rw [order.descendants_all]
  refine ⟨fun p => ?_, ?_, ?_⟩
  · rw [List.mem_filter, order.mem_walk_start_iff, and_assoc, and_comm (a := _ ∨ _)]
  · exact (order.nodup_walk (order.apart_start t includeSelf)).sublist
      (List.Sublist.map _ List.filter_sublist)
  · exact ((order.layered_start t includeSelf).pairwise_walk order).sublist List.filter_sublist

/-! ## Siblings in the order in which they stand -/

theorem walk_asHeld (queue : List (Place K)) : SiblingOrder.asHeld.walk queue = walk queue := by
  fun_induction walk queue with
  | case1 => exact SiblingOrder.walk_nil _
  | case2 p queue ih => rw [SiblingOrder.walk_cons, ← ih]; rfl

theorem descendants_asHeld (t : Trie K) (scope : Scope) :
    SiblingOrder.asHeld.descendants t scope = t.descendants scope := by
  rw [SiblingOrder.descendants_eq_collect, SiblingOrder.collect_eq, walk_asHeld]
  simp only [descendants, search_eq_find?]
  rfl

theorem descendants_first_eq_nil_iff (order : SiblingOrder K) {t : Trie K}
    {terminalOnly includeSelf : Bool} :
    order.descendants t ⟨terminalOnly, includeSelf, true⟩ = [] ↔
      order.descendants t ⟨terminalOnly, includeSelf, false⟩ = [] := by
  rw [order.descendants_first, Option.toList_eq_nil_iff, List.head?_eq_none_iff]

variable [DecidableEq K]

/-- A terminal node is found exactly if a sequence is held, other than the empty one
    when the start does not count. -/
theorem descendants_first_ne_nil_iff (order : SiblingOrder K) {t : Trie K} {includeSelf : Bool} :
    order.descendants t ⟨true, includeSelf, true⟩ ≠ [] ↔
      ∃ sequence, t.Holds sequence ∧ (includeSelf = true ∨ sequence ≠ []) := by
  have hmem := (enumerates_descendants order t true includeSelf).mem_iff
  rw [ne_eq, descendants_first_eq_nil_iff]
  constructor
  · intro hne
    obtain ⟨p, hp⟩ := List.exists_mem_of_ne_nil _ hne
    obtain ⟨hat, hterminal, hself⟩ := (hmem p).mp hp
    exact ⟨p.address, qualifies_true_iff_holds.mp ⟨p.node, hat, hterminal⟩, hself⟩
  · intro hexists
    obtain ⟨sequence, hheld, hself⟩ := hexists
    obtain ⟨node, hat, hterminal⟩ := qualifies_true_iff_holds.mpr hheld
    exact List.ne_nil_of_mem ((hmem ⟨sequence, node⟩).mpr ⟨hat, hterminal, hself⟩)

/-- Whether anything is found does not depend on the order of siblings. -/
theorem hasNestedTerminal_eq (order : SiblingOrder K) (t : Trie K) (includeSelf : Bool) :
    t.hasNestedTerminal includeSelf =
      !(order.descendants t ⟨true, includeSelf, true⟩).isEmpty := by
  rw [hasNestedTerminal, ← descendants_asHeld, Bool.eq_iff_iff]
  simp only [Bool.not_eq_true', List.isEmpty_eq_false_iff]
  rw [descendants_first_ne_nil_iff, descendants_first_ne_nil_iff]

theorem hasNestedTerminal_iff {t : Trie K} {includeSelf : Bool} :
    t.hasNestedTerminal includeSelf = true ↔
      ∃ sequence, t.Holds sequence ∧ (includeSelf = true ∨ sequence ≠ []) := by
  rw [hasNestedTerminal_eq .asHeld, Bool.not_eq_true', List.isEmpty_eq_false_iff,
    descendants_first_ne_nil_iff]

theorem isEmpty_iff_not_holds {t : Trie K} : t.isEmpty = true ↔ ∀ sequence, ¬ t.Holds sequence := by
  rw [isEmpty, Bool.not_eq_true', ← Bool.not_eq_true, hasNestedTerminal_iff]
  simp

/-- In whatever order siblings are taken, a collection is a full list of the nodes in
    scope, each of them once and nearer ones first, after as many turns as there are
    nodes; and a collection that stops early finds something exactly if there is
    something, and then a nearest one. So the questions whether anything is held below a
    node, or at all, have the answers that the sequences held give. -/
theorem descendants_exact (order : SiblingOrder K) (t : Trie K) (terminalOnly includeSelf : Bool) :
    t.Enumerates terminalOnly includeSelf
      (order.descendants t ⟨terminalOnly, includeSelf, false⟩) ∧
    (order.walk [⟨[], t⟩]).length = t.nodeCount ∧
    (order.descendants t ⟨terminalOnly, includeSelf, true⟩ = [] ↔
      order.descendants t ⟨terminalOnly, includeSelf, false⟩ = []) ∧
    (∀ p ∈ order.descendants t ⟨terminalOnly, includeSelf, true⟩,
      order.descendants t ⟨terminalOnly, includeSelf, true⟩ = [p] ∧
      p ∈ order.descendants t ⟨terminalOnly, includeSelf, false⟩ ∧
      ∀ q ∈ order.descendants t ⟨terminalOnly, includeSelf, false⟩, p.depth ≤ q.depth) ∧
    (∀ scope, SiblingOrder.asHeld.descendants t scope = t.descendants scope) ∧
    t.hasNestedTerminal includeSelf =
      (!(order.descendants t ⟨true, includeSelf, true⟩).isEmpty) ∧
    (t.hasNestedTerminal includeSelf = true ↔
      ∃ sequence, t.Holds sequence ∧ (includeSelf = true ∨ sequence ≠ [])) ∧
    (t.isEmpty = true ↔ ∀ sequence, ¬ t.Holds sequence) := by
  have hall := enumerates_descendants order t terminalOnly includeSelf
  refine ⟨hall, ?_, descendants_first_eq_nil_iff order, ?_, descendants_asHeld t,
    hasNestedTerminal_eq order t includeSelf, hasNestedTerminal_iff, isEmpty_iff_not_holds⟩
  · rw [order.length_walk, Place.weight_cons, Place.weight_nil, Nat.add_zero]
  · intro p hp
    have hsorted := hall.sorted
    rw [order.descendants_first] at hp ⊢
    -- the one that is kept stands in front of all the others
    cases hfound : order.descendants t ⟨terminalOnly, includeSelf, false⟩ with
    | nil => simp [hfound] at hp
    | cons q rest =>
      rw [hfound] at hp hsorted
      obtain rfl : p = q := by simpa using hp
      refine ⟨rfl, List.mem_cons_self, fun r hr => ?_⟩
      rcases List.mem_cons.mp hr with rfl | hlater
      · exact Nat.le_refl _
      · exact (List.pairwise_cons.mp hsorted).1 r hlater

/-- With the siblings taken from the last one back, the nearest terminal node is the one
    under the later child. -/
theorem nearest_among_reversed_siblings :
    let order : SiblingOrder Nat := ⟨fun p => p.below.reverse, fun _ => List.reverse_perm _⟩
    let t : Trie Nat := ((empty.insert [1, 2]).insert [3, 4]).insert [3]
    (order.descendants t ⟨true, false, false⟩).map (·.address) = [[3], [3, 4], [1, 2]] ∧
      ∃ p ∈ order.descendants t ⟨true, false, true⟩, p.address = [3] ∧
        order.descendants t ⟨true, false, true⟩ = [p] ∧
        ∀ q ∈ order.descendants t ⟨true, false, false⟩, p.depth ≤ q.depth := by
  intro order t
  have hall : (order.descendants t ⟨true, false, false⟩).map (·.address) =
      [[3], [3, 4], [1, 2]] := by decide +kernel
  have hone : (order.descendants t ⟨true, false, true⟩).map (·.address) = [[3]] := by
    decide +kernel
  obtain ⟨p, hp, haddress⟩ := List.mem_map.mp (hone ▸ List.mem_singleton.mpr rfl)
  obtain ⟨-, -, -, hfirst, -⟩ := descendants_exact order t true false
  obtain ⟨honly, -, hnearest⟩ := hfirst p hp
  exact ⟨hall, p, hp, haddress, honly, hnearest⟩

end Trie

end NearestMount
