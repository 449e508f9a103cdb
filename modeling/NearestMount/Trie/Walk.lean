import NearestMount.Trie.Lemmas

/-! # Walking a trie level by level

    A walk visits the nodes at and below some places, nearest first: it takes the
    first place of a queue and puts the children of its node at the queue's end.

    - `Trie.walk` lists every place it visits; `Trie.search` stops at the first one
      that is accepted.
    - `Trie.search_eq_find?` says that stopping early changes nothing else.
    - `Trie.descendants` filters a walk; `Trie.hasNestedTerminal` and `Trie.isEmpty`
      ask whether anything is found.
-/

namespace NearestMount

/-- A node of a trie and the address that leads to it. -/
structure Place (K : Type) where
  address : List K
  node : Trie K

namespace Place

variable {K : Type}

/-- The places one step further down. -/
def below (p : Place K) : List (Place K) :=
  p.node.entries.map fun (key, child) => ⟨p.address ++ [key], child⟩

/-- Number of nodes at and below some places. -/
def weight (queue : List (Place K)) : Nat :=
  queue.foldr (fun p total => p.node.nodeCount + total) 0

@[simp] theorem weight_nil : weight ([] : List (Place K)) = 0 := rfl

@[simp] theorem weight_cons (p : Place K) (queue : List (Place K)) :
    weight (p :: queue) = p.node.nodeCount + weight queue := by
  simp [weight]

@[simp] theorem weight_append (front back : List (Place K)) :
    weight (front ++ back) = weight front + weight back := by
  induction front with
  | nil => simp
  | cons p front ih => rw [List.cons_append, weight_cons, weight_cons, ih, Nat.add_assoc]

theorem weight_below (p : Place K) : weight p.below + 1 = p.node.nodeCount := by
  have sum := p.node.sum_nodeCount_entries
  simpa [weight, below, List.foldr_map] using sum

theorem weight_advance (p : Place K) (queue : List (Place K)) :
    weight (queue ++ p.below) < weight (p :: queue) := by
  have := p.weight_below
  simp only [weight_append, weight_cons]
  omega

end Place

namespace Trie

variable {K : Type}

/-! ## The queue -/

/-- Every place at or below those of the queue, in the order of the visit. -/
def walk : List (Place K) → List (Place K)
  | [] => []
  | p :: queue => p :: walk (queue ++ p.below)
termination_by queue => Place.weight queue
decreasing_by exact Place.weight_advance p queue

/-- The first accepted place at or below those of the queue. Nothing is visited
    after it. -/
def search (accept : Place K → Bool) : List (Place K) → Option (Place K)
  | [] => none
  | p :: queue => if accept p then some p else search accept (queue ++ p.below)
termination_by queue => Place.weight queue
decreasing_by exact Place.weight_advance p queue

@[simp] theorem walk_nil : walk ([] : List (Place K)) = [] := by
  rw [walk]

theorem walk_cons (p : Place K) (queue : List (Place K)) :
    walk (p :: queue) = p :: walk (queue ++ p.below) := by
  rw [walk]

/-- Stopping early finds the first accepted place of the full walk. -/
theorem search_eq_find? (accept : Place K → Bool) (queue : List (Place K)) :
    search accept queue = (walk queue).find? accept := by
  fun_induction search accept queue with
  | case1 => simp
  | case2 p queue accepted => simp [walk_cons, accepted]
  | case3 p queue refused ih => simp [walk_cons, refused, ih]

/-! ## Descendants -/

/-- Which nodes a collection is to hold. -/
structure Scope where
  /-- Pass over nodes that are not terminal. -/
  terminalOnly : Bool
  /-- Let the start itself be one of them. -/
  includeSelf : Bool
  /-- Be content with the first one found. -/
  firstOnly : Bool

/-- The queue with which a collection begins: the start, or else its children. -/
def start (t : Trie K) (includeSelf : Bool) : List (Place K) :=
  if includeSelf then [⟨[], t⟩] else Place.below ⟨[], t⟩

/-- The nodes at and below this one that are in scope, each with its address, nearest
    first. -/
def descendants (t : Trie K) (scope : Scope) : List (Place K) :=
  let accept (p : Place K) := p.node.qualifies scope.terminalOnly
  if scope.firstOnly then (search accept (t.start scope.includeSelf)).toList
  else (walk (t.start scope.includeSelf)).filter accept

/-- True if there is a terminal node below this one, or this one is terminal and
    counts. -/
def hasNestedTerminal (t : Trie K) (includeSelf : Bool) : Bool :=
  !(t.descendants ⟨true, includeSelf, true⟩).isEmpty

/-- True if the trie holds no sequence. -/
def isEmpty (t : Trie K) : Bool := !t.hasNestedTerminal true

end Trie

end NearestMount
