import NearestMount.Trie.Forest

/-! # Tries

    A trie holds a set of sequences of keys. Every node is reached from the root by
    one sequence, its **address**; a node is **terminal** if its address is one of
    the sequences held, and other nodes are there only to carry longer ones.

    - `Trie.child?` reads one step; `Trie.at?` follows an address.
    - `Trie.flag?` is the view that the laws speak of: whether there is a node at an
      address, and whether it is terminal. Two tries that agree in it are the same
      up to the order of siblings (`Trie.Same`).
    - `Trie.insert` and `Trie.remove?` add and withdraw a sequence.
-/

namespace NearestMount

/-- A node with all that is below it; seen from its root, a trie. -/
structure Trie (K : Type) where
  terminal : Bool
  children : Forest K
  distinct : children.Distinct
  deriving DecidableEq

namespace Forest

variable {K : Type}

/-- The sibling at `key`, as the root of a trie. -/
def child? [DecidableEq K] : (f : Forest K) → f.Distinct → K → Option (Trie K)
  | nil, _, _ => none
  | cons k terminal below rest, h, key =>
    if k = key then some ⟨terminal, below, h.2.1⟩ else rest.child? h.2.2 key

/-- The siblings with their keys, each as the root of a trie. -/
def tries : (f : Forest K) → f.Distinct → List (K × Trie K)
  | nil, _ => []
  | cons key terminal below rest, h =>
    (key, ⟨terminal, below, h.2.1⟩) :: rest.tries h.2.2

end Forest

namespace Trie

variable {K : Type}

/-- The trie of a single node, which is not terminal. -/
def empty : Trie K := ⟨false, .nil, trivial⟩

/-- The keys of the children, each once. -/
def childKeys (t : Trie K) : List K := t.children.keys

/-- The children with their keys. -/
def entries (t : Trie K) : List (K × Trie K) := t.children.tries t.distinct

/-- True if no node is below this one. -/
def isLeaf (t : Trie K) : Bool := t.children.isEmpty

/-- True of a leaf that ends no sequence. -/
def isDeadEnd (t : Trie K) : Bool := !t.terminal && t.isLeaf

/-- True if a query may answer with this node; one for terminal nodes passes over
    all others. -/
def qualifies (t : Trie K) (terminalOnly : Bool) : Bool := !terminalOnly || t.terminal

/-- Number of nodes, this one included. -/
def nodeCount (t : Trie K) : Nat := t.children.nodeCount + 1

/-- Number of terminal nodes, this one included. -/
def terminalCount (t : Trie K) : Nat := t.children.terminalCount + t.terminal.toNat

/-- The same node with its mark set to `terminal`. -/
def mark (t : Trie K) (terminal : Bool) : Trie K := { t with terminal }

variable [DecidableEq K]

/-! ## One step down -/

/-- The child at `key`. -/
def child? (t : Trie K) (key : K) : Option (Trie K) := t.children.child? t.distinct key

/-- The trie with `sub` as its child at `key`, in the place of any child there. -/
def setChild (t : Trie K) (key : K) (sub : Trie K) : Trie K :=
  ⟨t.terminal, t.children.set key sub.terminal sub.children,
    t.distinct.set sub.distinct key sub.terminal⟩

/-- The trie without its child at `key`. -/
def eraseChild (t : Trie K) (key : K) : Trie K :=
  ⟨t.terminal, t.children.erase key, t.distinct.erase key⟩

/-! ## Addresses -/

/-- The node at an address. -/
def at? (t : Trie K) : List K → Option (Trie K)
  | [] => some t
  | key :: keys => (t.child? key).bind (·.at? keys)

/-- Whether there is a node at an address, and if so whether it is terminal. -/
def flag? (t : Trie K) (address : List K) : Option Bool := (t.at? address).map (·.terminal)

/-- True if the sequence is one of those that the trie holds. -/
def Holds (t : Trie K) (sequence : List K) : Prop := t.flag? sequence = some true

instance (t : Trie K) (sequence : List K) : Decidable (t.Holds sequence) :=
  inferInstanceAs (Decidable (_ = _))

/-- Two tries are the same up to the order of siblings: the same addresses have a
    node, and the same nodes are terminal. -/
def Same (t u : Trie K) : Prop := ∀ address, t.flag? address = u.flag? address

/-- The trie with the node at an address replaced by its value under `f`; nothing if
    no node is there. -/
def modifyAt? (f : Trie K → Trie K) (t : Trie K) : List K → Option (Trie K)
  | [] => some (f t)
  | key :: keys =>
    (t.child? key).bind fun child => (child.modifyAt? f keys).map (t.setChild key)

/-! ## Sequences -/

/-- The trie that holds `sequence` as well. Nodes that its address lacks are made. -/
def insert (t : Trie K) : List K → Trie K
  | [] => t.mark true
  | key :: keys => t.setChild key (((t.child? key).getD empty).insert keys)

/-- What the withdrawal of a sequence took away. -/
structure Removal where
  /-- Length of the sequence. -/
  depth : Nat
  /-- Number of nodes that were detached because they became dead ends. -/
  pruned : Nat
  deriving DecidableEq, Repr

/-- The trie without `sequence`, and what went with it; nothing if the trie does not
    hold the sequence. A node on the way that becomes a dead end is detached, which
    may make a dead end of the next one above; the root stays. -/
def remove? (t : Trie K) : List K → Option (Removal × Trie K)
  | [] => if t.terminal then some (⟨0, 0⟩, t.mark false) else none
  | key :: keys =>
    ((t.child? key).bind (·.remove? keys)).map fun (removed, child) =>
      -- a child that is still in use ends the pruning, for its parent has a child then
      if child.isDeadEnd then (⟨removed.depth + 1, removed.pruned + 1⟩, t.eraseChild key)
      else (⟨removed.depth + 1, removed.pruned⟩, t.setChild key child)

end Trie

end NearestMount
