import NearestMount.Trie.Basic

/-! # Changes to a trie

    The four changes that a trie knows, as data: `Trie.Edit`. `Trie.edit` makes one at
    the root, `Trie.editAt?` at any node; `Trie.Reachable` says which tries come from
    the empty one by such changes.
-/

namespace NearestMount.Trie

variable {K : Type}

/-- A change at a node. -/
inductive Edit (K : Type) where
  /-- Hold the sequence as well. -/
  | insert (sequence : List K)
  /-- Withdraw the sequence, and prune. -/
  | remove (sequence : List K)
  /-- Put a whole subtree at a key. -/
  | graft (key : K) (sub : Trie K)
  /-- Take away the whole subtree at a key. -/
  | detach (key : K)

/-- What a change answers: what `remove` withdrew, or the subtree that `graft` and
    `detach` took away. -/
structure Yield (K : Type) where
  removed : Option Removal := none
  subtree : Option (Trie K) := none

variable [DecidableEq K]

/-- The trie after a change at its root. A withdrawal of what is not held changes
    nothing. -/
def edit (t : Trie K) : Edit K → Trie K
  | .insert sequence => t.insert sequence
  | .remove sequence => ((t.remove? sequence).map (·.2)).getD t
  | .graft key sub => t.setChild key sub
  | .detach key => t.eraseChild key

/-- The answer to a change at the root. -/
def yield (t : Trie K) : Edit K → Yield K
  | .insert _ => {}
  | .remove sequence => { removed := (t.remove? sequence).map (·.1) }
  | .graft key _ => { subtree := t.child? key }
  | .detach key => { subtree := t.child? key }

/-- The trie after a change at the node that an address leads to; nothing if no node
    is there. -/
def editAt? (t : Trie K) (address : List K) (e : Edit K) : Option (Trie K) :=
  t.modifyAt? (·.edit e) address

/-- The tries that come from the empty one by changes at any of their nodes. -/
inductive Reachable : Trie K → Prop where
  | empty : Reachable .empty
  | edit {t u : Trie K} (address : List K) (e : Edit K) :
      Reachable t → t.editAt? address e = some u → Reachable u

end NearestMount.Trie
