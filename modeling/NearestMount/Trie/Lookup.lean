import NearestMount.Trie.Lemmas

/-! # Lookups along a sequence

    A sequence leads from the root through some of the nodes of a trie. A lookup asks
    for the lowest of them that qualifies, or for the very node at its end, and
    answers with the node and its depth.

    `Trie.deepest?` is the longest-prefix query, `Trie.whole?` the query for the whole
    sequence, and `Trie.lookup?` chooses between them; `Trie.lookupDepth?` and
    `Trie.lookupNode?` are the two parts of its answer.
-/

namespace NearestMount.Trie

variable {K : Type}

/-- A node that a lookup found, and how many keys lead to it. -/
structure Match (K : Type) where
  depth : Nat
  node : Trie K

/-- The same match, seen from the parent of the node where the lookup began. -/
def Match.lower (m : Match K) : Match K := { m with depth := m.depth + 1 }

@[simp] theorem Match.depth_lower (m : Match K) : m.lower.depth = m.depth + 1 := rfl

@[simp] theorem Match.node_lower (m : Match K) : m.lower.node = m.node := rfl

/-- What a lookup asks for. -/
structure Query where
  /-- Pass over nodes that are not terminal. -/
  terminalOnly : Bool
  /-- Accept only the node that the whole sequence leads to. -/
  whole : Bool

/-- This node itself, if it qualifies. -/
def here? (terminalOnly : Bool) (t : Trie K) : Option (Match K) :=
  if t.qualifies terminalOnly then some ⟨0, t⟩ else none

variable [DecidableEq K]

/-- The lowest qualifying node on the way along a sequence, as far as the trie goes
    along with it. -/
def deepest? (terminalOnly : Bool) (t : Trie K) : List K → Option (Match K)
  | [] => t.here? terminalOnly
  | key :: keys =>
    -- an answer from further down comes before this node itself
    (((t.child? key).bind (·.deepest? terminalOnly keys)).map Match.lower).or
      (t.here? terminalOnly)

/-- The node that the whole sequence leads to, if it qualifies. -/
def whole? (terminalOnly : Bool) (t : Trie K) (sequence : List K) : Option (Match K) :=
  ((t.at? sequence).filter (·.qualifies terminalOnly)).map (⟨sequence.length, ·⟩)

/-- The answer to a query. -/
def lookup? (query : Query) (t : Trie K) (sequence : List K) : Option (Match K) :=
  if query.whole then t.whole? query.terminalOnly sequence
  else t.deepest? query.terminalOnly sequence

/-- The depth that a query answers with. -/
def lookupDepth? (query : Query) (t : Trie K) (sequence : List K) : Option Nat :=
  (t.lookup? query sequence).map (·.depth)

/-- The node that a query answers with. -/
def lookupNode? (query : Query) (t : Trie K) (sequence : List K) : Option (Trie K) :=
  (t.lookup? query sequence).map (·.node)

theorem deepest?_cons (terminalOnly : Bool) (t : Trie K) (key : K) (keys : List K) :
    t.deepest? terminalOnly (key :: keys) =
      (((t.child? key).bind (·.deepest? terminalOnly keys)).map Match.lower).or
        (t.here? terminalOnly) := rfl

/-- A sequence is held when the query for it as a whole, among terminal nodes, has an
    answer. -/
theorem isSome_whole?_iff_holds {t : Trie K} {sequence : List K} :
    (t.whole? true sequence).isSome = true ↔ t.Holds sequence := by
  cases h : t.at? sequence <;>
    simp [whole?, Holds, flag?, h, qualifies, Option.filter]

end NearestMount.Trie
