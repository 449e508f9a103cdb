import Std.Data.ExtTreeMap
import NearestMount.Error
import NearestMount.Trie.Lookup
import NearestMount.Trie.Walk

/-! # The mount table

    The table holds every mount under its path, in the order of paths, and beside it
    an index: the trie of the segments of those paths. Questions about a single path
    go to the mounts, questions about what encloses a path, or lies beneath it, to the
    index.

    - `Table.mount` and `Table.unmount` change both together.
    - `Table.covering?` is the deepest mount point that covers a path.
    - `Table.beneath` and `Table.hasBeneath` ask what lies strictly beneath.
-/

namespace NearestMount

/-- The mounts of a namespace. -/
structure Table where
  /-- The mounts by the written form of their paths. -/
  mounts : Std.ExtTreeMap String Mount
  /-- The segments of the same paths. -/
  index : Trie String
  /-- True if the root is mounted for good. -/
  pinnedRoot : Bool

namespace Table

/-- The table without mounts. -/
def empty : Table := ⟨∅, .empty, false⟩

/-- The table with a mount at `p` that was not there before. -/
def register (t : Table) (p : Path) (ufs : String) : Table :=
  { t with mounts := t.mounts.insert p.text ⟨p.text, ufs⟩, index := t.index.insert p.segments }

/-- The table whose root is mounted for good, and nothing else. -/
def withRoot (ufs : String) : Table := { empty.register .root ufs with pinnedRoot := true }

/-! ## Single mounts -/

/-- The mount with exactly this path. -/
def get? (t : Table) (path : String) : Option Mount := t.mounts[path]?

/-- All mounts, in the order of their paths. -/
def list (t : Table) : List Mount := t.mounts.toList.map (·.2)

/-- Number of mounts. -/
def size (t : Table) : Nat := t.mounts.size

/-- True if nothing is mounted. -/
def isEmpty (t : Table) : Bool := t.mounts.isEmpty

/-- Mounts `ufs` at `p`. -/
def mount (t : Table) (p : Path) (ufs : String) : Except Error (Mount × Table) :=
  if p.text ∈ t.mounts then .error (.occupied p.text)
  else .ok (⟨p.text, ufs⟩, t.register p ufs)

/-- Takes away the mount at `p`. -/
def unmount (t : Table) (p : Path) : Except Error (Mount × Table) :=
  if p.isRoot && t.pinnedRoot then .error .rootPinned
  else
    match t.get? p.text with
    | none => .error (.vacant p.text)
    | some info =>
      let index := ((t.index.remove? p.segments).map (·.2)).getD t.index
      .ok (info, { t with mounts := t.mounts.erase p.text, index })

/-! ## What encloses a path -/

/-- The deepest mount point that is `p` or one of its ancestors. -/
def covering? (t : Table) (p : Path) : Option Path :=
  (t.index.lookup? { terminalOnly := true, whole := false } p.segments).map fun found =>
    p.take found.depth

/-- The mount that covers `p`. -/
def coveringMount? (t : Table) (p : Path) : Option Mount :=
  (t.covering? p).bind fun mountPoint => t.get? mountPoint.text

/-- The deepest mount point that encloses `p`, not counting `p` itself. -/
def enclosing? (t : Table) (p : Path) : Option Path := p.parent?.bind t.covering?

/-- True if `p` is itself a mount point. -/
def isMounted (t : Table) (p : Path) : Bool :=
  (t.index.lookup? { terminalOnly := true, whole := true } p.segments).isSome

/-! ## What lies beneath a path -/

/-- True if there is a mount point strictly beneath `p`. -/
def hasBeneath (t : Table) (p : Path) : Bool :=
  ((t.index.lookup? { terminalOnly := false, whole := true } p.segments).map fun found =>
    found.node.hasNestedTerminal false).getD false

/-- The mounts strictly beneath `p`, in the order of their paths. In that order the
    paths beneath `p` stand next to each other and begin where its stem would stand. -/
def beneath (t : Table) (p : Path) : List Mount :=
  let fromStem := t.mounts.toList.dropWhile fun entry => entry.1 < String.ofList p.stem
  let block := fromStem.takeWhile fun entry => p.stem.isPrefixOf entry.1.toList
  (block.filter fun entry => entry.1 ≠ p.text).map (·.2)

end Table

end NearestMount
