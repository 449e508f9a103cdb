import Std.Data.ExtTreeMap
import Std.Data.ExtTreeSet
import NearestMount.Settings.Basic

/-! # The cache

    The cache remembers two unrelated things: for some paths the mount point that was
    found for them, and for some mount points whether others are nested beneath them.
    Paths are opaque texts here; none is read or compared by segments.

    The classification is kept as two sets, and a mount point that is classified anew
    moves from one to the other.

    Room for the first entries is made in advance. How much there is depends on the
    machine (`Memory`).
-/

namespace NearestMount

/-- The number of bytes that can be asked for at once, with addresses of 64 bits. -/
def Memory.largestRequest : Nat := 0x7FFFFFFFFFFFFFFF

/-- The memory of a machine. -/
structure Memory where
  /-- True if there is room for this much. -/
  hasRoom : Capacities → Bool
  /-- An entry takes at least a byte, and the entries of a part are asked for at once. -/
  bounded : ∀ c, hasRoom c = true → c.atMost Memory.largestRequest = true

/-- The memory of a machine that has room for up to this many entries in each part. -/
def Memory.upTo (limit : Nat) : Memory where
  hasRoom c := c.atMost limit && c.atMost largestRequest
  bounded _ h := (Bool.and_eq_true_iff.mp h).2

/-- Remembered answers. -/
structure Cache where
  /-- Paths and the mount points that were found for them. -/
  exact : Std.ExtTreeMap String String
  /-- Mount points with others beneath. -/
  nested : Std.ExtTreeSet String
  /-- Mount points without others beneath. -/
  nonNested : Std.ExtTreeSet String

namespace Cache

/-- The cache that remembers nothing. -/
def empty : Cache := ⟨∅, ∅, ∅⟩

/-- A new cache with this much room in advance, which is not remembered. Where there is
    no such room no cache comes of it: the program stops. -/
def ofCapacities? (memory : Memory) (capacities : Capacities) : Option Cache :=
  if memory.hasRoom capacities then some empty else none

/-- A new cache with room for this many paths, and for as many mount points as usual. -/
def withCapacity? (memory : Memory) (exact : UInt64) : Option Cache :=
  ofCapacities? memory { exact }

/-! ## Answers -/

/-- The remembered mount point of a path. -/
def get? (c : Cache) (path : String) : Option String := c.exact[path]?

/-- Number of paths whose mount point is remembered. -/
def size (c : Cache) : Nat := c.exact.size

/-- True if no path is remembered with its mount point. -/
def isEmpty (c : Cache) : Bool := c.size == 0

/-- Remembers the mount point of a path, instead of any that was remembered for it. -/
def add (c : Cache) (path mountPoint : String) : Cache :=
  { c with exact := c.exact.insert path mountPoint }

/-- Forgets every path for which this mount point is remembered. -/
def purge (c : Cache) (mountPoint : String) : Cache :=
  { c with exact := c.exact.filter fun _ found => found ≠ mountPoint }

/-- Number of paths that a purge forgets. -/
def purgeCount (c : Cache) (mountPoint : String) : Nat :=
  c.size - (c.purge mountPoint).size

/-- Forgets the mount points of all paths; classifications stay. -/
def clear (c : Cache) : Cache := { c with exact := ∅ }

/-! ## Classification -/

/-- How a mount point was classified, if it was. -/
def isNested? (c : Cache) (mountPoint : String) : Option Bool :=
  if mountPoint ∈ c.nested then some true
  else if mountPoint ∈ c.nonNested then some false
  else none

/-- True if there is a classification of a mount point to forget. -/
def isClassified (c : Cache) (mountPoint : String) : Bool :=
  mountPoint ∈ c.nested || mountPoint ∈ c.nonNested

/-- Classifies a mount point. -/
def classify (c : Cache) (mountPoint : String) (isNested : Bool) : Cache :=
  if isNested then
    { c with
      nested := c.nested.insert mountPoint
      nonNested := c.nonNested.erase mountPoint }
  else
    { c with
      nested := c.nested.erase mountPoint
      nonNested := c.nonNested.insert mountPoint }

/-- Forgets the classification of a mount point. -/
def declassify (c : Cache) (mountPoint : String) : Cache :=
  { c with
    nested := c.nested.erase mountPoint
    nonNested := c.nonNested.erase mountPoint }

end Cache

end NearestMount
