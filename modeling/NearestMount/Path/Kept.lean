import NearestMount.Error

/-! # Paths kept with their text

    Where a path is handed around, its text is kept next to its segments, so that it need
    not be put together again. Nothing in the type `KeptPath` makes the two agree: the
    text of a path that was read is the text it was read from, and the text of an
    ancestor is written anew from the segments that are left.

    The questions are those that `Path` answers, each asked of the half that has the
    answer at hand: a path is cut by its segments, and ordered by its text first.
-/

namespace NearestMount

/-- A path as it is kept: its text, and the segments next to it. -/
structure KeptPath where
  text : String
  segments : List String
  deriving DecidableEq, Repr

namespace KeptPath

/-- The root `/`. -/
def root : KeptPath := ⟨"/", []⟩

/-- The path that is written as `s`, with this very text. -/
def read (s : String) : Except Error KeptPath := (Path.read s).map fun p => ⟨s, p.segments⟩

/-- Number of segments. -/
def depth (p : KeptPath) : Nat := p.segments.length

/-- True of the root alone. -/
def isRoot (p : KeptPath) : Bool := p.segments.isEmpty

/-! ## Ancestors -/

/-- The ancestor made of the first `depth` segments. Only one that is neither the path
    itself nor the root has its text put together. -/
def take (p : KeptPath) (depth : Nat) : KeptPath :=
  if p.depth ≤ depth then p
  else if depth = 0 then root
  else ⟨"/" ++ "/".intercalate (p.segments.take depth), p.segments.take depth⟩

/-- The enclosing path; the root has none. -/
def parent? (p : KeptPath) : Option KeptPath :=
  if p.isRoot then none else some (p.take (p.depth - 1))

/-- The first `count` segments; nothing if there are not so many. -/
def front? (p : KeptPath) (count : Nat) : Option (List String) :=
  if count ≤ p.depth then some (p.segments.take count) else none

/-- Whether `q` is `p` or one of its ancestors; nothing if `p` were cut behind its end. -/
def covers? (q p : KeptPath) : Option Bool :=
  if q.depth ≤ p.depth then (p.front? q.depth).map fun front => q.segments = front
  else some false

/-! ## Order -/

/-- Paths are ordered by their texts, and those of one text by their segments. -/
instance : Ord KeptPath :=
  ⟨fun p q => (compare p.text q.text).then (compare p.segments q.segments)⟩

end KeptPath

end NearestMount
