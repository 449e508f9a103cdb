/-! # Events

    What is worth telling about a running resolver. Each event has a level and a line
    of text.
-/

namespace NearestMount

/-- How much an event matters, the least first. -/
inductive Level where
  | trace
  | debug
  | info
  deriving DecidableEq, Repr

/-- Something that happened. -/
inductive Event where
  /-- An answer was put into the cache. -/
  | cached (path mountPoint : String)
  /-- This many answers that named a mount point were dropped. -/
  | purged (count : Nat) (mountPoint : String)
  /-- All answers were dropped. -/
  | cleared
  /-- An answer was looked up in the table. -/
  | resolved (path mountPoint : String)
  | mounted (ufs path : String)
  | unmounted (ufs path : String)
  /-- A mount of the root gave way to the permanent one. -/
  | rootKept (skipped : String)
  /-- The table was replaced by one of this many mounts. -/
  | reloaded (count : Nat)
  deriving DecidableEq, Repr

namespace Event

/-- The level of an event. -/
def level : Event → Level
  | cached .. | resolved .. => .trace
  | purged .. | cleared | rootKept .. => .debug
  | mounted .. | unmounted .. | reloaded .. => .info

/-- The line of text that tells of an event. -/
def text : Event → String
  | cached path mountPoint => "caching " ++ path ++ " -> " ++ mountPoint
  | purged count mountPoint =>
    "purged " ++ count.repr ++ " cached resolution(s) of mount point " ++ mountPoint
  | cleared => "cleared mount point cache"
  | resolved path mountPoint =>
    "resolved " ++ path ++ " to " ++ mountPoint ++ " from the mount table"
  | mounted ufs path => "mounted " ++ ufs ++ " at " ++ path
  | unmounted ufs path => "unmounted " ++ ufs ++ " from " ++ path
  | rootKept skipped => "reload: keeping configured root, skipping " ++ skipped
  | reloaded count => "reloaded mount table with " ++ count.repr ++ " mount(s)"

end Event

end NearestMount
