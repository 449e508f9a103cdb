import NearestMount.Mount

/-! # Settings

    What a resolver is set up with. Every setting has a default; `Settings.validate`
    refuses settings that cannot work. The paths of mounts are not looked at here:
    they are checked when they are mounted.
-/

namespace NearestMount

/-- How many entries a new cache makes room for, in each of its parts. It may grow beyond
    them, but there has to be that much room when it is made. -/
structure Capacities where
  exact : UInt64 := 20
  nested : UInt64 := 100
  nonNested : UInt64 := 100
  deriving DecidableEq, Repr

/-- No part is to have room for more entries than this. -/
def Capacities.atMost (c : Capacities) (limit : Nat) : Bool :=
  c.exact.toNat ≤ limit && c.nested.toNat ≤ limit && c.nonNested.toNat ≤ limit

/-- The settings of a resolver. -/
structure Settings where
  capacities : Capacities := {}
  /-- Remember each mount point as its own answer when it is mounted. -/
  preseed : Bool := true
  /-- The location behind a permanent mount of the root, if there is to be one. -/
  rootUfs : Option String := none
  /-- The mounts to begin with. -/
  mounts : List Mount := []
  deriving DecidableEq, Repr

namespace Settings

/-- Why settings cannot work. -/
inductive Fault where
  | emptyRootUfs
  /-- The mount at this path has no location behind it. -/
  | emptyMountUfs (path : String)
  deriving DecidableEq, Repr

/-- The wording of a fault. -/
def Fault.message : Fault → String
  | .emptyRootUfs => "root_ufs must not be empty"
  | .emptyMountUfs path => "mount " ++ path ++ " has an empty ufs"

/-- Checks the location of the root, and then those of the mounts in order. -/
def validate (c : Settings) : Except Fault Unit :=
  if c.rootUfs = some "" then .error .emptyRootUfs
  else
    match c.mounts.find? fun m => m.ufs = "" with
    | some m => .error (.emptyMountUfs m.path)
    | none => .ok ()

end Settings

end NearestMount
