import NearestMount.Cache.Basic
import NearestMount.Event

/-! # Changes to the cache

    The changes that the cache knows, as data, so that a list of them can be made and
    told of in one go: `Cache.applyAll` makes them in order and `Cache.tale` lists the
    events that go with them.

    A `Cache.Command` is a change or a question; `Cache.exec` carries it out.
-/

namespace NearestMount.Cache

/-- A change to the cache. -/
inductive Edit where
  | add (path mountPoint : String)
  | purge (mountPoint : String)
  | clear
  | classify (mountPoint : String) (isNested : Bool)
  | declassify (mountPoint : String)
  deriving DecidableEq, Repr

/-- The cache after a change. -/
def apply (c : Cache) : Edit → Cache
  | .add path mountPoint => c.add path mountPoint
  | .purge mountPoint => c.purge mountPoint
  | .clear => c.clear
  | .classify mountPoint isNested => c.classify mountPoint isNested
  | .declassify mountPoint => c.declassify mountPoint

/-- The event that tells of a change. Classifications are not told of. -/
def event? (c : Cache) : Edit → Option Event
  | .add path mountPoint => some (.cached path mountPoint)
  | .purge mountPoint => some (.purged (c.purgeCount mountPoint) mountPoint)
  | .clear => some .cleared
  | .classify .. | .declassify .. => none

/-- The cache after some changes, in order. -/
def applyAll (c : Cache) (edits : List Edit) : Cache := edits.foldl apply c

/-- The events that tell of some changes, in order. -/
def tale (c : Cache) : List Edit → List Event
  | [] => []
  | e :: edits => (c.event? e).toList ++ (c.apply e).tale edits

@[simp] theorem applyAll_nil (c : Cache) : c.applyAll [] = c := rfl

@[simp] theorem applyAll_cons (c : Cache) (e : Edit) (edits : List Edit) :
    c.applyAll (e :: edits) = (c.apply e).applyAll edits := rfl

theorem applyAll_append (c : Cache) (front back : List Edit) :
    c.applyAll (front ++ back) = (c.applyAll front).applyAll back :=
  List.foldl_append

/-! ## Commands -/

/-- A call of the cache. -/
inductive Command where
  | get (path : String)
  | isNested (mountPoint : String)
  | size
  | edit (e : Edit)
  deriving DecidableEq, Repr

/-- The answer to a call. -/
inductive Answer where
  | mountPoint (found : Option String)
  | isNested (found : Option Bool)
  | size (count : Nat)
  /-- A change was made that has nothing to answer. -/
  | done
  /-- Number of paths forgotten. -/
  | purged (count : Nat)
  /-- Whether there was a classification to forget. -/
  | declassified (known : Bool)
  deriving DecidableEq, Repr

/-- The answer to a call. -/
def answer (c : Cache) : Command → Answer
  | .get path => .mountPoint (c.get? path)
  | .isNested mountPoint => .isNested (c.isNested? mountPoint)
  | .size => .size c.size
  | .edit (.purge mountPoint) => .purged (c.purgeCount mountPoint)
  | .edit (.declassify mountPoint) => .declassified (c.isClassified mountPoint)
  | .edit _ => .done

/-- The cache after a call. -/
def exec (c : Cache) : Command → Cache
  | .edit e => c.apply e
  | .get _ | .isNested _ | .size => c

/-- The cache after some calls, in order. -/
def run (c : Cache) (calls : List Command) : Cache := calls.foldl exec c

@[simp] theorem run_nil (c : Cache) : c.run [] = c := rfl

@[simp] theorem run_cons (c : Cache) (call : Command) (calls : List Command) :
    c.run (call :: calls) = (c.exec call).run calls := rfl

theorem run_append (c : Cache) (front back : List Command) :
    c.run (front ++ back) = (c.run front).run back :=
  List.foldl_append

/-- The events that tell of a call. -/
def events (c : Cache) : Command → List Event
  | .edit e => (c.event? e).toList
  | .get _ | .isNested _ | .size => []

end NearestMount.Cache
