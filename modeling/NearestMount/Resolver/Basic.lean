import NearestMount.Cache.Edit
import NearestMount.Table.Basic

/-! # The resolver

    The resolver answers which mount point covers a path. It keeps the table of mounts
    and, in front of it, a cache of answers; every change of the table goes together
    with the changes of the cache that keep the remembered answers right.

    Each call answers with an `Outcome`: the answer or the error, the resolver
    afterwards, and the events that tell of the call.

    Mounting at a path can change the answer only for paths whose answer was the mount
    point that encloses it, so only those are forgotten, and the enclosing mount point
    is classified anew. Unmounting forgets the paths whose answer was the mount point
    that is gone.
-/

namespace NearestMount

/-- A table of mounts with its cache. -/
structure Resolver where
  table : Table
  cache : Cache
  /-- The location behind the permanent mount of the root, if there is one. -/
  rootUfs : Option String
  /-- True if a mount point is remembered as its own answer when it is mounted. -/
  preseed : Bool

/-- What a call comes to. -/
structure Outcome (α : Type) where
  answer : Except Error α
  next : Resolver
  events : List Event

/-- The same outcome with its answer mapped. -/
def Outcome.map {α β : Type} (f : α → β) (o : Outcome α) : Outcome β :=
  { o with answer := o.answer.map f }

namespace Resolver

/-- The resolver without mounts and settings of its own. -/
def empty : Resolver := ⟨.empty, .empty, none, true⟩

instance : Inhabited Resolver := ⟨empty⟩

/-! ## Outcomes -/

/-- The outcome of a call that changes nothing. -/
def unchanged {α : Type} (r : Resolver) (answer : Except Error α) : Outcome α :=
  ⟨answer, r, []⟩

@[simp] theorem answer_unchanged {α : Type} (r : Resolver) (answer : Except Error α) :
    (r.unchanged answer).answer = answer := rfl

@[simp] theorem next_unchanged {α : Type} (r : Resolver) (answer : Except Error α) :
    (r.unchanged answer).next = r := rfl

/-- The outcome of a call that puts a new table in place and makes the changes of the
    cache that go with it. -/
def adopt {α : Type} (r : Resolver) (table : Table) (edits : List Cache.Edit)
    (last : Event) (a : α) : Outcome α where
  answer := .ok a
  next := { r with table, cache := r.cache.applyAll edits }
  events := r.cache.tale edits ++ [last]

/-! ## Mounting and unmounting -/

/-- Remembers a mount point as its own answer, if that is wanted. -/
def seed (r : Resolver) (mountPoint : String) : List Cache.Edit :=
  if r.preseed then [.add mountPoint mountPoint] else []

/-- What a mount at `target` changes in the cache; `table` is the table afterwards. -/
def mountEdits (r : Resolver) (table : Table) (target : Path) : List Cache.Edit :=
  (match table.enclosing? target with
    | some parent =>
      -- the purge takes the parent's own entry too, so it is put back
      .purge parent.text :: .classify parent.text true :: r.seed parent.text
    | none => []) ++
  .classify target.text (table.hasBeneath target) :: r.seed target.text

/-- Mounts `ufs` at a path. -/
def mount (r : Resolver) (path ufs : String) : Outcome Unit :=
  match Path.read path with
  | .error e => r.unchanged (.error e)
  | .ok target =>
    match r.table.mount target ufs with
    | .error e => r.unchanged (.error e)
    | .ok (info, table) =>
      r.adopt table (r.mountEdits table target) (.mounted info.ufs target.text) ()

/-- What the unmount of `target` changes in the cache; `table` is the table
    afterwards. -/
def unmountEdits (table : Table) (target : Path) : List Cache.Edit :=
  .purge target.text :: .declassify target.text ::
    (match table.enclosing? target with
      | some parent => [.classify parent.text (table.hasBeneath parent)]
      | none => [])

/-- Takes away the mount at a path. -/
def unmount (r : Resolver) (path : String) : Outcome Mount :=
  match Path.read path with
  | .error e => r.unchanged (.error e)
  | .ok target =>
    match r.table.unmount target with
    | .error e => r.unchanged (.error e)
    | .ok (info, table) =>
      r.adopt table (unmountEdits table target) (.unmounted info.ufs info.path) info

/-! ## Questions -/

/-- The mount point that covers a path. An answer that is not remembered is looked up
    in the table, and remembered. -/
def resolve (r : Resolver) (path : String) : Outcome String :=
  match r.cache.get? path with
  | some mountPoint => r.unchanged (.ok mountPoint)
  | none =>
    match Path.read path with
    | .error e => r.unchanged (.error e)
    | .ok target =>
      match r.table.covering? target with
      | none => r.unchanged (.error (.uncovered path))
      | some mountPoint =>
        { answer := .ok mountPoint.text
          next := { r with cache := r.cache.add path mountPoint.text }
          events := [.resolved path mountPoint.text, .cached path mountPoint.text] }

/-- The mount that covers a path. -/
def mountCovering (r : Resolver) (path : String) : Outcome Mount :=
  let resolved := r.resolve path
  { resolved with
    answer :=
      match resolved.answer with
      | .error e => .error e
      | .ok mountPoint =>
        match r.table.get? mountPoint with
        | some found => .ok found
        | none => .error (.uncovered mountPoint) }

/-- True if a path is itself a mount point. -/
def isMounted (r : Resolver) (path : String) : Outcome Bool :=
  r.unchanged ((Path.read path).map r.table.isMounted)

/-- True if there are mount points beneath the mount point at a path. A classification
    that is not remembered is made, and remembered. -/
def hasBeneath (r : Resolver) (path : String) : Outcome Bool :=
  match Path.read path with
  | .error e => r.unchanged (.error e)
  | .ok target =>
    if r.table.isMounted target then
      match r.cache.isNested? path with
      | some isNested => r.unchanged (.ok isNested)
      | none =>
        let isNested := r.table.hasBeneath target
        { answer := .ok isNested
          next := { r with cache := r.cache.classify path isNested }
          events := [] }
    else r.unchanged (.error (.vacant path))

/-- All mounts, in the order of their paths. -/
def mounts (r : Resolver) : List Mount := r.table.list

/-- A line that describes the resolver without its mounts. -/
def describe (r : Resolver) : String :=
  "MountResolver \x7b table: \"<locked>\", cached: " ++ r.cache.size.repr ++
    ", preseed_on_mount: " ++ (if r.preseed then "true" else "false") ++ " \x7d"

end Resolver

end NearestMount
