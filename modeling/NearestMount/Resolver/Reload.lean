import NearestMount.Resolver.Basic
import NearestMount.Table.Load

/-! # Replacing all mounts at once

    `Resolver.reload` fills a new table from a list and puts it in place only if every
    entry could be mounted. The cache starts over: answers and the classifications of
    the old mounts are forgotten, those of the new ones are made.

    `Resolver.ofSettings` sets up a resolver by reloading the configured mounts, once the
    settings are checked and there is room for the cache.
-/

namespace NearestMount.Resolver

/-- The table with nothing but the permanent mount of the root, if there is to be
    one. -/
def emptyTable (r : Resolver) : Table :=
  match r.rootUfs with
  | some ufs => .withRoot ufs
  | none => .empty

/-- The changes of the cache that some mounts of a table call for, and the error of the
    first one whose path cannot be read. -/
def settleEdits (r : Resolver) (table : Table) : List Mount → List Cache.Edit × Option Error
  | [] => ([], none)
  | m :: ms =>
    match Path.read m.path with
    | .error e => ([], some e)
    | .ok p =>
      let (edits, fault) := r.settleEdits table ms
      (.classify m.path (table.hasBeneath p) :: r.seed m.path ++ edits, fault)

/-- Puts a new table in place and lets the cache start over. -/
def replace (r : Resolver) (table : Table) : Outcome Unit :=
  let forget : List Cache.Edit := r.table.list.map fun m => .declassify m.path
  let (settle, fault) := r.settleEdits table table.list
  let edits := .clear :: forget ++ settle
  match fault with
  | none => r.adopt table edits (.reloaded table.size) ()
  -- the new table stays in place, with the cache as far as it was settled
  | some e => { r.adopt table edits (.reloaded table.size) () with
      answer := .error e
      events := r.cache.tale edits }

/-- Replaces all mounts by those of a list. A permanent mount of the root stays, and
    entries of the list for the root give way to it. If an entry is refused, nothing is
    replaced. -/
def reload (r : Resolver) (mounts : List Mount) : Outcome Unit :=
  let loaded := r.emptyTable.load mounts
  let passed := loaded.passedOver.map Event.rootKept
  match loaded.table with
  | .error e => { r.unchanged (.error e) with events := passed }
  | .ok table =>
    let replaced := r.replace table
    { replaced with events := passed ++ replaced.events }

/-- How a setup ends if no resolver comes of it. -/
inductive SetupFailure where
  /-- The settings, or one of their mounts, are refused. -/
  | refused (e : Error)
  /-- There is no room for the cache. No error says so: the program stops. -/
  | noRoom
  deriving DecidableEq, Repr

/-- A resolver with the given settings, and the events of its setup. -/
def ofSettings (memory : Memory) (c : Settings) :
    Except SetupFailure (Resolver × List Event) :=
  match c.validate with
  | .error fault => .error (.refused (.settings fault))
  | .ok () =>
    -- the cache is made before any mount is looked at
    match Cache.ofCapacities? memory c.capacities with
    | none => .error .noRoom
    | some cache =>
      let fresh : Resolver := ⟨.empty, cache, c.rootUfs, c.preseed⟩
      let loaded := fresh.reload c.mounts
      match loaded.answer with
      | .error e => .error (.refused e)
      | .ok () => .ok (loaded.next, loaded.events)

end NearestMount.Resolver
