import NearestMount.Table.Basic

/-! # Filling a table from a list

    `Table.load` mounts the entries of a list from left to right and stops at the
    first that is refused. Entries for the root give way to a root that is mounted for
    good.
-/

namespace NearestMount.Table

/-- What filling a table came to: the table, or the error of the first entry that was
    refused; and the locations of the root entries passed over on the way. -/
structure Loaded where
  table : Except Error Table
  passedOver : List String

/-- Mounts the entries of a list, in order. -/
def load (t : Table) : List Mount → Loaded
  | [] => ⟨.ok t, []⟩
  | m :: ms =>
    match Path.read m.path with
    | .error e => ⟨.error e, []⟩
    | .ok p =>
      if p.isRoot && t.pinnedRoot then
        let loaded := t.load ms
        { loaded with passedOver := m.ufs :: loaded.passedOver }
      else
        match t.mount p m.ufs with
        | .error e => ⟨.error e, []⟩
        | .ok (_, t) => t.load ms

end NearestMount.Table
