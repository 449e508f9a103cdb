import NearestMount.Proofs.Table.Answers
import NearestMount.Resolver.Command

/-! # The namespace as a plain map

    A `MountMap` is all that a resolver is about, without a table, an index or a cache:
    a finite map from paths to locations, and the location of the permanent root if
    there is one. Every answer is computed from the map by looking at its keys:

    - `mount`, `unmount` and `reload` answer with the map afterwards.
    - `resolve` tries the path itself and then its ancestors, from the lowest up;
      `nearest?_eq_some_iff` says that this finds the longest key that covers the path.
    - `next` is what a call of a resolver makes of the map.
-/

namespace NearestMount

/-- The path itself and its ancestors, from the lowest up. -/
def Path.ancestors (p : Path) : List Path :=
  (List.range (p.depth + 1)).reverse.map p.take

/-- The locations by path, and the location of the permanent root if there is one. -/
structure MountMap where
  ufs : Std.ExtTreeMap String String
  root : Option String

namespace MountMap

/-- The map with nothing but the permanent root, if there is one. -/
def bare (root : Option String) : MountMap where
  ufs :=
    match root with
    | some ufs => (∅ : Std.ExtTreeMap String String).insert "/" ufs
    | none => ∅
  root := root

/-- The location at a path. -/
def get? (M : MountMap) (path : String) : Option String := M.ufs[path]?

/-- Something is mounted at `p`. -/
def Mounted (M : MountMap) (p : Path) : Prop := (M.get? p.text).isSome = true

instance (M : MountMap) (p : Path) : Decidable (M.Mounted p) :=
  inferInstanceAs (Decidable (_ = _))

/-! ## Changes -/

/-- The map with one key more, unless the path is no path or a key already. -/
def mount (M : MountMap) (path ufs : String) : Except Error MountMap :=
  match Path.parse path with
  | .error fault => .error (.invalidPath path fault)
  | .ok p =>
    if M.Mounted p then .error (.occupied path)
    else .ok { M with ufs := M.ufs.insert path ufs }

/-- The mount that goes and the map without it, unless the path is no path, the
    permanent root or no key. -/
def unmount (M : MountMap) (path : String) : Except Error (Mount × MountMap) :=
  match Path.parse path with
  | .error fault => .error (.invalidPath path fault)
  | .ok p =>
    if p = .root ∧ M.root.isSome then .error .rootPinned
    else
      match M.get? path with
      | none => .error (.vacant path)
      | some ufs => .ok (⟨path, ufs⟩, { M with ufs := M.ufs.erase path })

/-- Mounts the entries of a list from left to right; entries for a permanent root are
    passed over. -/
def load (M : MountMap) : List Mount → Except Error MountMap
  | [] => .ok M
  | m :: ms =>
    if m.path = "/" ∧ M.root.isSome then M.load ms
    else
      match M.mount m.path m.ufs with
      | .error e => .error e
      | .ok M => M.load ms

/-- The map of a list of mounts. -/
def reload (M : MountMap) (mounts : List Mount) : Except Error MountMap :=
  (bare M.root).load mounts

/-- The map after a call of a resolver. A call that is refused leaves it as it was, and
    so does every question and every direct call of the cache. -/
def next (M : MountMap) : Resolver.Command → MountMap
  | .mount path ufs =>
    match M.mount path ufs with
    | .ok after => after
    | .error _ => M
  | .unmount path =>
    match M.unmount path with
    | .ok (_, after) => after
    | .error _ => M
  | .reload mounts =>
    match M.reload mounts with
    | .ok after => after
    | .error _ => M
  | _ => M

/-- The map after some calls, in order. -/
def run (M : MountMap) (calls : List Resolver.Command) : MountMap := calls.foldl next M

/-! ## Questions -/

/-- All mounts, in the order of their paths. -/
def mounts (M : MountMap) : List Mount := M.ufs.toList.map fun (path, ufs) => ⟨path, ufs⟩

/-- True if a path is a key. -/
def isMounted (M : MountMap) (path : String) : Except Error Bool :=
  match Path.parse path with
  | .error fault => .error (.invalidPath path fault)
  | .ok p => .ok (decide (M.Mounted p))

/-- The longest key that covers `p`. -/
def nearest? (M : MountMap) (p : Path) : Option Path :=
  p.ancestors.find? fun q => decide (M.Mounted q)

/-- The longest key that covers a path. -/
def resolve (M : MountMap) (path : String) : Except Error String :=
  match Path.parse path with
  | .error fault => .error (.invalidPath path fault)
  | .ok p =>
    match M.nearest? p with
    | some q => .ok q.text
    | none => .error (.uncovered path)

/-- The mount at the longest key that covers a path. -/
def mountCovering (M : MountMap) (path : String) : Except Error Mount :=
  match Path.parse path with
  | .error fault => .error (.invalidPath path fault)
  | .ok p =>
    match (M.nearest? p).bind fun q => (M.get? q.text).map fun ufs => Mount.mk q.text ufs with
    | some info => .ok info
    | none => .error (.uncovered path)

/-- True if some key other than `p` is covered by `p`. -/
def anyBeneath (M : MountMap) (p : Path) : Bool :=
  M.mounts.any fun m =>
    match Path.parse m.path with
    | .ok q => p.covers q && q ≠ p
    | .error _ => false

/-- True if another key lies beneath the key `path`. -/
def hasBeneath (M : MountMap) (path : String) : Except Error Bool :=
  match Path.parse path with
  | .error fault => .error (.invalidPath path fault)
  | .ok p => if M.Mounted p then .ok (M.anyBeneath p) else .error (.vacant path)

/-! ## Written forms of paths -/

variable (M : MountMap) (p : Path)

theorem resolve_text : M.resolve p.text =
    match M.nearest? p with
    | some q => .ok q.text
    | none => .error (.uncovered p.text) := by
  rw [resolve, Path.parse_text]

theorem mountCovering_text : M.mountCovering p.text =
    match (M.nearest? p).bind fun q => (M.get? q.text).map fun ufs => Mount.mk q.text ufs with
    | some info => .ok info
    | none => .error (.uncovered p.text) := by
  rw [mountCovering, Path.parse_text]

theorem hasBeneath_text : M.hasBeneath p.text =
    if M.Mounted p then .ok (M.anyBeneath p) else .error (.vacant p.text) := by
  rw [hasBeneath, Path.parse_text]

end MountMap

/-! ## The longest key -/

theorem Path.mem_ancestors_iff {p q : Path} : q ∈ p.ancestors ↔ q.covers p = true := by
  simp only [ancestors, List.mem_map, List.mem_reverse, List.mem_range]
  constructor
  · intro hexists
    obtain ⟨depth, -, rfl⟩ := hexists
    exact take_covers p depth
  · intro hcovers
    exact ⟨q.depth, Nat.lt_succ_of_le (depth_le_of_covers hcovers), (eq_take_of_covers hcovers).symm⟩

/-- Of two ancestors the one that comes later covers the other. -/
theorem Path.pairwise_ancestors (p : Path) :
    p.ancestors.Pairwise fun lower higher => higher.covers lower = true := by
  rw [ancestors, List.pairwise_map, List.pairwise_reverse]
  refine List.pairwise_lt_range.imp ?_
  intro higher lower hlt
  apply covers_of_depth_le (take_covers p higher) (take_covers p lower)
  rw [depth_take, depth_take]
  omega

theorem MountMap.nearest_of_nearest? {M : MountMap} {p q : Path} (h : M.nearest? p = some q) :
    Path.Nearest M.Mounted p q := by
  rw [nearest?, List.find?_eq_some_iff_append] at h
  obtain ⟨hq, lower, higher, hsplit, hlower⟩ := h
  have hcovers : q ∈ p.ancestors := by
    rw [hsplit]
    simp
  refine ⟨of_decide_eq_true hq, Path.mem_ancestors_iff.mp hcovers, ?_⟩
  intro r hr hrcovers
  have hmem : r ∈ lower ++ q :: higher := by
    rw [← hsplit]
    exact Path.mem_ancestors_iff.mpr hrcovers
  have hpairwise := p.pairwise_ancestors
  rw [hsplit, List.pairwise_append, List.pairwise_cons] at hpairwise
  rcases List.mem_append.mp hmem with hin | hin
  · -- a key further down would have been found first
    have hnot := hlower r hin
    simp [hr] at hnot
  · rcases List.mem_cons.mp hin with rfl | hrest
    · exact Path.covers_self r
    · exact hpairwise.2.1.1 r hrest

/-- The search from the path upwards finds the longest key that covers it. -/
theorem MountMap.nearest?_eq_some_iff {M : MountMap} {p q : Path} :
    M.nearest? p = some q ↔ Path.Nearest M.Mounted p q := by
  constructor
  · exact nearest_of_nearest?
  · intro hnearest
    cases hfound : M.nearest? p with
    | none =>
      rw [nearest?, List.find?_eq_none] at hfound
      have hnot := hfound q (Path.mem_ancestors_iff.mpr hnearest.covers)
      exact absurd hnearest.member (by simpa using hnot)
    | some r => rw [(nearest_of_nearest? hfound).unique hnearest]

end NearestMount
