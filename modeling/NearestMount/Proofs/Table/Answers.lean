import NearestMount.Proofs.Table.Consistent
import NearestMount.Proofs.Trie.Levels

/-! # What a table answers

    In a consistent table every question to the index is a question about the mount
    points. `Path.Nearest` is the lowest path of a family that covers a given one; the
    answers are measured against it:

    - `Consistent.covering?_eq_some_iff` and `Consistent.enclosing?_eq_some_iff` say
      what covers a path, and what encloses it.
    - `Consistent.hasBeneath_iff` says what lies strictly beneath.
    - `Reachable.halves_agree` says that the two halves of a table never part.
-/

namespace NearestMount

/-! ## The nearest path of a family -/

namespace Path

/-- `q` is the lowest path of the family that is `p` or one of its ancestors. -/
structure Nearest (family : Path → Prop) (p q : Path) : Prop where
  member : family q
  covers : q.covers p = true
  lowest : ∀ r, family r → r.covers p = true → r.covers q = true

theorem Nearest.unique {family : Path → Prop} {p q r : Path} (hq : Nearest family p q)
    (hr : Nearest family p r) : q = r :=
  covers_antisymm (hr.lowest q hq.member hq.covers) (hq.lowest r hr.member hr.covers)

theorem nearest_congr {family other : Path → Prop} {p q : Path}
    (h : ∀ r, r.covers p = true → (family r ↔ other r)) :
    Nearest family p q ↔ Nearest other p q := by
  constructor
  · intro hq
    exact ⟨(h q hq.covers).mp hq.member, hq.covers,
      fun r hr hcovers => hq.lowest r ((h r hcovers).mpr hr) hcovers⟩
  · intro hq
    exact ⟨(h q hq.covers).mpr hq.member, hq.covers,
      fun r hr hcovers => hq.lowest r ((h r hcovers).mp hr) hcovers⟩

end Path

namespace Table

variable {t : Table}

/-! ## What covers a path -/

theorem Consistent.isMounted_iff (h : t.Consistent) {p : Path} :
    t.isMounted p = true ↔ t.Mounted p := by
  rw [← h.holds_segments_iff, ← Trie.isSome_whole?_iff_holds]
  rfl

theorem Consistent.holds_take_iff (h : t.Consistent) {p : Path} {depth : Nat} :
    t.index.Qualifies true (p.segments.take depth) ↔ t.Mounted (p.take depth) := by
  rw [Trie.qualifies_true_iff_holds, ← h.holds_segments_iff, Path.segments_take]

theorem Consistent.nearest_of_covering? (h : t.Consistent) {p q : Path}
    (hq : t.covering? p = some q) : Path.Nearest t.Mounted p q := by
  obtain ⟨m, hm, rfl⟩ := Option.map_eq_some_iff.mp hq
  have hlowest := Trie.lowestAlong_of_deepest?_eq_some hm
  have hdepth : (p.take m.depth).depth = m.depth := by
    rw [Path.depth_take]
    exact Nat.min_eq_left hlowest.depth_le
  refine ⟨?_, Path.take_covers p m.depth, ?_⟩
  · exact h.holds_take_iff.mp ⟨m.node, hlowest.at?_eq, hlowest.qualifies⟩
  · intro r hr hcovers
    apply Path.covers_of_depth_le hcovers (Path.take_covers p m.depth)
    rw [hdepth]
    apply Nat.not_lt.mp
    intro hlt
    -- a mount point further down would have been found instead
    apply hlowest.none_lower r.depth hlt (Path.depth_le_of_covers hcovers)
    rw [h.holds_take_iff, ← Path.eq_take_of_covers hcovers]
    exact hr

theorem Consistent.not_mounted_of_covering?_eq_none (h : t.Consistent) {p r : Path}
    (hnone : t.covering? p = none) (hcovers : r.covers p = true) : ¬ t.Mounted r := by
  have hdeepest := Option.map_eq_none_iff.mp hnone
  rw [Path.eq_take_of_covers hcovers, ← h.holds_take_iff]
  exact Trie.not_qualifies_of_deepest?_eq_none hdeepest r.depth

/-- The mount point that covers a path is the nearest one. -/
theorem Consistent.covering?_eq_some_iff (h : t.Consistent) {p q : Path} :
    t.covering? p = some q ↔ Path.Nearest t.Mounted p q := by
  constructor
  · exact h.nearest_of_covering?
  · intro hnearest
    cases hfound : t.covering? p with
    | none =>
      exact absurd hnearest.member (h.not_mounted_of_covering?_eq_none hfound hnearest.covers)
    | some r => rw [(h.nearest_of_covering? hfound).unique hnearest]

/-- What covers a path depends only on what is mounted at its ancestors. -/
theorem Consistent.covering?_congr {u : Table} (ht : t.Consistent) (hu : u.Consistent) {p : Path}
    (hsame : ∀ r, r.covers p = true → (t.Mounted r ↔ u.Mounted r)) :
    t.covering? p = u.covering? p := by
  apply Option.ext
  intro q
  rw [ht.covering?_eq_some_iff, hu.covering?_eq_some_iff]
  exact Path.nearest_congr hsame

theorem Consistent.covering?_of_mounted (h : t.Consistent) {p : Path} (hp : t.Mounted p) :
    t.covering? p = some p :=
  h.covering?_eq_some_iff.mpr ⟨hp, Path.covers_self p, fun _ _ hcovers => hcovers⟩

/-! ## What encloses a path -/

/-- The mount point that encloses a path is the nearest one but for the path itself. -/
theorem Consistent.enclosing?_eq_some_iff (h : t.Consistent) {p q : Path} :
    t.enclosing? p = some q ↔ Path.Nearest (fun r => r ≠ p ∧ t.Mounted r) p q := by
  unfold enclosing?
  cases hparent : p.parent? with
  | none =>
    obtain rfl := Path.parent?_eq_none_iff.mp hparent
    simp only [Option.bind_none, reduceCtorEq, false_iff]
    intro hnearest
    have hroot := Path.covers_antisymm hnearest.covers (Path.root_covers q)
    exact hnearest.member.1 hroot
  | some parent =>
    rw [Option.bind_some, h.covering?_eq_some_iff]
    constructor
    · intro hnearest
      obtain ⟨hcovers, hne⟩ := (Path.covers_parent?_iff hparent).mp hnearest.covers
      refine ⟨⟨hne, hnearest.member⟩, hcovers, ?_⟩
      intro r hfamily hrcovers
      obtain ⟨hr, hmounted⟩ := hfamily
      exact hnearest.lowest r hmounted ((Path.covers_parent?_iff hparent).mpr ⟨hrcovers, hr⟩)
    · intro hboth
      obtain ⟨⟨hne, hmounted⟩, hcovers, hlowest⟩ := hboth
      refine ⟨hmounted, (Path.covers_parent?_iff hparent).mpr ⟨hcovers, hne⟩, ?_⟩
      intro r hr hrparent
      obtain ⟨hrcovers, hrne⟩ := (Path.covers_parent?_iff hparent).mp hrparent
      exact hlowest r ⟨hrne, hr⟩ hrcovers

/-- A mount point strictly above a path shows that something encloses the path. -/
theorem Consistent.exists_enclosing? (h : t.Consistent) {p r : Path} (hr : t.Mounted r)
    (hcovers : r.covers p = true) (hne : r ≠ p) :
    ∃ q, t.enclosing? p = some q ∧ r.covers q = true := by
  unfold enclosing?
  cases hparent : p.parent? with
  | none =>
    obtain rfl := Path.parent?_eq_none_iff.mp hparent
    exact absurd (Path.covers_antisymm hcovers (Path.root_covers r)) hne
  | some parent =>
    have hrparent := (Path.covers_parent?_iff hparent).mpr ⟨hcovers, hne⟩
    cases hfound : t.covering? parent with
    | none => exact absurd hr (h.not_mounted_of_covering?_eq_none hfound hrparent)
    | some q => exact ⟨q, hfound, (h.nearest_of_covering? hfound).lowest r hr hrparent⟩

/-! ## What lies beneath a path -/

/-- There is something beneath a path exactly if some other mount point is covered by
    it. -/
theorem Consistent.hasBeneath_iff (h : t.Consistent) {p : Path} :
    t.hasBeneath p = true ↔ ∃ q, t.Mounted q ∧ p.covers q = true ∧ q ≠ p := by
  have hfound : t.hasBeneath p = true ↔
      ∃ node, t.index.at? p.segments = some node ∧ node.hasNestedTerminal false = true := by
    cases hat : t.index.at? p.segments <;>
      simp [hasBeneath, Trie.lookup?, Trie.whole?, Trie.qualifies, Option.filter, hat]
  rw [hfound]
  constructor
  · intro hexists
    obtain ⟨node, hat, hnested⟩ := hexists
    obtain ⟨rest, hheld, hne⟩ := Trie.hasNestedTerminal_iff.mp hnested
    have hlong : t.index.Holds (p.segments ++ rest) := by
      rw [Trie.Holds, Trie.flag?, Trie.at?_append, hat]
      exact hheld
    obtain ⟨q, hq, hmounted⟩ := (h.holds_iff _).mp hlong
    refine ⟨q, hmounted, Path.covers_iff.mpr ⟨rest, hq.symm⟩, ?_⟩
    intro heq
    subst heq
    have hnil : rest = [] := by simpa using hq
    exact hne.resolve_left (by simp) hnil
  · intro hexists
    obtain ⟨q, hmounted, hcovers, hne⟩ := hexists
    obtain ⟨rest, hrest⟩ := Path.covers_iff.mp hcovers
    have hheld := h.holds_segments_iff.mpr hmounted
    rw [← hrest, Trie.Holds, Trie.flag?, Trie.at?_append] at hheld
    obtain ⟨below, hbelow, hterminal⟩ := Option.map_eq_some_iff.mp hheld
    obtain ⟨node, hat, hrestat⟩ := Option.bind_eq_some_iff.mp hbelow
    refine ⟨node, hat, Trie.hasNestedTerminal_iff.mpr ⟨rest, ?_, Or.inr ?_⟩⟩
    · rw [Trie.Holds, Trie.flag?_of_at? hrestat, hterminal]
    · intro heq
      subst heq
      exact hne (Path.ext (by simpa using hrest.symm))

/-! ## The list of all mounts -/

theorem Consistent.mem_list_iff (h : t.Consistent) {info : Mount} :
    info ∈ t.list ↔ t.get? info.path = some info := by
  simp only [list, List.mem_map, Prod.exists, exists_eq_right]
  constructor
  · intro hexists
    obtain ⟨path, hmem⟩ := hexists
    have hget : t.get? path = some info := Std.ExtTreeMap.mem_toList_iff_getElem?_eq_some.mp hmem
    rwa [(h.keyed path info hget).1]
  · intro hget
    exact ⟨info.path, Std.ExtTreeMap.mem_toList_iff_getElem?_eq_some.mpr hget⟩

/-- The mounts of a consistent table have paths. -/
theorem Consistent.readable (h : t.Consistent) :
    ∀ m ∈ t.list, ∃ p : Path, p.text = m.path := by
  intro m hmem
  exact (h.keyed m.path m (h.mem_list_iff.mp hmem)).2

/-- No two mounts of a table have the same path. -/
theorem Consistent.nodup_paths (h : t.Consistent) : (t.list.map Mount.path).Nodup := by
  have hpaths : t.list.map Mount.path = t.mounts.toList.map (·.1) := by
    rw [list, List.map_map]
    apply List.map_congr_left
    intro entry hmem
    exact (h.keyed entry.1 entry.2 (Std.ExtTreeMap.mem_toList_iff_getElem?_eq_some.mp hmem)).1
  rw [hpaths, List.Nodup, List.pairwise_map]
  refine Std.ExtTreeMap.distinct_keys_toList.imp ?_
  intro entry other hdistinct heq
  exact hdistinct (Std.LawfulEqCmp.compare_eq_iff_eq.mpr heq)

theorem Consistent.nodup_list (h : t.Consistent) : t.list.Nodup :=
  List.Pairwise.of_map Mount.path (fun _ _ hne heq => hne (congrArg Mount.path heq)) h.nodup_paths

/-- The list of all mounts says at which paths something is mounted. -/
theorem Consistent.isSome_get?_iff (h : t.Consistent) {path : String} :
    (t.get? path).isSome = true ↔ ∃ info ∈ t.list, info.path = path := by
  rw [Option.isSome_iff_exists]
  constructor
  · intro hexists
    obtain ⟨info, hget⟩ := hexists
    have hpath := (h.keyed path info hget).1
    refine ⟨info, h.mem_list_iff.mpr ?_, hpath⟩
    rwa [hpath]
  · intro hexists
    obtain ⟨info, hmem, rfl⟩ := hexists
    exact ⟨info, h.mem_list_iff.mp hmem⟩

/-- A consistent index is determined by the list of the mounts. -/
theorem Consistent.same_index {u : Table} (ht : t.Consistent) (hu : u.Consistent)
    (hlist : t.list = u.list) : t.index.Same u.index := by
  apply ht.pruned.same_of_holds_iff hu.pruned
  intro sequence
  rw [ht.holds_iff, hu.holds_iff]
  simp only [Mounted, ht.isSome_get?_iff, hu.isSome_get?_iff, hlist]

/-! ## The two halves never part -/

theorem Consistent.isSome_coveringMount?_iff (h : t.Consistent) {p : Path} :
    (t.coveringMount? p).isSome = true ↔ (t.covering? p).isSome = true := by
  unfold coveringMount?
  cases hfound : t.covering? p with
  | none => simp
  | some q =>
    have hmounted : (t.get? q.text).isSome = true := (h.nearest_of_covering? hfound).member
    simpa using hmounted

/-- In every table that comes from a new one by mounting and unmounting, calls that are
    refused included: the index holds exactly the segments of the mount points; every
    mount is kept under its own path, which reads as a path; every leaf of the index
    but its root is terminal; and a root that is mounted for good is mounted. So
    whatever is mounted can be withdrawn from the index, the two ways of asking whether
    a path is mounted agree, every mount point that covers a path has its mount, and
    the index depends on the list of mounts alone. -/
theorem Reachable.halves_agree (h : t.Reachable) :
    (∀ sequence, t.index.Holds sequence ↔
      ∃ p : Path, p.segments = sequence ∧ (t.get? p.text).isSome = true) ∧
    (∀ path info, t.get? path = some info →
      info.path = path ∧ ∃ p, Path.parse path = .ok p) ∧
    (∀ address node, address ≠ [] → t.index.at? address = some node →
      node.isLeaf = true → node.terminal = true) ∧
    (t.pinnedRoot = true → (t.get? "/").isSome = true) ∧
    (∀ p : Path, (t.get? p.text).isSome = true → (t.index.remove? p.segments).isSome = true) ∧
    (∀ p, t.isMounted p = true ↔ (t.get? p.text).isSome = true) ∧
    (∀ p, (t.coveringMount? p).isSome = true ↔ (t.covering? p).isSome = true) ∧
    (∀ u : Table, u.Reachable → u.list = t.list → u.pinnedRoot = t.pinnedRoot →
      u.index.Same t.index) := by
  have hc := h.consistent
  refine ⟨hc.holds_iff, ?_, hc.pruned, hc.pinned, ?_, ?_, ?_, ?_⟩
  · intro path info hget
    obtain ⟨hpath, p, hp⟩ := hc.keyed path info hget
    exact ⟨hpath, p, Path.parse_eq_ok_iff.mpr hp⟩
  · intro p hmounted
    obtain ⟨removed, index, hremove⟩ := hc.exists_remove? hmounted
    simp [hremove]
  · intro p
    exact hc.isMounted_iff
  · intro p
    exact hc.isSome_coveringMount?_iff
  · intro u hu hlist _
    exact hu.consistent.same_index hc hlist

/-- A mount that comes and goes leaves no trace in the index. -/
theorem same_index_after_unmount :
    let a : Path := .cons "a" (by decide) .root
    let ab : Path := .cons "a" (by decide) (.cons "b" (by decide) .root)
    let short := (withRoot "s3://r").change (.mount ab "s3://ab")
    let long := (((withRoot "s3://r").change (.mount a "s3://a")).change (.mount ab "s3://ab")).change
      (.unmount a)
    long.index.Same short.index := by
  intro a ab short long
  have hshort : short.Reachable := .change _ (.withRoot "s3://r")
  have hlong : long.Reachable := .change _ (.change _ (.change _ (.withRoot "s3://r")))
  obtain ⟨-, -, -, -, -, -, -, hsame⟩ := hshort.halves_agree
  exact hsame long hlong (by decide +kernel) (by decide +kernel)

end Table

end NearestMount
