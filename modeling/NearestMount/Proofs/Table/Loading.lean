import Mathlib.Data.List.Induction
import NearestMount.Table.Load
import NearestMount.Proofs.Table.Answers

/-! # Filling a table from a list

    What a list of mounts comes to when its entries are mounted one after the other.

    - `load_cons_cases` is all that the first entry can do, `load_append` cuts a list in
      two, and `load_induction` says what the whole list keeps if a single mount does.
    - `Loadable` says of a list, without any table, that nothing in it is refused;
      `FirstOffence` says which entry is refused first, and why. A list is one or the
      other (`loadable_or_firstOffence`).
    - `exists_load` and `Consistent.list_load` say what is mounted after a list of which
      nothing is refused.
    - `Bare.load_eq_ok_iff` and `Bare.load_eq_error_iff` say when that is so, and what the
      error is otherwise, if nothing is mounted before but a root that is mounted for
      good.
-/

namespace NearestMount.Table

variable {t u : Table} {pinned : Bool} {ms : List Mount} {m : Mount} {e : Error}

/-! ## One entry after the other -/

/-- All that the first entry of a list can do. -/
theorem load_cons_cases (t : Table) (m : Mount) (ms : List Mount) :
    (∃ fault, Path.parse m.path = .error fault ∧
      (t.load (m :: ms)).table = .error (.invalidPath m.path fault)) ∨
    (m.path = Path.root.text ∧ t.pinnedRoot = true ∧
      (t.load (m :: ms)).table = (t.load ms).table) ∨
    ∃ p : Path, p.text = m.path ∧ ¬ (p = .root ∧ t.pinnedRoot = true) ∧
      ((t.Mounted p ∧ (t.load (m :: ms)).table = .error (.occupied m.path)) ∨
        (¬ t.Mounted p ∧ (t.load (m :: ms)).table = ((t.register p m.ufs).load ms).table)) := by
  rcases Path.read_cases m.path with ⟨fault, hparse, hread⟩ | ⟨p, hp⟩
  · exact Or.inl ⟨fault, hparse, by simp [load, hread]⟩
  · right
    have hread : Path.read m.path = .ok p := by rw [← hp, Path.read_text]
    by_cases hpinned : p = .root ∧ t.pinnedRoot = true
    · -- the entry is for a root that is mounted for good
      left
      obtain ⟨rfl, hroot⟩ := hpinned
      refine ⟨hp.symm, hroot, ?_⟩
      have hisRoot : Path.root.isRoot = true := rfl
      simp [load, hread, hroot, hisRoot]
    · right
      have hguard : (p.isRoot && t.pinnedRoot) = false := by
        rw [Bool.eq_false_iff, Ne, Bool.and_eq_true, Path.isRoot_iff]
        exact hpinned
      refine ⟨p, hp, hpinned, ?_⟩
      by_cases hmounted : t.Mounted p
      · left
        refine ⟨hmounted, ?_⟩
        simp [load, hread, hguard, mount_of_mounted hmounted, hp]
      · right
        refine ⟨hmounted, ?_⟩
        simp [load, hread, hguard, mount_of_not_mounted hmounted]

/-- A list that is cut in two is mounted part by part. -/
theorem load_append (t : Table) (front back : List Mount) :
    (t.load (front ++ back)).table =
      (t.load front).table.bind fun u => (u.load back).table := by
  induction front generalizing t with
  | nil => rfl
  | cons m front ih =>
    simp only [List.cons_append, load]
    cases Path.read m.path with
    | error e => rfl
    | ok p =>
      simp only
      split
      · exact ih t
      · cases t.mount p m.ufs with
        | error e => rfl
        | ok mounted => exact ih mounted.2

/-- What holds of a table and is kept by every mount holds after a whole list. -/
theorem load_induction {P : Table → Prop} (hload : (t.load ms).table = .ok u) (ht : P t)
    (hstep : ∀ v p ufs, ¬ v.Mounted p → P v → P (v.register p ufs)) : P u := by
  induction ms generalizing t with
  | nil =>
    cases hload
    exact ht
  | cons m ms ih =>
    rcases t.load_cons_cases m ms with
      ⟨fault, -, heq⟩ | ⟨-, -, heq⟩ | ⟨p, -, -, ⟨-, heq⟩ | ⟨hnew, heq⟩⟩
    · rw [heq] at hload
      cases hload
    · rw [heq] at hload
      exact ih hload ht
    · rw [heq] at hload
      cases hload
    · rw [heq] at hload
      exact ih hload (hstep t p m.ufs hnew ht)

theorem Consistent.load (h : t.Consistent) (hload : (t.load ms).table = .ok u) :
    u.Consistent :=
  load_induction hload h fun _ p ufs _ hv => hv.register p ufs

theorem pinnedRoot_load (h : (t.load ms).table = .ok u) : u.pinnedRoot = t.pinnedRoot :=
  load_induction (P := fun v => v.pinnedRoot = t.pinnedRoot) h rfl fun _ _ _ _ hv => hv

/-- Filling a table takes no mount away. -/
theorem get?_of_load (h : (t.load ms).table = .ok u) {path : String} {info : Mount}
    (hget : t.get? path = some info) : u.get? path = some info := by
  refine load_induction (P := fun v => v.get? path = some info) h hget ?_
  intro v p ufs hnew hv
  -- the new mount point is not the path that is asked for
  rw [get?_register, if_neg, hv]
  rintro rfl
  exact hnew (mounted_iff_exists.mpr ⟨info, hv⟩)

/-! ## Which lists are accepted -/

/-- The entries of a list that are not passed over: all but those of the root, if the
    root is mounted for good. -/
def kept (pinned : Bool) (ms : List Mount) : List Mount :=
  ms.filter fun m => !(pinned && m.path = "/")

theorem not_passedOver_iff :
    (!(pinned && m.path = "/")) = true ↔ ¬ (pinned = true ∧ m.path = "/") := by
  rw [Bool.not_eq_true', ← Bool.not_eq_true, Bool.and_eq_true, decide_eq_true_iff]

theorem mem_kept_iff : m ∈ kept pinned ms ↔ m ∈ ms ∧ ¬ (pinned = true ∧ m.path = "/") := by
  rw [kept, List.mem_filter, not_passedOver_iff]

theorem kept_cons_of_passedOver (h : pinned = true ∧ m.path = "/") :
    kept pinned (m :: ms) = kept pinned ms :=
  List.filter_cons_of_neg (mt not_passedOver_iff.mp (not_not_intro h))

theorem kept_cons (h : ¬ (pinned = true ∧ m.path = "/")) :
    kept pinned (m :: ms) = m :: kept pinned ms :=
  List.filter_cons_of_pos (not_passedOver_iff.mpr h)

/-- The entries that are passed over are those for the root. -/
theorem passedOver_iff {p : Path} (hp : p.text = m.path) :
    pinned = true ∧ m.path = "/" ↔ p = .root ∧ pinned = true := by
  rw [← hp, ← Path.text_root, Path.text_inj, and_comm]

theorem kept_append (front back : List Mount) :
    kept pinned (front ++ back) = kept pinned front ++ kept pinned back :=
  List.filter_append front back

/-- Every path of the list reads, and no path occurs twice among the entries that are not
    passed over. -/
structure Loadable (pinned : Bool) (ms : List Mount) : Prop where
  readable : ∀ m ∈ ms, ∃ p, Path.parse m.path = .ok p
  distinct : ((kept pinned ms).map Mount.path).Nodup

/-- Why an entry is refused after others that were not. -/
inductive Offends (pinned : Bool) (earlier : List Mount) (m : Mount) : Error → Prop where
  | unreadable {fault : Path.Fault} (hparse : Path.parse m.path = .error fault) :
    Offends pinned earlier m (.invalidPath m.path fault)
  /-- An earlier entry has the same path, and it is not that of a root mounted for good. -/
  | repeated {p : Path} (hparse : Path.parse m.path = .ok p)
    (hkept : ¬ (pinned = true ∧ m.path = "/")) (hearlier : ∃ other ∈ earlier, other.path = m.path) :
    Offends pinned earlier m (.occupied m.path)

/-- The first entry of the list that is refused is refused with this error. -/
def FirstOffence (pinned : Bool) (ms : List Mount) (e : Error) : Prop :=
  ∃ earlier m later, ms = earlier ++ m :: later ∧ Loadable pinned earlier ∧
    Offends pinned earlier m e

theorem loadable_nil : Loadable pinned [] := ⟨by simp, by simp [kept]⟩

/-- One entry more is accepted exactly if it does not offend. -/
theorem loadable_snoc_iff :
    Loadable pinned (ms ++ [m]) ↔ Loadable pinned ms ∧ ¬ ∃ e, Offends pinned ms m e := by
  constructor
  · intro h
    have hdistinct := h.distinct
    rw [kept_append, List.map_append, List.nodup_append] at hdistinct
    obtain ⟨hfront, -, hapart⟩ := hdistinct
    refine ⟨⟨fun other hmem => h.readable other (List.mem_append_left _ hmem), hfront⟩, ?_⟩
    rintro ⟨e, hoffends⟩
    cases hoffends with
    | unreadable hparse =>
      obtain ⟨p, hp⟩ := h.readable m (by simp)
      rw [hp] at hparse
      cases hparse
    | repeated hparse hkept hearlier =>
      obtain ⟨other, hother, hsame⟩ := hearlier
      -- both entries are kept, so their paths differ
      have hotherKept : other ∈ kept pinned ms := mem_kept_iff.mpr ⟨hother, hsame ▸ hkept⟩
      have hmKept : m ∈ kept pinned [m] := mem_kept_iff.mpr ⟨List.mem_cons_self, hkept⟩
      exact hapart _ (List.mem_map_of_mem hotherKept) _ (List.mem_map_of_mem hmKept) hsame
  · intro hboth
    obtain ⟨h, hnone⟩ := hboth
    cases hparse : Path.parse m.path with
    | error fault => exact absurd ⟨_, .unreadable hparse⟩ hnone
    | ok p =>
      refine ⟨?_, ?_⟩
      · intro other hmem
        rcases List.mem_append.mp hmem with hfront | hlast
        · exact h.readable other hfront
        · obtain rfl := List.mem_singleton.mp hlast
          exact ⟨p, hparse⟩
      · rw [kept_append]
        by_cases hpassed : pinned = true ∧ m.path = "/"
        · rw [kept_cons_of_passedOver hpassed]
          simpa [kept] using h.distinct
        · rw [kept_cons hpassed, List.map_append, List.nodup_append]
          refine ⟨h.distinct, by simp [kept], ?_⟩
          intro path hpath other hlast hsame
          obtain ⟨earlier, hearlier, rfl⟩ := List.mem_map.mp hpath
          obtain rfl : other = m.path := by simpa [kept] using hlast
          exact hnone ⟨_, .repeated hparse hpassed ⟨earlier, (mem_kept_iff.mp hearlier).1, hsame⟩⟩

/-- A list is accepted, or there is a first entry that is refused. -/
theorem loadable_or_firstOffence (pinned : Bool) (ms : List Mount) :
    Loadable pinned ms ∨ ∃ e, FirstOffence pinned ms e := by
  induction ms using List.reverseRecOn with
  | nil => exact Or.inl loadable_nil
  | append_singleton ms m ih =>
    rcases ih with hloadable | ⟨e, earlier, other, later, rfl, hearlier, hoffends⟩
    · by_cases hlast : ∃ e, Offends pinned ms m e
      · obtain ⟨e, hoffends⟩ := hlast
        exact Or.inr ⟨e, ms, m, [], rfl, hloadable, hoffends⟩
      · exact Or.inl (loadable_snoc_iff.mpr ⟨hloadable, hlast⟩)
    · -- what was refused before is refused still
      exact Or.inr ⟨e, earlier, other, later ++ [m], by simp, hearlier, hoffends⟩

/-! ## Looking a mount up in a list -/

/-- Where no path occurs twice, every entry is the one that is found by its path. -/
theorem find?_path_eq_some_iff (h : (ms.map Mount.path).Nodup) {path : String} {info : Mount} :
    (ms.find? fun m => m.path = path) = some info ↔ info ∈ ms ∧ info.path = path := by
  induction ms with
  | nil => simp
  | cons m ms ih =>
    rw [List.map_cons, List.nodup_cons] at h
    obtain ⟨hfirst, hrest⟩ := h
    by_cases hpath : m.path = path
    · rw [List.find?_cons_of_pos (by simpa using hpath), Option.some.injEq, List.mem_cons]
      constructor
      · rintro rfl
        exact ⟨Or.inl rfl, hpath⟩
      · rintro ⟨rfl | hmem, hinfo⟩
        · rfl
        · -- no later entry has the path of the first one
          exact absurd (List.mem_map.mpr ⟨info, hmem, hinfo.trans hpath.symm⟩) hfirst
    · rw [List.find?_cons_of_neg (by simpa using hpath), ih hrest, List.mem_cons]
      constructor
      · exact fun hboth => ⟨Or.inr hboth.1, hboth.2⟩
      · rintro ⟨rfl | hmem, hinfo⟩
        · exact absurd hinfo hpath
        · exact ⟨hmem, hinfo⟩

/-- What is passed over has the path of the root. -/
theorem find?_kept {path : String} (h : ¬ (pinned = true ∧ path = "/")) :
    ((kept pinned ms).find? fun m => m.path = path) = ms.find? fun m => m.path = path := by
  rw [kept, List.find?_filter]
  congr 1
  funext m
  by_cases hpath : m.path = path
  · have hkept : (!(pinned && m.path = "/")) = true := not_passedOver_iff.mpr (hpath ▸ h)
    simp only [hkept, true_and, Bool.decide_eq_true]
  · simp [hpath]

/-- In a list of just the mounts of a table, in whatever order, every mount is found by
    its path. -/
theorem Consistent.find?_path (h : t.Consistent) (hms : ∀ info, info ∈ ms ↔ info ∈ t.list)
    (hnodup : (ms.map Mount.path).Nodup) (path : String) :
    (ms.find? fun m => m.path = path) = t.get? path := by
  apply Option.ext
  intro info
  rw [find?_path_eq_some_iff hnodup, hms, h.mem_list_iff]
  constructor
  · rintro ⟨hget, rfl⟩
    exact hget
  · intro hget
    have hpath := (h.keyed path info hget).1
    exact ⟨hpath ▸ hget, hpath⟩

/-! ## What an accepted list leaves -/

/-- A list that is accepted can be mounted where its paths are free. Then the table has
    what it had before, and the mounts of the list. -/
theorem exists_load (h : Loadable t.pinnedRoot ms)
    (hfree : ∀ m ∈ kept t.pinnedRoot ms, t.get? m.path = none) :
    ∃ u, (t.load ms).table = .ok u ∧ ∀ path, u.get? path =
      (t.get? path).or ((kept t.pinnedRoot ms).find? fun m => m.path = path) := by
  -- along the list; what is free for the later entries is free after the first one
  induction ms generalizing t with
  | nil => exact ⟨t, rfl, by simp [kept]⟩
  | cons m ms ih =>
    have hreadable : ∀ other ∈ ms, ∃ p, Path.parse other.path = .ok p :=
      fun other hmem => h.readable other (List.mem_cons_of_mem _ hmem)
    have hdistinct := h.distinct
    rcases t.load_cons_cases m ms with
      ⟨fault, hparse, -⟩ | ⟨hroot, hpinned, heq⟩ | ⟨p, hp, hguard, hcases⟩
    · obtain ⟨p, hp⟩ := h.readable m List.mem_cons_self
      rw [hp] at hparse
      cases hparse
    · -- the entry is passed over
      rw [kept_cons_of_passedOver ⟨hpinned, hroot⟩] at hdistinct hfree ⊢
      rw [heq]
      exact ih ⟨hreadable, hdistinct⟩ hfree
    · rw [kept_cons (mt (passedOver_iff hp).mp hguard)] at hdistinct hfree ⊢
      rw [List.map_cons, List.nodup_cons] at hdistinct
      obtain ⟨hfirst, hrest⟩ := hdistinct
      have hnone : t.get? m.path = none := hfree m List.mem_cons_self
      rcases hcases with ⟨hmounted, -⟩ | ⟨hnew, heq⟩
      · rw [← hp] at hnone
        exact absurd hmounted (not_mounted_iff.mpr hnone)
      · -- the entry is mounted, and none of the later ones has its path
        have hlater : ∀ other ∈ kept t.pinnedRoot ms,
            (t.register p m.ufs).get? other.path = none := by
          intro other hmem
          rw [get?_register, if_neg, hfree other (List.mem_cons_of_mem _ hmem)]
          intro hsame
          exact hfirst (List.mem_map.mpr ⟨other, hmem, hsame.symm.trans hp⟩)
        obtain ⟨u, hload, hget⟩ := ih (t := t.register p m.ufs) ⟨hreadable, hrest⟩ hlater
        refine ⟨u, heq.trans hload, ?_⟩
        intro path
        rw [hget, get?_register, hp, pinnedRoot_register]
        by_cases hpath : m.path = path
        · rw [if_pos hpath, ← hpath, hnone, List.find?_cons_of_pos (by simp)]
          rfl
        · rw [if_neg hpath, List.find?_cons_of_neg (by simpa using hpath)]

/-- A mount at a path that was free is one more of the list. -/
theorem Consistent.list_register (h : t.Consistent) {p : Path} (hnew : ¬ t.Mounted p)
    (ufs : String) : (t.register p ufs).list.Perm (⟨p.text, ufs⟩ :: t.list) := by
  have hafter := h.register p ufs
  have hnone := not_mounted_iff.mp hnew
  have hnotMem : ⟨p.text, ufs⟩ ∉ t.list := by
    rw [h.mem_list_iff, hnone]
    simp
  rw [List.perm_ext_iff_of_nodup hafter.nodup_list
    (List.nodup_cons.mpr ⟨hnotMem, h.nodup_list⟩)]
  intro info
  rw [hafter.mem_list_iff, get?_register, List.mem_cons, h.mem_list_iff]
  by_cases hpath : p.text = info.path
  · -- before, there was no mount with this path
    rw [if_pos hpath, ← hpath, hnone, Option.some.injEq]
    simp [eq_comm]
  · rw [if_neg hpath]
    constructor
    · exact Or.inr
    · rintro (rfl | hbefore)
      · exact absurd rfl hpath
      · exact hbefore

/-- What is mounted after a list is what was mounted before and what was not passed
    over. -/
theorem Consistent.list_load (h : t.Consistent) (hload : (t.load ms).table = .ok u) :
    u.list.Perm (t.list ++ kept t.pinnedRoot ms) := by
  induction ms generalizing t with
  | nil =>
    cases hload
    simp [kept]
  | cons m ms ih =>
    rcases t.load_cons_cases m ms with
      ⟨fault, -, heq⟩ | ⟨hroot, hpinned, heq⟩ | ⟨p, hp, hguard, ⟨-, heq⟩ | ⟨hnew, heq⟩⟩
    · rw [heq] at hload
      cases hload
    · rw [heq] at hload
      rw [kept_cons_of_passedOver ⟨hpinned, hroot⟩]
      exact ih h hload
    · rw [heq] at hload
      cases hload
    · rw [heq] at hload
      rw [kept_cons (mt (passedOver_iff hp).mp hguard)]
      have hmount : (⟨p.text, m.ufs⟩ : Mount) = m := by rw [hp]
      calc u.list.Perm ((t.register p m.ufs).list ++ kept t.pinnedRoot ms) :=
            ih (h.register p m.ufs) hload
        List.Perm _ (m :: t.list ++ kept t.pinnedRoot ms) :=
            (hmount ▸ h.list_register hnew m.ufs).append_right _
        List.Perm _ (t.list ++ m :: kept t.pinnedRoot ms) := List.perm_middle.symm

/-- Nothing is mounted but a root that is mounted for good. -/
def Bare (t : Table) : Prop :=
  ∀ path info, t.get? path = some info → t.pinnedRoot = true ∧ path = "/"

theorem Bare.free (h : t.Bare) : ∀ m ∈ kept t.pinnedRoot ms, t.get? m.path = none := by
  intro m hmem
  cases hget : t.get? m.path with
  | none => rfl
  | some info => exact absurd (h m.path info hget) (mem_kept_iff.mp hmem).2

/-- An entry that offends is refused where the earlier ones are mounted. -/
theorem load_cons_of_offends {earlier : List Mount} (h : Offends t.pinnedRoot earlier m e)
    (hearlier : ∀ other ∈ kept t.pinnedRoot earlier, (t.get? other.path).isSome = true)
    (later : List Mount) : (t.load (m :: later)).table = .error e := by
  cases h with
  | unreadable hparse => simp only [load, Path.read, hparse]
  | @repeated p hparse hkept hsame =>
    have hp : p.text = m.path := Path.parse_eq_ok_iff.mp hparse
    -- the earlier entry with this path was not passed over, so it is mounted
    have hmounted : t.Mounted p := by
      obtain ⟨other, hother, hpath⟩ := hsame
      have hfound := hearlier other (mem_kept_iff.mpr ⟨hother, hpath ▸ hkept⟩)
      rwa [hpath, ← hp] at hfound
    rcases t.load_cons_cases m later with
      ⟨fault, hfault, -⟩ | ⟨hroot, hpinned, -⟩ | ⟨q, hq, -, ⟨-, heq⟩ | ⟨hnew, -⟩⟩
    · rw [hparse] at hfault
      cases hfault
    · exact absurd ⟨hpinned, hroot⟩ hkept
    · exact heq
    · exact absurd (Path.text_inj.mp (hp.trans hq.symm) ▸ hmounted) hnew

/-- The first entry that is refused refuses the whole list. -/
theorem Bare.load_of_firstOffence (h : t.Bare) (hfirst : FirstOffence t.pinnedRoot ms e) :
    (t.load ms).table = .error e := by
  obtain ⟨earlier, m, later, rfl, hearlier, hoffends⟩ := hfirst
  obtain ⟨u, hload, hget⟩ := exists_load hearlier h.free
  rw [← pinnedRoot_load hload] at hoffends hget
  rw [load_append, hload]
  apply load_cons_of_offends hoffends
  intro other hmem
  rw [hget, Option.isSome_or, List.find?_isSome.mpr ⟨other, hmem, decide_eq_true rfl⟩,
    Bool.or_true]

theorem Bare.load_eq_ok_iff (h : t.Bare) :
    (∃ u, (t.load ms).table = .ok u) ↔ Loadable t.pinnedRoot ms := by
  constructor
  · rintro ⟨u, hload⟩
    rcases loadable_or_firstOffence t.pinnedRoot ms with hloadable | ⟨e, hfirst⟩
    · exact hloadable
    · rw [h.load_of_firstOffence hfirst] at hload
      cases hload
  · intro hloadable
    obtain ⟨u, hload, -⟩ := exists_load hloadable h.free
    exact ⟨u, hload⟩

theorem Bare.load_eq_error_iff (h : t.Bare) :
    (t.load ms).table = .error e ↔ FirstOffence t.pinnedRoot ms e := by
  constructor
  · intro hload
    rcases loadable_or_firstOffence t.pinnedRoot ms with hloadable | ⟨other, hfirst⟩
    · obtain ⟨u, hother⟩ := h.load_eq_ok_iff.mpr hloadable
      rw [hother] at hload
      cases hload
    · obtain rfl : other = e :=
        Except.error.inj ((h.load_of_firstOffence hfirst).symm.trans hload)
      exact hfirst
  · exact h.load_of_firstOffence

end NearestMount.Table
