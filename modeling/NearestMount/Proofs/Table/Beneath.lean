import NearestMount.Proofs.Path.Stem
import NearestMount.Proofs.Table.Answers
import NearestMount.Proofs.Text.Bytes

/-! # What lies beneath a path, seen from both halves

    The mounts beneath a path are read off the ordered half of a table: a scan starts
    where the stem of the path would stand and ends at the first path without that
    stem. Whether there are any is asked of the index. Both are measured against the
    list of all mounts:

    - `dropWhile_eq_filter` and `takeWhile_eq_filter` say when a scan that starts late
      and ends early misses nothing.
    - `Consistent.beneath_eq_filter` says what the scan finds.
    - `Reachable.beneath_exact` puts both halves together.
-/

namespace NearestMount.Table

/-! ## Scans of ordered lists -/

section

variable {α : Type} {entries : List α}

/-- If nothing is skipped behind an entry that is not, dropping leaves all those that are
    not skipped. -/
theorem dropWhile_eq_filter {skip : α → Bool}
    (h : entries.Pairwise fun a b => skip b = true → skip a = true) :
    entries.dropWhile skip = entries.filter fun a => !skip a := by
  induction entries with
  | nil => rfl
  | cons a entries ih =>
    obtain ⟨hfirst, hrest⟩ := List.pairwise_cons.mp h
    by_cases ha : skip a = true
    · rw [List.dropWhile_cons_of_pos ha, List.filter_cons_of_neg (by simp [ha]), ih hrest]
    · rw [List.dropWhile_cons_of_neg ha, eq_comm, List.filter_eq_self]
      intro b hb
      rcases List.mem_cons.mp hb with rfl | hb
      · simpa using ha
      · have hskip : ¬ skip b = true := fun hskip => ha (hfirst b hb hskip)
        simpa using hskip

/-- If nothing is kept behind an entry that is not, taking finds all those that are kept. -/
theorem takeWhile_eq_filter {keep : α → Bool}
    (h : entries.Pairwise fun a b => keep b = true → keep a = true) :
    entries.takeWhile keep = entries.filter keep := by
  induction entries with
  | nil => rfl
  | cons a entries ih =>
    obtain ⟨hfirst, hrest⟩ := List.pairwise_cons.mp h
    by_cases ha : keep a = true
    · rw [List.takeWhile_cons_of_pos ha, List.filter_cons_of_pos ha, ih hrest]
    · rw [List.takeWhile_cons_of_neg ha, eq_comm, List.filter_eq_nil_iff]
      intro b hb
      rcases List.mem_cons.mp hb with rfl | hb
      · exact ha
      · exact fun hkeep => ha (hfirst b hb hkeep)

end

/-! ## The order of the mounts -/

variable {t : Table}

theorem pairwise_mounts (t : Table) : t.mounts.toList.Pairwise fun a b => a.1 < b.1 := by
  have hordered := Std.ExtTreeMap.ordered_keys_toList (t := t.mounts)
  refine hordered.imp ?_
  intro a b hlt
  exact compareOfLessAndEq_eq_lt.mp hlt

/-- An entry is kept under the path of its mount, which is the written form of a path. -/
theorem Consistent.exists_path_of_mem (h : t.Consistent) {entry : String × Mount}
    (hentry : entry ∈ t.mounts.toList) : ∃ q : Path, entry.1 = q.text ∧ entry.2.path = q.text := by
  have hget : t.get? entry.1 = some entry.2 :=
    Std.ExtTreeMap.mem_toList_iff_getElem?_eq_some.mp hentry
  obtain ⟨hpath, q, hq⟩ := h.keyed entry.1 entry.2 hget
  exact ⟨q, hq.symm, hpath.trans hq.symm⟩

theorem Consistent.exists_path_of_mem_list (h : t.Consistent) {m : Mount} (hm : m ∈ t.list) :
    ∃ q : Path, m.path = q.text := by
  obtain ⟨entry, hentry, rfl⟩ := List.mem_map.mp hm
  obtain ⟨q, -, hq⟩ := h.exists_path_of_mem hentry
  exact ⟨q, hq⟩

/-- The mounts of a table stand in the order of the bytes of their paths. -/
theorem Consistent.pairwise_list (h : t.Consistent) :
    t.list.Pairwise fun a b => Text.bytes a.path < Text.bytes b.path := by
  unfold list
  rw [List.pairwise_map]
  refine t.pairwise_mounts.imp_of_mem ?_
  intro a b ha hb hlt
  obtain ⟨p, hakey, hapath⟩ := h.exists_path_of_mem ha
  obtain ⟨q, hbkey, hbpath⟩ := h.exists_path_of_mem hb
  rw [Text.bytes_lt_iff, hapath, hbpath, ← hakey, ← hbkey]
  exact hlt

/-! ## What the scan finds -/

/-- The mount lies strictly beneath `p`: its path is not `p`, and its segments begin with
    those of `p`. -/
def LiesBeneath (p : Path) (m : Mount) : Prop :=
  m.path ≠ p.text ∧ ∃ q, Path.parse m.path = .ok q ∧ p.segments <+: q.segments

instance (p : Path) (m : Mount) : Decidable (LiesBeneath p m) :=
  match h : Path.parse m.path with
  | .ok q =>
    decidable_of_iff (m.path ≠ p.text ∧ p.segments <+: q.segments) (by simp [LiesBeneath, h])
  | .error _ => isFalse (by simp [LiesBeneath, h])

theorem liesBeneath_iff {p q : Path} {m : Mount} (hm : m.path = q.text) :
    LiesBeneath p m ↔ q ≠ p ∧ p.covers q = true := by
  simp [LiesBeneath, hm, Path.parse_text, Path.text_inj, Path.covers_iff]

/-- Of the ordered entries, those that begin with a stem stand next to each other, and the
    first of them is the first that does not come before the stem. -/
theorem block_of_stem (t : Table) (stem : List Char) :
    (t.mounts.toList.dropWhile fun entry => entry.1 < String.ofList stem).takeWhile
        (fun entry => stem.isPrefixOf entry.1.toList) =
      t.mounts.toList.filter fun entry => stem.isPrefixOf entry.1.toList := by
  have hbefore : ∀ key : String, key < String.ofList stem ↔ key.toList < stem := by
    intro key
    rw [String.lt_iff, String.toList_ofList]
  have hskipped : (t.mounts.toList.dropWhile fun entry => entry.1 < String.ofList stem) =
      t.mounts.toList.filter fun entry => !decide (entry.1 < String.ofList stem) := by
    apply dropWhile_eq_filter
    refine t.pairwise_mounts.imp ?_
    intro a b hlt hskip
    exact decide_eq_true (String.lt_trans hlt (of_decide_eq_true hskip))
  rw [hskipped, takeWhile_eq_filter, List.filter_filter]
  · -- an entry that begins with the stem is never skipped
    apply List.filter_congr
    intro entry _
    simp only [Bool.and_eq_left_iff_imp, Bool.not_eq_true', decide_eq_false_iff_not, hbefore,
      List.isPrefixOf_iff_prefix]
    exact Path.not_lt_of_prefix
  · -- behind an entry without the stem there is none with it
    refine (t.pairwise_mounts.filter _).imp_of_mem ?_
    intro a b ha _ hlt hb
    rw [List.isPrefixOf_iff_prefix] at hb ⊢
    have hbegin : ¬ a.1.toList < stem := by
      simpa [hbefore] using (List.mem_filter.mp ha).2
    exact Path.prefix_of_between hbegin (String.lt_iff.mp hlt) hb

/-- The scan finds the mounts that lie strictly beneath the path. -/
theorem Consistent.beneath_eq_filter (h : t.Consistent) (p : Path) :
    t.beneath p = t.list.filter fun m => LiesBeneath p m := by
  show List.map _ (List.filter _ (List.takeWhile _ (List.dropWhile _ _))) = _
  rw [block_of_stem, List.filter_filter, list, List.filter_map]
  congr 1
  apply List.filter_congr
  intro entry hentry
  obtain ⟨q, hkey, hpath⟩ := h.exists_path_of_mem hentry
  rw [Function.comp_apply, Bool.eq_iff_iff, decide_eq_true_iff, liesBeneath_iff hpath,
    Bool.and_eq_true, decide_eq_true_iff, List.isPrefixOf_iff_prefix, hkey, Path.toList_text,
    Ne, Path.text_inj]
  constructor
  · rintro ⟨hne, hstem⟩
    exact ⟨hne, (Path.stem_prefix_iff hne).mp hstem⟩
  · rintro ⟨hne, hcovers⟩
    exact ⟨hne, (Path.stem_prefix_iff hne).mpr hcovers⟩

/-- The index knows whether the scan finds anything. -/
theorem Consistent.hasBeneath_iff_ne_nil (h : t.Consistent) {p : Path} :
    t.hasBeneath p = true ↔ t.beneath p ≠ [] := by
  rw [h.hasBeneath_iff, h.beneath_eq_filter]
  constructor
  · intro hexists hnil
    obtain ⟨q, hmounted, hcovers, hne⟩ := hexists
    obtain ⟨m, hm, hpath⟩ := h.isSome_get?_iff.mp hmounted
    have hnot := List.filter_eq_nil_iff.mp hnil m hm
    exact hnot (decide_eq_true ((liesBeneath_iff hpath).mpr ⟨hne, hcovers⟩))
  · intro hsome
    obtain ⟨m, hfound⟩ := List.exists_mem_of_ne_nil _ hsome
    obtain ⟨hm, hbeneath⟩ := List.mem_filter.mp hfound
    obtain ⟨q, hpath⟩ := h.exists_path_of_mem_list hm
    obtain ⟨hne, hcovers⟩ := (liesBeneath_iff hpath).mp (of_decide_eq_true hbeneath)
    refine ⟨q, ?_, hcovers, hne⟩
    exact h.isSome_get?_iff.mpr ⟨m, hm, hpath⟩

/-! ## Both halves -/

/-- In every table that comes from a new one by mounting and unmounting, and for every
    path, mounted or not: every mount has a path that reads, and the mounts beneath the
    path are, out of the list of all mounts, those with another path whose segments
    begin with the segments of the given one. Each of them stands there once, in the
    order of the bytes of their paths; and the index says that there are any exactly if
    there are. -/
theorem Reachable.beneath_exact (h : t.Reachable) (p : Path) :
    (∀ m ∈ t.list, ∃ q, Path.parse m.path = .ok q) ∧
    (t.beneath p = t.list.filter fun m => LiesBeneath p m) ∧
    (t.beneath p).Nodup ∧
    ((t.beneath p).Pairwise fun a b => Text.bytes a.path < Text.bytes b.path) ∧
    (t.hasBeneath p = true ↔ t.beneath p ≠ []) := by
  have hc := h.consistent
  have hordered : (t.beneath p).Pairwise fun a b => Text.bytes a.path < Text.bytes b.path := by
    rw [hc.beneath_eq_filter]
    exact hc.pairwise_list.filter _
  refine ⟨?_, hc.beneath_eq_filter p, ?_, hordered, hc.hasBeneath_iff_ne_nil⟩
  · intro m hm
    obtain ⟨q, hq⟩ := hc.exists_path_of_mem_list hm
    exact ⟨q, Path.parse_eq_ok_iff.mpr hq.symm⟩
  · refine hordered.imp ?_
    rintro a _ hlt rfl
    exact List.lt_irrefl _ hlt

/-- Names that begin like another one stand between it and what lies beneath it, and are
    not taken along. -/
theorem beneath_between_siblings :
    let a : Path := .cons "a" (by decide) .root
    let dash : Path := .cons "a-b" (by decide) .root
    let dot : Path := .cons "a.b" (by decide) .root
    let long : Path := .cons "ab" (by decide) .root
    let x : Path := .cons "a" (by decide) (.cons "x" (by decide) .root)
    let t := (((((Table.withRoot "s3://r").change (.mount long "s3://ab")).change
      (.mount x "s3://x")).change (.mount dot "s3://dot")).change (.mount dash "s3://dash")).change
      (.mount a "s3://a")
    t.list.map Mount.path = ["/", "/a", "/a-b", "/a.b", "/a/x", "/ab"] ∧
      t.beneath a = [⟨"/a/x", "s3://x"⟩] ∧ t.hasBeneath a = true ∧ t.hasBeneath dash = false ∧
      (t.beneath .root).map Mount.path = ["/a", "/a-b", "/a.b", "/a/x", "/ab"] := by
  intro a dash dot long x t
  have ht : t.Reachable := .change _ (.change _ (.change _ (.change _ (.change _ (.withRoot _)))))
  obtain ⟨-, ha, -, -, hany⟩ := ht.beneath_exact a
  obtain ⟨-, hdash, -, -, hnone⟩ := ht.beneath_exact dash
  obtain ⟨-, hroot, -, -, -⟩ := ht.beneath_exact .root
  have hbeneath : t.beneath a = [⟨"/a/x", "s3://x"⟩] := by
    rw [ha]
    decide +kernel
  refine ⟨by decide +kernel, hbeneath, hany.mpr (by simp [hbeneath]), ?_, ?_⟩
  · rw [Bool.eq_false_iff, Ne, hnone, hdash]
    decide +kernel
  · rw [hroot]
    decide +kernel

end NearestMount.Table
