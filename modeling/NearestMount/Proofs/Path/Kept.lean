import Mathlib.Logic.Relation
import NearestMount.Path.Kept
import NearestMount.Proofs.Path.Grammar
import NearestMount.Proofs.Path.Stem
import NearestMount.Proofs.Text.Bytes

/-! # The two halves of a kept path

    A kept path is **obtained** if it comes from reading a text, from the root, or from
    another obtained path by going to an ancestor. The obtained paths are the kept forms
    of paths (`obtained_iff`), and on them every question is answered as `Path` answers
    it: `take_ofPath`, `parent?_ofPath`, `covers?_ofPath`, `compare_ofPath`.

    - `text_and_segments_determined`: either half of an obtained path determines the
      other, and the texts give the order.
    - `ancestor_notions_agree`: an ancestor can be told by its segments, as a beginning,
      as what comes from going up, or by its text.
-/

namespace NearestMount

namespace Path

/-! ## Going up -/

theorem depth_pos_of_parent? {p parent : Path} (h : p.parent? = some parent) : 0 < p.depth := by
  apply Nat.pos_of_ne_zero
  intro hzero
  obtain rfl : p = root := Path.ext (List.eq_nil_of_length_eq_zero hzero)
  cases h

theorem depth_of_parent? {p parent : Path} (h : p.parent? = some parent) :
    parent.depth + 1 = p.depth := by
  have hpositive := depth_pos_of_parent? h
  unfold parent? at h
  split at h
  · cases h
  · cases h
    rw [depth_take]
    omega

/-- One path is an ancestor of another exactly if the way up from that one comes to it. -/
theorem covers_iff_reflTransGen {q p : Path} : q.covers p = true ↔
    Relation.ReflTransGen (fun below above => below.parent? = some above) p q := by
  constructor
  · intro h
    induction hdepth : p.depth generalizing p with
    | zero =>
      -- nothing but the root is above the root
      have hself : q = p := Classical.byContradiction fun hne => by
        have hlt := depth_lt_of_covers h hne
        omega
      rw [hself]
    | succ n ih =>
      by_cases hself : q = p
      · rw [hself]
      · cases hparent : p.parent? with
        | none =>
          rw [parent?_eq_none_iff.mp hparent] at hdepth
          cases hdepth
        | some above =>
          have habove : q.covers above = true := (covers_parent?_iff hparent).mpr ⟨h, hself⟩
          have hshort := depth_of_parent? hparent
          exact .head hparent (ih habove (by omega))
  · intro h
    induction h with
    | refl => exact covers_self p
    | tail _ hparent ih =>
      exact covers_trans ((covers_parent?_iff hparent).mp (covers_self _)).1 ih

/-! ## Ancestors by their texts -/

/-- The text of a path below `q` begins with that of `q` and one more slash. Only the root
    has its slash already. -/
theorem covers_iff_text {q p : Path} : q.covers p = true ↔
    q = root ∨ q = p ∨ (q.text ++ "/").toList <+: p.text.toList := by
  by_cases hself : q = p
  · simp [hself]
  by_cases hroot : q = root
  · simp [hroot]
  · have hstem : (q.text ++ "/").toList = q.stem := by
      rw [stem, if_neg (fun h => hroot (isRoot_iff.mp h)), String.toList_append, toList_text]
      rfl
    rw [hstem, toList_text, stem_prefix_iff (Ne.symm hself)]
    simp [hself, hroot]

/-- A proper ancestor comes first. -/
theorem text_lt_of_covers {q p : Path} (h : q.covers p = true) (hne : q ≠ p) :
    q.text < p.text := by
  have hprefix : q.text.toList <+: p.text.toList := by
    rcases covers_iff_text.mp h with rfl | rfl | hlong
    · rw [toList_text, toList_text]
      exact List.cons_prefix_cons.mpr ⟨rfl, List.nil_prefix⟩
    · exact List.prefix_refl _
    · rw [String.toList_append] at hlong
      exact (List.prefix_append _ _).trans hlong
  have hle : ¬ p.text.toList < q.text.toList := not_lt_of_prefix hprefix
  rcases Std.le_iff_lt_or_eq.mp (String.not_lt.mp hle) with hlt | heq
  · exact hlt
  · exact absurd (text_inj.mp heq) hne

end Path

namespace KeptPath

/-! ## Kept forms of paths -/

/-- The paths that reading and going to ancestors give. -/
inductive Obtained : KeptPath → Prop where
  | root : Obtained root
  | read {s : String} {p : KeptPath} : read s = .ok p → Obtained p
  | take {p : KeptPath} (depth : Nat) : Obtained p → Obtained (p.take depth)
  | parent {p above : KeptPath} : Obtained p → p.parent? = some above → Obtained above

/-- A path with its text next to it. -/
def ofPath (p : Path) : KeptPath := ⟨p.text, p.segments⟩

theorem depth_ofPath (p : Path) : (ofPath p).depth = p.depth := rfl

theorem ofPath_root : ofPath .root = root := rfl

theorem ofPath_inj {p q : Path} : ofPath p = ofPath q ↔ p = q := by
  constructor
  · intro h
    exact Path.ext (congrArg segments h)
  · exact congrArg ofPath

theorem read_eq_ok_iff {s : String} {p : KeptPath} :
    read s = .ok p ↔ ∃ q : Path, q.text = s ∧ ofPath q = p := by
  constructor
  · intro h
    cases hread : Path.read s with
    | error e =>
      rw [read, hread] at h
      cases h
    | ok q =>
      rw [read, hread] at h
      obtain rfl : q.text = s := Path.read_eq_ok_iff.mp hread
      exact ⟨q, rfl, Except.ok.inj h⟩
  · rintro ⟨q, rfl, rfl⟩
    rw [read, Path.read_text]
    rfl

theorem take_ofPath (p : Path) (depth : Nat) : (ofPath p).take depth = ofPath (p.take depth) := by
  unfold take
  split
  · -- nothing is cut off
    next hlong =>
    have hall : p.take depth = p := Path.ext (List.take_of_length_le hlong)
    rw [hall]
  · split
    · next hzero =>
      rw [hzero, Path.take_zero, ofPath_root]
    · have htext : (p.take depth).text = "/" ++ "/".intercalate (p.segments.take depth) :=
        Path.text_eq_join (p.take depth)
      exact congrArg (mk · (p.segments.take depth)) htext.symm

theorem parent?_ofPath (p : Path) : (ofPath p).parent? = p.parent?.map ofPath := by
  unfold parent? Path.parent?
  show (if p.isRoot then none else some ((ofPath p).take (p.depth - 1))) = _
  rw [take_ofPath]
  split <;> rfl

theorem covers?_ofPath (q p : Path) : (ofPath q).covers? (ofPath p) = some (q.covers p) := by
  unfold covers? front?
  by_cases hdepth : (ofPath q).depth ≤ (ofPath p).depth
  · rw [if_pos hdepth, if_pos hdepth, Option.map_some, Option.some.injEq, Bool.eq_iff_iff,
      decide_eq_true_iff, Path.covers_iff, List.prefix_iff_eq_take]
    rfl
  · rw [if_neg hdepth, Option.some.injEq, eq_comm, Bool.eq_false_iff]
    exact fun hcovers => hdepth (Path.depth_le_of_covers hcovers)

/-- In the order the segments never count, for paths with one text have the same segments. -/
theorem compare_ofPath (p q : Path) : compare (ofPath p) (ofPath q) = compare p.text q.text := by
  show (compare p.text q.text).then (compare p.segments q.segments) = _
  by_cases hsame : p = q
  · subst hsame
    simp
  · have hne : compare p.text q.text ≠ .eq := by
      intro heq
      exact hsame (Path.text_inj.mp (Std.LawfulEqCmp.eq_of_compare heq))
    cases hcompare : compare p.text q.text with
    | lt => rfl
    | eq => exact absurd hcompare hne
    | gt => rfl

/-- What is obtained is the kept form of a path. -/
theorem obtained_iff {p : KeptPath} : Obtained p ↔ ∃ q, ofPath q = p := by
  constructor
  · intro h
    induction h with
    | root => exact ⟨.root, ofPath_root⟩
    | read h =>
      obtain ⟨q, -, hq⟩ := read_eq_ok_iff.mp h
      exact ⟨q, hq⟩
    | take depth _ ih =>
      obtain ⟨q, rfl⟩ := ih
      exact ⟨q.take depth, (take_ofPath q depth).symm⟩
    | parent _ hparent ih =>
      obtain ⟨q, rfl⟩ := ih
      rw [parent?_ofPath] at hparent
      obtain ⟨above, -, habove⟩ := Option.map_eq_some_iff.mp hparent
      exact ⟨above, habove⟩
  · rintro ⟨q, rfl⟩
    exact .read (read_eq_ok_iff.mpr ⟨q, rfl, rfl⟩)

/-! ## What the halves say -/

theorem compare_ofPath_eq_lt_iff {p q : Path} :
    compare (ofPath p) (ofPath q) = .lt ↔ Text.bytes p.text < Text.bytes q.text := by
  rw [compare_ofPath, Text.bytes_lt_iff]
  exact compareOfLessAndEq_eq_lt

/-- The text of an obtained path reads as that path, so the text determines the segments
    and the segments the text. The order is that of the texts by their bytes, and it puts
    every path behind its ancestors. -/
theorem text_and_segments_determined :
    (∀ p, Obtained p → read p.text = .ok p) ∧
    ∀ p q, Obtained p → Obtained q →
      (p = q ↔ p.text = q.text) ∧ (p = q ↔ p.segments = q.segments) ∧
      (compare p q = .lt ↔ Text.bytes p.text < Text.bytes q.text) ∧
      (compare p q = .eq ↔ Text.bytes p.text = Text.bytes q.text) ∧
      (compare p q = .gt ↔ Text.bytes q.text < Text.bytes p.text) ∧
      (q.covers? p = some true → q ≠ p → compare q p = .lt) := by
  constructor
  · intro p hp
    obtain ⟨path, rfl⟩ := obtained_iff.mp hp
    exact read_eq_ok_iff.mpr ⟨path, rfl, rfl⟩
  · intro p q hp hq
    obtain ⟨path, rfl⟩ := obtained_iff.mp hp
    obtain ⟨other, rfl⟩ := obtained_iff.mp hq
    have hswap : compare (ofPath path) (ofPath other) = .gt ↔
        compare (ofPath other) (ofPath path) = .lt := by
      rw [compare_ofPath, compare_ofPath]
      exact Std.OrientedCmp.gt_iff_lt
    refine ⟨?_, ?_, compare_ofPath_eq_lt_iff, ?_, ?_, ?_⟩
    · rw [ofPath_inj]
      exact Path.text_inj.symm
    · rw [ofPath_inj]
      exact Path.ext_iff
    · rw [compare_ofPath, Text.bytes_inj]
      exact Std.LawfulEqCmp.compare_eq_iff_eq
    · exact hswap.trans compare_ofPath_eq_lt_iff
    · intro hcovers hne
      rw [covers?_ofPath, Option.some.injEq] at hcovers
      rw [compare_ofPath_eq_lt_iff, Text.bytes_lt_iff]
      exact Path.text_lt_of_covers hcovers fun h => hne (congrArg ofPath h)

/-- An ancestor has the same segments whether it is read or cut off, and a name that goes on
    is another name: `/a/b` is above `/a/b/c` and comes before it, and so does `/a/b`
    before `/a/bc`. -/
theorem cut_path_is_read_path :
    let p : KeptPath := ⟨"/a/b/c", ["a", "b", "c"]⟩
    let q : KeptPath := ⟨"/a/bc", ["a", "bc"]⟩
    Obtained (p.take 2) ∧ read (p.take 2).text = .ok (p.take 2) ∧
      compare (p.take 2) p = .lt ∧ compare (p.take 2) q = .lt ∧ p.take 2 ≠ q.take 2 := by
  intro p q
  have hp : Obtained p := obtained_iff.mpr ⟨⟨["a", "b", "c"], by decide +kernel⟩, by decide +kernel⟩
  have hq : Obtained q := obtained_iff.mpr ⟨⟨["a", "bc"], by decide +kernel⟩, by decide +kernel⟩
  obtain ⟨hread, hboth⟩ := text_and_segments_determined
  have hcut : Obtained (p.take 2) := hp.take 2
  refine ⟨hcut, hread _ hcut, ?_, ?_, ?_⟩
  · exact (hboth p (p.take 2) hp hcut).2.2.2.2.2 (by decide +kernel) (by decide +kernel)
  · exact (hboth (p.take 2) q hcut hq).2.2.1.mpr (by decide +kernel)
  · exact fun h => absurd ((hboth _ _ hcut (hq.take 2)).1.mp h) (by decide +kernel)

/-! ## What an ancestor is -/

/-- The way up from a kept path is that from its path. -/
theorem reflTransGen_ofPath_iff {p q : Path} :
    Relation.ReflTransGen (fun below above => below.parent? = some above) (ofPath p) (ofPath q) ↔
      Relation.ReflTransGen (fun below above => below.parent? = some above) p q := by
  constructor
  · intro h
    have hway : ∀ k, Relation.ReflTransGen (fun below above => below.parent? = some above)
        (ofPath p) k → ∃ r, ofPath r = k ∧
          Relation.ReflTransGen (fun below above => below.parent? = some above) p r := by
      intro k hk
      induction hk with
      | refl => exact ⟨p, rfl, .refl⟩
      | tail _ hparent ih =>
        obtain ⟨r, rfl, hr⟩ := ih
        rw [parent?_ofPath] at hparent
        obtain ⟨above, habove, rfl⟩ := Option.map_eq_some_iff.mp hparent
        exact ⟨above, rfl, hr.tail habove⟩
    obtain ⟨r, hr, hreached⟩ := hway _ h
    rwa [← ofPath_inj.mp hr]
  · intro h
    refine h.lift ofPath ?_
    intro below above hparent
    show (ofPath below).parent? = some (ofPath above)
    rw [parent?_ofPath, hparent]
    rfl

/-- A path is cut only within its segments. -/
theorem covers?_ne_none (q p : KeptPath) : q.covers? p ≠ none := by
  unfold covers? front?
  split <;> simp_all

/-- Four ways to tell an ancestor agree: by its segments, as what is left of the path when
    it is cut at the depth of the ancestor, as what the way up comes to, and by the text.
    The ancestors are ordered with the root at the one end, those of one path form a chain
    with exactly one of each depth, and to cut twice is to cut once. -/
theorem ancestor_notions_agree :
    (∀ p q : KeptPath, q.covers? p ≠ none) ∧
    ∀ p q r, Obtained p → Obtained q → Obtained r →
      ((q.covers? p = some true ↔ q = p.take q.depth ∧ q.depth ≤ p.depth) ∧
        (q.covers? p = some true ↔
          Relation.ReflTransGen (fun below above => below.parent? = some above) p q) ∧
        (q.covers? p = some true ↔
          q = root ∨ q = p ∨ (q.text ++ "/").toList <+: p.text.toList)) ∧
      (p.covers? p = some true ∧ root.covers? p = some true ∧
        (q.covers? p = some true → p.covers? q = some true → p = q) ∧
        (r.covers? q = some true → q.covers? p = some true → r.covers? p = some true)) ∧
      ((q.covers? p = some true → r.covers? p = some true →
          q.covers? r = some true ∨ r.covers? q = some true) ∧
        (q.covers? p = some true → q.depth ≤ p.depth) ∧
        ∀ depth ≤ p.depth, ∃ above, (Obtained above ∧ above.covers? p = some true ∧
          above.depth = depth) ∧ ∀ other, Obtained other → other.covers? p = some true →
            other.depth = depth → other = above) ∧
      ∀ a b, (p.take a).take b = p.take (min a b) := by
  refine ⟨fun p q => covers?_ne_none q p, ?_⟩
  intro p q r hp hq hr
  obtain ⟨p, rfl⟩ := obtained_iff.mp hp
  obtain ⟨q, rfl⟩ := obtained_iff.mp hq
  obtain ⟨r, rfl⟩ := obtained_iff.mp hr
  simp only [← ofPath_root, covers?_ofPath, Option.some.injEq, take_ofPath, ofPath_inj,
    depth_ofPath, reflTransGen_ofPath_iff]
  refine ⟨⟨?_, Path.covers_iff_reflTransGen, Path.covers_iff_text⟩, ?_, ?_, ?_⟩
  · exact ⟨fun h => ⟨Path.eq_take_of_covers h, Path.depth_le_of_covers h⟩,
      fun h => h.1 ▸ Path.take_covers p q.depth⟩
  · exact ⟨Path.covers_self p, Path.root_covers p, fun hqp hpq => Path.covers_antisymm hpq hqp,
      Path.covers_trans⟩
  · refine ⟨Path.covers_total, Path.depth_le_of_covers, fun depth hdepth => ?_⟩
    refine ⟨ofPath (p.take depth), ⟨obtained_iff.mpr ⟨_, rfl⟩, ?_, ?_⟩, ?_⟩
    · rw [covers?_ofPath, Path.take_covers]
    · rw [depth_ofPath, Path.depth_take]
      omega
    · intro other hother hcovers hlength
      obtain ⟨other, rfl⟩ := obtained_iff.mp hother
      rw [covers?_ofPath, Option.some.injEq] at hcovers
      rw [ofPath_inj, Path.eq_take_of_covers hcovers, ← hlength, depth_ofPath]
  · intro a b
    exact Path.ext (by simp [List.take_take, Nat.min_comm])

/-- `/a` is no ancestor of `/ab/c`, though its text is a beginning of that text. -/
theorem ancestors_beside_longer_name :
    let p : KeptPath := ⟨"/ab/c", ["ab", "c"]⟩
    let q : KeptPath := ⟨"/ab", ["ab"]⟩
    let r : KeptPath := ⟨"/a", ["a"]⟩
    (Obtained p ∧ Obtained q ∧ Obtained r) ∧
      q = p.take 1 ∧ Relation.ReflTransGen (fun below above => below.parent? = some above) p q ∧
      r.text.toList <+: p.text.toList ∧ r ≠ p.take 1 ∧
      ¬ Relation.ReflTransGen (fun below above => below.parent? = some above) p r := by
  intro p q r
  have hp : Obtained p := obtained_iff.mpr ⟨⟨["ab", "c"], by decide +kernel⟩, by decide +kernel⟩
  have hq : Obtained q := obtained_iff.mpr ⟨⟨["ab"], by decide +kernel⟩, by decide +kernel⟩
  have hr : Obtained r := obtained_iff.mpr ⟨⟨["a"], by decide +kernel⟩, by decide +kernel⟩
  obtain ⟨⟨hcut, hup, -⟩, -⟩ := ancestor_notions_agree.2 p q r hp hq hr
  obtain ⟨⟨hcut', hup', -⟩, -⟩ := ancestor_notions_agree.2 p r q hp hr hq
  have hcovers : q.covers? p = some true := by decide +kernel
  have hbeside : r.covers? p ≠ some true := by decide +kernel
  refine ⟨⟨hp, hq, hr⟩, (hcut.mp hcovers).1, hup.mp hcovers, by decide +kernel, ?_, ?_⟩
  · exact fun h => hbeside (hcut'.mpr ⟨h, by decide +kernel⟩)
  · exact fun h => hbeside (hup'.mpr h)

end KeptPath

end NearestMount
