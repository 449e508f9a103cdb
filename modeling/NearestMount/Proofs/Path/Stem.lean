import NearestMount.Proofs.Path.Ancestry

/-! # Stems

    The stem of a path is its written form with a slash behind it; the root, which is
    a slash, is its own stem. Ancestors can be told by the stem alone:
    `stem_prefix_iff` says that a path is strictly beneath `p` exactly if it is not
    `p` and its written form begins with the stem of `p`.

    In the order of texts, those with a common beginning stand next to each other, and
    the beginning itself would stand before them: `prefix_of_between`.
-/

namespace NearestMount.Path

/-! ## The order of texts with a common beginning -/

section

variable {stem other : List Char}

/-- What begins with a text does not come before it. -/
theorem not_lt_of_prefix (h : stem <+: other) : ¬ other < stem :=
  h.le

/-- Whatever stands between a text and one that begins with it begins with it too. -/
theorem prefix_of_between {below : List Char} (hbegin : ¬ other < stem) (hend : other < below)
    (hbelow : stem <+: below) : stem <+: other := by
  induction stem generalizing other below with
  | nil => exact List.nil_prefix
  | cons c stem ih =>
    obtain ⟨rest, rfl⟩ := hbelow
    cases other with
    | nil => exact absurd (List.nil_lt_cons c stem) hbegin
    | cons d other =>
      -- the first characters are the same, or `other` would stand outside
      rcases List.cons_le_cons_iff.mp hbegin with hlt | ⟨rfl, hstem⟩
      · rcases List.cons_lt_cons_iff.mp hend with hgt | ⟨rfl, -⟩
        · exact absurd hgt (Std.Asymm.asymm _ _ hlt)
        · exact absurd hlt (Std.Irrefl.irrefl _)
      · rcases List.cons_lt_cons_iff.mp hend with hgt | ⟨-, hrest⟩
        · exact absurd hgt (Std.Irrefl.irrefl _)
        · exact List.cons_prefix_cons.mpr ⟨rfl, ih hstem hrest (List.prefix_append _ _)⟩

end

/-! ## Written forms, name by name -/

/-- Names one behind the other, with a slash before each of them. -/
def slashed (names : List String) : List Char := names.flatMap fun name => '/' :: name.toList

@[simp] theorem slashed_nil : slashed [] = [] := rfl

@[simp] theorem slashed_cons (name : String) (names : List String) :
    slashed (name :: names) = '/' :: (name.toList ++ slashed names) := by
  simp [slashed]

theorem head?_slashed {names : List String} {c : Char} (h : (slashed names).head? = some c) :
    c = '/' := by
  cases names with
  | nil => cases h
  | cons name names =>
    rw [slashed_cons, List.head?_cons] at h
    exact (Option.some.inj h).symm

theorem chars_eq_slashed {p : Path} (h : p.segments ≠ []) : p.chars = slashed p.segments := by
  unfold chars
  generalize p.segments = names at h
  induction names with
  | nil => exact absurd rfl h
  | cons name names ih =>
    cases names with
    | nil => simp
    | cons other names =>
      rw [List.map_cons, List.map_cons, List.intercalate_cons_cons, slashed_cons,
        ← ih (List.cons_ne_nil _ _)]
      simp

theorem stem_eq_slashed (p : Path) : p.stem = slashed p.segments ++ ['/'] := by
  unfold stem
  split
  · next hroot =>
    rw [isRoot_iff.mp hroot]
    rfl
  · next hroot =>
    rw [chars_eq_slashed]
    intro hnil
    exact hroot (by simp [isRoot, hnil])

/-! ## What begins with a stem -/

/-- Behind names without slashes, what comes next is compared only if the names are the
    same. -/
theorem append_prefix_append_iff {name other behind rest : List Char} (hname : '/' ∉ name)
    (hother : '/' ∉ other) (hrest : ∀ c, rest.head? = some c → c = '/') :
    name ++ '/' :: behind <+: other ++ rest ↔ name = other ∧ '/' :: behind <+: rest := by
  induction name generalizing other with
  | nil =>
    cases other with
    | nil => simp
    | cons d other =>
      have hd : '/' ≠ d := fun heq => hother (heq ▸ List.mem_cons_self)
      simp [List.cons_prefix_cons, hd]
  | cons c name ih =>
    cases other with
    | nil =>
      have hc : rest.head? ≠ some c := fun hhead => hname (hrest c hhead ▸ List.mem_cons_self)
      cases rest with
      | nil => simp
      | cons d rest =>
        have hcd : c ≠ d := fun heq => hc (by rw [heq, List.head?_cons])
        simp [List.cons_prefix_cons, hcd]
    | cons d other =>
      rw [List.cons_append, List.cons_append, List.cons_prefix_cons,
        ih (fun hmem => hname (List.mem_cons_of_mem _ hmem))
          (fun hmem => hother (List.mem_cons_of_mem _ hmem)),
        List.cons.injEq, and_assoc]

theorem slashed_prefix_iff {names others : List String}
    (hnames : ∀ name ∈ names, IsSegment name) (hothers : ∀ name ∈ others, IsSegment name) :
    slashed names ++ ['/'] <+: slashed others ↔ names <+: others ∧ others ≠ names := by
  induction names generalizing others with
  | nil =>
    cases others with
    | nil => simp
    | cons other others => simp
  | cons name names ih =>
    cases others with
    | nil => simp
    | cons other others =>
      have hname := (hnames name List.mem_cons_self).slash_notMem
      have hother := (hothers other List.mem_cons_self).slash_notMem
      have hbelow := ih (fun n hmem => hnames n (List.mem_cons_of_mem _ hmem))
        (fun n hmem => hothers n (List.mem_cons_of_mem _ hmem))
      -- what is behind the first name starts with a slash
      obtain ⟨behind, hbehind⟩ : ∃ behind, slashed names ++ ['/'] = '/' :: behind := by
        cases names <;> simp
      rw [slashed_cons, slashed_cons, List.cons_append, List.append_assoc,
        List.cons_prefix_cons, hbehind,
        append_prefix_append_iff hname hother fun c hhead => head?_slashed hhead,
        ← hbehind, hbelow, String.toList_inj, List.cons_prefix_cons]
      constructor
      · rintro ⟨-, rfl, hprefix, hne⟩
        exact ⟨⟨rfl, hprefix⟩, by simpa using hne⟩
      · rintro ⟨⟨rfl, hprefix⟩, hne⟩
        exact ⟨rfl, rfl, hprefix, by simpa using hne⟩

/-- The written form of another path begins with the stem of `p` exactly if the path is
    beneath `p`. -/
theorem stem_prefix_iff {p q : Path} (hne : q ≠ p) :
    p.stem <+: q.chars ↔ p.covers q = true := by
  rw [stem_eq_slashed, covers_iff]
  by_cases hq : q.segments = []
  · -- the root is beneath no other path, and its form is shorter than their stems
    obtain ⟨name, names, hp⟩ : ∃ name names, p.segments = name :: names :=
      List.exists_cons_of_ne_nil fun hnil => hne (Path.ext (hq.trans hnil.symm))
    simp [chars, hq, hp]
  · rw [chars_eq_slashed hq, slashed_prefix_iff p.valid q.valid]
    have hsegments : q.segments ≠ p.segments := fun heq => hne (Path.ext heq)
    simp [hsegments]

end NearestMount.Path
