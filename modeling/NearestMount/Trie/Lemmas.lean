import NearestMount.Trie.Basic

/-! # What the primitive operations of a trie do

    One equation for each operation on a child (`child?_setChild`,
    `child?_eraseChild`), and the way in which an address splits (`at?_append`).
    With these the operations need not be unfolded.
-/

namespace NearestMount

/-! ## Forests -/

namespace Forest

variable {K : Type}

theorem sum_nodeCount_tries {f : Forest K} (h : f.Distinct) :
    (f.tries h).foldr (fun entry total => entry.2.nodeCount + total) 0 = f.nodeCount := by
  induction f with
  | nil => rfl
  | cons k t b rest _ ih =>
    have below := ih h.2.2
    simp only [tries, List.foldr_cons, nodeCount, Trie.nodeCount] at below ⊢
    omega

variable [DecidableEq K]

theorem child?_eq_none_iff {f : Forest K} (h : f.Distinct) {key : K} :
    f.child? h key = none ↔ key ∉ f.keys := by
  induction f with
  | nil => simp [child?, keys]
  | cons k t b rest _ ih =>
    by_cases same : k = key
    · simp [child?, keys, same]
    · simp [child?, keys, same, ih, Ne.symm same]

theorem child?_set {f below : Forest K} {terminal : Bool} {key other : K}
    (h : f.Distinct) (hb : below.Distinct) (hs : (f.set key terminal below).Distinct) :
    (f.set key terminal below).child? hs other =
      if key = other then some ⟨terminal, below, hb⟩ else f.child? h other := by
  induction f with
  | nil => by_cases same : key = other <;> simp [set, child?, same]
  | cons k t b rest _ ih =>
    by_cases here : k = key
    · subst here
      by_cases same : k = other <;> simp [set, child?, same]
    · simp only [set, here, ↓reduceIte] at hs ⊢
      by_cases same : k = other
      · subst same
        simp [child?, Ne.symm here]
      · simp [child?, same, ih h.2.2]

theorem child?_erase {f : Forest K} {key other : K}
    (h : f.Distinct) (hs : (f.erase key).Distinct) :
    (f.erase key).child? hs other = if key = other then none else f.child? h other := by
  induction f with
  | nil => by_cases same : key = other <;> simp [erase, child?]
  | cons k t b rest _ ih =>
    by_cases here : k = key
    · subst here
      by_cases same : k = other
      · subst same
        simpa [erase, child?] using (child?_eq_none_iff h.2.2).mpr h.1
      · simp [erase, child?, same]
    · simp only [erase, here, ↓reduceIte] at hs ⊢
      by_cases same : k = other
      · subst same
        simp [child?, Ne.symm here]
      · simp [child?, same, ih h.2.2]

/-- To put a sibling where it stands changes nothing. -/
theorem set_self {f : Forest K} (h : f.Distinct) {key : K} {child : Trie K}
    (found : f.child? h key = some child) : f.set key child.terminal child.children = f := by
  induction f with
  | nil => cases found
  | cons k t b rest _ ih =>
    by_cases here : k = key
    · simp only [child?, here, ↓reduceIte, Option.some.injEq] at found
      simp [set, here, ← found]
    · simp only [child?, here, ↓reduceIte] at found
      simp [set, here, ih h.2.2 found]

theorem nodeCount_set {f below : Forest K} {terminal : Bool} {key : K} {child : Trie K}
    (h : f.Distinct) (found : f.child? h key = some child) :
    (f.set key terminal below).nodeCount + child.children.nodeCount =
      f.nodeCount + below.nodeCount := by
  induction f with
  | nil => cases found
  | cons k t b rest _ ih =>
    by_cases here : k = key
    · simp only [child?, here, ↓reduceIte, Option.some.injEq] at found
      simp only [set, here, ↓reduceIte, nodeCount, ← found]
      omega
    · simp only [child?, here, ↓reduceIte] at found
      have later := ih h.2.2 found
      simp only [set, here, ↓reduceIte, nodeCount]
      omega

theorem nodeCount_set_of_notMem {f below : Forest K} {terminal : Bool} {key : K}
    (fresh : key ∉ f.keys) :
    (f.set key terminal below).nodeCount = f.nodeCount + below.nodeCount + 1 := by
  induction f with
  | nil => simp [set, nodeCount]
  | cons k t b rest _ ih =>
    simp only [keys, List.mem_cons, not_or] at fresh
    have later := ih fresh.2
    simp only [set, Ne.symm fresh.1, ↓reduceIte, nodeCount, later]
    omega

theorem nodeCount_erase {f : Forest K} {key : K} {child : Trie K}
    (h : f.Distinct) (found : f.child? h key = some child) :
    (f.erase key).nodeCount + child.nodeCount = f.nodeCount := by
  induction f with
  | nil => cases found
  | cons k t b rest _ ih =>
    by_cases here : k = key
    · simp only [child?, here, ↓reduceIte, Option.some.injEq] at found
      simp only [erase, here, ↓reduceIte, nodeCount, Trie.nodeCount, ← found]
      omega
    · simp only [child?, here, ↓reduceIte] at found
      have later := ih h.2.2 found
      simp only [erase, here, ↓reduceIte, nodeCount]
      omega

end Forest

/-! ## Tries -/

namespace Trie

variable {K : Type}

@[simp] theorem terminal_mark (t : Trie K) (b : Bool) : (t.mark b).terminal = b := rfl

theorem sum_nodeCount_entries (t : Trie K) :
    t.entries.foldr (fun entry total => entry.2.nodeCount + total) 0 + 1 = t.nodeCount := by
  rw [entries, Forest.sum_nodeCount_tries, nodeCount]

theorem nodeCount_of_isLeaf {t : Trie K} (h : t.isLeaf = true) : t.nodeCount = 1 := by
  rw [nodeCount, Forest.isEmpty_iff.mp h]
  rfl

variable [DecidableEq K]

@[simp] theorem child?_mark (t : Trie K) (b : Bool) (key : K) :
    (t.mark b).child? key = t.child? key := rfl

@[simp] theorem child?_empty (key : K) : (empty : Trie K).child? key = none := rfl

@[simp] theorem terminal_setChild (t sub : Trie K) (key : K) :
    (t.setChild key sub).terminal = t.terminal := rfl

@[simp] theorem terminal_eraseChild (t : Trie K) (key : K) :
    (t.eraseChild key).terminal = t.terminal := rfl

theorem child?_setChild (t sub : Trie K) (key other : K) :
    (t.setChild key sub).child? other = if key = other then some sub else t.child? other :=
  Forest.child?_set t.distinct sub.distinct _

@[simp] theorem child?_setChild_self (t sub : Trie K) (key : K) :
    (t.setChild key sub).child? key = some sub := by
  simp [child?_setChild]

theorem child?_eraseChild (t : Trie K) (key other : K) :
    (t.eraseChild key).child? other = if key = other then none else t.child? other :=
  Forest.child?_erase t.distinct _

@[simp] theorem child?_eraseChild_self (t : Trie K) (key : K) :
    (t.eraseChild key).child? key = none := by
  simp [child?_eraseChild]

theorem isLeaf_iff_child? {t : Trie K} : t.isLeaf = true ↔ ∀ key, t.child? key = none := by
  obtain ⟨b, f, h⟩ := t
  cases f with
  | nil => simp [isLeaf, Forest.isEmpty, child?, Forest.child?]
  | cons k t b rest =>
    simp only [isLeaf, Forest.isEmpty, Bool.false_eq_true, false_iff]
    intro none_at
    simpa [child?, Forest.child?] using none_at k

theorem setChild_self {t child : Trie K} {key : K} (found : t.child? key = some child) :
    t.setChild key child = t := by
  obtain ⟨terminal, children, distinct⟩ := t
  simp only [setChild, mk.injEq, true_and]
  exact Forest.set_self distinct found

/-! ## Number of nodes -/

theorem nodeCount_setChild {t child sub : Trie K} {key : K} (found : t.child? key = some child) :
    (t.setChild key sub).nodeCount + child.nodeCount = t.nodeCount + sub.nodeCount := by
  have children : (t.children.set key sub.terminal sub.children).nodeCount +
      child.children.nodeCount = t.children.nodeCount + sub.children.nodeCount :=
    Forest.nodeCount_set t.distinct found
  simp only [nodeCount, setChild]
  omega

theorem nodeCount_setChild_of_none {t sub : Trie K} {key : K} (absent : t.child? key = none) :
    (t.setChild key sub).nodeCount = t.nodeCount + sub.nodeCount := by
  have fresh := (Forest.child?_eq_none_iff t.distinct).mp absent
  simp only [nodeCount, setChild, Forest.nodeCount_set_of_notMem fresh]
  omega

theorem nodeCount_eraseChild {t child : Trie K} {key : K} (found : t.child? key = some child) :
    (t.eraseChild key).nodeCount + child.nodeCount = t.nodeCount := by
  have children := Forest.nodeCount_erase t.distinct found
  simp only [nodeCount, eraseChild] at children ⊢
  omega

theorem nodeCount_child?_lt {t child : Trie K} {key : K} (found : t.child? key = some child) :
    child.nodeCount < t.nodeCount := by
  have split := nodeCount_eraseChild found
  have root : 0 < (t.eraseChild key).nodeCount := Nat.succ_pos _
  omega

/-! ## Addresses -/

@[simp] theorem at?_nil (t : Trie K) : t.at? [] = some t := rfl

theorem at?_cons (t : Trie K) (key : K) (keys : List K) :
    t.at? (key :: keys) = (t.child? key).bind (·.at? keys) := rfl

theorem at?_append (t : Trie K) (front back : List K) :
    t.at? (front ++ back) = (t.at? front).bind (·.at? back) := by
  induction front generalizing t with
  | nil => rfl
  | cons key keys ih =>
    rw [List.cons_append, at?_cons, at?_cons, Option.bind_assoc]
    congr 1
    exact funext fun child => ih child

@[simp] theorem flag?_nil (t : Trie K) : t.flag? [] = some t.terminal := rfl

theorem flag?_cons (t : Trie K) (key : K) (keys : List K) :
    t.flag? (key :: keys) = (t.child? key).bind (·.flag? keys) := by
  rw [flag?, at?_cons, Option.map_bind]
  rfl

theorem Same.refl (t : Trie K) : t.Same t := fun _ => rfl

theorem Same.symm {t u : Trie K} (h : t.Same u) : u.Same t := fun address => (h address).symm

theorem Same.trans {t u v : Trie K} (h : t.Same u) (h' : u.Same v) : t.Same v :=
  fun address => (h address).trans (h' address)

end Trie

end NearestMount
