/-! # Forests of keyed nodes

    A forest is a family of sibling nodes, each reached by a key of its own and
    each with a forest below it. Siblings stand in no particular order: the order
    is that of their first arrival, and nothing that is said of a trie depends on
    it.

    - `Forest.Distinct` says that no two siblings share a key, at any level.
    - `Forest.set` and `Forest.erase` change one sibling and keep that property.
-/

namespace NearestMount

/-- Siblings with their keys. A node carries a mark, `terminal`, and the forest
    below it. -/
inductive Forest (K : Type) where
  | nil
  | cons (key : K) (terminal : Bool) (below rest : Forest K)
  deriving DecidableEq

namespace Forest

variable {K : Type}

/-- The keys of the siblings, in the order in which they stand. -/
def keys : Forest K → List K
  | nil => []
  | cons key _ _ rest => key :: rest.keys

/-- No two siblings share a key, here or further down. -/
def Distinct : Forest K → Prop
  | nil => True
  | cons key _ below rest => key ∉ rest.keys ∧ below.Distinct ∧ rest.Distinct

/-- True if there is no sibling. -/
def isEmpty : Forest K → Bool
  | nil => true
  | cons .. => false

/-- Number of nodes, at all levels. -/
def nodeCount : Forest K → Nat
  | nil => 0
  | cons _ _ below rest => below.nodeCount + rest.nodeCount + 1

/-- Number of terminal nodes, at all levels. -/
def terminalCount : Forest K → Nat
  | nil => 0
  | cons _ terminal below rest =>
    below.terminalCount + rest.terminalCount + terminal.toNat

@[simp] theorem distinct_nil : (nil : Forest K).Distinct := trivial

theorem isEmpty_iff {f : Forest K} : f.isEmpty = true ↔ f = nil := by
  cases f <;> simp [isEmpty]

/-! ## Changing one sibling -/

variable [DecidableEq K]

/-- Puts a node at `key`: in the place of the sibling that has this key, or else
    after all the others. -/
def set : Forest K → (key : K) → (terminal : Bool) → (below : Forest K) → Forest K
  | nil, key, terminal, below => cons key terminal below nil
  | cons k t b rest, key, terminal, below =>
    if k = key then cons key terminal below rest
    else cons k t b (rest.set key terminal below)

/-- Takes away the sibling at `key`, with all that is below it. -/
def erase (key : K) : Forest K → Forest K
  | nil => nil
  | cons k t b rest => if k = key then rest else cons k t b (rest.erase key)

theorem mem_keys_set {key other : K} {terminal : Bool} {below f : Forest K} :
    other ∈ (f.set key terminal below).keys ↔ other = key ∨ other ∈ f.keys := by
  induction f with
  | nil => simp [set, keys]
  | cons k t b rest _ ih =>
    by_cases h : k = key
    · simp [set, h, keys]
    · simp [set, h, keys, ih, or_left_comm]

theorem mem_keys_of_mem_keys_erase {key other : K} {f : Forest K} :
    other ∈ (f.erase key).keys → other ∈ f.keys := by
  induction f with
  | nil => simp [erase]
  | cons k t b rest _ ih =>
    by_cases h : k = key
    · simpa [erase, h, keys] using Or.inr
    · simpa [erase, h, keys] using Or.imp_right ih

theorem Distinct.set {f below : Forest K} (hf : f.Distinct) (hb : below.Distinct)
    (key : K) (terminal : Bool) : (f.set key terminal below).Distinct := by
  induction f with
  | nil => exact ⟨by simp [keys], hb, trivial⟩
  | cons k t b rest _ ih =>
    obtain ⟨fresh, hbelow, hrest⟩ := hf
    by_cases h : k = key
    · subst h
      simpa [Forest.set, Distinct] using ⟨fresh, hb, hrest⟩
    · simp only [Forest.set, h, ↓reduceIte]
      refine ⟨?_, hbelow, ih hrest⟩
      rw [mem_keys_set]
      exact not_or.mpr ⟨h, fresh⟩

theorem Distinct.erase {f : Forest K} (hf : f.Distinct) (key : K) :
    (f.erase key).Distinct := by
  induction f with
  | nil => trivial
  | cons k t b rest _ ih =>
    obtain ⟨fresh, hbelow, hrest⟩ := hf
    by_cases h : k = key
    · simpa [Forest.erase, h] using hrest
    · simp only [Forest.erase, h, ↓reduceIte]
      exact ⟨fun mem => fresh (mem_keys_of_mem_keys_erase mem), hbelow, ih hrest⟩

end Forest

end NearestMount
