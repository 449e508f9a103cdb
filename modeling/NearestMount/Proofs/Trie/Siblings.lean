import NearestMount.Proofs.Trie.Pruned

/-! # The order of siblings

    Two forests are **reordered** forms of each other if one comes from the other by
    exchanging neighbours, at any level. `Trie.same_iff_reordered` says that this is
    all that two tries with the same flags can differ in: the view `Trie.flag?` sees
    everything but the order of siblings.
-/

namespace NearestMount

namespace Forest

variable {K : Type}

/-- One forest comes from the other by exchanging neighbours, here or further down. -/
inductive Reordered : Forest K → Forest K → Prop where
  | nil : Reordered nil nil
  | cons {key : K} {terminal : Bool} {below below' rest rest' : Forest K} :
    Reordered below below' → Reordered rest rest' →
      Reordered (cons key terminal below rest) (cons key terminal below' rest')
  | swap (key key' : K) (terminal terminal' : Bool) (below below' rest : Forest K) :
    Reordered (cons key terminal below (cons key' terminal' below' rest))
      (cons key' terminal' below' (cons key terminal below rest))
  | trans {f g h : Forest K} : Reordered f g → Reordered g h → Reordered f h

theorem Reordered.refl (f : Forest K) : f.Reordered f := by
  induction f with
  | nil => exact .nil
  | cons key terminal below rest hbelow hrest => exact .cons hbelow hrest

theorem Reordered.symm {f g : Forest K} (h : f.Reordered g) : g.Reordered f := by
  induction h with
  | nil => exact .nil
  | cons _ _ ihbelow ihrest => exact .cons ihbelow ihrest
  | swap => exact .swap ..
  | trans _ _ ihfg ihgh => exact .trans ihgh ihfg

theorem Reordered.mem_keys_iff {f g : Forest K} (h : f.Reordered g) (key : K) :
    key ∈ f.keys ↔ key ∈ g.keys := by
  induction h with
  | nil => rfl
  | cons _ _ _ hrest => simp [keys, hrest]
  | swap => simp [keys, or_left_comm]
  | trans _ _ hfg hgh => exact hfg.trans hgh

/-- An exchange of neighbours leaves keys distinct. -/
theorem Reordered.distinct {f g : Forest K} (h : f.Reordered g) (hf : f.Distinct) :
    g.Distinct := by
  induction h with
  | nil => trivial
  | @cons key _ _ _ rest rest' _ hrest ihbelow ihrest =>
    obtain ⟨hkey, hbelow, hdistinct⟩ := hf
    refine ⟨?_, ihbelow hbelow, ihrest hdistinct⟩
    rwa [← hrest.mem_keys_iff]
  | swap key key' =>
    obtain ⟨hkey, hbelow, hkey', hbelow', hrest⟩ := hf
    simp only [keys, List.mem_cons, not_or] at hkey
    refine ⟨?_, hbelow', hkey.2, hbelow, hrest⟩
    simp only [keys, List.mem_cons, not_or]
    exact ⟨Ne.symm hkey.1, hkey'⟩
  | trans _ _ ihfg ihgh => exact ihgh (ihfg hf)

variable [DecidableEq K]

/-- A sibling can be brought to the front. -/
theorem reordered_cons_erase {g below : Forest K} {key : K} {terminal : Bool}
    (hg : g.Distinct) (hb : below.Distinct) (h : g.child? hg key = some ⟨terminal, below, hb⟩) :
    g.Reordered (cons key terminal below (g.erase key)) := by
  -- it is the first sibling, or it goes to the front of the rest and then past the first
  induction g with
  | nil => cases h
  | cons k t b rest _ ih =>
    by_cases hk : k = key
    · subst hk
      simp only [child?, if_true, Option.some.injEq, Trie.mk.injEq] at h
      obtain ⟨rfl, rfl⟩ := h
      simpa [erase] using Reordered.refl _
    · simp only [child?, hk, if_false] at h
      have hrest := ih hg.2.2 h
      rw [erase, if_neg hk]
      exact .trans (.cons (.refl b) hrest) (.swap ..)

/-- What is read at an address does not depend on the order of siblings. -/
theorem Reordered.same {f g : Forest K} (h : f.Reordered g) (hf : f.Distinct) (hg : g.Distinct)
    (terminal : Bool) : Trie.Same ⟨terminal, f, hf⟩ ⟨terminal, g, hg⟩ := by
  -- by the exchanges; the flag of the root is a parameter since it differs further down
  induction h generalizing terminal with
  | nil => exact Trie.Same.refl _
  | @cons key t below below' rest rest' _ _ ihbelow ihrest =>
    intro address
    cases address with
    | nil => rfl
    | cons other others =>
      rw [Trie.flag?_cons, Trie.flag?_cons]
      simp only [Trie.child?, child?]
      split
      · exact ihbelow hf.2.1 hg.2.1 t others
      · have hrest := ihrest hf.2.2 hg.2.2 terminal (other :: others)
        rwa [Trie.flag?_cons, Trie.flag?_cons] at hrest
  | swap key key' t t' below below' rest =>
    intro address
    cases address with
    | nil => rfl
    | cons other others =>
      rw [Trie.flag?_cons, Trie.flag?_cons]
      have hne : key ≠ key' := by
        intro heq
        subst heq
        exact hf.1 (by simp [keys])
      simp only [Trie.child?, child?]
      -- at most one of the two neighbours has the key that is asked for
      by_cases hkey : key = other
      · subst hkey
        simp [Ne.symm hne]
      · simp [hkey]
  | trans hfg _ ihfg ihgh =>
    have hmid := hfg.distinct hf
    exact (ihfg hf hmid terminal).trans (ihgh hmid hg terminal)

end Forest

namespace Trie

variable {K : Type} [DecidableEq K]

/-- The two tries are the same but for the order of siblings, here or further down. -/
def Reordered (t u : Trie K) : Prop := t.terminal = u.terminal ∧ t.children.Reordered u.children

/-- Tries are the same if they are marked alike and have the same children. -/
theorem same_iff_child? {t u : Trie K} :
    t.Same u ↔ t.terminal = u.terminal ∧
      ∀ key, Option.Rel Same (t.child? key) (u.child? key) := by
  constructor
  · intro h
    refine ⟨?_, ?_⟩
    · simpa using h []
    · intro key
      have hbelow : ∀ keys, (t.child? key).bind (·.flag? keys) = (u.child? key).bind (·.flag? keys) := by
        intro keys
        rw [← flag?_cons, ← flag?_cons]
        exact h (key :: keys)
      cases ht : t.child? key with
      | none =>
        cases hu : u.child? key with
        | none => exact .none
        | some child =>
          have hroot := hbelow []
          simp [ht, hu] at hroot
      | some child =>
        cases hu : u.child? key with
        | none =>
          have hroot := hbelow []
          simp [ht, hu] at hroot
        | some child' =>
          refine .some ?_
          intro keys
          simpa [ht, hu] using hbelow keys
  · intro h address
    obtain ⟨hterminal, hchildren⟩ := h
    cases address with
    | nil => simpa using hterminal
    | cons key keys =>
      have hkey := hchildren key
      rw [flag?_cons, flag?_cons]
      generalize t.child? key = child at hkey
      generalize u.child? key = child' at hkey
      cases hkey with
      | none => rfl
      | some hsame => exact hsame keys

end Trie

/-- Siblings with the same children below them are the same but for their order. -/
theorem Forest.reordered_of_child? {K : Type} [DecidableEq K] {f g : Forest K} (hf : f.Distinct)
    (hg : g.Distinct) (h : ∀ key, Option.Rel Trie.Same (f.child? hf key) (g.child? hg key)) :
    f.Reordered g := by
  -- sibling by sibling of `f`; each is looked up in what is left of `g`
  induction f generalizing g with
  | nil =>
    -- then `g` has no key either
    cases g with
    | nil => exact .nil
    | cons key t below rest =>
      have hkey := h key
      simp [child?] at hkey
  | cons key t below rest ihbelow ihrest =>
    have hhead := h key
    simp only [child?, if_true] at hhead
    cases hfound : g.child? hg key with
    | none =>
      rw [hfound] at hhead
      cases hhead
    | some child =>
      rw [hfound] at hhead
      obtain ⟨t', below', hbelow'⟩ := child
      cases hhead with
      | some hsame =>
        obtain ⟨rfl, hchildren⟩ := Trie.same_iff_child?.mp hsame
        -- the sibling of `g` with the key of the first of `f` goes to the front
        have hfront := reordered_cons_erase hg hbelow' hfound
        have hrest : rest.Reordered (g.erase key) := by
          refine ihrest hf.2.2 (hg.erase key) ?_
          intro other
          rw [child?_erase hg]
          by_cases hother : key = other
          · subst hother
            rw [if_pos rfl, (child?_eq_none_iff hf.2.2).mpr hf.1]
            exact .none
          · have hsibling := h other
            simp only [child?, hother, if_false] at hsibling
            rwa [if_neg hother]
        have hbelow : below.Reordered below' := ihbelow hf.2.1 hbelow' hchildren
        exact .trans (.cons hbelow hrest) hfront.symm

namespace Trie

variable {K : Type} [DecidableEq K]

/-- Two tries with the same flags are the same but for the order of siblings. -/
theorem same_iff_reordered {t u : Trie K} : t.Same u ↔ t.Reordered u := by
  obtain ⟨b, f, hf⟩ := t
  obtain ⟨c, g, hg⟩ := u
  constructor
  · intro h
    obtain ⟨hterminal, hchildren⟩ := same_iff_child?.mp h
    exact ⟨hterminal, Forest.reordered_of_child? hf hg hchildren⟩
  · intro h
    obtain ⟨hterminal, hforest⟩ := h
    cases hterminal
    exact hforest.same hf hg b

end Trie

end NearestMount
