import NearestMount.Trie.Lemmas

/-! # Adding a sequence, seen through the view

    `flag?_insert` says what an insertion does to every address: the end of the
    sequence becomes terminal, the nodes on the way to it are there afterwards, and
    nothing else changes. `holds_insert` says what this means for the sequences held.
-/

namespace NearestMount.Trie

variable {K : Type} [DecidableEq K]

@[simp] theorem flag?_mark_nil (t : Trie K) (b : Bool) : (t.mark b).flag? [] = some b := rfl

@[simp] theorem flag?_mark_cons (t : Trie K) (b : Bool) (key : K) (keys : List K) :
    (t.mark b).flag? (key :: keys) = t.flag? (key :: keys) := rfl

theorem flag?_empty (address : List K) :
    (empty : Trie K).flag? address = if address = [] then some false else none := by
  cases address <;> rfl

theorem flag?_setChild_cons (t sub : Trie K) (key other : K) (keys : List K) :
    (t.setChild key sub).flag? (other :: keys) =
      if key = other then sub.flag? keys else t.flag? (other :: keys) := by
  rw [flag?_cons, flag?_cons, child?_setChild]
  split <;> rfl

theorem flag?_eraseChild_cons (t : Trie K) (key other : K) (keys : List K) :
    (t.eraseChild key).flag? (other :: keys) =
      if key = other then none else t.flag? (other :: keys) := by
  rw [flag?_cons, flag?_cons, child?_eraseChild]
  split <;> rfl

/-- The flags of a child that may have to be made. -/
theorem flag?_getD_child? (t : Trie K) (key : K) (keys : List K) :
    ((t.child? key).getD empty).flag? keys =
      (t.flag? (key :: keys)).or (if keys = [] then some false else none) := by
  rw [flag?_cons]
  cases t.child? key with
  | none => simp [flag?_empty]
  | some child =>
    cases keys with
    | nil => simp
    | cons => simp

/-- Insertion makes the end of the sequence terminal and the nodes on the way to it
    present. -/
theorem flag?_insert (t : Trie K) (sequence address : List K) :
    (t.insert sequence).flag? address =
      if address = sequence then some true
      else if address <+: sequence then some ((t.flag? address).getD false)
      else t.flag? address := by
  induction sequence generalizing t address with
  | nil =>
    cases address with
    | nil => rfl
    | cons => simp [insert]
  | cons key keys ih =>
    cases address with
    | nil => simp [insert]
    | cons other others =>
      rw [insert, flag?_setChild_cons]
      by_cases same : key = other
      · subst same
        rw [if_pos rfl, ih, flag?_getD_child?]
        by_cases start : others = []
        · subst start
          cases t.flag? [key] <;> simp
        · simp [start]
      · simp [same, Ne.symm same]

/-- Insertion adds the sequence to those held, and no other. -/
theorem holds_insert {t : Trie K} {sequence other : List K} :
    (t.insert sequence).Holds other ↔ other = sequence ∨ t.Holds other := by
  unfold Holds
  rw [flag?_insert]
  split
  · simp_all
  · split
    · cases t.flag? other <;> simp_all
    · simp_all

end NearestMount.Trie
