import Mathlib.Data.List.Induction
import NearestMount.Trie.Edit
import NearestMount.Proofs.Trie.Siblings

/-! # Tries grown by insertion and withdrawal

    A trie that comes from the empty one by insertions and withdrawals at its root is a
    canonical form of the set of sequences that it holds. `Kept` says, from the history
    alone, which sequences these are: those that were inserted and not withdrawn since.

    - `holds_edit_iff` is one step, `holds_editAll_iff` the whole history.
    - `history_canonical` puts this together with the absence of dead ends: histories
      that keep the same sequences leave the same trie.
-/

namespace NearestMount.Trie

variable {K : Type}

/-- True of a change that speaks of one sequence. -/
def Edit.isSequential : Edit K → Bool
  | .insert _ | .remove _ => true
  | .graft .. | .detach _ => false

variable [DecidableEq K]

/-- The trie after some changes at its root, in order. -/
def editAll (t : Trie K) (edits : List (Edit K)) : Trie K := edits.foldl edit t

theorem editAll_cons (t : Trie K) (e : Edit K) (edits : List (Edit K)) :
    t.editAll (e :: edits) = (t.edit e).editAll edits := rfl

theorem editAll_append (t : Trie K) (front back : List (Edit K)) :
    t.editAll (front ++ back) = (t.editAll front).editAll back :=
  List.foldl_append

/-- The sequence was inserted, and no withdrawal of it since its last insertion took
    place. -/
def Kept (history : List (Edit K)) (sequence : List K) : Prop :=
  ∃ before after, history = before ++ .insert sequence :: after ∧ .insert sequence ∉ after ∧
    ∀ early late, after = early ++ .remove sequence :: late →
      (empty.editAll (before ++ .insert sequence :: early)).remove? sequence = none

/-! ## One change -/

/-- What is held after a change: what it inserts, and what was held before unless it
    withdraws that. -/
theorem holds_edit_iff {t : Trie K} {e : Edit K} (he : e.isSequential = true)
    {sequence : List K} :
    (t.edit e).Holds sequence ↔ e = .insert sequence ∨
      (t.Holds sequence ∧ ¬ (e = .remove sequence ∧ t.remove? sequence ≠ none)) := by
  cases e with
  | insert other =>
    show (t.insert other).Holds sequence ↔ _
    rw [holds_insert]
    simp [eq_comm]
  | remove other =>
    have hwithdrawn : t.Holds sequence → t.remove? sequence ≠ none := by
      intro hheld hnone
      rw [← isSome_remove?_iff_holds, hnone] at hheld
      cases hheld
    rw [holds_edit_remove_iff]
    constructor
    · intro hboth
      obtain ⟨hne, hheld⟩ := hboth
      exact Or.inr ⟨hheld, fun hthis => hne (Edit.remove.inj hthis.1).symm⟩
    · intro hcase
      obtain ⟨hheld, hkept⟩ := hcase.resolve_left (by simp)
      refine ⟨?_, hheld⟩
      intro heq
      exact hkept ⟨by rw [heq], hwithdrawn hheld⟩
  | graft key sub => cases he
  | detach key => cases he

theorem Pruned.edit {t : Trie K} (h : t.Pruned) {e : Edit K} (he : e.isSequential = true) :
    (t.edit e).Pruned := by
  cases e with
  | insert sequence => exact h.insert sequence
  | remove sequence =>
    rcases t.edit_remove_cases sequence with ⟨-, heq⟩ | ⟨removed, u, hremove, heq⟩
    · rw [heq]
      exact h
    · rw [heq]
      exact h.remove? hremove
  | graft key sub => cases he
  | detach key => cases he

/-! ## A whole history -/

/-- Where a history with one more change can be cut at a change: at the last one, or
    within what came before. -/
theorem snoc_eq_append_cons {Change : Type} {history before after : List Change} {e e' : Change}
    (h : history ++ [e] = before ++ e' :: after) :
    (after = [] ∧ e = e' ∧ history = before) ∨
      ∃ rest, after = rest ++ [e] ∧ history = before ++ e' :: rest := by
  rcases List.eq_nil_or_concat after with rfl | ⟨rest, last, hafter⟩
  · left
    obtain ⟨hhistory, he⟩ := List.append_inj' h rfl
    exact ⟨rfl, (List.cons.inj he).1, hhistory⟩
  · right
    rw [List.concat_eq_append] at hafter
    rw [hafter, ← List.cons_append, ← List.append_assoc] at h
    obtain ⟨hhistory, he⟩ := List.append_inj' h rfl
    exact ⟨rest, by rw [hafter, he], hhistory⟩

theorem not_kept_nil (sequence : List K) : ¬ Kept [] sequence := by
  intro hkept
  obtain ⟨before, after, hhistory, -⟩ := hkept
  simp at hhistory

/-- What is kept after one more change: what it inserts, and what was kept before
    unless it withdraws that. -/
theorem kept_snoc_iff {history : List (Edit K)} {e : Edit K} {sequence : List K} :
    Kept (history ++ [e]) sequence ↔ e = .insert sequence ∨
      (Kept history sequence ∧
        ¬ (e = .remove sequence ∧ (empty.editAll history).remove? sequence ≠ none)) := by
  constructor
  · intro hkept
    obtain ⟨before, after, hhistory, hlast, hfailed⟩ := hkept
    rcases snoc_eq_append_cons hhistory with ⟨-, he, -⟩ | ⟨rest, rfl, rfl⟩
    · -- the last insertion is the last change
      exact Or.inl he
    · right
      refine ⟨⟨before, rest, rfl, ?_, ?_⟩, ?_⟩
      · intro hmem
        exact hlast (List.mem_append_left _ hmem)
      · intro early late hrest
        refine hfailed early (late ++ [e]) ?_
        rw [hrest, List.append_assoc, List.cons_append]
      · intro hwithdrawn
        obtain ⟨rfl, hsome⟩ := hwithdrawn
        exact hsome (hfailed rest [] rfl)
  · intro hcase
    by_cases he : e = .insert sequence
    · -- nothing comes after the insertion
      subst he
      refine ⟨history, [], rfl, by simp, ?_⟩
      intro early late hnil
      simp at hnil
    · obtain ⟨⟨before, after, rfl, hlast, hfailed⟩, hkept⟩ := hcase.resolve_left he
      refine ⟨before, after ++ [e], by simp, ?_, ?_⟩
      · intro hmem
        rcases List.mem_append.mp hmem with hin | hin
        · exact hlast hin
        · exact he (List.mem_singleton.mp hin).symm
      · intro early late hafter
        rcases snoc_eq_append_cons hafter with ⟨-, hremove, rfl⟩ | ⟨rest, -, hrest⟩
        · -- the withdrawal is the last change, and it fails
          apply Classical.byContradiction
          intro hsome
          exact hkept ⟨hremove, hsome⟩
        · exact hfailed early rest hrest

/-- What is held after a history is what it keeps. -/
theorem holds_editAll_iff {history : List (Edit K)}
    (hhistory : ∀ e ∈ history, e.isSequential = true) {sequence : List K} :
    (empty.editAll history).Holds sequence ↔ Kept history sequence := by
  -- from the last change backwards, for `Kept` looks back from the end of the history
  induction history using List.reverseRecOn with
  | nil =>
    exact iff_of_false (not_holds_empty sequence) (not_kept_nil sequence)
  | append_singleton history e ih =>
    -- both sides obey the same equation for one more change
    have hbefore := ih fun other hmem => hhistory other (List.mem_append_left _ hmem)
    have he : e.isSequential = true := hhistory e (by simp)
    rw [editAll_append]
    show ((empty.editAll history).edit e).Holds sequence ↔ _
    rw [holds_edit_iff he, kept_snoc_iff, hbefore]

theorem Pruned.editAll {t : Trie K} (h : t.Pruned) {history : List (Edit K)}
    (hhistory : ∀ e ∈ history, e.isSequential = true) : (t.editAll history).Pruned := by
  induction history generalizing t with
  | nil => exact h
  | cons e history ih =>
    rw [editAll_cons]
    apply ih (h.edit (hhistory e List.mem_cons_self))
    intro other hmem
    exact hhistory other (List.mem_cons_of_mem _ hmem)

/-! ## Insertions only, withdrawals only -/

theorem holds_insertAll_iff {t : Trie K} {sequences : List (List K)} {sequence : List K} :
    (t.editAll (sequences.map .insert)).Holds sequence ↔
      sequence ∈ sequences ∨ t.Holds sequence := by
  induction sequences generalizing t with
  | nil => simp [editAll]
  | cons first rest ih =>
    rw [List.map_cons, editAll_cons, ih]
    show _ ∨ (t.insert first).Holds sequence ↔ _
    rw [holds_insert, List.mem_cons, or_left_comm, or_assoc]

theorem holds_removeAll_iff {t : Trie K} {sequences : List (List K)} {sequence : List K} :
    (t.editAll (sequences.map .remove)).Holds sequence ↔
      sequence ∉ sequences ∧ t.Holds sequence := by
  induction sequences generalizing t with
  | nil => simp [editAll]
  | cons first rest ih =>
    -- what is held can be withdrawn, so no withdrawal of it fails
    have hheld : t.Holds sequence → t.remove? sequence ≠ none := by
      intro hheld
      exact Option.isSome_iff_ne_none.mp (isSome_remove?_iff_holds.mpr hheld)
    have hfirst : Edit.isSequential (.remove first : Edit K) = true := rfl
    rw [List.map_cons, editAll_cons, ih, holds_edit_iff hfirst, List.mem_cons, not_or]
    simp only [reduceCtorEq, false_or, Edit.remove.injEq]
    constructor
    · intro hboth
      obtain ⟨hrest, hbefore, hkept⟩ := hboth
      refine ⟨⟨?_, hrest⟩, hbefore⟩
      intro heq
      exact hkept ⟨heq.symm, hheld hbefore⟩
    · intro hboth
      obtain ⟨⟨hne, hrest⟩, hbefore⟩ := hboth
      exact ⟨hrest, hbefore, fun hwithdrawn => hne hwithdrawn.1.symm⟩

/-- A pruned trie that holds nothing is the empty one. -/
theorem Pruned.eq_empty {t : Trie K} (h : t.Pruned) (hnone : ∀ sequence, ¬ t.Holds sequence) :
    t = empty := by
  have hdead : t.isDeadEnd = true := isDeadEnd_iff_pruned.mpr ⟨h, hnone⟩
  obtain ⟨terminal, children, distinct⟩ := t
  simp only [isDeadEnd, isLeaf, Bool.and_eq_true, Bool.not_eq_true', Forest.isEmpty_iff] at hdead
  obtain ⟨rfl, rfl⟩ := hdead
  rfl

/-- After every history of insertions and withdrawals, whatever sequences they speak of:
    the trie holds the sequences that the history keeps; its nodes are the root and the
    prefixes of these; and no leaf but the root is a dead end. So histories that keep the
    same sequences leave the same trie but for the order of siblings. In particular the
    order and the repetition of insertions do not matter, and to withdraw all that was
    kept gives back the empty trie. -/
theorem history_canonical {history : List (Edit K)}
    (hhistory : ∀ e ∈ history, e.isSequential = true) :
    (∀ sequence, (empty.editAll history).Holds sequence ↔ Kept history sequence) ∧
    (∀ address, (empty.editAll history).flag? address ≠ none ↔
      address = [] ∨ ∃ sequence, address <+: sequence ∧ Kept history sequence) ∧
    (empty.editAll history).Pruned ∧
    (∀ other, (∀ e ∈ other, e.isSequential = true) →
      (∀ sequence, Kept history sequence ↔ Kept other sequence) →
      (empty.editAll history).Reordered (empty.editAll other)) ∧
    (∀ sequences sequences' : List (List K), (∀ sequence, sequence ∈ sequences ↔ sequence ∈ sequences') →
      ((empty.editAll history).editAll (sequences.map .insert)).Reordered
        ((empty.editAll history).editAll (sequences'.map .insert))) ∧
    (∀ sequence, (((empty.editAll history).insert sequence).insert sequence).Reordered
      ((empty.editAll history).insert sequence)) ∧
    (∀ sequences : List (List K), (∀ sequence, Kept history sequence → sequence ∈ sequences) →
      (empty.editAll history).editAll (sequences.map .remove) = empty) := by
  have hpruned := pruned_empty.editAll hhistory
  have hholds : ∀ sequence, (empty.editAll history).Holds sequence ↔ Kept history sequence :=
    fun sequence => holds_editAll_iff hhistory
  refine ⟨hholds, ?_, hpruned, ?_, ?_, ?_, ?_⟩
  · intro address
    simp only [← hholds]
    exact hpruned.flag?_ne_none_iff
  · intro other hother hsame
    rw [← same_iff_reordered]
    apply hpruned.same_of_holds_iff (pruned_empty.editAll hother)
    intro sequence
    rw [hholds, holds_editAll_iff hother, hsame]
  · intro sequences sequences' hsame
    rw [← same_iff_reordered]
    apply (hpruned.editAll (by simp [Edit.isSequential])).same_of_holds_iff
      (hpruned.editAll (by simp [Edit.isSequential]))
    intro sequence
    rw [holds_insertAll_iff, holds_insertAll_iff, hsame]
  · intro sequence
    rw [← same_iff_reordered]
    apply ((hpruned.insert sequence).insert sequence).same_of_holds_iff (hpruned.insert sequence)
    intro other
    simp [holds_insert]
  · intro sequences hall
    apply (hpruned.editAll (by simp [Edit.isSequential])).eq_empty
    intro sequence hheld
    obtain ⟨hnot, hbefore⟩ := holds_removeAll_iff.mp hheld
    exact hnot (hall sequence ((hholds sequence).mp hbefore))

/-- A sequence that was withdrawn again leaves no trace: not in what can be inserted
    afterwards, and not when all the rest is withdrawn. -/
theorem no_trace_of_withdrawn :
    let history : List (Edit Nat) := [.insert [1, 2], .insert [1], .remove [1, 2], .remove [5]]
    (∀ e ∈ history, e.isSequential = true) ∧ Kept history [1] ∧ ¬ Kept history [1, 2] ∧
      ((empty.editAll history).editAll ([[3], [1, 2]].map .insert)).Reordered
        ((empty.editAll history).editAll ([[1, 2], [3], [1, 2]].map .insert)) ∧
      (empty.editAll history).editAll ([[1, 2], [1]].map .remove) = empty := by
  intro history
  have hhistory : ∀ e ∈ history, e.isSequential = true := by decide
  obtain ⟨hholds, -, -, -, hinsert, -, hremove⟩ := history_canonical hhistory
  refine ⟨hhistory, (hholds [1]).mp (by decide), mt (hholds [1, 2]).mpr (by decide), ?_, ?_⟩
  · apply hinsert
    intro sequence
    simp [or_comm]
  · apply hremove
    intro sequence hkept
    -- only what was inserted can be kept
    obtain ⟨before, after, heq, -⟩ := hkept
    have hmem : Edit.insert sequence ∈ history := by simp [heq]
    simpa [history] using hmem

end NearestMount.Trie
