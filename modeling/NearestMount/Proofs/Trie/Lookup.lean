import NearestMount.Trie.Lookup

/-! # What lookups along a sequence find

    Lookups are measured against the addresses of the trie. `LowestAlong` is the meaning
    of the longest-prefix query: the match qualifies and nothing below it on the way
    does.

    - `lookup?_eq_scan` says that one pass along the way answers every query, if it
      carries the best match that it has come by.
    - `lookup_exact` says for every query which depth and which node it answers with,
      in terms of the prefixes of the sequence alone.
-/

namespace NearestMount.Trie

variable {K : Type} [DecidableEq K]

/-! ## The lowest match -/

/-- True if there is a node at the address and a query may answer with it. -/
def Qualifies (t : Trie K) (terminalOnly : Bool) (address : List K) : Prop :=
  ∃ node, t.at? address = some node ∧ node.qualifies terminalOnly = true

/-- The match is the lowest one on the way along the sequence. -/
structure LowestAlong (t : Trie K) (terminalOnly : Bool) (sequence : List K) (m : Match K) :
    Prop where
  depth_le : m.depth ≤ sequence.length
  at?_eq : t.at? (sequence.take m.depth) = some m.node
  qualifies : m.node.qualifies terminalOnly = true
  none_lower : ∀ depth, m.depth < depth → depth ≤ sequence.length →
    ¬ t.Qualifies terminalOnly (sequence.take depth)

theorem qualifies_true_iff_holds {t : Trie K} {address : List K} :
    t.Qualifies true address ↔ t.Holds address := by
  simp only [Qualifies, Holds, flag?, Option.map_eq_some_iff, Trie.qualifies, Bool.not_true,
    Bool.false_or]

theorem qualifies_nil_iff {t : Trie K} {terminalOnly : Bool} :
    t.Qualifies terminalOnly [] ↔ t.qualifies terminalOnly = true := by
  simp [Qualifies]

theorem qualifies_cons_iff {t : Trie K} {terminalOnly : Bool} {key : K} {keys : List K} :
    t.Qualifies terminalOnly (key :: keys) ↔
      ∃ child, t.child? key = some child ∧ child.Qualifies terminalOnly keys := by
  constructor
  · intro hexists
    obtain ⟨node, hat, hnode⟩ := hexists
    rw [at?_cons] at hat
    obtain ⟨child, hchild, hbelow⟩ := Option.bind_eq_some_iff.mp hat
    exact ⟨child, hchild, node, hbelow, hnode⟩
  · intro hexists
    obtain ⟨child, hchild, node, hbelow, hnode⟩ := hexists
    refine ⟨node, ?_, hnode⟩
    rw [at?_cons, hchild]
    exact hbelow

/-- Without an answer no node on the way qualifies. -/
theorem not_qualifies_of_deepest?_eq_none {t : Trie K} {terminalOnly : Bool}
    {sequence : List K} (h : t.deepest? terminalOnly sequence = none) (depth : Nat) :
    ¬ t.Qualifies terminalOnly (sequence.take depth) := by
  induction sequence generalizing t depth with
  | nil =>
    rw [List.take_nil, qualifies_nil_iff]
    intro hq
    simp [deepest?, here?, hq] at h
  | cons key keys ih =>
    rw [deepest?_cons, Option.or_eq_none_iff] at h
    obtain ⟨hbelow, hhere⟩ := h
    cases depth with
    | zero =>
      rw [List.take_zero, qualifies_nil_iff]
      intro hq
      simp [here?, hq] at hhere
    | succ depth =>
      rw [List.take_succ_cons, qualifies_cons_iff]
      intro hexists
      obtain ⟨child, hchild, hq⟩ := hexists
      have hnone : child.deepest? terminalOnly keys = none := by simpa [hchild] using hbelow
      exact ih hnone depth hq

/-- The answer to the longest-prefix query is the lowest match on the way. -/
theorem lowestAlong_of_deepest?_eq_some {t : Trie K} {terminalOnly : Bool}
    {sequence : List K} {m : Match K} (h : t.deepest? terminalOnly sequence = some m) :
    t.LowestAlong terminalOnly sequence m := by
  induction sequence generalizing t m with
  | nil =>
    simp only [deepest?, here?] at h
    split at h
    · next hq =>
      cases h
      refine ⟨Nat.le_refl _, rfl, hq, ?_⟩
      intro depth hlt hle
      exact absurd hle (Nat.not_le.mpr hlt)
    · cases h
  | cons key keys ih =>
    rw [deepest?_cons, Option.or_eq_some_iff] at h
    rcases h with hbelow | ⟨hbelow, hhere⟩
    · -- the child on the way answers, and whatever is lower is under that child too
      obtain ⟨lower, hlower, rfl⟩ := Option.map_eq_some_iff.mp hbelow
      obtain ⟨child, hchild, hdeepest⟩ := Option.bind_eq_some_iff.mp hlower
      have hm := ih hdeepest
      refine ⟨Nat.succ_le_succ hm.depth_le, ?_, hm.qualifies, ?_⟩
      · rw [Match.depth_lower, List.take_succ_cons, at?_cons, hchild]
        exact hm.at?_eq
      · intro depth hlt hle
        obtain ⟨depth, rfl⟩ : ∃ d, depth = d + 1 := ⟨depth - 1, by omega⟩
        rw [List.take_succ_cons, qualifies_cons_iff]
        intro hexists
        obtain ⟨other, hother, hq⟩ := hexists
        obtain rfl : child = other := Option.some.inj (hchild.symm.trans hother)
        exact hm.none_lower depth (Nat.lt_of_succ_lt_succ hlt) (Nat.le_of_succ_le_succ hle) hq
    · -- the child has no answer, so nothing under it qualifies
      simp only [here?] at hhere
      split at hhere
      · next hq =>
        cases hhere
        refine ⟨Nat.zero_le _, rfl, hq, ?_⟩
        intro depth hlt hle
        obtain ⟨depth, rfl⟩ : ∃ d, depth = d + 1 := ⟨depth - 1, by omega⟩
        rw [List.take_succ_cons, qualifies_cons_iff]
        intro hexists
        obtain ⟨child, hchild, hq⟩ := hexists
        have hnone : child.deepest? terminalOnly keys = none := by simpa [hchild] using hbelow
        exact not_qualifies_of_deepest?_eq_none hnone depth hq
      · cases hhere

/-! ## One pass -/

omit [DecidableEq K] in
/-- The best match after a node has been come by. A query for the whole sequence keeps
    none on the way. -/
def better? (query : Query) (t : Trie K) (depth : Nat) (best : Option (Match K)) :
    Option (Match K) :=
  if !query.whole && t.qualifies query.terminalOnly then some ⟨depth, t⟩ else best

/-- One pass along a sequence from a node at `depth`, with the best match so far. -/
def scan (query : Query) (t : Trie K) (depth : Nat) (best : Option (Match K)) :
    List K → Option (Match K)
  | [] =>
    if query.whole then
      if t.qualifies query.terminalOnly then some ⟨depth, t⟩ else none
    else best
  | key :: keys =>
    match t.child? key with
    | none => if query.whole then none else best
    | some child => child.scan query (depth + 1) (child.better? query (depth + 1) best) keys

/-- A match below a node at `depth`, seen from the root. -/
def Match.under (depth : Nat) (m : Match K) : Match K := { m with depth := depth + m.depth }

theorem scan_whole (terminalOnly : Bool) (t : Trie K) (depth : Nat) (best : Option (Match K))
    (keys : List K) :
    t.scan ⟨terminalOnly, true⟩ depth best keys =
      (t.whole? terminalOnly keys).map (Match.under depth) := by
  induction keys generalizing t depth best with
  | nil => cases hq : t.qualifies terminalOnly <;> simp [scan, whole?, Option.filter, hq, Match.under]
  | cons key keys ih =>
    cases hchild : t.child? key with
    | none => simp [scan, whole?, at?_cons, hchild]
    | some child =>
      simp only [scan, hchild, ih, whole?, at?_cons, Option.bind_some, Option.map_map]
      congr 1
      funext node
      show (⟨depth + 1 + keys.length, node⟩ : Match K) = ⟨depth + (keys.length + 1), node⟩
      rw [Nat.add_assoc, Nat.add_comm 1]

omit [DecidableEq K] in
theorem better?_eq (terminalOnly : Bool) (t : Trie K) (depth : Nat) (best : Option (Match K)) :
    t.better? ⟨terminalOnly, false⟩ depth best =
      ((t.here? terminalOnly).map (Match.under depth)).or best := by
  cases hq : t.qualifies terminalOnly <;> simp [better?, here?, hq, Match.under]

theorem scan_deepest (terminalOnly : Bool) (t : Trie K) (depth : Nat) (best : Option (Match K))
    (keys : List K) :
    t.scan ⟨terminalOnly, false⟩ depth (t.better? ⟨terminalOnly, false⟩ depth best) keys =
      ((t.deepest? terminalOnly keys).map (Match.under depth)).or best := by
  induction keys generalizing t depth best with
  | nil =>
    rw [better?_eq]
    rfl
  | cons key keys ih =>
    rw [deepest?_cons]
    cases hchild : t.child? key with
    | none => simp [scan, hchild, better?_eq]
    | some child =>
      -- what the child finds comes first, then this node, then what came before
      have hlower : (Match.under depth ∘ Match.lower : Match K → Match K) =
          Match.under (depth + 1) := by
        funext m
        simp [Match.under, Match.lower, Nat.add_assoc, Nat.add_comm 1]
      simp only [scan, hchild]
      rw [ih, better?_eq]
      simp only [Option.bind_some, Option.map_or, Option.map_map, hlower, Option.or_assoc]

/-- One pass answers every query. -/
theorem lookup?_eq_scan (query : Query) (t : Trie K) (sequence : List K) :
    t.lookup? query sequence = t.scan query 0 (t.better? query 0 none) sequence := by
  have hroot : (Match.under 0 : Match K → Match K) = id := by
    funext m
    simp [Match.under]
  obtain ⟨terminalOnly, whole⟩ := query
  cases whole with
  | true => simp [lookup?, scan_whole, hroot]
  | false => simp [lookup?, scan_deepest, hroot]

/-! ## Answers in terms of prefixes -/

/-- The longest of the prefixes of the sequence that lead to a qualifying node. -/
structure LongestPrefix (t : Trie K) (terminalOnly : Bool) (sequence front : List K) : Prop where
  front_prefix : front <+: sequence
  qualifies : t.Qualifies terminalOnly front
  longest : ∀ other, other <+: sequence → t.Qualifies terminalOnly other →
    other.length ≤ front.length

theorem LongestPrefix.length_unique {t : Trie K} {terminalOnly : Bool}
    {sequence front front' : List K} (h : t.LongestPrefix terminalOnly sequence front)
    (h' : t.LongestPrefix terminalOnly sequence front') : front.length = front'.length :=
  Nat.le_antisymm (h'.longest front h.front_prefix h.qualifies)
    (h.longest front' h'.front_prefix h'.qualifies)

/-- The lowest match is at the end of the longest prefix. -/
theorem LowestAlong.longestPrefix {t : Trie K} {terminalOnly : Bool} {sequence : List K}
    {m : Match K} (h : t.LowestAlong terminalOnly sequence m) :
    t.LongestPrefix terminalOnly sequence (sequence.take m.depth) where
  front_prefix := List.take_prefix _ _
  qualifies := ⟨m.node, h.at?_eq, h.qualifies⟩
  longest other hother hq := by
    rw [List.length_take_of_le h.depth_le]
    apply Nat.not_lt.mp
    intro hlt
    rw [List.prefix_iff_eq_take.mp hother] at hq
    exact h.none_lower other.length hlt hother.length_le hq

theorem deepest?_eq_none_iff {t : Trie K} {terminalOnly : Bool} {sequence : List K} :
    t.deepest? terminalOnly sequence = none ↔
      ∀ front, front <+: sequence → ¬ t.Qualifies terminalOnly front := by
  constructor
  · intro h front hfront
    rw [List.prefix_iff_eq_take.mp hfront]
    exact not_qualifies_of_deepest?_eq_none h front.length
  · intro h
    cases hm : t.deepest? terminalOnly sequence with
    | none => rfl
    | some m =>
      have hlongest := (lowestAlong_of_deepest?_eq_some hm).longestPrefix
      exact absurd hlongest.qualifies (h _ hlongest.front_prefix)

theorem deepest?_depth_eq_some_iff {t : Trie K} {terminalOnly : Bool} {sequence : List K}
    {depth : Nat} :
    (t.deepest? terminalOnly sequence).map (·.depth) = some depth ↔
      ∃ front, t.LongestPrefix terminalOnly sequence front ∧ front.length = depth := by
  constructor
  · intro h
    obtain ⟨m, hm, rfl⟩ := Option.map_eq_some_iff.mp h
    have hlowest := lowestAlong_of_deepest?_eq_some hm
    refine ⟨_, hlowest.longestPrefix, ?_⟩
    rw [List.length_take_of_le hlowest.depth_le]
  · intro h
    obtain ⟨front, hfront, rfl⟩ := h
    cases hm : t.deepest? terminalOnly sequence with
    | none => exact absurd hfront.qualifies (deepest?_eq_none_iff.mp hm front hfront.front_prefix)
    | some m =>
      have hlowest := lowestAlong_of_deepest?_eq_some hm
      have hlength := hfront.length_unique hlowest.longestPrefix
      rw [List.length_take_of_le hlowest.depth_le] at hlength
      rw [Option.map_some, hlength]

theorem whole?_eq_some_iff {t : Trie K} {terminalOnly : Bool} {sequence : List K} {m : Match K} :
    t.whole? terminalOnly sequence = some m ↔
      m.depth = sequence.length ∧ t.at? sequence = some m.node ∧
        m.node.qualifies terminalOnly = true := by
  obtain ⟨depth, node⟩ := m
  simp only [whole?, Option.map_eq_some_iff, Option.filter_eq_some_iff, Match.mk.injEq]
  constructor
  · intro h
    obtain ⟨found, hfound, rfl, rfl⟩ := h
    exact ⟨rfl, hfound⟩
  · intro h
    obtain ⟨rfl, hfound⟩ := h
    exact ⟨node, hfound, rfl, rfl⟩

/-- What a lookup answers with lies where its depth says. -/
theorem at?_of_lookup? {query : Query} {t : Trie K} {sequence : List K} {m : Match K}
    (h : t.lookup? query sequence = some m) : t.at? (sequence.take m.depth) = some m.node := by
  unfold lookup? at h
  split at h
  · obtain ⟨hdepth, hat, -⟩ := whole?_eq_some_iff.mp h
    rw [hdepth, List.take_length, hat]
  · exact (lowestAlong_of_deepest?_eq_some h).at?_eq

/-- Every query has the answer that its definition in terms of the prefixes of the
    sequence gives: the depth is the length of the longest prefix that leads to a
    qualifying node, or, if the query is for the whole sequence, its length if it leads to
    one. Depth and node are there in the same cases and speak of the same place. -/
theorem lookup_exact (t : Trie K) (terminalOnly : Bool) (sequence : List K) :
    (∀ depth, t.lookupDepth? ⟨terminalOnly, false⟩ sequence = some depth ↔
      ∃ front, t.LongestPrefix terminalOnly sequence front ∧ front.length = depth) ∧
    (t.lookupDepth? ⟨terminalOnly, false⟩ sequence = none ↔
      ¬ ∃ front, front <+: sequence ∧ t.Qualifies terminalOnly front) ∧
    (∀ depth, t.lookupDepth? ⟨terminalOnly, true⟩ sequence = some depth ↔
      depth = sequence.length ∧ t.Qualifies terminalOnly sequence) ∧
    (t.lookupDepth? ⟨terminalOnly, true⟩ sequence = none ↔
      ¬ t.Qualifies terminalOnly sequence) ∧
    (∀ whole, (t.lookupNode? ⟨terminalOnly, whole⟩ sequence).isSome =
      (t.lookupDepth? ⟨terminalOnly, whole⟩ sequence).isSome) ∧
    (∀ whole, t.lookupNode? ⟨terminalOnly, whole⟩ sequence =
      (t.lookupDepth? ⟨terminalOnly, whole⟩ sequence).bind fun depth =>
        t.at? (sequence.take depth)) ∧
    ∀ query, t.lookup? query sequence = t.scan query 0 (t.better? query 0 none) sequence := by
  have hwhole : ∀ depth, t.lookupDepth? ⟨terminalOnly, true⟩ sequence = some depth ↔
      depth = sequence.length ∧ t.Qualifies terminalOnly sequence := by
    intro depth
    simp only [lookupDepth?, lookup?, if_true, Option.map_eq_some_iff, whole?_eq_some_iff]
    constructor
    · intro h
      obtain ⟨m, ⟨hdepth, hat, hq⟩, rfl⟩ := h
      exact ⟨hdepth, m.node, hat, hq⟩
    · intro h
      obtain ⟨rfl, node, hat, hq⟩ := h
      exact ⟨⟨sequence.length, node⟩, ⟨rfl, hat, hq⟩, rfl⟩
  refine ⟨fun _ => deepest?_depth_eq_some_iff, ?_, hwhole, ?_, ?_, ?_, ?_⟩
  · show ((t.deepest? terminalOnly sequence).map (·.depth)) = none ↔ _
    rw [Option.map_eq_none_iff, deepest?_eq_none_iff]
    simp only [not_exists, not_and]
  · rw [Option.eq_none_iff_forall_ne_some]
    simp only [ne_eq, hwhole, not_and]
    exact ⟨fun h => h _ rfl, fun h _ _ => h⟩
  · intro whole
    simp only [lookupNode?, lookupDepth?, Option.isSome_map]
  · intro whole
    unfold lookupNode? lookupDepth?
    cases hm : t.lookup? ⟨terminalOnly, whole⟩ sequence with
    | none => rfl
    | some m => exact (at?_of_lookup? hm).symm
  · exact fun query => lookup?_eq_scan query t sequence

end NearestMount.Trie
