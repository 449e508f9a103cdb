import NearestMount.Cache.Lemmas
import NearestMount.Resolver.Command
import NearestMount.Proofs.Table.Changes
import NearestMount.Proofs.Table.Loading

/-! # What each call can do

    One case lemma for every call of a resolver (`mount_cases`, `unmount_cases`,
    `resolve_cases`, `hasBeneath_cases`, `reload_cases`) says all that the call can
    come to, with its guards. `Step` collects what they say of the resolver that is
    left behind, so that an invariant is proved by a split over seven steps and no call
    is unfolded again. The first such invariant is the consistency of the table, which
    holds over every history, whatever is written into the cache
    (`Fresh.consistent_run`).

    `ofSettings_cases` is the case lemma for setting a resolver up. When that and a reload
    are refused follows from what a list of mounts comes to.
-/

namespace NearestMount

namespace Resolver

/-! ## Mounting and unmounting -/

/-- All that mounting can come to. -/
theorem mount_cases (r : Resolver) (path ufs : String) :
    (∃ fault, Path.parse path = .error fault ∧
      r.mount path ufs = r.unchanged (.error (.invalidPath path fault))) ∨
    ∃ p : Path, p.text = path ∧
      ((r.table.Mounted p ∧ r.mount path ufs = r.unchanged (.error (.occupied path))) ∨
        (¬ r.table.Mounted p ∧ r.mount path ufs =
          r.adopt (r.table.register p ufs) (r.mountEdits (r.table.register p ufs) p)
            (.mounted ufs path) ())) := by
  rcases Path.read_cases path with ⟨fault, hparse, hread⟩ | ⟨p, rfl⟩
  · exact Or.inl ⟨fault, hparse, by simp [mount, hread]⟩
  · right
    refine ⟨p, rfl, ?_⟩
    by_cases hmounted : r.table.Mounted p
    · left
      exact ⟨hmounted, by simp [mount, Table.mount_of_mounted hmounted]⟩
    · right
      exact ⟨hmounted, by simp [mount, Table.mount_of_not_mounted hmounted]⟩

/-- All that unmounting can come to. -/
theorem unmount_cases (r : Resolver) (path : String) :
    (∃ fault, Path.parse path = .error fault ∧
      r.unmount path = r.unchanged (.error (.invalidPath path fault))) ∨
    (path = Path.root.text ∧ r.table.pinnedRoot = true ∧
      r.unmount path = r.unchanged (.error .rootPinned)) ∨
    ∃ p : Path, p.text = path ∧ ¬ (p = .root ∧ r.table.pinnedRoot = true) ∧
      ((¬ r.table.Mounted p ∧ r.unmount path = r.unchanged (.error (.vacant path))) ∨
        ∃ info, r.table.get? path = some info ∧ r.unmount path =
          r.adopt (r.table.withdraw p) (unmountEdits (r.table.withdraw p) p)
            (.unmounted info.ufs info.path) info) := by
  rcases Path.read_cases path with ⟨fault, hparse, hread⟩ | ⟨p, rfl⟩
  · exact Or.inl ⟨fault, hparse, by simp [unmount, hread]⟩
  · right
    by_cases hpinned : p = .root ∧ r.table.pinnedRoot = true
    · left
      obtain ⟨rfl, hroot⟩ := hpinned
      exact ⟨rfl, hroot, by simp only [unmount, Path.read_text, Table.unmount_of_pinned hroot]⟩
    · right
      refine ⟨p, rfl, hpinned, ?_⟩
      cases hget : r.table.get? p.text with
      | none =>
        left
        have hvacant := Table.not_mounted_iff.mpr hget
        exact ⟨hvacant, by simp [unmount, Table.unmount_of_not_mounted hpinned hvacant]⟩
      | some info =>
        right
        exact ⟨info, rfl, by simp [unmount, Table.unmount_of_get? hpinned hget]⟩

/-! ## Questions -/

/-- All that a question for the covering mount point can come to. -/
theorem resolve_cases (r : Resolver) (path : String) :
    (∃ mountPoint, r.cache.get? path = some mountPoint ∧
      r.resolve path = r.unchanged (.ok mountPoint)) ∨
    (r.cache.get? path = none ∧
      ((∃ fault, Path.parse path = .error fault ∧
        r.resolve path = r.unchanged (.error (.invalidPath path fault))) ∨
      ∃ p : Path, p.text = path ∧
        ((r.table.covering? p = none ∧
          r.resolve path = r.unchanged (.error (.uncovered path))) ∨
        ∃ q, r.table.covering? p = some q ∧ r.resolve path =
          ⟨.ok q.text, { r with cache := r.cache.add path q.text },
            [.resolved path q.text, .cached path q.text]⟩))) := by
  cases hget : r.cache.get? path with
  | some mountPoint => exact Or.inl ⟨mountPoint, rfl, by simp [resolve, hget]⟩
  | none =>
    refine Or.inr ⟨rfl, ?_⟩
    rcases Path.read_cases path with ⟨fault, hparse, hread⟩ | ⟨p, rfl⟩
    · exact Or.inl ⟨fault, hparse, by simp [resolve, hget, hread]⟩
    · refine Or.inr ⟨p, rfl, ?_⟩
      cases hfound : r.table.covering? p with
      | none => exact Or.inl ⟨rfl, by simp [resolve, hget, hfound]⟩
      | some q => exact Or.inr ⟨q, rfl, by simp [resolve, hget, hfound]⟩

@[simp] theorem next_mountCovering (r : Resolver) (path : String) :
    (r.mountCovering path).next = (r.resolve path).next := rfl

theorem answer_mountCovering_of_error {r : Resolver} {path : String} {e : Error}
    (h : (r.resolve path).answer = .error e) : (r.mountCovering path).answer = .error e := by
  simp [mountCovering, h]

theorem answer_mountCovering_of_get? {r : Resolver} {path mountPoint : String} {found : Mount}
    (h : (r.resolve path).answer = .ok mountPoint) (hget : r.table.get? mountPoint = some found) :
    (r.mountCovering path).answer = .ok found := by
  simp [mountCovering, h, hget]

/-- All that a question for what lies beneath can come to. -/
theorem hasBeneath_cases {r : Resolver} (h : r.table.Consistent) (path : String) :
    (∃ fault, Path.parse path = .error fault ∧
      r.hasBeneath path = r.unchanged (.error (.invalidPath path fault))) ∨
    ∃ p : Path, p.text = path ∧
      ((¬ r.table.Mounted p ∧ r.hasBeneath path = r.unchanged (.error (.vacant path))) ∨
      (r.table.Mounted p ∧
        ((∃ isNested, r.cache.isNested? path = some isNested ∧
          r.hasBeneath path = r.unchanged (.ok isNested)) ∨
        (r.cache.isNested? path = none ∧ r.hasBeneath path =
          ⟨.ok (r.table.hasBeneath p),
            { r with cache := r.cache.classify path (r.table.hasBeneath p) }, []⟩)))) := by
  rcases Path.read_cases path with ⟨fault, hparse, hread⟩ | ⟨p, rfl⟩
  · exact Or.inl ⟨fault, hparse, by simp [hasBeneath, hread]⟩
  · refine Or.inr ⟨p, rfl, ?_⟩
    by_cases hmounted : r.table.Mounted p
    · have hflag := h.isMounted_iff.mpr hmounted
      refine Or.inr ⟨hmounted, ?_⟩
      cases hclass : r.cache.isNested? p.text with
      | some isNested => exact Or.inl ⟨isNested, rfl, by simp [hasBeneath, hflag, hclass]⟩
      | none => exact Or.inr ⟨rfl, by simp [hasBeneath, hflag, hclass]⟩
    · have hflag : r.table.isMounted p = false := by
        rw [Bool.eq_false_iff, Ne, h.isMounted_iff]
        exact hmounted
      exact Or.inl ⟨hmounted, by simp [hasBeneath, hflag]⟩

/-! ## Replacing all mounts -/

/-- What is forgotten and remembered when `table` takes the place of the old table. -/
def replaceEdits (r : Resolver) (table : Table) : List Cache.Edit :=
  .clear :: (r.table.list.map fun m => .declassify m.path) ++ (r.settleEdits table table.list).1

theorem settleEdits_fault {r : Resolver} {table : Table} {ms : List Mount}
    (h : ∀ m ∈ ms, ∃ p : Path, p.text = m.path) : (r.settleEdits table ms).2 = none := by
  induction ms with
  | nil => rfl
  | cons m ms ih =>
    obtain ⟨p, hp⟩ := h m List.mem_cons_self
    have hrest := ih fun other hmem => h other (List.mem_cons_of_mem _ hmem)
    simpa [settleEdits, ← hp] using hrest

/-- Putting a consistent table in place cannot fail: the paths of its mounts read
    back. -/
theorem replace_of_consistent (r : Resolver) {table : Table} (h : table.Consistent) :
    r.replace table = r.adopt table (r.replaceEdits table) (.reloaded table.size) () := by
  have hfault : (r.settleEdits table table.list).2 = none := settleEdits_fault h.readable
  simp only [replace, hfault]
  rfl

theorem consistent_emptyTable (r : Resolver) : r.emptyTable.Consistent := by
  unfold emptyTable
  split
  · exact Table.consistent_withRoot _
  · exact Table.consistent_empty

theorem pinnedRoot_emptyTable (r : Resolver) : r.emptyTable.pinnedRoot = r.rootUfs.isSome := by
  unfold emptyTable
  split
  · next heq =>
    rw [heq]
    rfl
  · next heq =>
    rw [heq]
    rfl

/-- All that is mounted before a table is filled. -/
theorem get?_emptyTable_iff {r : Resolver} {path : String} {info : Mount} :
    r.emptyTable.get? path = some info ↔
      path = "/" ∧ ∃ ufs, r.rootUfs = some ufs ∧ info = ⟨"/", ufs⟩ := by
  unfold emptyTable
  cases r.rootUfs with
  | none => simp
  | some ufs =>
    rw [Table.get?_withRoot]
    by_cases hpath : "/" = path
    · subst hpath
      simp [eq_comm]
    · simp [hpath, Ne.symm hpath]

theorem bare_emptyTable (r : Resolver) : r.emptyTable.Bare := by
  intro path info hget
  obtain ⟨hpath, ufs, hufs, -⟩ := get?_emptyTable_iff.mp hget
  rw [pinnedRoot_emptyTable, hufs]
  exact ⟨rfl, hpath⟩

/-- All that a replacement of the mounts can come to. -/
theorem reload_cases (r : Resolver) (mounts : List Mount) :
    (∃ e, (r.emptyTable.load mounts).table = .error e ∧
      (r.reload mounts).answer = .error e ∧ (r.reload mounts).next = r) ∨
    ∃ table, (r.emptyTable.load mounts).table = .ok table ∧ table.Consistent ∧
      (r.reload mounts).answer = .ok () ∧
      (r.reload mounts).next =
        { r with table, cache := r.cache.applyAll (r.replaceEdits table) } := by
  cases hload : (r.emptyTable.load mounts).table with
  | error e =>
    left
    refine ⟨e, rfl, ?_, ?_⟩ <;> simp [reload, hload]
  | ok table =>
    right
    -- the paths of the new mounts read back, so nothing can be refused any more
    have htable := r.consistent_emptyTable.load hload
    refine ⟨table, rfl, htable, ?_, ?_⟩ <;>
      simp [reload, hload, r.replace_of_consistent htable, adopt]

/-- Whether a reload is refused depends on its list and the permanent root alone. -/
theorem answer_reload_eq_ok_iff {r : Resolver} {ms : List Mount} :
    (r.reload ms).answer = .ok () ↔ Table.Loadable r.rootUfs.isSome ms := by
  rw [← pinnedRoot_emptyTable, ← r.bare_emptyTable.load_eq_ok_iff]
  rcases r.reload_cases ms with ⟨e, hload, hanswer, -⟩ | ⟨table, hload, -, hanswer, -⟩
  · simp [hload, hanswer]
  · simp [hload, hanswer]

theorem answer_reload_eq_error_iff {r : Resolver} {ms : List Mount} {e : Error} :
    (r.reload ms).answer = .error e ↔ Table.FirstOffence r.rootUfs.isSome ms e := by
  rw [← pinnedRoot_emptyTable, ← r.bare_emptyTable.load_eq_error_iff]
  rcases r.reload_cases ms with ⟨e, hload, hanswer, -⟩ | ⟨table, hload, -, hanswer, -⟩
  · rw [hload, hanswer]
    simp
  · rw [hload, hanswer]
    simp

/-! ## Setting up -/

section

variable {memory : Memory} {c : Settings}

/-- All that setting up can come to. -/
theorem ofSettings_cases (memory : Memory) (c : Settings) :
    (∃ fault, c.validate = .error fault ∧
      ofSettings memory c = .error (.refused (.settings fault))) ∨
    (c.validate = .ok () ∧
      ((memory.hasRoom c.capacities = false ∧ ofSettings memory c = .error .noRoom) ∨
        (memory.hasRoom c.capacities = true ∧
          ∃ bare : Resolver, bare = ⟨.empty, .empty, c.rootUfs, c.preseed⟩ ∧
            ((∃ e, (bare.reload c.mounts).answer = .error e ∧
                ofSettings memory c = .error (.refused e)) ∨
              ((bare.reload c.mounts).answer = .ok () ∧ ofSettings memory c =
                .ok ((bare.reload c.mounts).next, (bare.reload c.mounts).events)))))) := by
  cases hvalid : c.validate with
  | error fault => exact .inl ⟨fault, rfl, by simp only [ofSettings, hvalid]⟩
  | ok done =>
    refine .inr ⟨rfl, ?_⟩
    cases hroom : memory.hasRoom c.capacities with
    | false =>
      have hcache := Cache.ofCapacities?_eq_none_iff.mpr hroom
      exact .inl ⟨rfl, by simp only [ofSettings, hvalid, hcache]⟩
    | true =>
      have hcache := Cache.ofCapacities?_eq_some_iff.mpr ⟨hroom, rfl⟩
      refine .inr ⟨rfl, _, rfl, ?_⟩
      cases hanswer : (Resolver.reload ⟨.empty, .empty, c.rootUfs, c.preseed⟩ c.mounts).answer with
      | error e => exact .inl ⟨e, rfl, by simp only [ofSettings, hvalid, hcache, hanswer]⟩
      | ok done => exact .inr ⟨rfl, by simp only [ofSettings, hvalid, hcache, hanswer]⟩

/-- A resolver that was set up is what a reload of the configured mounts leaves of the one
    without mounts. -/
theorem exists_reload_of_ofSettings {r : Resolver} {events : List Event}
    (h : ofSettings memory c = .ok (r, events)) :
    ∃ bare : Resolver, bare = ⟨.empty, .empty, c.rootUfs, c.preseed⟩ ∧
      (bare.reload c.mounts).answer = .ok () ∧ r = (bare.reload c.mounts).next := by
  rcases ofSettings_cases memory c with
    ⟨fault, -, hset⟩ | ⟨-, ⟨-, hset⟩ | ⟨-, bare, hbare, ⟨e, -, hset⟩ | ⟨hanswer, hset⟩⟩⟩
  · rw [hset] at h
    cases h
  · rw [hset] at h
    cases h
  · rw [hset] at h
    cases h
  · rw [hset] at h
    cases h
    exact ⟨bare, hbare, hanswer, rfl⟩

/-- Settings are refused for what they are before anything else is looked at. -/
theorem ofSettings_of_validate_error {fault : Settings.Fault} (h : c.validate = .error fault) :
    ofSettings memory c = .error (.refused (.settings fault)) := by
  simp only [ofSettings, h]

theorem ofSettings_eq_noRoom_iff :
    ofSettings memory c = .error .noRoom ↔
      c.validate = .ok () ∧ memory.hasRoom c.capacities = false := by
  rcases ofSettings_cases memory c with ⟨fault, hvalid, hset⟩ |
    ⟨hvalid, ⟨hroom, hset⟩ | ⟨hroom, bare, -, ⟨e, -, hset⟩ | ⟨-, hset⟩⟩⟩
  · simp [hset, hvalid]
  · simp [hset, hvalid, hroom]
  · simp [hset, hroom]
  · simp [hset, hroom]

theorem exists_ofSettings_eq_ok_iff :
    (∃ found, ofSettings memory c = .ok found) ↔
      c.validate = .ok () ∧ memory.hasRoom c.capacities = true ∧
        Table.Loadable c.rootUfs.isSome c.mounts := by
  rcases ofSettings_cases memory c with ⟨fault, hvalid, hset⟩ |
    ⟨hvalid, ⟨hroom, hset⟩ | ⟨hroom, bare, hbare, hreload⟩⟩
  · simp [hset, hvalid]
  · simp [hset, hroom]
  · have hroot : bare.rootUfs = c.rootUfs := congrArg rootUfs hbare
    rw [← hroot, ← answer_reload_eq_ok_iff]
    rcases hreload with ⟨e, hanswer, hset⟩ | ⟨hanswer, hset⟩
    · simp [hset, hanswer]
    · simp [hset, hanswer, hvalid, hroom]

theorem ofSettings_eq_refused_iff {e : Error} (hvalid : c.validate = .ok ())
    (hroom : memory.hasRoom c.capacities = true) :
    ofSettings memory c = .error (.refused e) ↔
      Table.FirstOffence c.rootUfs.isSome c.mounts e := by
  rcases ofSettings_cases memory c with ⟨fault, herror, -⟩ |
    ⟨-, ⟨hnone, -⟩ | ⟨-, bare, hbare, hreload⟩⟩
  · rw [hvalid] at herror
    cases herror
  · rw [hroom] at hnone
    cases hnone
  · have hroot : bare.rootUfs = c.rootUfs := congrArg rootUfs hbare
    rw [← hroot, ← answer_reload_eq_error_iff]
    rcases hreload with ⟨other, hanswer, hset⟩ | ⟨hanswer, hset⟩
    · simp [hset, hanswer]
    · simp [hset, hanswer]

end

/-! ## What a call can leave behind -/

/-- The resolvers that a call can leave behind, each with the guard under which it
    does. -/
inductive Step (r : Resolver) : Command → Resolver → Prop where
  /-- The call is refused, or it asks for what is known. -/
  | idle (call : Command) : Step r call r
  | mount {p : Path} {ufs : String} (hnew : ¬ r.table.Mounted p) :
    Step r (.mount p.text ufs)
      { r with
        table := r.table.register p ufs
        cache := r.cache.applyAll (r.mountEdits (r.table.register p ufs) p) }
  | unmount {p : Path} (hmounted : r.table.Mounted p)
    (hp : ¬ (p = .root ∧ r.table.pinnedRoot = true)) :
    Step r (.unmount p.text)
      { r with
        table := r.table.withdraw p
        cache := r.cache.applyAll (unmountEdits (r.table.withdraw p) p) }
  /-- An answer is looked up and remembered. -/
  | remember {p q : Path} {call : Command}
    (hcall : call = .resolve p.text ∨ call = .mountCovering p.text)
    (hmiss : r.cache.get? p.text = none) (hfound : r.table.covering? p = some q) :
    Step r call { r with cache := r.cache.add p.text q.text }
  /-- A missing classification is made. -/
  | classify {p : Path} (hmounted : r.table.Mounted p)
    (hmiss : r.cache.isNested? p.text = none) :
    Step r (.hasBeneath p.text)
      { r with cache := r.cache.classify p.text (r.table.hasBeneath p) }
  | reload {mounts : List Mount} {table : Table}
    (hload : (r.emptyTable.load mounts).table = .ok table) (htable : table.Consistent) :
    Step r (.reload mounts) { r with table, cache := r.cache.applyAll (r.replaceEdits table) }
  /-- The cache is changed directly. -/
  | edit (e : Cache.Edit) : Step r (.cache (.edit e)) { r with cache := r.cache.apply e }

theorem step_resolve (r : Resolver) (path : String) {call : Command}
    (hcall : call = .resolve path ∨ call = .mountCovering path) :
    Step r call (r.resolve path).next := by
  rcases r.resolve_cases path with
    ⟨mountPoint, -, heq⟩ | ⟨hmiss, ⟨fault, -, heq⟩ | ⟨p, rfl, ⟨-, heq⟩ | ⟨q, hfound, heq⟩⟩⟩
  · rw [heq]
    exact .idle _
  · rw [heq]
    exact .idle _
  · rw [heq]
    exact .idle _
  · rw [heq]
    exact .remember hcall hmiss hfound

/-- Every call takes one of the steps. -/
theorem step_exec {r : Resolver} (h : r.table.Consistent) (call : Command) :
    Step r call (r.exec call).next := by
  cases call with
  | mount path ufs =>
    show Step r _ (r.mount path ufs).next
    rcases r.mount_cases path ufs with ⟨fault, -, heq⟩ | ⟨p, rfl, ⟨-, heq⟩ | ⟨hnew, heq⟩⟩
    · rw [heq]
      exact .idle _
    · rw [heq]
      exact .idle _
    · rw [heq]
      exact .mount hnew
  | unmount path =>
    show Step r _ (r.unmount path).next
    rcases r.unmount_cases path with
      ⟨fault, -, heq⟩ | ⟨-, -, heq⟩ | ⟨p, rfl, hp, ⟨-, heq⟩ | ⟨info, hget, heq⟩⟩
    · rw [heq]
      exact .idle _
    · rw [heq]
      exact .idle _
    · rw [heq]
      exact .idle _
    · rw [heq]
      exact .unmount (Table.mounted_iff_exists.mpr ⟨info, hget⟩) hp
  | resolve path => exact r.step_resolve path (Or.inl rfl)
  | mountCovering path => exact r.step_resolve path (Or.inr rfl)
  | isMounted path => exact .idle _
  | hasBeneath path =>
    show Step r _ (r.hasBeneath path).next
    rcases hasBeneath_cases h path with
      ⟨fault, -, heq⟩ | ⟨p, rfl, ⟨-, heq⟩ | ⟨hmounted, ⟨isNested, -, heq⟩ | ⟨hmiss, heq⟩⟩⟩
    · rw [heq]
      exact .idle _
    · rw [heq]
      exact .idle _
    · rw [heq]
      exact .idle _
    · rw [heq]
      exact .classify hmounted hmiss
  | mounts => exact .idle _
  | reload mounts =>
    show Step r _ (r.reload mounts).next
    rcases r.reload_cases mounts with ⟨e, -, -, hnext⟩ | ⟨table, hload, htable, -, hnext⟩
    · rw [hnext]
      exact .idle _
    · rw [hnext]
      exact .reload hload htable
  | cache call =>
    cases call with
    | edit e => exact .edit e
    | get path => exact .idle _
    | isNested mountPoint => exact .idle _
    | size => exact .idle _

/-! ## The table over a history -/

theorem Step.consistent {r s : Resolver} {call : Command} (hstep : Step r call s)
    (h : r.table.Consistent) : s.table.Consistent := by
  cases hstep with
  | idle => exact h
  | mount hnew => exact h.register _ _
  | unmount hmounted hp => exact h.withdraw hmounted hp
  | remember hcall hmiss hfound => exact h
  | classify hmounted hmiss => exact h
  | reload hload htable => exact htable
  | edit e => exact h

/-- The resolvers as they are set up, on whatever machine. -/
inductive Fresh : Resolver → Prop where
  | empty : Fresh .empty
  | ofSettings {memory : Memory} {c : Settings} {r : Resolver} {events : List Event} :
    ofSettings memory c = .ok (r, events) → Fresh r

/-- What holds of the resolvers without mounts, and is kept by every call, holds after
    every history. -/
theorem run_induction {P : Resolver → Prop} {r : Resolver} (calls : List Command) (h : P r)
    (hstep : ∀ s call, call ∈ calls → P s → P (s.exec call).next) : P (r.run calls) := by
  induction calls generalizing r with
  | nil => exact h
  | cons call calls ih =>
    rw [run_cons]
    apply ih (hstep r call List.mem_cons_self h)
    intro s other hmem
    exact hstep s other (List.mem_cons_of_mem _ hmem)

theorem Fresh.consistent {r : Resolver} (h : r.Fresh) : r.table.Consistent := by
  cases h with
  | empty => exact Table.consistent_empty
  | ofSettings hset =>
    obtain ⟨bare, hbare, -, rfl⟩ := exists_reload_of_ofSettings hset
    have hempty : bare.table.Consistent := by
      rw [hbare]
      exact Table.consistent_empty
    exact (step_exec hempty (.reload _)).consistent hempty

/-- The table is consistent after every history, whatever was written into the cache. -/
theorem Fresh.consistent_run {r : Resolver} (h : r.Fresh) (calls : List Command) :
    (r.run calls).table.Consistent :=
  run_induction (P := fun s => s.table.Consistent) calls h.consistent fun _ call _ hs =>
    (step_exec hs call).consistent hs

end Resolver

end NearestMount
