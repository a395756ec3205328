import LibSpaces.Transactions.BlockCache

/-!
# Reading without the cache

With its read cache off, `sqlite_allocator` gives out a scratch buffer for a block that is in the
table only, `src/src/storage/transactions/transactional_storage.h:938–1014,1208–1212`. The calls on
two allocators that hold the same blocks are compared here, one with the cache and one without. The
sizes of the blocks and the use of the memory may differ between the two.
-/

namespace LibSpaces.Transactions

open LibSpaces.Base

namespace SqliteAllocator

/-- `set_read_cache`, `transactional_storage.h:1208–1212`. -/
def setReadCache (s : SqliteAllocator) (readCache : Bool) : SqliteAllocator :=
  { s with readCache := readCache }

/-- The block is in memory. -/
def inMemory (s : SqliteAllocator) (a : ℕ) : Bool := (s.allocations.lookup a).isSome

/-- No address starts over, and no stale row is taken for one that is not there. -/
def Plain (s : SqliteAllocator) (which : ℕ) (how : StorageAction) : Prop :=
  if which = 0 then how = .create → s.next + 1 < 2 ^ 64
  else how = .create ∨ (s.contents which).isSome = true ∨ ¬s.Stale which

/-- What an access leaves at its address. -/
def blockAfter (s : SqliteAllocator) (which : ℕ) (how : StorageAction) (content : Option Bytes) :
    Option Bytes :=
  match how with
  | .read => s.contents which
  | .write => (s.contents which).map fun b ↦
      if s.inMemory which || s.readCache then content.getD b else b
  | .create => some (content.getD (if s.inMemory which then (s.contents which).getD [] else []))

/-- The block at an address has changed. -/
structure Becomes (s s' : SqliteAllocator) (a : ℕ) (block : Option Bytes) (next : ℕ) : Prop where
  self : s'.contents a = block
  others : ∀ b ≠ a, s'.contents b = s.contents b
  next : s'.next = next
  localWrites : s'.localWrites = s.localWrites
  readCache : s'.readCache = s.readCache
  synced : s'.Synced

variable {s s' t : SqliteAllocator} {a which next : ℕ} {block : Bytes} {mod how : StorageAction}
  {content : Option Bytes} {size size' sizeAfter sizeAfter' : ℕ → ℤ}

/-! ### One access -/

private theorem Keeps.becomes (h : Keeps s s') (a : ℕ) : Becomes s s' a (s.contents a) s.next :=
  ⟨congrFun h.contents a, fun b _ ↦ congrFun h.contents b, h.next, h.localWrites, h.readCache,
    h.synced⟩

private theorem Keeps.trans_becomes {block : Option Bytes} (h : Keeps s s')
    (h' : Becomes s' t a block next) : Becomes s t a block next :=
  ⟨h'.self, fun b hb ↦ (h'.others b hb).trans (congrFun h.contents b), h'.next,
    h'.localWrites.trans h.localWrites, h'.readCache.trans h.readCache, h'.synced⟩

variable (next) in
private theorem Sets.becomes (hs : s.Synced) (h : Sets { s with next := next } s' a block mod)
    (hmod : mod = .read → (s.rows.lookup a).map Block.content = some block) :
    Becomes s s' a (some block) next := by
  have hs₀ : ({ s with next := next } : SqliteAllocator).Synced :=
    ⟨hs.clean, hs.unopened, hs.new, hs.transacted⟩
  exact ⟨h.contents_self, fun b hb ↦ h.contents_ne hb, h.next, h.localWrites, h.readCache,
    h.synced hs₀ hmod⟩

/-- A scratch buffer that is written to leaves nothing. -/
theorem finished_of_none {found : SqliteAllocator} (hnone : found.allocations.lookup a = none)
    (block : Bytes) :
    finished sizeAfter how content (.ok (some (a, block)), found) = found := by
  have hassign : found.assign a content = found := by
    unfold assign
    rw [hnone]
  have hreflect : found.reflectUse sizeAfter a = found := by
    rw [reflectUse, hnone]
  rw [finished, hassign, ite_self, hreflect]

/-- The block is in memory. -/
theorem Synced.findBlock_cached (h : s.Synced) (hwhich : which ≠ 0) {d : Descriptor}
    (hd : s.allocations.lookup which = some d) (hbound : which ≤ s.next) :
    seen how (s.findBlock size which how).1 = .ok (if how = .create then some (which, [])
        else (s.contents which).map (which, ·)) ∧
      Becomes s (finished sizeAfter how content (s.findBlock size which how)) which
        (s.blockAfter which how content) (if how = .create then max which s.next else s.next) := by
  have hfind : s.findBlock size which how =
      (.ok (some (which, d.block)), s.hand size which (d.setStorageAction how)) := by
    simp only [SqliteAllocator.findBlock, if_neg hwhich, hd]
  have hcontents : s.contents which = some d.block := by rw [SqliteAllocator.contents, hd]
  have hmemory : s.inMemory which = true := by rw [inMemory, hd, Option.isSome_some]
  have hsets := (@sets_hand size s which (d.setStorageAction how)).finish sizeAfter how
    content
  rw [block_setStorageAction] at hsets
  have hclean : (d.setStorageAction how).mod = .read →
      (s.rows.lookup which).map Block.content =
        some (if how = .read then d.block else content.getD d.block) := by
    intro hread
    obtain ⟨hmod, hhow⟩ := setStorageAction_eq_read hread
    rw [if_pos hhow]
    exact h.clean which d hd hmod
  have hbecomes := Sets.becomes s.next h hsets hclean
  unfold blockAfter
  rw [hfind, hcontents, hmemory]
  cases how with
  | read => exact ⟨rfl, hbecomes⟩
  | write => exact ⟨rfl, hbecomes⟩
  | create => exact ⟨rfl, (max_eq_right hbound).symm ▸ hbecomes⟩

/-- The block is created and not in memory. -/
theorem Synced.findBlock_create (h : s.Synced) (hwhich : which ≠ 0)
    (hnone : s.allocations.lookup which = none) :
    seen .create (s.findBlock size which .create).1 = .ok (some (which, [])) ∧
      Becomes s (finished sizeAfter .create content (s.findBlock size which .create)) which
        (s.blockAfter which .create content) (max which s.next) := by
  have hfind : s.findBlock size which .create = (.ok (some (which, [])),
      { s with next := max which s.next }.hand size which ⟨[], s.version, .create, 0, 0⟩) := by
    simp only [SqliteAllocator.findBlock, if_neg hwhich, hnone, if_true]
  have hmemory : s.inMemory which = false := by rw [inMemory, hnone, Option.isSome_none]
  rw [hfind, blockAfter, hmemory]
  exact ⟨rfl, Sets.becomes _ h ((sets_hand _ _ _).finish _ .create content)
    fun hread ↦ by cases hread⟩

/-- A block that is neither in memory nor in the table is not found, as no stale row is taken for
it. -/
theorem Synced.findBlock_absent (h : s.Synced) (hwhich : which ≠ 0) (hhow : how ≠ .create)
    (hnone : s.allocations.lookup which = none) (hrow : s.rows.lookup which = none)
    (hstale : ¬s.Stale which) :
    seen how (s.findBlock size which how).1 = .ok ((s.contents which).map (which, ·)) ∧
      Becomes s (finished sizeAfter how content (s.findBlock size which how)) which
        (s.blockAfter which how content) s.next := by
  have hcontents : s.contents which = none := by
    rw [SqliteAllocator.contents, hnone, hrow, Option.map_none]
  have hmissing : (s.getBuffer which).1 = false ∧ Keeps s (s.getBuffer which).2 := by
    cases hnew : s.isNew with
    | true =>
      rw [SqliteAllocator.getBuffer, if_pos hnew]
      exact ⟨rfl, h.keeps⟩
    | false =>
      rw [getBuffer_of_none hnew hrow]
      refine ⟨decide_eq_false fun hcurrent ↦ ?_, h.getSession.withResult _ _ _⟩
      exact hstale ⟨hnew, hcurrent, hrow⟩
  have hfind : s.findBlock size which how = (.ok none, (s.getBuffer which).2) := by
    simp only [SqliteAllocator.findBlock, if_neg hwhich, hnone, if_neg hhow]
    split
    · next hbuffer => rw [hbuffer]
    · next hbuffer =>
      exact absurd (hmissing.1.symm.trans (congrArg Prod.fst hbuffer)) Bool.false_ne_true
  have hafter : s.blockAfter which how content = s.contents which := by
    unfold blockAfter
    rw [hcontents]
    cases how with
    | create => exact absurd rfl hhow
    | read | write => rfl
  rw [hfind, hafter, hcontents]
  refine ⟨?_, hcontents ▸ hmissing.2.becomes which⟩
  cases how with
  | create => exact absurd rfl hhow
  | read | write => rfl

/-- A block that is in the table only is read from it, and registered where the cache is on. -/
theorem Synced.findBlock_row (h : s.Synced) (hwhich : which ≠ 0) (hhow : how ≠ .create)
    (hnone : s.allocations.lookup which = none) {row : Block}
    (hrow : s.rows.lookup which = some row) :
    seen how (s.findBlock size which how).1 = .ok ((s.contents which).map (which, ·)) ∧
      Becomes s (finished sizeAfter how content (s.findBlock size which how)) which
        (s.blockAfter which how content) s.next := by
  have hcontents : s.contents which = some row.content := by
    rw [SqliteAllocator.contents, hnone, hrow, Option.map_some]
  have hmemory : s.inMemory which = false := by rw [inMemory, hnone, Option.isSome_none]
  have hnew : s.isNew = false := by
    by_contra hnew
    rw [h.unopened (h.new (Bool.not_eq_false _ ▸ hnew)), AList.lookup_empty] at hrow
    cases hrow
  obtain ⟨s₁, hs₁⟩ : ∃ s₁ : SqliteAllocator, s₁ = { s.getSession with
      currentAddress := which, currentVersion := row.version, encodedBlock := row.content } :=
    ⟨_, rfl⟩
  have hkeeps : Keeps s s₁ := hs₁ ▸ h.getSession.withResult _ _ _
  have hbytes : s₁.encodedBlock = row.content := by rw [hs₁]
  have hlookup : s₁.allocations.lookup which = none := by
    rw [hs₁, ← hnone]
    exact congrArg (AList.lookup which) (getSession_fields s).2.1
  have hrow₁ : (s₁.rows.lookup which).map Block.content = some row.content := by
    rw [hs₁]
    exact (congrArg (fun rows ↦ (AList.lookup which rows).map Block.content)
      (getSession_fields s).1).trans (congrArg (Option.map Block.content) hrow)
  have hfind : s.findBlock size which how = (.ok (some (which, row.content)),
      if s₁.readCache then s₁.hand size which ⟨row.content, s₁.currentVersion, how, 0, 0⟩
      else s₁) := by
    simp only [SqliteAllocator.findBlock, if_neg hwhich, hnone, if_neg hhow,
      getBuffer_of_row hnew hrow]
    rw [hs₁]
  have hafter : Becomes s₁ (finished sizeAfter how content (s.findBlock size which how)) which
      (some (if how = .write ∧ s.readCache = true then content.getD row.content else row.content))
      s₁.next := by
    rw [hfind]
    cases hcache : s₁.readCache with
    | true =>
      have hsets := (@sets_hand size s₁ which ⟨row.content, s₁.currentVersion, how, 0, 0⟩).finish
        sizeAfter how content
      rw [hkeeps.readCache] at hcache
      have hbecomes := Sets.becomes s₁.next hkeeps.synced hsets
      cases how with
      | create => exact absurd rfl hhow
      | read => exact hbecomes fun _ ↦ hrow₁
      | write =>
        rw [hcache]
        exact hbecomes fun hread ↦ by cases hread
    | false =>
      rw [hkeeps.readCache] at hcache
      rw [if_neg Bool.false_ne_true, finished_of_none hlookup, hcache,
        if_neg fun h ↦ Bool.false_ne_true h.2, ← hcontents, ← congrFun hkeeps.contents which]
      exact hkeeps.synced.keeps.becomes which
  have hblock : s.blockAfter which how content = some (if how = .write ∧ s.readCache = true then
      content.getD row.content else row.content) := by
    unfold blockAfter
    rw [hcontents, hmemory]
    cases how with
    | create => exact absurd rfl hhow
    | read => rfl
    | write => cases s.readCache <;> rfl
  refine ⟨?_, hblock ▸ hkeeps.next ▸ hkeeps.trans_becomes hafter⟩
  rw [hfind, hcontents]
  cases how with
  | create => exact absurd rfl hhow
  | read | write => rfl

/-- The block is in the table only, or there is none. -/
theorem Synced.findBlock_lookUp (h : s.Synced) (hwhich : which ≠ 0) (hhow : how ≠ .create)
    (hnone : s.allocations.lookup which = none)
    (hstale : (s.contents which).isSome = true ∨ ¬s.Stale which) :
    seen how (s.findBlock size which how).1 = .ok ((s.contents which).map (which, ·)) ∧
      Becomes s (finished sizeAfter how content (s.findBlock size which how)) which
        (s.blockAfter which how content) s.next := by
  cases hrow : s.rows.lookup which with
  | none =>
    refine h.findBlock_absent hwhich hhow hnone hrow (hstale.resolve_left ?_)
    rw [SqliteAllocator.contents, hnone, hrow]
    exact Bool.false_ne_true
  | some row => exact h.findBlock_row hwhich hhow hnone hrow

variable (content size sizeAfter) in
/-- A block is created at an address of its own. -/
theorem Synced.findBlock_next (h : s.Synced) :
    seen .create (s.findBlock size 0 .create).1 = .ok (some ((s.next + 1) % 2 ^ 64, [])) ∧
      Becomes s (finished sizeAfter .create content (s.findBlock size 0 .create))
        ((s.next + 1) % 2 ^ 64) (some (content.getD [])) ((s.next + 1) % 2 ^ 64) := by
  have hfind : s.findBlock size 0 .create = (.ok (some ((s.next + 1) % 2 ^ 64, [])),
      { s with next := (s.next + 1) % 2 ^ 64 }.hand size ((s.next + 1) % 2 ^ 64)
        ⟨[], s.version, .create, 0, 0⟩) := by
    simp only [SqliteAllocator.findBlock, if_true, ne_eq, not_true_eq_false, if_false]
  rw [hfind]
  exact ⟨rfl, Sets.becomes _ h ((sets_hand _ _ _).finish _ .create content)
    fun hread ↦ by cases hread⟩

/-- What holds between the calls: all blocks are below the last address. -/
structure Kept (s : SqliteAllocator) : Prop where
  synced : s.Synced
  bounded : ∀ a, (s.contents a).isSome = true → a ≤ s.next

private theorem Keeps.kept (h : Keeps s s') (hs : s.Kept) : s'.Kept :=
  ⟨h.synced, fun a ha ↦ h.next ▸ hs.bounded a (h.contents ▸ ha)⟩

variable (content size sizeAfter) in
/-- An access to a block at an address. -/
theorem Kept.findBlock (h : s.Kept) (hwhich : which ≠ 0) (hplain : s.Plain which how) :
    seen how (s.findBlock size which how).1 = .ok (if how = .create then some (which, [])
        else (s.contents which).map (which, ·)) ∧
      Becomes s (finished sizeAfter how content (s.findBlock size which how)) which
        (s.blockAfter which how content) (if how = .create then max which s.next else s.next) := by
  rw [Plain, if_neg hwhich] at hplain
  cases hlookup : s.allocations.lookup which with
  | some d =>
    refine h.synced.findBlock_cached hwhich hlookup (h.bounded which ?_)
    rw [SqliteAllocator.contents, hlookup, Option.isSome_some]
  | none =>
    by_cases hhow : how = .create
    · subst hhow
      exact h.synced.findBlock_create hwhich hlookup
    · rw [if_neg hhow, if_neg hhow]
      exact h.synced.findBlock_lookUp hwhich hhow hlookup (hplain.resolve_left hhow)

/-- The state in which the block is looked for. -/
def ready (size : ℕ → ℤ) (depleted : Bool) (how : StorageAction) (s : SqliteAllocator) :
    SqliteAllocator :=
  if how = .read then s.checkUse size depleted
  else { s.checkUse size depleted with changes := (s.checkUse size depleted).changes + 1 }

variable (size) in
private theorem Synced.ready (h : s.Synced) {depleted : Bool}
    (hwrites : depleted = true → s.localWrites = true) (how : StorageAction) :
    Keeps s (s.ready size depleted how) := by
  have hchecked : Keeps s (s.checkUse size depleted) := h.checkUse depleted hwrites
  rw [SqliteAllocator.ready]
  split
  · exact hchecked
  · obtain ⟨hcontents, hnext, hwrites, hcache, hclean, hunopened, hnew, htransacted⟩ := hchecked
    exact ⟨hcontents, hnext, hwrites, hcache, hclean, hunopened, hnew, htransacted⟩

private theorem access_ready (s : SqliteAllocator) (depleted : Bool) :
    s.access size sizeAfter depleted which how content =
      (((s.ready size depleted how).findBlock size which how).1,
        finished sizeAfter how content ((s.ready size depleted how).findBlock size which how)) :=
  access_eq s depleted

/-- What an access gives out. -/
def shown (s : SqliteAllocator) (which : ℕ) (how : StorageAction) :
    Except Thrown (Option (ℕ × Bytes)) :=
  if which = 0 then
    if how = .create then .ok (some (s.next + 1, [])) else .error .invalidStorageAction
  else .ok (if how = .create then some (which, []) else (s.contents which).map (which, ·))

/-- The address of an access, none where it throws. -/
def target (s : SqliteAllocator) (which : ℕ) (how : StorageAction) : Option ℕ :=
  if which = 0 then if how = .create then some (s.next + 1) else none else some which

private theorem Becomes.kept {block : Option Bytes} (h : Becomes s s' a block next) (hs : s.Kept)
    (hnext : s.next ≤ next) (ha : block.isSome = true → a ≤ next) : s'.Kept := by
  refine ⟨h.synced, fun b hb ↦ ?_⟩
  rw [h.next]
  by_cases hba : b = a
  · rw [hba, h.self] at hb
    exact hba ▸ ha hb
  · rw [h.others b hba] at hb
    exact (hs.bounded b hb).trans hnext

variable (content size sizeAfter) in
/-- An access keeps the invariant, shows what is there and leaves one block changed. -/
theorem Kept.access (h : s.Kept) {depleted : Bool}
    (hwrites : depleted = true → s.localWrites = true)
    (hplain : (s.ready size depleted how).Plain which how) :
    seen how (s.access size sizeAfter depleted which how content).1 = s.shown which how ∧
      (s.access size sizeAfter depleted which how content).2.Kept ∧
      match s.target which how with
      | none => Keeps s (s.access size sizeAfter depleted which how content).2
      | some a => Becomes s (s.access size sizeAfter depleted which how content).2 a
          (if which = 0 then some (content.getD [])
            else (s.ready size depleted how).blockAfter which how content)
          (if how = .create then max a s.next else s.next) := by
  have hready : Keeps s (s.ready size depleted how) := h.synced.ready size hwrites how
  have hkept := hready.kept h
  rw [access_ready, shown, target, ← hready.contents, ← hready.next]
  generalize s.ready size depleted how = s₁ at hready hkept hplain ⊢
  by_cases hwhich : which = 0
  · subst hwhich
    by_cases hhow : how = .create
    · subst hhow
      have hlt : s₁.next + 1 < 2 ^ 64 := by
        rw [Plain, if_pos rfl] at hplain
        exact hplain rfl
      have hfound := hkept.synced.findBlock_next content size sizeAfter
      rw [Nat.mod_eq_of_lt hlt] at hfound
      simp only [if_true]
      rw [max_eq_left (Nat.le_succ _)]
      exact ⟨hfound.1, hfound.2.kept hkept (Nat.le_succ _) fun _ ↦ le_rfl,
        hready.trans_becomes hfound.2⟩
    · simp only [if_true, if_neg hhow]
      have hfind : s₁.findBlock size 0 how = (.error .invalidStorageAction, s₁) := by
        simp only [SqliteAllocator.findBlock, if_true, ne_eq, hhow, not_false_eq_true]
      rw [hfind]
      refine ⟨?_, hkept, hready⟩
      cases how with
      | create => exact absurd rfl hhow
      | read | write => rfl
  · simp only [if_neg hwhich]
    obtain ⟨hseen, hbecomes⟩ := hkept.findBlock content size sizeAfter hwhich hplain
    refine ⟨hseen, hbecomes.kept hkept ?_ ?_, hready.trans_becomes hbecomes⟩
    · split
      · exact le_max_right ..
      · exact le_rfl
    · unfold blockAfter
      cases how with
      | create => exact fun _ ↦ le_max_left ..
      | read => exact hkept.bounded which
      | write =>
        rw [Option.isSome_map]
        exact hkept.bounded which

/-! ### Two allocators -/

/-- The allocators hold the same blocks, the first one with its read cache and the other one
without. -/
structure Alike (s t : SqliteAllocator) : Prop where
  contents : t.contents = s.contents
  next : t.next = s.next
  cached : s.readCache = true
  uncached : t.readCache = false
  kept : s.Kept
  kept' : t.Kept

/-- A step that is what a map of blocks does: none of the above, and no rollback. -/
def Ordinary (s : SqliteAllocator) : Step → Prop
  | .access size _ depleted which how _ =>
    (depleted = true → s.localWrites = true) ∧ (s.ready size depleted how).Plain which how
  | .beginNew | .commit _ | .flush _ => True
  | .reduce _ => s.localWrites = true
  | .rollback _ => False

/-- The same call on both allocators: what it writes is not lost in a scratch buffer, and a block
that is created is in the memory of both or of none, is empty, or is written as a whole. -/
def SameCall (s t : SqliteAllocator) : Step → Step → Prop
  | .access size _ depleted which how content, .access size' _ depleted' which' how' content' =>
    (which', how', content') = (which, how, content) ∧
      match how with
      | .read => True
      | .write => (t.ready size' depleted' how).inMemory which = false →
          ∀ b ∈ (t.ready size' depleted' how).contents which, content.getD b = b
      | .create => which = 0 ∨ content.isSome = true ∨ (s.contents which).getD [] = [] ∨
          (s.ready size depleted how).inMemory which = (t.ready size' depleted' how).inMemory which
  | .beginNew, .beginNew | .commit _, .commit _ | .flush _, .flush _ | .reduce _, .reduce _ => True
  | _, _ => False

/-- The calls of two series are the same, one after the other. -/
def SameCalls : SqliteAllocator → SqliteAllocator → List Step → List Step → Prop
  | _, _, [], [] => True
  | s, t, x :: xs, y :: ys =>
    (s.Ordinary x ∧ t.Ordinary y ∧ SameCall s t x y) ∧ SameCalls (s.step x).2 (t.step y).2 xs ys
  | _, _, _, _ => False

private theorem Kept.step (h : s.Kept) {x : Step} (hx : s.Ordinary x) :
    (s.step x).2.Kept ∧ (s.step x).2.readCache = s.readCache := by
  have hkeeps : ∀ {s'}, Keeps s s' → s'.Kept ∧ s'.readCache = s.readCache :=
    fun hk ↦ ⟨hk.kept h, hk.readCache⟩
  cases x with
  | access size sizeAfter depleted which how content =>
    obtain ⟨-, hkept, hleft⟩ := h.access content size sizeAfter hx.1 hx.2
    refine ⟨hkept, ?_⟩
    split at hleft
    · exact hleft.readCache
    · exact hleft.readCache
  | beginNew => exact hkeeps h.synced.beginTransaction
  | commit size => exact hkeeps h.synced.commit
  | flush size => exact hkeeps h.synced.flush
  | reduce size => exact hkeeps (h.synced.reduce hx)
  | rollback size => exact hx.elim

private theorem Alike.keeps (h : Alike s t) {t' : SqliteAllocator} (hs : Keeps s s')
    (ht : Keeps t t') :
    Alike s' t' :=
  ⟨ht.contents.trans (h.contents.trans hs.contents.symm), ht.next.trans (h.next.trans hs.next.symm),
    hs.readCache.trans h.cached, ht.readCache.trans h.uncached, hs.kept h.kept, ht.kept h.kept'⟩

/-- The allocators leave the same block. -/
theorem blockAfter_eq {s₁ t₁ : SqliteAllocator} (hcontents : t₁.contents = s₁.contents)
    (hcached : s₁.readCache = true) (huncached : t₁.readCache = false)
    (hsame : match how with
      | .read => True
      | .write => t₁.inMemory which = false → ∀ b ∈ t₁.contents which, content.getD b = b
      | .create => content.isSome = true ∨ (s₁.contents which).getD [] = [] ∨
          s₁.inMemory which = t₁.inMemory which) :
    t₁.blockAfter which how content = s₁.blockAfter which how content := by
  unfold blockAfter
  rw [hcontents, hcached, huncached]
  cases how with
  | read => rfl
  | write =>
    cases hmemory : t₁.inMemory which with
    | true => simp only [Bool.true_or, Bool.or_true]
    | false =>
      rw [hcontents] at hsame
      refine Option.map_congr fun b hb ↦ ?_
      simp only [Bool.or_self, Bool.or_true, Bool.false_eq_true, if_false, if_true]
      exact (hsame hmemory b hb).symm
  | create =>
    rcases hsame with hcontent | hempty | hmemory
    · obtain ⟨c, rfl⟩ := Option.isSome_iff_exists.1 hcontent
      rfl
    · rw [hempty, ite_self, ite_self]
    · rw [hmemory]

private theorem Alike.becomes (h : Alike s t) {t' : SqliteAllocator} {block : Option Bytes}
    (hs : Becomes s s' a block next) (ht : Becomes t t' a block next) (hs' : s'.Kept)
    (ht' : t'.Kept) : Alike s' t' := by
  refine ⟨funext fun b ↦ ?_, ht.next.trans hs.next.symm, hs.readCache.trans h.cached,
    ht.readCache.trans h.uncached, hs', ht'⟩
  by_cases hb : b = a
  · rw [hb, hs.self, ht.self]
  · rw [hs.others b hb, ht.others b hb, h.contents]

/-- The same access on both. -/
theorem Alike.access (h : Alike s t) {depleted depleted' : Bool}
    (hs : s.Ordinary (.access size sizeAfter depleted which how content))
    (ht : t.Ordinary (.access size' sizeAfter' depleted' which how content))
    (hsame : SameCall s t (.access size sizeAfter depleted which how content)
      (.access size' sizeAfter' depleted' which how content)) :
    seen how (s.access size sizeAfter depleted which how content).1 =
        seen how (t.access size' sizeAfter' depleted' which how content).1 ∧
      Alike (s.access size sizeAfter depleted which how content).2
        (t.access size' sizeAfter' depleted' which how content).2 := by
  obtain ⟨hseen, hkept, hleft⟩ := h.kept.access content size sizeAfter hs.1 hs.2
  obtain ⟨hseen', hkept', hleft'⟩ := h.kept'.access content size' sizeAfter' ht.1 ht.2
  have hready := h.kept.synced.ready size hs.1 how
  have hready' := h.kept'.synced.ready size' ht.1 how
  have hshown : t.shown which how = s.shown which how := by
    rw [shown, shown, h.contents, h.next]
  have htarget : t.target which how = s.target which how := by
    rw [target, target, h.next]
  have hblock : which ≠ 0 → (t.ready size' depleted' how).blockAfter which how content =
      (s.ready size depleted how).blockAfter which how content := by
    intro hwhich
    refine blockAfter_eq (hready'.contents.trans (h.contents.trans hready.contents.symm))
      (hready.readCache.trans h.cached) (hready'.readCache.trans h.uncached) ?_
    obtain ⟨-, hsame⟩ := hsame
    cases how with
    | read => trivial
    | write => exact hsame
    | create =>
      rw [hready.contents]
      exact hsame.resolve_left hwhich
  refine ⟨hseen.trans (hshown.symm.trans hseen'.symm), ?_⟩
  rw [htarget, h.next] at hleft'
  have hblocks : (if which = 0 then some (content.getD [])
      else (t.ready size' depleted' how).blockAfter which how content) =
      if which = 0 then some (content.getD [])
      else (s.ready size depleted how).blockAfter which how content := by
    split
    · rfl
    · next hwhich => exact hblock hwhich
  rw [hblocks] at hleft'
  cases htarget' : s.target which how with
  | none =>
    rw [htarget'] at hleft hleft'
    exact h.keeps hleft hleft'
  | some a =>
    rw [htarget'] at hleft hleft'
    exact h.becomes hleft hleft' hkept hkept'

private theorem Alike.step (h : Alike s t) {x y : Step} (hx : s.Ordinary x) (hy : t.Ordinary y)
    (hxy : SameCall s t x y) :
    (s.step x).1 = (t.step y).1 ∧ Alike (s.step x).2 (t.step y).2 := by
  have hkeeps : ∀ {s' t'}, Keeps s s' → Keeps t t' →
      (none : Option (Except Thrown (Option (ℕ × Bytes)))) = none ∧ Alike s' t' :=
    fun hs ht ↦ ⟨rfl, h.keeps hs ht⟩
  cases x with
  | access size sizeAfter depleted which how content =>
    cases y with
    | access size' sizeAfter' depleted' which' how' content' =>
      obtain ⟨hcall, hsame⟩ := hxy
      cases hcall
      obtain ⟨hseen, hleft⟩ := h.access hx hy ⟨rfl, hsame⟩
      exact ⟨congrArg some hseen, hleft⟩
    | beginNew | commit size' | flush size' | reduce size' | rollback size' => exact hxy.elim
  | beginNew =>
    cases y with
    | beginNew => exact hkeeps h.kept.synced.beginTransaction h.kept'.synced.beginTransaction
    | access | commit | flush | reduce | rollback => exact hxy.elim
  | commit size =>
    cases y with
    | commit size' => exact hkeeps h.kept.synced.commit h.kept'.synced.commit
    | access | beginNew | flush | reduce | rollback => exact hxy.elim
  | flush size =>
    cases y with
    | flush size' => exact hkeeps h.kept.synced.flush h.kept'.synced.flush
    | access | beginNew | commit | reduce | rollback => exact hxy.elim
  | reduce size =>
    cases y with
    | reduce size' => exact hkeeps (h.kept.synced.reduce hx) (h.kept'.synced.reduce hy)
    | access | beginNew | commit | flush | rollback => exact hxy.elim
  | rollback size => exact hx.elim

/-- The same calls on both. -/
theorem Alike.run (h : Alike s t) {xs ys : List Step} (hcalls : SameCalls s t xs ys) :
    (s.run xs).1 = (t.run ys).1 := by
  induction xs generalizing s t ys with
  | nil =>
    cases ys with
    | nil => rfl
    | cons y ys => exact hcalls.elim
  | cons x xs ih =>
    cases ys with
    | nil => exact hcalls.elim
    | cons y ys =>
      obtain ⟨⟨hx, hy, hxy⟩, hrest⟩ := hcalls
      obtain ⟨hseen, hleft⟩ := h.step hx hy hxy
      exact congrArg₂ List.cons hseen (ih hleft hrest)

/-- Every step of a series is ordinary. -/
def EachOrdinary : SqliteAllocator → List Step → Prop
  | _, [] => True
  | s, x :: xs => s.Ordinary x ∧ EachOrdinary (s.step x).2 xs

private theorem Kept.run (h : s.Kept) {xs : List Step} (hxs : s.EachOrdinary xs) :
    (s.run xs).2.Kept := by
  induction xs generalizing s with
  | nil => exact h
  | cons x xs ih => exact ih (h.step hxs.1).1 hxs.2

private theorem Kept.setReadCache (h : s.Kept) (readCache : Bool) :
    (s.setReadCache readCache).Kept :=
  ⟨⟨h.synced.clean, h.synced.unopened, h.synced.new, h.synced.transacted⟩, h.bounded⟩

private theorem Kept.alike (h : s.Kept) : Alike (s.setReadCache true) (s.setReadCache false) :=
  ⟨rfl, rfl, rfl, rfl, h.setReadCache true, h.setReadCache false⟩

private theorem kept_start (transient localWrites readCache : Bool) (version minimum current : ℕ)
    (file : Option Table) :
    (start transient localWrites readCache version minimum current file).Kept := by
  have hrepresents := represents_start transient version minimum current file
  cases file with
  | none => exact ⟨⟨nofun, fun _ ↦ rfl, fun _ ↦ rfl, nofun⟩, nofun⟩
  | some rows => exact ⟨⟨nofun, nofun, nofun, fun _ ↦ rfl⟩, hrepresents.bounded⟩

/-- With the read cache and without, for every storage and every two series of the same calls that
lose nothing in a scratch buffer, the accesses show the same. -/
theorem run_setReadCache (transient localWrites readCache : Bool) (version minimum current : ℕ)
    (file : Option Table) (before xs ys : List Step) :
    let s := start transient localWrites readCache version minimum current file
    s.EachOrdinary before →
      SameCalls ((s.run before).2.setReadCache true) ((s.run before).2.setReadCache false) xs ys →
        (((s.run before).2.setReadCache true).run xs).1 =
          (((s.run before).2.setReadCache false).run ys).1 :=
  fun hbefore hcalls ↦ ((kept_start ..).run hbefore).alike.run hcalls

instance (s : SqliteAllocator) (which : ℕ) (how : StorageAction) : Decidable (s.Plain which how) :=
  inferInstanceAs (Decidable (if which = 0 then how = .create → s.next + 1 < 2 ^ 64
    else how = .create ∨ (s.contents which).isSome = true ∨ ¬s.Stale which))

/-- A block is read, another one is created and read again, without the cache from the table. -/
theorem run_setReadCache_created :
    let s := start false true true 0 32 0 (some (AList.insert 33 ⟨[1], 5⟩ ∅))
    let calls (depleted : Bool) : List Step :=
      [.access (fun _ ↦ 1) (fun _ ↦ 1) false 33 .read none,
        .access (fun _ ↦ 1) (fun _ ↦ 1) false 0 .create (some [2]), .flush fun _ ↦ 1,
        .access (fun _ ↦ 1) (fun _ ↦ 1) depleted 34 .read none]
    (((s.run []).2.setReadCache true).run (calls false)).1 =
      (((s.run []).2.setReadCache false).run (calls true)).1 :=
  run_setReadCache false true true 0 32 0 (some (AList.insert 33 ⟨[1], 5⟩ ∅)) [] _ _ trivial
    ⟨⟨⟨nofun, by decide +kernel⟩, ⟨nofun, by decide +kernel⟩, rfl, trivial⟩,
      ⟨⟨nofun, by decide +kernel⟩, ⟨nofun, by decide +kernel⟩, rfl, .inl rfl⟩,
      ⟨trivial, trivial, trivial⟩,
      ⟨⟨nofun, by decide +kernel⟩, ⟨by decide +kernel, by decide +kernel⟩, rfl, trivial⟩, trivial⟩

/-- What is written to a block that is in the table only is lost without the cache. -/
theorem not_run_setReadCache :
    let s := start false true true 0 32 0 (some (AList.insert 33 ⟨[1], 5⟩ ∅))
    let calls : List Step := [.access (fun _ ↦ 1) (fun _ ↦ 1) false 33 .write (some [2]),
      .access (fun _ ↦ 1) (fun _ ↦ 1) false 33 .read none]
    ((s.setReadCache true).run calls).1.getLast? = some (some (.ok (some (33, [2])))) ∧
      ((s.setReadCache false).run calls).1.getLast? = some (some (.ok (some (33, [1])))) := by
  constructor
  · decide +kernel
  · decide +kernel

end SqliteAllocator

end LibSpaces.Transactions
