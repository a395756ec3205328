import LibSpaces.Transactions.SqliteAllocator

/-!
# A block is the same in memory and in the table

Blocks are written, dropped and loaded again as the memory requires. To those who access them the
allocator is a map of blocks as long as no block is created again while it is in the table only,
and the address that the statements were last used for is not mistaken for a row.
-/

namespace LibSpaces.Transactions

open LibSpaces.Base

namespace Allocator

/-- The caller of an access writes to the block. -/
def write (m : Allocator) (a : ℕ) (content : Option Bytes) : Allocator :=
  match m.block a, content with
  | some b, some content => m.setBlock a ⟨content, b.version⟩
  | _, _ => m

/-- An access to a map of blocks: the address and the bytes of the block, or none for the end. -/
def access (m : Allocator) (which : ℕ) (how : StorageAction) (content : Option Bytes) :
    Except Thrown (Option (ℕ × Bytes)) × Allocator :=
  match how with
  | .create =>
    if which = 0 then
      (.ok (some (m.createNext.next, [])), m.createNext.write m.createNext.next content)
    else (.ok (some (which, [])), (m.create which).write which content)
  | .write =>
    if which = 0 then (.error .invalidStorageAction, m)
    else (.ok ((m.block which).map fun b ↦ (which, b.content)), m.write which content)
  | .read =>
    if which = 0 then (.error .invalidStorageAction, m)
    else (.ok ((m.block which).map fun b ↦ (which, b.content)), m)

private theorem block_write (m : Allocator) (a : ℕ) (content : Option Bytes) :
    (m.write a content).block a = (m.block a).map fun b ↦ ⟨content.getD b.content, b.version⟩ := by
  unfold write
  cases h : m.block a with
  | none => exact h
  | some b =>
    cases content with
    | none => exact h
    | some content => exact (block_setBlock ..).trans (if_pos rfl)

private theorem block_write_ne (m : Allocator) {a b : ℕ} (content : Option Bytes) (h : b ≠ a) :
    (m.write a content).block b = m.block b := by
  unfold write
  split
  · rw [block_setBlock, if_neg h]
  · rfl

private theorem write_of_none {m : Allocator} {a : ℕ} (content : Option Bytes)
    (h : m.block a = none) :
    m.write a content = m := by
  unfold write
  rw [h]

@[simp] private theorem next_write (m : Allocator) (a : ℕ) (content : Option Bytes) :
    (m.write a content).next = m.next := by
  unfold write
  split <;> rfl

private theorem next_create (m : Allocator) (a : ℕ) :
    (m.create a).next = if (m.block a).isSome then m.next else max a m.next := by
  rw [create]
  split <;> simp [*]

end Allocator

namespace SqliteAllocator

/-- The bytes at an address, in memory or else in the table. -/
def contents (s : SqliteAllocator) (a : ℕ) : Option Bytes :=
  match s.allocations.lookup a with
  | some d => some d.block
  | none => (s.rows.lookup a).map Block.content

/-- A block that is not modified is in the table, and there are no rows without a session. -/
structure Synced (s : SqliteAllocator) : Prop where
  clean : ∀ a d, s.allocations.lookup a = some d → d.mod = .read →
    (s.rows.lookup a).map Block.content = some d.block
  unopened : s.session = false → s.rows = ∅
  new : s.isNew = true → s.session = false
  transacted : s.transacted = true → s.session = true

/-- The states hold the same blocks. -/
structure Keeps (s s' : SqliteAllocator) : Prop where
  contents : s'.contents = s.contents
  next : s'.next = s.next
  localWrites : s'.localWrites = s.localWrites
  readCache : s'.readCache = s.readCache
  synced : s'.Synced

variable {s s' s'' : SqliteAllocator} {a : ℕ} {size : ℕ → ℤ}

/-- A cache that is in step with the table keeps its contents. -/
theorem Synced.keeps (h : s.Synced) : Keeps s s := ⟨rfl, rfl, rfl, rfl, h⟩

private theorem Keeps.trans (h : Keeps s s') (h' : Keeps s' s'') : Keeps s s'' :=
  ⟨h'.contents.trans h.contents, h'.next.trans h.next, h'.localWrites.trans h.localWrites,
    h'.readCache.trans h.readCache, h'.synced⟩

/-! ### What a flush keeps -/

/-- There is a session afterwards. -/
theorem session_getSession (s : SqliteAllocator) : s.getSession.session = true := by
  rw [SqliteAllocator.getSession]
  split
  · next h => exact h
  · rfl

/-- Opening a session keeps the contents. -/
theorem Synced.getSession (h : s.Synced) : Keeps s s.getSession := by
  rw [SqliteAllocator.getSession]
  split
  · exact h.keeps
  · next hsession =>
    have hrows := h.unopened (Bool.eq_false_iff.2 hsession)
    refine ⟨rfl, ?_, rfl, rfl, ⟨h.clean, nofun, nofun, fun _ ↦ rfl⟩⟩
    simp only [hrows]
    exact Nat.zero_max _

/-- So does the begin of a transaction on the file. -/
theorem Synced.beginTransaction (h : s.Synced) : Keeps s s.beginTransaction := by
  rw [SqliteAllocator.beginTransaction]
  split
  · exact h.keeps
  · obtain ⟨hcontents, hnext, hwrites, hcache, hclean, hunopened, hnew, -⟩ := h.getSession
    exact ⟨hcontents, hnext, hwrites, hcache, hclean, hunopened, hnew,
      fun _ ↦ session_getSession s⟩

/-- A block may be described otherwise as long as it is not taken for one that is not modified. -/
theorem Synced.describe {d d' : Descriptor} (h : s.Synced) (hd : s.allocations.lookup a = some d)
    (hblock : d'.block = d.block) (hmod : d'.mod = .read → d.mod = .read) (use : ℤ) :
    Keeps s { s with use := use, allocations := s.allocations.insert a d' } := by
  refine ⟨?_, rfl, rfl, rfl, ?_, h.unopened, h.new, h.transacted⟩
  · funext b
    by_cases hb : b = a
    · subst hb
      simp only [SqliteAllocator.contents, AList.lookup_insert, hd, hblock]
    · simp only [SqliteAllocator.contents, AList.lookup_insert_ne hb]
  · intro b e he hread
    by_cases hb : b = a
    · subst hb
      rw [AList.lookup_insert] at he
      obtain rfl := Option.some.inj he
      rw [hblock]
      exact h.clean b d hd (hmod hread)
    · rw [AList.lookup_insert_ne hb] at he
      exact h.clean b e he hread

private theorem Synced.reflectUse (h : s.Synced) (a : ℕ) : Keeps s (s.reflectUse size a) := by
  rw [SqliteAllocator.reflectUse]
  split
  · next d hd => exact h.describe hd (by rfl) (by exact id) _
  · exact h.keeps

private theorem of_not_modified {d : Descriptor} (h : s.isModified a = false)
    (hd : s.allocations.lookup a = some d) : d.mod = .read := by
  rw [isModified, hd] at h
  simpa using h

private theorem isModified_reflectUse (s : SqliteAllocator) (a : ℕ) :
    (s.reflectUse size a).isModified a = s.isModified a := by
  rw [SqliteAllocator.reflectUse]
  split
  · next d hd => simp only [isModified, AList.lookup_insert, hd]
  · rfl

/-- A block that is not modified is in the table when it is dropped. -/
theorem Synced.drop (h : s.Synced) (hclean : s.isModified a = false) :
    Keeps s (s.drop size a) := by
  have hkeeps : Keeps s (s.reflectUse size a) := h.reflectUse a
  have hs := hkeeps.synced
  refine hkeeps.trans ⟨?_, rfl, rfl, rfl, ?_, hs.unopened, hs.new, hs.transacted⟩
  · funext b
    by_cases hb : b = a
    · subst hb
      simp only [SqliteAllocator.drop, SqliteAllocator.contents, AList.lookup_erase]
      split
      · next d hd =>
        exact hs.clean b d hd (of_not_modified ((isModified_reflectUse s b).trans hclean) hd)
      · rfl
    · simp only [SqliteAllocator.drop, SqliteAllocator.contents, AList.lookup_erase_ne hb]
  · intro b d hd
    by_cases hb : b = a
    · subst hb
      simp only [SqliteAllocator.drop, AList.lookup_erase] at hd
      cases hd
    · simp only [SqliteAllocator.drop, AList.lookup_erase_ne hb] at hd
      exact hs.clean b d hd

/-- A block that is written to the table is not modified any more. -/
theorem Synced.writeBlock (h : s.Synced) (hsession : s.session = true) :
    Keeps s (s.writeBlock a) := by
  rw [SqliteAllocator.writeBlock]
  split
  · split
    · next d hd =>
      refine ⟨?_, rfl, rfl, rfl, ?_, fun hclosed ↦ ?_, h.new, h.transacted⟩
      · funext b
        by_cases hb : b = a
        · subst hb
          simp only [SqliteAllocator.contents, AList.lookup_insert, hd]
        · simp only [SqliteAllocator.contents, AList.lookup_insert_ne hb, addBuffer]
      · intro b e he hread
        by_cases hb : b = a
        · subst hb
          simp only [AList.lookup_insert, Option.some.injEq] at he
          subst he
          simp only [addBuffer, AList.lookup_insert, Option.map_some]
        · simp only [AList.lookup_insert_ne hb] at he
          simp only [addBuffer, AList.lookup_insert_ne hb]
          exact h.clean b e he hread
      · exact absurd (hsession.symm.trans hclosed) Bool.false_ne_true.symm
    · exact h.keeps
  · exact h.keeps

private theorem isModified_writeBlock (hwrites : s.localWrites = true) :
    (s.writeBlock a).isModified a = false := by
  rw [SqliteAllocator.writeBlock, if_pos hwrites]
  split
  · simp [isModified, AList.lookup_insert]
  · next hd => simp [isModified, hd]

private theorem Synced.collect (h : s.Synced) (limit : ℤ) (release : Bool)
    (blocks byAddress : List ℕ) :
    Keeps s (SqliteAllocator.collect size limit release blocks byAddress s).2 := by
  induction blocks generalizing byAddress s with
  | nil => exact h.keeps
  | cons b blocks ih =>
    rw [SqliteAllocator.collect]
    cases hb : s.isModified b with
    | true => exact ih h _
    | false =>
      simp only [Bool.false_eq_true, if_false]
      split
      · have hdrop : Keeps s (s.drop size b) := h.drop hb
        exact hdrop.trans (ih hdrop.synced _)
      · exact ih h _

private theorem session_writeBlock (s : SqliteAllocator) (a : ℕ) :
    (s.writeBlock a).session = s.session := by
  rw [SqliteAllocator.writeBlock]
  split
  · split <;> rfl
  · rfl

private theorem session_reflectUse (s : SqliteAllocator) (a : ℕ) :
    (s.reflectUse size a).session = s.session := by
  rw [SqliteAllocator.reflectUse]
  split <;> rfl

/-- Each block of the second loop is written before it is dropped. -/
theorem Synced.writeBack (h : s.Synced) (release : Bool)
    (hwrites : release = true → s.localWrites = true) (hsession : s.session = true) (limit : ℤ)
    (mods : ℕ) (blocks : List ℕ) :
    Keeps s (SqliteAllocator.writeBack size limit release mods blocks s) := by
  induction blocks generalizing mods s with
  | nil => exact h.keeps
  | cons b blocks ih =>
    have hwritten := h.writeBlock (a := b) hsession
    have hnext : Keeps s (if release then (s.writeBlock b).drop size b
        else (s.writeBlock b).reflectUse size b) := by
      cases release with
      | true => exact hwritten.trans (hwritten.synced.drop (isModified_writeBlock (hwrites rfl)))
      | false => exact hwritten.trans (hwritten.synced.reflectUse b)
    have hopen : (if release then (s.writeBlock b).drop size b
        else (s.writeBlock b).reflectUse size b).session = true := by
      cases release with
      | true => exact (session_reflectUse ..).trans ((session_writeBlock s b).trans hsession)
      | false => exact (session_reflectUse ..).trans ((session_writeBlock s b).trans hsession)
    rw [SqliteAllocator.writeBack]
    generalize (if release then (s.writeBlock b).drop size b
      else (s.writeBlock b).reflectUse size b) = s' at hnext hopen ⊢
    split
    · exact hnext
    · exact hnext.trans (ih hnext.synced (fun hr ↦ hnext.localWrites.trans (hwrites hr)) hopen _)

private theorem Synced.session_beginTransaction (h : s.Synced) :
    s.beginTransaction.session = true := by
  rw [SqliteAllocator.beginTransaction]
  split
  · next htransacted => exact h.transacted htransacted
  · exact session_getSession s

private theorem Synced.foldl_reflectUse (h : s.Synced) (l : List ℕ) :
    Keeps s (l.foldl (SqliteAllocator.reflectUse size) s) := by
  induction l generalizing s with
  | nil => exact h.keeps
  | cons a l ih => exact (h.reflectUse a).trans (ih (h.reflectUse a).synced)

private theorem Synced.flushBack (h : s.Synced) (factor : ℤ) (release : Bool)
    (hwrites : release = true → s.localWrites = true) :
    Keeps s (SqliteAllocator.flushBack size factor release s) := by
  have hreflected : Keeps s (s.allocations.keys.foldl (SqliteAllocator.reflectUse size) s) :=
    h.foldl_reflectUse s.allocations.keys
  rw [SqliteAllocator.flushBack]
  dsimp only
  generalize s.allocations.keys.foldl (SqliteAllocator.reflectUse size) s = s₁ at hreflected ⊢
  have hcollected : Keeps s
      (SqliteAllocator.collect size (s.use * factor) release s₁.byClock [] s₁).2 :=
    hreflected.trans (hreflected.synced.collect (s.use * factor) release s₁.byClock [])
  split
  · exact hcollected
  · have hbegun := hcollected.trans hcollected.synced.beginTransaction
    have hwritten := fun mods blocks ↦ hbegun.trans (@Synced.writeBack _ size hbegun.synced release
      (fun hr ↦ hbegun.localWrites.trans (hwrites hr)) hcollected.synced.session_beginTransaction
      (s.use * factor) mods blocks)
    exact (hwritten _ _).trans (hwritten _ _).synced.getSession

/-- So does the eviction of blocks, where modified ones may be written. -/
theorem Synced.checkUse (h : s.Synced) (depleted : Bool)
    (hwrites : depleted = true → s.localWrites = true) : Keeps s (s.checkUse size depleted) := by
  rw [SqliteAllocator.checkUse]
  split
  · next hdepleted =>
    have hflushed : Keeps s (s.flushBack size 30 true) :=
      h.flushBack 30 true fun _ ↦ hwrites hdepleted
    exact hflushed.trans hflushed.synced.getSession
  · exact h.keeps

/-- So does a commit. -/
theorem Synced.commit (h : s.Synced) : Keeps s (s.commit size) := by
  rw [SqliteAllocator.commit]
  split
  · obtain ⟨hcontents, hnext, hwrites, hcache, hclean, hunopened, hnew, -⟩ :=
      h.flushBack 80 false nofun
    exact ⟨hcontents, hnext, hwrites, hcache, hclean, hunopened, hnew, nofun⟩
  · exact h.keeps

/-- So does a flush. -/
theorem Synced.flush (h : s.Synced) : Keeps s (s.flush size) := by
  rw [SqliteAllocator.flush]
  split
  · exact h.keeps
  · have hflushed : Keeps s (s.flushBack size 85 false) := h.flushBack 85 false nofun
    exact hflushed.trans hflushed.synced.getSession

/-- So does a reduction of the cache. -/
theorem Synced.reduce (h : s.Synced) (hwrites : s.localWrites = true) :
    Keeps s (s.reduce size) := by
  rw [SqliteAllocator.reduce]
  split
  · exact h.keeps
  · split
    · have hflushed : Keeps s (s.flushBack size 45 true) := h.flushBack 45 true fun _ ↦ hwrites
      exact hflushed.trans hflushed.synced.getSession
    · exact h.getSession

/-! ### The access to a block -/

/-- The block at an address is set in memory, and nothing else that bears on the blocks. -/
structure Sets (s s' : SqliteAllocator) (a : ℕ) (block : Bytes) (mod : StorageAction) : Prop where
  self : ∃ d, s'.allocations.lookup a = some d ∧ d.block = block ∧ d.mod = mod
  others : ∀ b ≠ a, s'.allocations.lookup b = s.allocations.lookup b
  rows : s'.rows = s.rows
  next : s'.next = s.next
  session : s'.session = s.session
  isNew : s'.isNew = s.isNew
  transacted : s'.transacted = s.transacted
  localWrites : s'.localWrites = s.localWrites
  readCache : s'.readCache = s.readCache

variable {block : Bytes} {mod : StorageAction}

private theorem Sets.reflectUse (h : Sets s s' a block mod) :
    Sets s (s'.reflectUse size a) a block mod := by
  obtain ⟨⟨d, hd, hblock, hmod⟩, hothers, hrows, hnext, hsession, hnew, htrans, hwrites,
    hcache⟩ := h
  simp only [SqliteAllocator.reflectUse, hd]
  refine ⟨⟨_, AList.lookup_insert _, hblock, hmod⟩, fun b hb ↦ ?_, hrows, hnext, hsession, hnew,
    htrans, hwrites, hcache⟩
  rw [AList.lookup_insert_ne hb, hothers b hb]

/-- Handing out a block puts it into the cache. -/
theorem sets_hand (s : SqliteAllocator) (a : ℕ) (d : Descriptor) :
    Sets s (s.hand size a d) a d.block d.mod := by
  refine Sets.reflectUse ⟨⟨_, AList.lookup_insert _, rfl, rfl⟩, fun b hb ↦ ?_, rfl, rfl, rfl, rfl,
    rfl, rfl, rfl⟩
  exact AList.lookup_insert_ne hb

private theorem Sets.assign (h : Sets s s' a block mod) (content : Option Bytes) :
    Sets s (s'.assign a content) a (content.getD block) mod := by
  obtain ⟨⟨d, hd, hblock, hmod⟩, hothers, hrows, hnext, hsession, hnew, htrans, hwrites,
    hcache⟩ := h
  cases content with
  | none =>
    simp only [SqliteAllocator.assign, hd]
    exact ⟨⟨d, hd, hblock, hmod⟩, hothers, hrows, hnext, hsession, hnew, htrans, hwrites, hcache⟩
  | some content =>
    simp only [SqliteAllocator.assign, hd]
    refine ⟨⟨_, AList.lookup_insert _, rfl, hmod⟩, fun b hb ↦ ?_, hrows, hnext, hsession, hnew,
      htrans, hwrites, hcache⟩
    rw [AList.lookup_insert_ne hb, hothers b hb]

/-- The allocator holds the blocks of the map, some of them in memory. -/
structure Represents (s : SqliteAllocator) (m : Allocator) : Prop where
  synced : s.Synced
  contents : ∀ a, (m.block a).map Block.content = s.contents a
  next : m.next = s.next
  bounded : ∀ a, (s.contents a).isSome = true → a ≤ s.next
  localWrites : s.localWrites = true
  readCache : s.readCache = true

variable {m m' : Allocator}

private theorem Represents.keeps (h : Represents s m) (hkeeps : Keeps s s') : Represents s' m :=
  ⟨hkeeps.synced, fun a ↦ hkeeps.contents ▸ h.contents a, hkeeps.next ▸ h.next,
    fun a ha ↦ hkeeps.next ▸ h.bounded a (hkeeps.contents ▸ ha),
    hkeeps.localWrites.trans h.localWrites, hkeeps.readCache.trans h.readCache⟩

/-- The contents at the other addresses stay. -/
theorem Sets.contents_ne (h : Sets s s' a block mod) {b : ℕ} (hb : b ≠ a) :
    s'.contents b = s.contents b := by
  rw [SqliteAllocator.contents, SqliteAllocator.contents, h.others b hb, h.rows]

/-- The block has the contents that were set. -/
theorem Sets.contents_self (h : Sets s s' a block mod) : s'.contents a = some block := by
  obtain ⟨d, hd, rfl, -⟩ := h.self
  rw [SqliteAllocator.contents, hd]

/-- The cache stays in step where a block that is only read is the one of the table. -/
theorem Sets.synced (h : Sets s s' a block mod) (hs : s.Synced)
    (hmod : mod = .read → (s.rows.lookup a).map Block.content = some block) : s'.Synced := by
  obtain ⟨d, hd, rfl, rfl⟩ := h.self
  refine ⟨fun b e he hread ↦ ?_, fun hclosed ↦ ?_, fun hnew ↦ ?_, fun ht ↦ ?_⟩
  · rw [h.rows]
    by_cases hb : b = a
    · subst hb
      obtain rfl := Option.some.inj (hd.symm.trans he)
      exact hmod hread
    · rw [h.others b hb] at he
      exact hs.clean b e he hread
  · exact h.rows.trans (hs.unopened (h.session.symm.trans hclosed))
  · exact h.session.trans (hs.new (h.isNew.symm.trans hnew))
  · exact h.session.trans (hs.transacted (h.transacted.symm.trans ht))

/-- A block that is set in memory is set in the map. One that is not modified is in the table. -/
theorem Represents.sets {s₀ : SqliteAllocator} {next : ℕ} (h : Represents s m)
    (hs₀ : s₀ = { s with next := next }) (hnext : s.next ≤ next) (ha : a ≤ next)
    (hsets : Sets s₀ s' a block mod)
    (hmod : mod = .read → (s.rows.lookup a).map Block.content = some block)
    (hblock : (m'.block a).map Block.content = some block)
    (hothers : ∀ b ≠ a, m'.block b = m.block b) (hnext' : m'.next = next) : Represents s' m' := by
  subst hs₀
  have hs : ({ s with next := next } : SqliteAllocator).Synced :=
    ⟨h.synced.clean, h.synced.unopened, h.synced.new, h.synced.transacted⟩
  refine ⟨hsets.synced hs hmod, fun b ↦ ?_, hnext'.trans hsets.next.symm, fun b hb ↦ ?_,
    hsets.localWrites.trans h.localWrites, hsets.readCache.trans h.readCache⟩
  · by_cases hb : b = a
    · rw [hb, hblock, hsets.contents_self]
    · rw [hothers b hb, h.contents b, hsets.contents_ne hb]
      rfl
  · rw [hsets.next]
    by_cases hba : b = a
    · exact hba ▸ ha
    · rw [hsets.contents_ne hba] at hb
      exact (h.bounded b hb).trans hnext

/-- The row that a lookup would take for that of the address is another's. -/
def Stale (s : SqliteAllocator) (a : ℕ) : Prop :=
  s.isNew = false ∧ s.currentAddress = a ∧ s.rows.lookup a = none

/-- An access shows nothing of where the blocks are: no block is created again while it is in the
table only, unless it is written as a whole, no stale row is taken for one, and the addresses that
are given out do not start over. -/
def RegularAccess (s : SqliteAllocator) (which : ℕ) (how : StorageAction)
    (content : Option Bytes) : Prop :=
  if which = 0 then how = .create → s.next + 1 < 2 ^ 64
  else (s.allocations.lookup which).isSome = true ∨
    if how = .create then s.rows.lookup which = none ∨ content.isSome = true
    else ¬s.Stale which

/-- A step shows nothing of where the blocks are. -/
def Regular (s : SqliteAllocator) : Step → Prop
  | .access size _ depleted which how content =>
    (s.checkUse size depleted).RegularAccess which how content
  | .beginNew | .commit _ | .flush _ | .reduce _ => True
  | .rollback _ => False

/-- Opening a session leaves the table, the cache and the last result as they are. -/
theorem getSession_fields (s : SqliteAllocator) : s.getSession.rows = s.rows ∧
    s.getSession.allocations = s.allocations ∧ s.getSession.currentAddress = s.currentAddress ∧
    s.getSession.encodedBlock = s.encodedBlock := by
  rw [SqliteAllocator.getSession]
  split <;> exact ⟨rfl, rfl, rfl, rfl⟩

/-- Where there is a row it is found. -/
theorem getBuffer_of_row {row : Block} (hnew : s.isNew = false)
    (hrow : s.rows.lookup a = some row) : s.getBuffer a = (true, { s.getSession with
      currentAddress := a, currentVersion := row.version, encodedBlock := row.content }) := by
  have hrow' : ({ s.getSession with currentVersion := 0 } : SqliteAllocator).rows.lookup a =
      some row := by rw [← hrow, ← (getSession_fields s).1]
  simp only [SqliteAllocator.getBuffer, hnew, Bool.false_eq_true, if_false, select, hrow',
    decide_true]

/-- Where there is none the result variables stay as they are. -/
theorem getBuffer_of_none (hnew : s.isNew = false) (hrow : s.rows.lookup a = none) :
    s.getBuffer a = (decide (s.currentAddress = a), { s.getSession with currentVersion := 0 }) := by
  have hrow' : ({ s.getSession with currentVersion := 0 } : SqliteAllocator).rows.lookup a =
      none := by rw [← hrow, ← (getSession_fields s).1]
  simp only [SqliteAllocator.getBuffer, hnew, Bool.false_eq_true, if_false, select, hrow',
    (getSession_fields s).2.2.1]

/-- The last result does not count as contents. -/
theorem Keeps.withResult (h : Keeps s s') (address version : ℕ) (block : Bytes) :
    Keeps s { s' with
      currentAddress := address, currentVersion := version, encodedBlock := block } := by
  obtain ⟨hcontents, hnext, hwrites, hcache, hclean, hunopened, hnew, htransacted⟩ := h
  exact ⟨hcontents, hnext, hwrites, hcache, hclean, hunopened, hnew, htransacted⟩

/-- The lookup in the table finds what is there, unless a stale row is taken for it. -/
theorem Represents.getBuffer (h : Represents s m) (hstale : ¬s.Stale a)
    (hnone : s.allocations.lookup a = none) :
    (m.block a = none ∧ (s.getBuffer a).1 = false ∧ Keeps s (s.getBuffer a).2) ∨
    ∃ b row, m.block a = some b ∧ b.content = row.content ∧
      s.getBuffer a = (true, { s.getSession with
        currentAddress := a, currentVersion := row.version, encodedBlock := row.content }) ∧
      s.rows.lookup a = some row := by
  have hcontents := h.contents a
  rw [SqliteAllocator.contents, hnone] at hcontents
  cases hnew : s.isNew with
  | true =>
    rw [h.synced.unopened (h.synced.new hnew)] at hcontents
    rw [SqliteAllocator.getBuffer, if_pos hnew]
    exact .inl ⟨Option.map_eq_none_iff.1 hcontents, rfl, h.synced.keeps⟩
  | false =>
    cases hrow : s.rows.lookup a with
    | none =>
      rw [hrow] at hcontents
      rw [getBuffer_of_none hnew hrow]
      exact .inl ⟨Option.map_eq_none_iff.1 hcontents,
        decide_eq_false fun hcurrent ↦ hstale ⟨hnew, hcurrent, hrow⟩,
        h.synced.getSession.withResult _ _ _⟩
    | some row =>
      rw [hrow] at hcontents
      obtain ⟨b, hb, hcontent⟩ := Option.map_eq_some_iff.1 hcontents
      exact .inr ⟨b, row, hb, hcontent, getBuffer_of_row hnew hrow, rfl⟩

variable (size) in
/-- What the caller writes to the block that it was handed. -/
theorem Sets.finish (h : Sets s s' a block mod) (how : StorageAction) (content : Option Bytes) :
    Sets s ((if how = .read then s' else s'.assign a content).reflectUse size a) a
      (if how = .read then block else content.getD block) mod := by
  split
  · exact h.reflectUse
  · exact (h.assign content).reflectUse

private theorem Represents.countChange (h : Represents s m) (how : StorageAction) :
    Represents (if how = .read then s else { s with changes := s.changes + 1 }) m := by
  split
  · exact h
  · exact ⟨⟨h.synced.clean, h.synced.unopened, h.synced.new, h.synced.transacted⟩, h.contents,
      h.next, h.bounded, h.localWrites, h.readCache⟩

variable {which : ℕ} {how : StorageAction} {content : Option Bytes} {sizeAfter : ℕ → ℤ}

/-- What an access leaves once a block was found. -/
def finished (sizeAfter : ℕ → ℤ) (how : StorageAction) (content : Option Bytes)
    (found : Except Thrown (Option (ℕ × Bytes)) × SqliteAllocator) : SqliteAllocator :=
  match found with
  | (.ok (some (a, _)), s) => (if how = .read then s else s.assign a content).reflectUse sizeAfter a
  | (.ok none, s) | (.error _, s) => s

/-- A block is created at an address of its own. -/
theorem Represents.createNext (h : Represents s m) (hnext : s.next + 1 < 2 ^ 64) :
    seen .create (s.findBlock size 0 .create).1 = seen .create (m.access 0 .create content).1 ∧
      Represents (finished sizeAfter .create content (s.findBlock size 0 .create))
        (m.access 0 .create content).2 := by
  have hm : m.createNext.next = s.next + 1 := by
    rw [Allocator.createNext, h.next, Nat.mod_eq_of_lt hnext]
  have hfind : s.findBlock size 0 .create = (.ok (some (s.next + 1, [])),
      { s with next := s.next + 1 }.hand size (s.next + 1) ⟨[], s.version, .create, 0, 0⟩) := by
    simp only [SqliteAllocator.findBlock, if_true, ne_eq, not_true_eq_false, if_false,
      Nat.mod_eq_of_lt hnext]
  have haccess : m.access 0 .create content = (.ok (some (s.next + 1, [])),
      m.createNext.write (s.next + 1) content) := by
    simp only [Allocator.access, if_true, hm]
  have hblock : m.createNext.block (s.next + 1) = some ⟨[], m.version⟩ := by
    rw [Allocator.createNext, h.next, Nat.mod_eq_of_lt hnext]
    exact (Allocator.block_setBlock ..).trans (if_pos rfl)
  rw [hfind, haccess]
  refine ⟨rfl, h.sets rfl (Nat.le_succ _) le_rfl
    ((sets_hand _ _ _).finish _ .create content) nofun ?_ (fun b hb ↦ ?_) ?_⟩
  · rw [Allocator.block_write, hblock]
    rfl
  · rw [Allocator.block_write_ne _ _ hb, Allocator.createNext, h.next, Nat.mod_eq_of_lt hnext]
    exact (Allocator.block_setBlock ..).trans (if_neg hb)
  · rw [Allocator.next_write, hm]

/-- The mark of a block leaves its bytes as they are. -/
theorem block_setStorageAction (d : Descriptor) (how : StorageAction) :
    (d.setStorageAction how).block = d.block := by
  rw [Descriptor.setStorageAction]
  split <;> rfl

/-- A block is marked as read only where nothing but reads have asked for it. -/
theorem setStorageAction_eq_read {d : Descriptor} (h : (d.setStorageAction how).mod = .read) :
    d.mod = .read ∧ how = .read := by
  rw [Descriptor.setStorageAction] at h
  split at h
  · next hd => exact ⟨hd, h⟩
  · next hd => exact absurd h hd

/-- A block that is in memory is given out as it is. -/
theorem Represents.cached (h : Represents s m) (hwhich : which ≠ 0) {d : Descriptor}
    (hd : s.allocations.lookup which = some d) :
    seen how (s.findBlock size which how).1 = seen how (m.access which how content).1 ∧
      Represents (finished sizeAfter how content (s.findBlock size which how))
        (m.access which how content).2 := by
  have hfind : s.findBlock size which how =
      (.ok (some (which, d.block)), s.hand size which (d.setStorageAction how)) := by
    simp only [SqliteAllocator.findBlock, if_neg hwhich, hd]
  have hcontents : s.contents which = some d.block := by rw [SqliteAllocator.contents, hd]
  obtain ⟨b, hb, hcontent⟩ := Option.map_eq_some_iff.1 ((h.contents which).trans hcontents)
  have hsets := @sets_hand size s which (d.setStorageAction how)
  rw [block_setStorageAction] at hsets
  have hbound := h.bounded which (by rw [hcontents]; rfl)
  have hclean : (d.setStorageAction how).mod = .read →
      (s.rows.lookup which).map Block.content =
        some (if how = .read then d.block else content.getD d.block) := by
    intro hread
    obtain ⟨hmod, hhow⟩ := setStorageAction_eq_read hread
    rw [if_pos hhow]
    exact h.synced.clean which d hd hmod
  rw [hfind]
  cases how with
  | create =>
    rw [show m.access which .create content = (.ok (some (which, [])),
      (m.create which).write which content) from if_neg hwhich]
    refine ⟨rfl, h.sets rfl le_rfl hbound (hsets.finish _ .create content) hclean ?_
      (fun c hc ↦ ?_) ?_⟩
    · rw [Allocator.block_write, Allocator.block_create, hb, ← hcontent]
      rfl
    · rw [Allocator.block_write_ne _ _ hc, Allocator.block_create_ne _ hc]
    · rw [Allocator.next_write, Allocator.next_create, hb, h.next]
      rfl
  | write =>
    rw [show m.access which .write content = (.ok ((m.block which).map fun b ↦ (which, b.content)),
      m.write which content) from if_neg hwhich, hb]
    refine ⟨by rw [← hcontent]; rfl, h.sets rfl le_rfl hbound (hsets.finish _ .write content) hclean
      ?_ (fun c hc ↦ Allocator.block_write_ne _ _ hc) ?_⟩
    · rw [Allocator.block_write, hb, ← hcontent]
      rfl
    · rw [Allocator.next_write, h.next]
  | read =>
    rw [show m.access which .read content = (.ok ((m.block which).map fun b ↦ (which, b.content)),
      m) from if_neg hwhich, hb]
    refine ⟨by rw [← hcontent]; rfl, h.sets rfl le_rfl hbound (hsets.finish _ .read content) hclean
      ?_ (fun c _ ↦ rfl) h.next⟩
    rw [hb, ← hcontent]
    rfl

/-- A block is created that is not in memory. -/
theorem Represents.createAt (h : Represents s m) (hwhich : which ≠ 0)
    (hnone : s.allocations.lookup which = none)
    (hreg : s.rows.lookup which = none ∨ content.isSome = true) :
    seen .create (s.findBlock size which .create).1 =
        seen .create (m.access which .create content).1 ∧
      Represents (finished sizeAfter .create content (s.findBlock size which .create))
        (m.access which .create content).2 := by
  have hfind : s.findBlock size which .create = (.ok (some (which, [])),
      { s with next := max which s.next }.hand size which ⟨[], s.version, .create, 0, 0⟩) := by
    simp only [SqliteAllocator.findBlock, if_neg hwhich, hnone, if_true]
  have hcontents : (m.block which).map Block.content = (s.rows.lookup which).map Block.content := by
    rw [h.contents, SqliteAllocator.contents, hnone]
  have hbytes : ((m.block which).getD ⟨[], m.version⟩).content = [] ∨ content.isSome = true := by
    refine hreg.imp_left fun hrow ↦ ?_
    rw [hrow] at hcontents
    rw [Option.map_eq_none_iff.1 hcontents]
    rfl
  rw [hfind, show m.access which .create content = (.ok (some (which, [])),
    (m.create which).write which content) from if_neg hwhich]
  refine ⟨rfl, h.sets rfl (le_max_right ..) (le_max_left ..)
    ((sets_hand _ _ _).finish _ .create content) nofun ?_ (fun c hc ↦ ?_) ?_⟩
  · rw [Allocator.block_write, Allocator.block_create]
    cases content with
    | none => exact congrArg some (hbytes.resolve_right nofun)
    | some content => rfl
  · rw [Allocator.block_write_ne _ _ hc, Allocator.block_create_ne _ hc]
  · rw [Allocator.next_write, Allocator.next_create]
    split
    · next hsome =>
      have hcontained : (s.contents which).isSome = true := by
        rw [← h.contents, Option.isSome_map, hsome]
      rw [h.next, max_eq_right (h.bounded which hcontained)]
    · rw [h.next]

/-- A block is looked up that is not in memory. -/
theorem Represents.lookUp (h : Represents s m) (hwhich : which ≠ 0) (hhow : how ≠ .create)
    (hnone : s.allocations.lookup which = none) (hstale : ¬s.Stale which) :
    seen how (s.findBlock size which how).1 = seen how (m.access which how content).1 ∧
      Represents (finished sizeAfter how content (s.findBlock size which how))
        (m.access which how content).2 := by
  rcases h.getBuffer hstale hnone with ⟨hm, hmissing, hkeeps⟩ | ⟨b, row, hb, hcontent, hfound, hrow⟩
  · have hfind : s.findBlock size which how = (.ok none, (s.getBuffer which).2) := by
      simp only [SqliteAllocator.findBlock, if_neg hwhich, hnone, if_neg hhow]
      split
      · next hbuffer => rw [hbuffer]
      · next hbuffer => exact absurd (hmissing.symm.trans (congrArg Prod.fst hbuffer)) nofun
    rw [hfind]
    cases how with
    | create => exact absurd rfl hhow
    | write =>
      rw [show m.access which .write content = (.ok ((m.block which).map fun b ↦
        (which, b.content)), m.write which content) from if_neg hwhich, hm,
        Allocator.write_of_none _ hm]
      exact ⟨rfl, h.keeps hkeeps⟩
    | read =>
      rw [show m.access which .read content = (.ok ((m.block which).map fun b ↦
        (which, b.content)), m) from if_neg hwhich, hm]
      exact ⟨rfl, h.keeps hkeeps⟩
  · obtain ⟨s₁, hs₁⟩ : ∃ s₁ : SqliteAllocator, s₁ = { s.getSession with
        currentAddress := which, currentVersion := row.version, encodedBlock := row.content } :=
      ⟨_, rfl⟩
    have h₁ : Represents s₁ m := h.keeps (hs₁ ▸ h.synced.getSession.withResult _ _ _)
    have hblock : s₁.encodedBlock = b.content := by rw [hs₁, hcontent]
    have hrows : (s₁.rows.lookup which).map Block.content = some b.content := by
      rw [hcontent, ← Option.map_some (f := Block.content) (a := row), ← hrow, hs₁]
      exact congrArg (fun rows ↦ (AList.lookup which rows).map Block.content)
        (getSession_fields s).1
    have hfind : s.findBlock size which how = (.ok (some (which, b.content)),
        s₁.hand size which ⟨b.content, s₁.currentVersion, how, 0, 0⟩) := by
      rw [← hs₁] at hfound
      simp only [SqliteAllocator.findBlock, if_neg hwhich, hnone, if_neg hhow, hfound, hblock,
        if_pos h₁.readCache]
    have hbound := h₁.bounded which (by rw [← h₁.contents, hb]; rfl)
    have hsets := @sets_hand size s₁ which ⟨b.content, s₁.currentVersion, how, 0, 0⟩
    rw [hfind]
    cases how with
    | create => exact absurd rfl hhow
    | write =>
      rw [show m.access which .write content = (.ok ((m.block which).map fun b ↦
        (which, b.content)), m.write which content) from if_neg hwhich, hb]
      refine ⟨rfl, h₁.sets rfl le_rfl hbound (hsets.finish _ .write content) nofun ?_
        (fun c hc ↦ Allocator.block_write_ne _ _ hc) ?_⟩
      · rw [Allocator.block_write, hb]
        rfl
      · rw [Allocator.next_write, h₁.next]
    | read =>
      rw [show m.access which .read content = (.ok ((m.block which).map fun b ↦
        (which, b.content)), m) from if_neg hwhich, hb]
      refine ⟨rfl, h₁.sets rfl le_rfl hbound (hsets.finish _ .read content) (fun _ ↦ hrows) ?_
        (fun c _ ↦ rfl) h₁.next⟩
      rw [hb]
      rfl

/-- The search for a block finds that of the map. -/
theorem Represents.findBlock (h : Represents s m)
    (hreg : s.RegularAccess which how content) :
    seen how (s.findBlock size which how).1 = seen how (m.access which how content).1 ∧
      Represents (finished sizeAfter how content (s.findBlock size which how))
        (m.access which how content).2 := by
  rw [RegularAccess] at hreg
  by_cases hwhich : which = 0
  · subst hwhich
    cases how with
    | create => exact h.createNext (hreg rfl)
    | read => exact ⟨rfl, h⟩
    | write => exact ⟨rfl, h⟩
  · rw [if_neg hwhich] at hreg
    cases hd : s.allocations.lookup which with
    | some d => exact h.cached hwhich hd
    | none =>
      rw [hd] at hreg
      have hreg := hreg.resolve_left nofun
      by_cases hhow : how = .create
      · subst hhow
        exact h.createAt hwhich hd hreg
      · rw [if_neg hhow] at hreg
        exact h.lookUp hwhich hhow hd hreg

/-- An access evicts, finds the block and writes to it. -/
theorem access_eq (s : SqliteAllocator) (depleted : Bool) :
    s.access size sizeAfter depleted which how content =
      (((s.checkUse size depleted).allocateBlock size which how).1,
        finished sizeAfter how content
          ((s.checkUse size depleted).allocateBlock size which how)) := by
  rw [SqliteAllocator.access]
  split
  · next hfound => rw [hfound, finished]
  · next hfound => rw [hfound, finished]
  · next hfound => rw [hfound, finished]

/-- An access to the allocator is one to the map. -/
theorem Represents.access (h : Represents s m) {depleted : Bool}
    (hreg : s.Regular (.access size sizeAfter depleted which how content)) :
    seen how (s.access size sizeAfter depleted which how content).1 =
        seen how (m.access which how content).1 ∧
      Represents (s.access size sizeAfter depleted which how content).2
        (m.access which how content).2 := by
  have hchecked : Represents (s.checkUse size depleted) m :=
    h.keeps (h.synced.checkUse depleted fun _ ↦ h.localWrites)
  rw [access_eq]
  refine (hchecked.countChange how).findBlock ?_
  cases how with
  | read => exact hreg
  | write => exact hreg
  | create => exact hreg

end SqliteAllocator

/-- What a step is to a map of blocks. -/
def Allocator.step (m : Allocator) :
    SqliteAllocator.Step → Option (Except Thrown (Option (ℕ × Bytes))) × Allocator
  | .access _ _ _ which how content =>
    (some (SqliteAllocator.seen how (m.access which how content).1),
      (m.access which how content).2)
  | .beginNew | .commit _ | .flush _ | .reduce _ | .rollback _ => (none, m)

/-- What a series of steps is to a map of blocks. -/
def Allocator.run : Allocator → List SqliteAllocator.Step →
    List (Option (Except Thrown (Option (ℕ × Bytes)))) × Allocator
  | m, [] => ([], m)
  | m, x :: xs => ((m.step x).1 :: (run (m.step x).2 xs).1, (run (m.step x).2 xs).2)

namespace SqliteAllocator

variable {s : SqliteAllocator} {m : Allocator}

private theorem Represents.step (h : Represents s m) {x : Step} (hx : s.Regular x) :
    (s.step x).1 = (m.step x).1 ∧ Represents (s.step x).2 (m.step x).2 := by
  cases x with
  | access size sizeAfter depleted which how content =>
    obtain ⟨hseen, hleft⟩ := h.access hx
    exact ⟨congrArg some hseen, hleft⟩
  | beginNew => exact ⟨rfl, h.keeps h.synced.beginTransaction⟩
  | commit size => exact ⟨rfl, h.keeps h.synced.commit⟩
  | flush size => exact ⟨rfl, h.keeps h.synced.flush⟩
  | reduce size => exact ⟨rfl, h.keeps (h.synced.reduce h.localWrites)⟩
  | rollback size => exact hx.elim

/-- Each step of the series is regular in the state before it. -/
def EachRegular : SqliteAllocator → List Step → Prop
  | _, [] => True
  | s, x :: xs => s.Regular x ∧ EachRegular (s.step x).2 xs

private theorem Represents.run (h : Represents s m) {xs : List Step} (hxs : s.EachRegular xs) :
    (s.run xs).1 = (m.run xs).1 ∧ Represents (s.run xs).2 (m.run xs).2 := by
  induction xs generalizing s m with
  | nil => exact ⟨rfl, h⟩
  | cons x xs ih =>
    obtain ⟨hseen, hleft⟩ := h.step hxs.1
    obtain ⟨hseens, hlast⟩ := ih hleft hxs.2
    exact ⟨congrArg₂ List.cons hseen hseens, hlast⟩

/-- The blocks of a storage when it is opened. -/
def stored (version minimum : ℕ) (file : Option Table) : Allocator :=
  ⟨version, max (maxAddress (file.getD ∅)) minimum, 0, file.getD ∅⟩

private theorem le_foldr_max {l : List ℕ} {a : ℕ} (h : a ∈ l) : a ≤ l.foldr max 0 := by
  induction l with
  | nil => cases h
  | cons b l ih =>
    rcases List.mem_cons.1 h with rfl | h
    · exact le_max_left ..
    · exact (ih h).trans (le_max_right ..)

private theorem le_maxAddress {rows : Table} {a : ℕ} (h : (rows.lookup a).isSome = true) :
    a ≤ maxAddress rows :=
  le_foldr_max (AList.mem_keys.1 (AList.lookup_isSome.1 h))

/-- A storage that is opened represents the blocks of its file. -/
theorem represents_start (transient : Bool) (version minimum current : ℕ) (file : Option Table) :
    Represents (start transient true true version minimum current file)
      (stored version minimum file) := by
  have hbounded : ∀ (rows : Table) (a : ℕ), ((rows.lookup a).map Block.content).isSome = true →
      a ≤ max (maxAddress rows) minimum := fun rows a ha ↦
    (le_maxAddress ((Option.isSome_map ..).symm.trans ha)).trans (le_max_left ..)
  cases file with
  | none =>
    exact ⟨⟨nofun, fun _ ↦ rfl, fun _ ↦ rfl, nofun⟩, fun _ ↦ rfl, Nat.zero_max _, nofun, rfl, rfl⟩
  | some rows =>
    exact ⟨⟨nofun, nofun, nofun, fun _ ↦ rfl⟩, fun _ ↦ rfl, rfl, hbounded rows, rfl, rfl⟩

instance (s : SqliteAllocator) (a : ℕ) : Decidable (s.Stale a) :=
  inferInstanceAs (Decidable (_ ∧ _ ∧ _))

instance (s : SqliteAllocator) (which : ℕ) (how : StorageAction) (content : Option Bytes) :
    Decidable (s.RegularAccess which how content) :=
  inferInstanceAs (Decidable (if which = 0 then how = .create → s.next + 1 < 2 ^ 64
    else (s.allocations.lookup which).isSome = true ∨
      if how = .create then s.rows.lookup which = none ∨ content.isSome = true
      else ¬s.Stale which))

instance (s : SqliteAllocator) : (x : Step) → Decidable (s.Regular x)
  | .access size _ depleted which how content =>
    inferInstanceAs (Decidable ((s.checkUse size depleted).RegularAccess which how content))
  | .beginNew | .commit _ | .flush _ | .reduce _ => inferInstanceAs (Decidable True)
  | .rollback _ => inferInstanceAs (Decidable False)

instance decidableEachRegular :
    (s : SqliteAllocator) → (xs : List Step) → Decidable (s.EachRegular xs)
  | _, [] => inferInstanceAs (Decidable True)
  | s, x :: xs =>
    have := decidableEachRegular (s.step x).2 xs
    inferInstanceAs (Decidable (s.Regular x ∧ (s.step x).2.EachRegular xs))

/-- Where the blocks are cannot be seen in a run of regular steps. -/
theorem runs_agree (transient : Bool) (version minimum current : ℕ) (file : Option Table)
    (xs : List Step)
    (hxs : (start transient true true version minimum current file).EachRegular xs) :
    ((start transient true true version minimum current file).run xs).1 =
      ((stored version minimum file).run xs).1 :=
  ((represents_start transient version minimum current file).run hxs).1

/-- A block is created, written to the table and dropped before it is read. -/
theorem runs_agree_dropped :
    let size : ℕ → ℤ := fun _ ↦ 100
    let xs : List Step := [.access size size false 0 .create (some [1]), .beginNew, .commit size,
      .access size size true 33 .read none]
    ((start false true true 0 32 0 none).run xs).1 = ((stored 0 32 none).run xs).1 :=
  runs_agree false 0 32 0 none _ (by decide +kernel)

/-- A block that was dropped is created again, and what was written to it is lost. -/
theorem not_refines_created :
    let size : ℕ → ℤ := fun _ ↦ 100
    let xs : List Step := [.access size size false 0 .create (some [1]), .beginNew, .commit size,
      .access size size true 33 .create none, .access size size false 33 .read none]
    ((start false true true 0 32 0 none).run xs).1 ≠ ((stored 0 32 none).run xs).1 := by
  decide +kernel

end SqliteAllocator

end LibSpaces.Transactions
