import LibSpaces.Transactions.BlockCache

/-!
# The versions of the blocks in memory

`sqlite_allocator` with its map of versions and with replicants, `src/src/storage/transactions/
transactional_storage.h:644–1030`. A block that is not in memory is taken from the table or, once a
replication control is set, from the replicants, `src/src/storage/network/replication.h:276–318`.
What they answer for the highest address is not followed here.
-/

namespace LibSpaces.Transactions

open LibSpaces.Base

/-- What `read_replicants` comes to: too few of them have the block, there are no replicants and
nothing is set, or a block with its version. -/
inductive ReplicaRead
  | failed
  | unset
  | found (block : Block)

/-- `sqlite_allocator`, `transactional_storage.h:405–478,537–554`: the versions of blocks, whether
there is a replication control, the block that was read last, and whether `current_version` holds
any bytes, from which its version is taken. -/
structure VersionedAllocator extends SqliteAllocator where
  versions : AList fun _ : ℕ ↦ ℕ
  repl : Bool
  currentBlock : Bytes
  currentFilled : Bool

/-- A block that `_allocate` hands out, with the version that it reports. -/
structure Handed where
  address : ℕ
  block : Bytes
  version : ℕ
  deriving DecidableEq

namespace VersionedAllocator

/-- A change of all but the versions. -/
def modify (s : VersionedAllocator) (f : SqliteAllocator → SqliteAllocator) : VersionedAllocator :=
  { s with toSqliteAllocator := f s.toSqliteAllocator }

/-- The version of a block in memory is noted before it leaves or is written. -/
def noteVersion (s : VersionedAllocator) (a : ℕ) : VersionedAllocator :=
  match s.allocations.lookup a with
  | some d => { s with versions := s.versions.insert a d.version }
  | none => s

variable (size : ℕ → ℤ)

/-- The first loop of `flush_back`, `transactional_storage.h:786–803`. -/
def collect (limit : ℤ) (release : Bool) :
    List ℕ → List ℕ → VersionedAllocator → List ℕ × VersionedAllocator
  | [], byAddress, s => (byAddress, s)
  | b :: blocks, byAddress, s =>
    if s.isModified b then collect limit release blocks (byAddress ++ [b]) s
    else if s.exceeds limit ∧ release then
      collect limit release blocks byAddress ((s.noteVersion b).modify (·.drop size b))
    else collect limit release blocks byAddress s

/-- A block is written to the table, `transactional_storage.h:829–833`. -/
def writeBlock (s : VersionedAllocator) (a : ℕ) : VersionedAllocator :=
  if s.localWrites then
    { (s.noteVersion a).modify (·.writeBlock a) with
      currentFilled := s.currentFilled || (s.allocations.lookup a).isSome }
  else s

/-- The second loop of `flush_back`, `transactional_storage.h:824–847`. -/
def writeBack (limit : ℤ) (release : Bool) : ℕ → List ℕ → VersionedAllocator → VersionedAllocator
  | _, [], s => s
  | mods, b :: blocks, s =>
    let s := s.writeBlock b
    let s := s.modify fun s ↦ if release then s.drop size b else s.reflectUse size b
    if mods - 1 = 0 ∧ s.exceeds limit = false then s
    else writeBack limit release (mods - 1) blocks s

/-- `flush_back`, `transactional_storage.h:759–857`. -/
def flushBack (factor : ℤ) (release : Bool) (s : VersionedAllocator) : VersionedAllocator :=
  let limit := s.use * factor
  let s := s.modify fun s ↦ s.allocations.keys.foldl (SqliteAllocator.reflectUse size) s
  let (byAddress, s) := collect size limit release s.byClock [] s
  if byAddress = [] ∧ s.exceeds limit = false then s
  else
    (writeBack size limit release byAddress.length (byAddress.insertionSort (· ≤ ·))
      (s.modify SqliteAllocator.beginTransaction)).modify SqliteAllocator.getSession

/-- `check_use`, `transactional_storage.h:860–876`. -/
def checkUse (depleted : Bool) (s : VersionedAllocator) : VersionedAllocator :=
  if depleted then (s.flushBack size 30 true).modify SqliteAllocator.getSession else s

/-- `version_off`, `transactional_storage.h:877–885`: the version of the allocator where that of
the block is known, and an entry where it is not. -/
def versionOff (s : VersionedAllocator) (which : ℕ) : ℕ × VersionedAllocator :=
  if (s.versions.lookup which).getD 0 = 0 then
    (0, { s with versions := s.versions.insert which 0 })
  else (s.version, s)

/-- `create_block`, `transactional_storage.h:895–906`, of a block that is handed out. -/
def createBlock (s : VersionedAllocator) (which : ℕ) (d : Descriptor) : VersionedAllocator :=
  { s with versions := s.versions.insert which d.version }.modify (·.hand size which d)

/-- `get_buffer`, `transactional_storage.h:666–706`, of an address other than zero. The version
that the replicants return goes to a variable of the call, which is then overwritten with the bytes
of `current_version`. None where there are none to copy: `rawContent` is null then, and the process
ends. -/
def getBuffer (s : VersionedAllocator) (reply : ReplicaRead) (w : ℕ) :
    Option (Bool × VersionedAllocator) :=
  if s.repl then
    match reply with
    | .failed => some (false, s)
    | .unset => if s.currentFilled then some (true, s) else none
    | .found b =>
      if s.currentFilled then some (true, { s with currentBlock := b.content }) else none
  else if s.isNew then some (false, s)
  else
    let result := s.toSqliteAllocator.getBuffer w
    some (result.1, { s with
      toSqliteAllocator := result.2
      currentBlock := if result.1 then result.2.encodedBlock else []
      currentFilled := (s.rows.lookup w).isSome })

/-- What `_allocate` hands out after `get_buffer`, `transactional_storage.h:956–977`. -/
def fromBuffer (which : ℕ) (how : StorageAction) :
    Bool × VersionedAllocator → Except Thrown (Option Handed) × VersionedAllocator
  | (false, s) => (.ok none, s)
  | (true, s) =>
    if s.readCache then
      (.ok (some ⟨which, s.currentBlock, s.currentVersion⟩),
        s.createBlock size which ⟨s.currentBlock, s.currentVersion, how, 0, 0⟩)
    else (.ok (some ⟨which, s.currentBlock, (s.versionOff which).1⟩), (s.versionOff which).2)

/-- `_allocate` from the search for the block on, `transactional_storage.h:950–1014`. -/
def findBlock (s : VersionedAllocator) (reply : ReplicaRead) (which : ℕ) (how : StorageAction) :
    Option (Except Thrown (Option Handed) × VersionedAllocator) :=
  if which = 0 then
    if how ≠ .create then some (.error .invalidStorageAction, s)
    else
      let s := s.modify fun s ↦ { s with next := (s.next + 1) % 2 ^ 64 }
      some (.ok (some ⟨s.next, [], s.version⟩),
        s.createBlock size s.next ⟨[], s.version, .create, 0, 0⟩)
  else match s.allocations.lookup which with
    | some d =>
      some (.ok (some ⟨which, d.block, d.version⟩),
        s.modify (·.hand size which (d.setStorageAction how)))
    | none =>
      if how = .create then
        some (.ok (some ⟨which, [], s.version⟩),
          (s.modify fun s ↦ { s with next := max which s.next }).createBlock size which
            ⟨[], s.version, .create, 0, 0⟩)
      else (s.getBuffer reply which).map (fromBuffer size which how)

/-- `allocate`, `transactional_storage.h:1643–1648`, none where the process ends. -/
def allocate (s : VersionedAllocator) (depleted : Bool) (reply : ReplicaRead) (which : ℕ)
    (how : StorageAction) : Option (Except Thrown (Option Handed) × VersionedAllocator) :=
  ((s.checkUse size depleted).modify fun s ↦
    if how = .read then s else { s with changes := s.changes + 1 }).findBlock size reply which how

/-- An allocator on the file of a storage. -/
def start (transient localWrites readCache : Bool) (version minimum current : ℕ)
    (file : Option Table) : VersionedAllocator where
  toSqliteAllocator :=
    SqliteAllocator.start transient localWrites readCache version minimum current file
  versions := ∅
  repl := false
  currentBlock := []
  currentFilled := false

/-! ### The allocator without versions -/

variable {size}

/-- A change of all but the versions, without the versions. -/
@[simp] theorem toSqliteAllocator_modify (s : VersionedAllocator)
    (f : SqliteAllocator → SqliteAllocator) :
    (s.modify f).toSqliteAllocator = f s.toSqliteAllocator := rfl

@[simp] private theorem repl_modify (s : VersionedAllocator)
    (f : SqliteAllocator → SqliteAllocator) :
    (s.modify f).repl = s.repl := rfl

@[simp] private theorem toSqliteAllocator_noteVersion (s : VersionedAllocator) (a : ℕ) :
    (s.noteVersion a).toSqliteAllocator = s.toSqliteAllocator := by
  unfold noteVersion
  split <;> rfl

@[simp] private theorem repl_noteVersion (s : VersionedAllocator) (a : ℕ) :
    (s.noteVersion a).repl = s.repl := by
  unfold noteVersion
  split <;> rfl

private theorem toSqliteAllocator_collect (limit : ℤ) (release : Bool) (blocks byAddress : List ℕ)
    (s : VersionedAllocator) :
    ((collect size limit release blocks byAddress s).1,
      (collect size limit release blocks byAddress s).2.toSqliteAllocator) =
      SqliteAllocator.collect size limit release blocks byAddress s.toSqliteAllocator := by
  induction blocks generalizing byAddress s with
  | nil => rfl
  | cons b blocks ih =>
    rw [collect, SqliteAllocator.collect]
    split
    · exact ih _ _
    · split
      · rw [ih, toSqliteAllocator_modify, toSqliteAllocator_noteVersion]
      · exact ih _ _

private theorem toSqliteAllocator_writeBlock (s : VersionedAllocator) (a : ℕ) :
    (s.writeBlock a).toSqliteAllocator = s.toSqliteAllocator.writeBlock a := by
  rw [writeBlock]
  split
  · change ((s.noteVersion a).modify (·.writeBlock a)).toSqliteAllocator = _
    rw [toSqliteAllocator_modify, toSqliteAllocator_noteVersion]
  · next hwrites => rw [SqliteAllocator.writeBlock, if_neg hwrites]

private theorem toSqliteAllocator_writeBack (limit : ℤ) (release : Bool) (mods : ℕ)
    (blocks : List ℕ) (s : VersionedAllocator) :
    (writeBack size limit release mods blocks s).toSqliteAllocator =
      SqliteAllocator.writeBack size limit release mods blocks s.toSqliteAllocator := by
  induction blocks generalizing mods s with
  | nil => rfl
  | cons b blocks ih =>
    have hwritten : ((s.writeBlock b).modify fun s ↦
        if release then s.drop size b else s.reflectUse size b).toSqliteAllocator =
        if release then (s.toSqliteAllocator.writeBlock b).drop size b
        else (s.toSqliteAllocator.writeBlock b).reflectUse size b := by
      rw [toSqliteAllocator_modify, toSqliteAllocator_writeBlock]
    rw [writeBack, SqliteAllocator.writeBack, ← hwritten]
    generalize ((s.writeBlock b).modify fun s ↦
      if release then s.drop size b else s.reflectUse size b) = s'
    split
    · rfl
    · exact ih _ _

private theorem toSqliteAllocator_flushBack (factor : ℤ) (release : Bool) (s : VersionedAllocator) :
    (s.flushBack size factor release).toSqliteAllocator =
      s.toSqliteAllocator.flushBack size factor release := by
  rw [flushBack, SqliteAllocator.flushBack]
  dsimp only
  rw [← toSqliteAllocator_modify s
    fun s ↦ s.allocations.keys.foldl (SqliteAllocator.reflectUse size) s]
  generalize (s.modify fun s ↦ s.allocations.keys.foldl (SqliteAllocator.reflectUse size) s) = s₁
  rw [← toSqliteAllocator_collect]
  split
  · rfl
  · rw [toSqliteAllocator_modify, toSqliteAllocator_writeBack, toSqliteAllocator_modify]

private theorem toSqliteAllocator_checkUse (depleted : Bool) (s : VersionedAllocator) :
    (s.checkUse size depleted).toSqliteAllocator = s.toSqliteAllocator.checkUse size depleted := by
  rw [checkUse, SqliteAllocator.checkUse]
  split
  · rw [toSqliteAllocator_modify, toSqliteAllocator_flushBack]
  · rfl

variable (size) in
private theorem repl_collect (limit : ℤ) (release : Bool) (blocks byAddress : List ℕ)
    (s : VersionedAllocator) :
    (collect size limit release blocks byAddress s).2.repl = s.repl := by
  induction blocks generalizing byAddress s with
  | nil => rfl
  | cons b blocks ih =>
    rw [collect]
    split
    · exact ih _ _
    · split
      · rw [ih, repl_modify, repl_noteVersion]
      · exact ih _ _

private theorem repl_writeBlock (s : VersionedAllocator) (a : ℕ) :
    (s.writeBlock a).repl = s.repl := by
  rw [writeBlock]
  split
  · change ((s.noteVersion a).modify (·.writeBlock a)).repl = _
    rw [repl_modify, repl_noteVersion]
  · rfl

private theorem repl_writeBack (limit : ℤ) (release : Bool) (mods : ℕ) (blocks : List ℕ)
    (s : VersionedAllocator) : (writeBack size limit release mods blocks s).repl = s.repl := by
  induction blocks generalizing mods s with
  | nil => rfl
  | cons b blocks ih =>
    have hwritten : ((s.writeBlock b).modify fun s ↦
        if release then s.drop size b else s.reflectUse size b).repl = s.repl := by
      rw [repl_modify, repl_writeBlock]
    rw [writeBack]
    generalize ((s.writeBlock b).modify fun s ↦
      if release then s.drop size b else s.reflectUse size b) = s' at hwritten ⊢
    split
    · exact hwritten
    · rw [ih, hwritten]

private theorem repl_flushBack (factor : ℤ) (release : Bool) (s : VersionedAllocator) :
    (s.flushBack size factor release).repl = s.repl := by
  rw [flushBack]
  dsimp only
  have hcollected := repl_collect size (s.use * factor) release
    (s.modify fun s ↦ s.allocations.keys.foldl (SqliteAllocator.reflectUse size) s).byClock []
    (s.modify fun s ↦ s.allocations.keys.foldl (SqliteAllocator.reflectUse size) s)
  rw [repl_modify] at hcollected
  split
  · exact hcollected
  · rw [repl_modify, repl_writeBack, repl_modify, hcollected]

variable (size) in
private theorem repl_checkUse (depleted : Bool) (s : VersionedAllocator) :
    (s.checkUse size depleted).repl = s.repl := by
  rw [checkUse]
  split
  · rw [repl_modify, repl_flushBack]
  · rfl

private theorem toSqliteAllocator_versionOff (s : VersionedAllocator) (which : ℕ) :
    (s.versionOff which).2.toSqliteAllocator = s.toSqliteAllocator := by
  rw [versionOff]
  split <;> rfl

/-- Without replicants a block comes from the table. -/
theorem getBuffer_local {s : VersionedAllocator} (hrepl : s.repl = false) (reply : ReplicaRead)
    (w : ℕ) : s.getBuffer reply w = if s.isNew then some (false, s) else
      some ((s.toSqliteAllocator.getBuffer w).1, { s with
        toSqliteAllocator := (s.toSqliteAllocator.getBuffer w).2
        currentBlock := if (s.toSqliteAllocator.getBuffer w).1 then
          (s.toSqliteAllocator.getBuffer w).2.encodedBlock else []
        currentFilled := (s.rows.lookup w).isSome }) := by
  unfold getBuffer
  rw [if_neg (Bool.eq_false_iff.1 hrepl)]

/-- The block that is handed out, without its version, and the allocator without versions. -/
def Handed.plain (result : Except Thrown (Option Handed) × VersionedAllocator) :
    Except Thrown (Option (ℕ × Bytes)) × SqliteAllocator :=
  (result.1.map (Option.map fun block ↦ (block.address, block.block)), result.2.toSqliteAllocator)

/-- Without replicants the allocator finds the blocks that it finds without its versions. -/
theorem toSqliteAllocator_findBlock (s : VersionedAllocator) (hrepl : s.repl = false)
    (reply : ReplicaRead) (which : ℕ) (how : StorageAction) :
    (s.findBlock size reply which how).map Handed.plain =
      some (s.toSqliteAllocator.findBlock size which how) := by
  rw [findBlock, SqliteAllocator.findBlock]
  by_cases hzero : which = 0
  · rw [if_pos hzero, if_pos hzero]
    split <;> rfl
  · rw [if_neg hzero, if_neg hzero]
    cases hlookup : s.allocations.lookup which with
    | some d => rfl
    | none =>
      by_cases hcreate : how = .create
      · simp only [if_pos hcreate]
        rfl
      · simp only [if_neg hcreate]
        rw [getBuffer_local hrepl]
        by_cases hnew : s.isNew = true
        · have hbuffer : s.toSqliteAllocator.getBuffer which = (false, s.toSqliteAllocator) := by
            rw [SqliteAllocator.getBuffer, if_pos hnew]
          rw [if_pos hnew, hbuffer]
          rfl
        · rw [if_neg hnew]
          generalize s.toSqliteAllocator.getBuffer which = result
          obtain ⟨found, t⟩ := result
          cases found with
          | false => rfl
          | true =>
            rw [Option.map_some, Option.map_some, fromBuffer]
            dsimp only
            by_cases hcache : t.readCache = true
            · rw [if_pos hcache, if_pos hcache]
              rfl
            · rw [if_neg hcache, if_neg hcache, Handed.plain, toSqliteAllocator_versionOff]
              rfl

/-- Without replicants the allocator hands out the blocks of the one without versions. -/
theorem toSqliteAllocator_allocate (s : VersionedAllocator) (hrepl : s.repl = false)
    (depleted : Bool) (reply : ReplicaRead) (which : ℕ) (how : StorageAction) :
    (s.allocate size depleted reply which how).map Handed.plain =
      some ((s.toSqliteAllocator.checkUse size depleted).allocateBlock size which how) := by
  have hkept : ((s.checkUse size depleted).modify fun s ↦
      if how = .read then s else { s with changes := s.changes + 1 }).repl = false :=
    (repl_checkUse size depleted s).trans hrepl
  rw [allocate, toSqliteAllocator_findBlock _ hkept, toSqliteAllocator_modify,
    toSqliteAllocator_checkUse]
  rfl

end VersionedAllocator

namespace SqliteAllocator

private theorem readCache_select (s : SqliteAllocator) (w : ℕ) :
    (s.select w).readCache = s.readCache := by
  rw [select]
  split <;> rfl

private theorem readCache_getSession (s : SqliteAllocator) :
    s.getSession.readCache = s.readCache := by
  rw [getSession]
  split <;> rfl

private theorem readCache_getBuffer (s : SqliteAllocator) (w : ℕ) :
    (s.getBuffer w).2.readCache = s.readCache := by
  rw [getBuffer]
  split
  · rfl
  · exact (readCache_select _ w).trans (readCache_getSession s)

end SqliteAllocator

namespace VersionedAllocator

variable {size : ℕ → ℤ}

/-! ### The versions of loads -/

/-- A call of `allocate`, with what the replicants answer, or the replication control is set. -/
inductive Load
  | allocate (size : ℕ → ℤ) (depleted : Bool) (reply : ReplicaRead) (which : ℕ)
    (how : StorageAction)
  | setReplicationControl (control : Bool)

/-- A call, with the block that it hands out; none where the process ends. -/
def step (s : VersionedAllocator) :
    Load → Option (Except Thrown (Option Handed) × VersionedAllocator)
  | .allocate size depleted reply which how => s.allocate size depleted reply which how
  | .setReplicationControl control => some (.ok none, { s with repl := control })

/-- The block is read into memory: it is not there and may be. -/
def Loads (s : VersionedAllocator) (which : ℕ) (how : StorageAction) : Prop :=
  which ≠ 0 ∧ how ≠ .create ∧ s.allocations.lookup which = none ∧ s.readCache = true

/-- The block as it is stored where it is read from. -/
def stored (s : VersionedAllocator) (reply : ReplicaRead) (which : ℕ) : Option Block :=
  if s.repl then
    match reply with
    | .found b => some b
    | .failed | .unset => none
  else if s.isNew then none
  else s.rows.lookup which

/-- A stored block that a call loads is handed out with the version it was stored with. -/
def ReportsStored (s : VersionedAllocator) : Load → Prop
  | .allocate size depleted reply which how =>
    (s.checkUse size depleted).Loads which how →
      ∀ b ∈ (s.checkUse size depleted).stored reply which, ∃ handed s',
        s.allocate size depleted reply which how = some (.ok (some handed), s') ∧
          handed.version = b.version
  | .setReplicationControl _ => True

/-- The version that the replicants return with a block is the one that the statements of the table
have left, and they have left one. -/
def LeftVersion (s : VersionedAllocator) : Load → Prop
  | .allocate size depleted reply which how =>
    (s.checkUse size depleted).Loads which how → s.repl = true →
      ∀ b, reply = .found b → (s.checkUse size depleted).currentFilled = true ∧
        (s.checkUse size depleted).currentVersion = b.version
  | .setReplicationControl _ => True

/-- Every call of a series has a property in the state that it is made in. -/
def Along (p : VersionedAllocator → Load → Prop) : VersionedAllocator → List Load → Prop
  | _, [] => True
  | s, x :: xs => p s x ∧ ∀ r ∈ s.step x, Along p r.2 xs

private theorem along_congr {p q : VersionedAllocator → Load → Prop} (h : ∀ s x, p s x ↔ q s x)
    (s : VersionedAllocator) (xs : List Load) : Along p s xs ↔ Along q s xs := by
  induction xs generalizing s with
  | nil => exact Iff.rfl
  | cons x xs ih => exact and_congr (h s x) (forall₂_congr fun r _ ↦ ih r.2)

private theorem readCache_getBuffer {s s' : VersionedAllocator} {reply : ReplicaRead} {w : ℕ}
    {found : Bool} (h : s.getBuffer reply w = some (found, s')) : s'.readCache = s.readCache := by
  cases hrepl : s.repl with
  | true =>
    unfold getBuffer at h
    rw [if_pos hrepl] at h
    cases reply with
    | failed =>
      cases h
      rfl
    | unset | found b =>
      dsimp only at h
      split at h <;> cases h
      rfl
  | false =>
    rw [getBuffer_local hrepl] at h
    split at h
    · cases h
      rfl
    · cases h
      exact SqliteAllocator.readCache_getBuffer _ w

variable (size) in
/-- A load hands out the block with the version that the statements have left. -/
theorem findBlock_of_loads {s s' : VersionedAllocator} {which : ℕ} {how : StorageAction}
    (h : s.Loads which how) {reply : ReplicaRead}
    (hbuffer : s.getBuffer reply which = some (true, s')) :
    s.findBlock size reply which how = some (.ok (some ⟨which, s'.currentBlock, s'.currentVersion⟩),
      s'.createBlock size which ⟨s'.currentBlock, s'.currentVersion, how, 0, 0⟩) := by
  obtain ⟨hzero, hcreate, hlookup, hcache⟩ := h
  have hkept : s'.readCache = true := (readCache_getBuffer hbuffer).trans hcache
  rw [findBlock, if_neg hzero, hlookup]
  simp only [if_neg hcreate]
  rw [hbuffer, Option.map_some, fromBuffer, if_pos hkept]

/-- Where the process ends, nothing is handed out. -/
theorem findBlock_of_none {s : VersionedAllocator} {which : ℕ} {how : StorageAction}
    (h : s.Loads which how) {reply : ReplicaRead} (hbuffer : s.getBuffer reply which = none) :
    s.findBlock size reply which how = none := by
  obtain ⟨hzero, hcreate, hlookup, -⟩ := h
  rw [findBlock, if_neg hzero, hlookup]
  simp only [if_neg hcreate]
  rw [hbuffer, Option.map_none]

/-- What the version is taken from: the row, where there are no replicants. -/
theorem getBuffer_row {s : VersionedAllocator} (hrepl : s.repl = false) (reply : ReplicaRead)
    {w : ℕ} {b : Block} (hb : s.stored reply w = some b) :
    ∃ s', s.getBuffer reply w = some (true, s') ∧ s'.currentVersion = b.version := by
  unfold stored at hb
  rw [if_neg (Bool.eq_false_iff.1 hrepl)] at hb
  rw [getBuffer_local hrepl]
  split at hb
  · cases hb
  · next hnew =>
    rw [if_neg hnew, SqliteAllocator.getBuffer_of_row (Bool.eq_false_iff.2 hnew) hb]
    exact ⟨_, rfl, rfl⟩

/-- What is read from the replicants leaves the version of the statements. -/
theorem getBuffer_replicants {s : VersionedAllocator} (hrepl : s.repl = true) (b : Block) (w : ℕ) :
    s.getBuffer (.found b) w = if s.currentFilled then
      some (true, { s with currentBlock := b.content }) else none := by
  unfold getBuffer
  rw [if_pos hrepl]

/-- A call reports the version that is stored if and only if the version is taken from the row, or
by chance the one that the replicants return. -/
theorem reportsStored_iff (s : VersionedAllocator) (x : Load) :
    s.ReportsStored x ↔ s.LeftVersion x := by
  cases x with
  | setReplicationControl control => exact Iff.rfl
  | allocate size depleted reply which how =>
    have hrepl := repl_checkUse size depleted s
    rw [ReportsStored, LeftVersion, allocate]
    generalize s.checkUse size depleted = s₁ at hrepl ⊢
    generalize hs₂ : (s₁.modify fun s ↦
      if how = .read then s else { s with changes := s.changes + 1 }) = s₂
    have hcounted : s₂.repl = s₁.repl ∧ s₂.currentVersion = s₁.currentVersion ∧
        s₂.currentFilled = s₁.currentFilled ∧ (s₁.Loads which how → s₂.Loads which how) ∧
        s₂.stored reply which = s₁.stored reply which := by
      rw [← hs₂]
      by_cases hread : how = .read
      · subst hread
        exact ⟨rfl, rfl, rfl, id, rfl⟩
      · dsimp only [modify]
        rw [if_neg hread]
        exact ⟨rfl, rfl, rfl, id, rfl⟩
    obtain ⟨hrepl₂, hversion₂, hfilled₂, hloads₂, hstored₂⟩ := hcounted
    rw [hrepl] at hrepl₂
    constructor
    · rintro h hloads hcontrol b rfl
      have hb : b ∈ s₁.stored (.found b) which := by
        rw [stored, if_pos (hrepl.trans hcontrol)]
        rfl
      obtain ⟨handed, s', hfound, hversion⟩ := h hloads b hb
      have hbuffer := getBuffer_replicants (hrepl₂.trans hcontrol) b which
      cases hfilled : s₂.currentFilled with
      | true =>
        rw [hfilled, if_pos rfl] at hbuffer
        rw [findBlock_of_loads size (hloads₂ hloads) hbuffer] at hfound
        cases hfound
        exact ⟨hfilled₂.symm.trans hfilled, hversion₂.symm.trans hversion⟩
      | false =>
        rw [hfilled, if_neg Bool.false_ne_true] at hbuffer
        rw [findBlock_of_none (hloads₂ hloads) hbuffer] at hfound
        cases hfound
    · intro h hloads b hb
      obtain ⟨s', hbuffer, hversion⟩ :
          ∃ s', s₂.getBuffer reply which = some (true, s') ∧ s'.currentVersion = b.version := by
        cases hcontrol : s.repl with
        | false => exact getBuffer_row (hrepl₂.trans hcontrol) reply (hstored₂.trans hb)
        | true =>
          unfold stored at hb
          rw [if_pos (hrepl.trans hcontrol)] at hb
          cases reply with
          | failed | unset => cases hb
          | found c =>
            cases hb
            obtain ⟨hfilled, hversion⟩ := h hloads hcontrol b rfl
            rw [getBuffer_replicants (hrepl₂.trans hcontrol), hfilled₂, hfilled, if_pos rfl]
            exact ⟨_, rfl, hversion₂.trans hversion⟩
      exact ⟨_, _, findBlock_of_loads size (hloads₂ hloads) hbuffer, hversion⟩

/-- In every series of calls from any state, all loads report the stored versions if and only if
the replicants never return another version than the one that the statements have left. Without
replicants the calls are those of the allocator with the read cache, the versions left out
(`toSqliteAllocator_allocate`). -/
theorem along_reportsStored_iff (s : VersionedAllocator) (xs : List Load) :
    Along ReportsStored s xs ↔ Along LeftVersion s xs :=
  along_congr reportsStored_iff s xs

/-- A block of version 5 is read from the table, then another one of version 3 from the replicants:
it is reported with version 5. And where the first block is read from the replicants, the process
ends. -/
theorem not_along_reportsStored :
    ¬Along ReportsStored (start false true true 1 32 0 (some ([⟨33, ⟨[1], 5⟩⟩] : List _).toAList))
      [.allocate (fun _ ↦ 1) false .failed 33 .read, .setReplicationControl true,
        .allocate (fun _ ↦ 1) false (.found ⟨[2], 3⟩) 34 .read] ∧
    ¬Along ReportsStored (start false true true 1 32 0 none)
      [.setReplicationControl true, .allocate (fun _ ↦ 1) false (.found ⟨[2], 3⟩) 34 .read] := by
  constructor
  · rintro ⟨-, h⟩
    obtain ⟨-, h⟩ := h _ rfl
    obtain ⟨h, -⟩ := h _ rfl
    obtain ⟨handed, s', hfound, hversion⟩ :=
      h ⟨by decide, by decide, by decide, by decide⟩ ⟨[2], 3⟩ rfl
    cases hfound
    exact absurd hversion (by decide)
  · rintro ⟨-, h⟩
    obtain ⟨h, -⟩ := h _ rfl
    obtain ⟨handed, s', hfound, -⟩ :=
      h ⟨by decide, by decide, by decide, by decide⟩ ⟨[2], 3⟩ rfl
    cases hfound

end VersionedAllocator

end LibSpaces.Transactions
