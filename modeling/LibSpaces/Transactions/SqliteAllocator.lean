import Mathlib.Data.List.Sort
import Mathlib.Data.Int.Notation
import LibSpaces.Transactions.Coordinator

/-!
# The blocks in memory and in the table

`sqlite_allocator` without replicants, `src/src/storage/transactions/transactional_storage.h:
318–1014,1427–1842`: the blocks that are held in memory, the rows of its table, and how blocks are
written, dropped and loaded again. The capacities of the vectors are not known here: `size` gives
what `get_block_use` returns for the block at an address. The fraction of the use that a flush
leaves is taken in hundredths.
-/

namespace LibSpaces.Transactions

open LibSpaces.Base

/-- `block_descriptor`, `transactional_storage.h:334–395`. -/
structure Descriptor where
  block : Bytes
  version : ℕ
  mod : StorageAction
  clock : ℕ
  use : ℤ

/-- The rows of the table of blocks, by address. -/
abbrev Table := AList fun _ : ℕ ↦ Block

/-- `sqlite_allocator`, `transactional_storage.h:405–478,537–554`. `rows` are the rows that the
session reads, `committed` those that a rollback of the session returns to; the result variables
of the statements are kept between them. -/
structure SqliteAllocator where
  transient : Bool
  localWrites : Bool
  readCache : Bool
  version : ℕ
  next : ℕ
  changes : ℕ
  allocations : AList fun _ : ℕ ↦ Descriptor
  clock : ℕ
  use : ℤ
  isNew : Bool
  session : Bool
  transacted : Bool
  rows : Table
  committed : Table
  currentAddress : ℕ
  currentVersion : ℕ
  encodedBlock : Bytes

/-- `set_storage_action`, `transactional_storage.h:366–371`. -/
def Descriptor.setStorageAction (d : Descriptor) (action : StorageAction) : Descriptor :=
  if d.mod = .read then { d with mod := action } else d

namespace SqliteAllocator

/-- `SELECT max(a1)`. -/
def maxAddress (rows : Table) : ℕ := rows.keys.foldr max 0

/-- `get_session`, `transactional_storage.h:583–613`, with `create_statements`. -/
def getSession (s : SqliteAllocator) : SqliteAllocator :=
  if s.session then s
  else { s with session := true, isNew := false, next := max (maxAddress s.rows) s.next }

/-- `_begin`, `transactional_storage.h:1750–1756`. -/
def beginTransaction (s : SqliteAllocator) : SqliteAllocator :=
  if s.transacted then s else { s.getSession with transacted := true }

/-- `add_buffer`, `transactional_storage.h:616–638`. -/
def addBuffer (s : SqliteAllocator) (w version : ℕ) (block : Bytes) : SqliteAllocator :=
  { s with
    currentAddress := w
    currentVersion := version
    encodedBlock := block
    rows := s.rows.insert w ⟨block, version⟩ }

/-- The statement of `get_buffer`: the result variables are set where there is a row. -/
def select (s : SqliteAllocator) (w : ℕ) : SqliteAllocator :=
  match s.rows.lookup w with
  | some row =>
    { s with currentAddress := w, currentVersion := row.version, encodedBlock := row.content }
  | none => s

/-- `get_buffer`, `transactional_storage.h:666–706`: whether a row was retrieved. -/
def getBuffer (s : SqliteAllocator) (w : ℕ) : Bool × SqliteAllocator :=
  if s.isNew then (false, s)
  else
    let s := { s.getSession with currentVersion := 0 }.select w
    (s.currentAddress = w, s)

variable (size : ℕ → ℤ)

/-- `up_use(reflect_block_use(…))`, `transactional_storage.h:490–496,738–741`. -/
def reflectUse (s : SqliteAllocator) (a : ℕ) : SqliteAllocator :=
  match s.allocations.lookup a with
  | some d =>
    { s with
      use := s.use + (size a - d.use)
      allocations := s.allocations.insert a { d with use := size a } }
  | none => s

/-- A block leaves the memory, `transactional_storage.h:788–793,837–841`. -/
def drop (s : SqliteAllocator) (a : ℕ) : SqliteAllocator :=
  let s := s.reflectUse size a
  { s with allocations := s.allocations.erase a, use := s.use - size a }

/-- `is_modified`. -/
def isModified (s : SqliteAllocator) (a : ℕ) : Bool :=
  match s.allocations.lookup a with
  | some d => d.mod ≠ .read
  | none => false

/-- `get_use() > before*factor`. -/
def exceeds (s : SqliteAllocator) (limit : ℤ) : Bool := limit < s.use * 100

/-- The first loop of `flush_back`, `transactional_storage.h:779–797`: the blocks to write, and
what is left once others were dropped. -/
def collect (limit : ℤ) (release : Bool) :
    List ℕ → List ℕ → SqliteAllocator → List ℕ × SqliteAllocator
  | [], byAddress, s => (byAddress, s)
  | b :: blocks, byAddress, s =>
    if s.isModified b then collect limit release blocks (byAddress ++ [b]) s
    else if s.exceeds limit ∧ release then collect limit release blocks byAddress (s.drop size b)
    else collect limit release blocks byAddress s

/-- A block is written to the table, `transactional_storage.h:827–831`. -/
def writeBlock (s : SqliteAllocator) (a : ℕ) : SqliteAllocator :=
  if s.localWrites then
    match s.allocations.lookup a with
    | some d =>
      { s.addBuffer a d.version d.block with
        allocations := s.allocations.insert a { d with mod := .read } }
    | none => s
  else s

/-- The second loop of `flush_back`, `transactional_storage.h:824–847`. -/
def writeBack (limit : ℤ) (release : Bool) : ℕ → List ℕ → SqliteAllocator → SqliteAllocator
  | _, [], s => s
  | mods, b :: blocks, s =>
    let s := s.writeBlock b
    let s := if release then s.drop size b else s.reflectUse size b
    if mods - 1 = 0 ∧ s.exceeds limit = false then s
    else writeBack limit release (mods - 1) blocks s

/-- The addresses of the blocks in memory in the order of their clocks. -/
def byClock (s : SqliteAllocator) : List ℕ :=
  (s.allocations.entries.insertionSort fun a b ↦ a.2.clock ≤ b.2.clock).map Sigma.fst

/-- `flush_back`, `transactional_storage.h:753–857`. -/
def flushBack (factor : ℤ) (release : Bool) (s : SqliteAllocator) : SqliteAllocator :=
  let limit := s.use * factor
  let s := s.allocations.keys.foldl (reflectUse size) s
  let (byAddress, s) := collect size limit release s.byClock [] s
  if byAddress = [] ∧ s.exceeds limit = false then s
  else
    (writeBack size limit release byAddress.length (byAddress.insertionSort (· ≤ ·))
      s.beginTransaction).getSession

/-- `check_use`, `transactional_storage.h:860–878`, where the memory may be nearly used up. -/
def checkUse (depleted : Bool) (s : SqliteAllocator) : SqliteAllocator :=
  if depleted then (s.flushBack size 30 true).getSession else s

/-- The end of `_allocate`, `transactional_storage.h:1008–1013`. -/
def hand (s : SqliteAllocator) (a : ℕ) (d : Descriptor) : SqliteAllocator :=
  { s with
    clock := (s.clock + 1) % 2 ^ 32
    allocations := s.allocations.insert a { d with clock := (s.clock + 1) % 2 ^ 32 } }.reflectUse
      size a

/-- `_allocate` from the search for the block on, `transactional_storage.h:950–1014`: the address
and the bytes of the block, or none for the end of the storage. -/
def findBlock (s : SqliteAllocator) (which : ℕ) (how : StorageAction) :
    Except Thrown (Option (ℕ × Bytes)) × SqliteAllocator :=
  if which = 0 then
    if how ≠ .create then (.error .invalidStorageAction, s)
    else
      let s := { s with next := (s.next + 1) % 2 ^ 64 }
      (.ok (some (s.next, [])), s.hand size s.next ⟨[], s.version, .create, 0, 0⟩)
  else match s.allocations.lookup which with
    | some d => (.ok (some (which, d.block)), s.hand size which (d.setStorageAction how))
    | none =>
      if how = .create then
        (.ok (some (which, [])),
          { s with next := max which s.next }.hand size which ⟨[], s.version, .create, 0, 0⟩)
      else match s.getBuffer which with
        | (false, s) => (.ok none, s)
        | (true, s) =>
          (.ok (some (which, s.encodedBlock)),
            if s.readCache then s.hand size which ⟨s.encodedBlock, s.currentVersion, how, 0, 0⟩
            else s)

/-- `_allocate`, `transactional_storage.h:938–1014`. -/
def allocateBlock (s : SqliteAllocator) (which : ℕ) (how : StorageAction) :
    Except Thrown (Option (ℕ × Bytes)) × SqliteAllocator :=
  (if how = .read then s else { s with changes := s.changes + 1 }).findBlock size which how

/-- The caller writes to a block it got. -/
def assign (s : SqliteAllocator) (a : ℕ) (content : Option Bytes) : SqliteAllocator :=
  match s.allocations.lookup a, content with
  | some d, some content =>
    { s with allocations := s.allocations.insert a { d with block := content } }
  | _, _ => s

/-- `allocate`, `transactional_storage.h:1643–1648`, up to `complete`, with what the caller may
write to a block it did not only want to read. The sizes may be others once it has written. -/
def access (sizeAfter : ℕ → ℤ) (s : SqliteAllocator) (depleted : Bool) (which : ℕ)
    (how : StorageAction) (content : Option Bytes) :
    Except Thrown (Option (ℕ × Bytes)) × SqliteAllocator :=
  match (s.checkUse size depleted).allocateBlock size which how with
  | (.ok (some (a, block)), s) =>
    (.ok (some (a, block)), (if how = .read then s else s.assign a content).reflectUse sizeAfter a)
  | (.ok none, s) => (.ok none, s)
  | (.error e, s) => (.error e, s)

/-- `commit`, `transactional_storage.h:1760–1784`. -/
def commit (s : SqliteAllocator) : SqliteAllocator :=
  if s.transacted then
    let s := s.flushBack size 80 false
    { s with committed := s.rows, transacted := false }
  else s

/-- `flush`, `transactional_storage.h:1798–1804`. -/
def flush (s : SqliteAllocator) : SqliteAllocator :=
  if s.transient then s else (s.flushBack size 85 false).getSession

/-- `reduce`, `transactional_storage.h:1844–1854`. -/
def reduce (s : SqliteAllocator) : SqliteAllocator :=
  if s.transient ∨ s.version ≠ 0 then s
  else if 1024 * 1024 < s.use then (s.flushBack size 45 true).getSession
  else s.getSession

/-- `rollback`, `transactional_storage.h:1807–1842`. -/
def rollback (s : SqliteAllocator) : SqliteAllocator :=
  let s := { s.allocations.keys.foldl (drop size) s with allocations := ∅, changes := 0 }
  if s.session then
    let s := { s with
      rows := if s.transacted then s.committed else s.rows
      session := false
      transacted := false }
    if s.transient then { s with rows := ∅, committed := ∅, isNew := true } else s
  else { s with transacted := false }

/-- The constructor on the file of a storage, where there is one,
`transactional_storage.h:1427–1477`. The result variable of the address is not initialised. -/
def start (transient localWrites readCache : Bool) (version minimum current : ℕ)
    (file : Option Table) : SqliteAllocator :=
  let s : SqliteAllocator :=
    { transient := transient
      localWrites := localWrites
      readCache := readCache
      version := version
      next := minimum
      changes := 0
      allocations := ∅
      clock := 0
      use := 0
      isNew := file.isNone
      session := false
      transacted := false
      rows := file.getD ∅
      committed := file.getD ∅
      currentAddress := current
      currentVersion := 0
      encodedBlock := [] }
  if s.isNew then s else s.getSession

/-- What the users of the allocator do, with the sizes of the blocks at the time. -/
inductive Step
  | access (size sizeAfter : ℕ → ℤ) (depleted : Bool) (which : ℕ) (how : StorageAction)
    (content : Option Bytes)
  | beginNew
  | commit (size : ℕ → ℤ)
  | flush (size : ℕ → ℤ)
  | reduce (size : ℕ → ℤ)
  | rollback (size : ℕ → ℤ)

/-- What the caller looks at in a block that it has not created. -/
def seen (how : StorageAction) (result : Except Thrown (Option (ℕ × Bytes))) :
    Except Thrown (Option (ℕ × Bytes)) :=
  if how = .create then result.map (Option.map fun block ↦ (block.1, [])) else result

/-- A step, with what is seen of an access. -/
def step (s : SqliteAllocator) :
    Step → Option (Except Thrown (Option (ℕ × Bytes))) × SqliteAllocator
  | .access size sizeAfter depleted which how content =>
    let result := s.access size sizeAfter depleted which how content
    (some (seen how result.1), result.2)
  | .beginNew => (none, s.beginTransaction)
  | .commit size => (none, s.commit size)
  | .flush size => (none, s.flush size)
  | .reduce size => (none, s.reduce size)
  | .rollback size => (none, s.rollback size)

/-- A series of steps, with what is seen of each access. -/
def run : SqliteAllocator → List Step →
    List (Option (Except Thrown (Option (ℕ × Bytes)))) × SqliteAllocator
  | s, [] => ([], s)
  | s, x :: xs => ((s.step x).1 :: (run (s.step x).2 xs).1, (run (s.step x).2 xs).2)

end SqliteAllocator

end LibSpaces.Transactions
