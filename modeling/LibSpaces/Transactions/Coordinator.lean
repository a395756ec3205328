import Mathlib.Data.Finset.Range
import Mathlib.Data.Finset.Filter
import Mathlib.Logic.Function.Basic
import LibSpaces.Transactions.Allocator

/-!
# The coordinator of the versions of a storage

`mvcc_coordinator` and the parts of `version_based_allocator` it works on,
`src/src/storage/transactions/transactional_storage.h:1880–2260,2475–2590,2785–3170`. The
version objects are numbered, a pointer to one is its number. A call that throws leaves what
it has changed until then, so every operation returns a state beside its result. Each call
holds the lock of the coordinator, an allocation until its completion.
-/

namespace LibSpaces.Transactions

open LibSpaces.Base

/-- The exceptions of the coordinator. `outOfRange` is what `at` of the map of versions throws
for a version it does not hold. -/
inductive Thrown
  | invalidStorageAction | invalidTransactionType | invalidWriterOrder | invalidVersion
  | invalidReaderCount | replicationFailure | writerConsistencyViolation | concurrentWriterError
  | outOfRange
  deriving DecidableEq

/-- `storage_action`. -/
inductive StorageAction
  | read | write | create
  deriving DecidableEq

/-- `version_based_allocator`, `transactional_storage.h:1898–1911`, with the blocks of its
allocator. -/
structure VersionStorage extends Allocator where
  order : ℕ
  readers : ℕ
  readOnly : Bool
  merged : Bool
  previous : Option ℕ

/-- An initial storage as it is opened, with what the coming moves find. -/
structure Opening extends Allocator where
  traversals : ℕ → Traversal

/-- All blocks stay in memory and are moved in the order of their addresses. -/
def Opening.plain (initial : Allocator) : Opening := ⟨initial, fun _ ↦ ⟨id, ∅⟩⟩

/-- `mvcc_coordinator`, `transactional_storage.h:2421–2464`. `versions` holds the version
objects below `size`; `storages` are the committed ones, the oldest first; the back of the
recycler is its head; `traversals` are what the coming moves find. -/
@[ext] structure Coordinator where
  versions : ℕ → VersionStorage
  size : ℕ
  storages : List ℕ
  storageVersions : ℕ → Option ℕ
  recycler : List ℕ
  order : ℕ
  activeTransactions : UInt32
  writingTransactions : UInt32
  writingTransaction : Option ℕ
  lastCommittedVersion : ℕ
  lastAddress : ℕ
  journalSynching : Bool
  traversals : ℕ → Traversal

/-- What a call returns or throws, and the state it leaves. -/
abbrev Outcome (α : Type) := Except Thrown α × Coordinator

/-- What the replication and the notified peers answer during a call. `control` tells whether
there is a replication control. -/
structure Peers where
  control : Bool
  writeReplicants : Bool
  commitReplicants : Bool
  notifyChange : Bool

namespace Coordinator

/-- The coordinator over an initial storage, `transactional_storage.h:2596–2619`. -/
def start (initial : Opening) : Coordinator where
  versions := fun _ ↦ ⟨initial.toAllocator, 1, 0, false, false, none⟩
  size := 1
  storages := [0]
  storageVersions := fun _ ↦ none
  recycler := []
  order := 1
  activeTransactions := 0
  writingTransactions := 0
  writingTransaction := none
  lastCommittedVersion := 0
  lastAddress := initial.next
  journalSynching := false
  traversals := initial.traversals

/-- A version object changes. -/
def setVersion (s : Coordinator) (v : ℕ) (x : VersionStorage) : Coordinator :=
  { s with versions := Function.update s.versions v x }

/-- `set_merged` and `clear_merged`. -/
def setMerged (s : Coordinator) (v : ℕ) (merged : Bool) : Coordinator :=
  s.setVersion v { s.versions v with merged := merged }

/-- The walk over `get_previous` from a pointer on, for a number of steps. -/
def chain (s : Coordinator) : ℕ → Option ℕ → List ℕ
  | 0, _ | _, none => []
  | n + 1, some v => v :: chain s n (s.versions v).previous

/-- The versions that a transaction is based on, the newest first. No walk over distinct
versions is longer than there are versions. -/
def bases (s : Coordinator) (t : ℕ) : List ℕ := s.chain s.size (s.versions t).previous

/-- `add_reader`, `transactional_storage.h:2062–2065`. -/
def addReader (s : Coordinator) (v : ℕ) : Coordinator :=
  s.setVersion v { s.versions v with readers := (s.versions v).readers + 1 }

/-- `remove_reader`, `transactional_storage.h:2068–2074`, of one version after the other. -/
def removeReaders : List ℕ → Coordinator → Outcome Unit
  | [], s => (.ok (), s)
  | v :: vs, s =>
    if (s.versions v).readers = 0 then (.error .invalidReaderCount, s)
    else removeReaders vs
      (s.setVersion v { s.versions v with readers := (s.versions v).readers - 1 })

/-- `version_based_allocator::move`, `transactional_storage.h:1972–1974`. -/
def move (s : Coordinator) (v dest : ℕ) : Outcome Unit :=
  let result := (s.versions v).toAllocator.move (s.traversals 0) (s.versions dest).toAllocator
  let s := { s with traversals := fun n ↦ s.traversals (n + 1) }
  let s := s.setVersion v { s.versions v with toAllocator := result.2.1 }
  let s := s.setVersion dest { s.versions dest with toAllocator := result.2.2 }
  if result.1 then (.ok (), s) else (.error .invalidVersion, s)

/-- The check at the start of `merge_down`, `transactional_storage.h:2487–2495`. -/
def checkOrder : ℕ → List ℕ → Coordinator → Outcome Unit
  | _, [], s => (.ok (), s)
  | version, c :: cs, s =>
    if (s.versions c).version ≤ version then (.error .invalidWriterOrder, s)
    else checkOrder (s.versions c).version cs (s.setMerged c false)

/-- `merge_down`, `transactional_storage.h:2506–2531`: each idle version is moved to the idle
version below it. -/
def mergeIdle : List ℕ → Coordinator → Outcome Unit
  | [], s => (.ok (), s)
  | [latest], s => (.ok (), s.setMerged latest false)
  | latest :: i :: idle, s =>
    if (s.versions latest).version ≤ (s.versions i).version then (.error .invalidWriterOrder, s)
    else if (s.versions i).readers ≠ 0 then (.error .invalidVersion, s)
    else match s.move latest i with
      | (.error e, s) => (.error e, s)
      | (.ok _, s) => mergeIdle (i :: idle) (s.setMerged latest true)

/-- The loop of `merge_down`, `transactional_storage.h:2497–2538`, from the newest version
down: idle versions are collected until one is in use. -/
def collectIdle : List ℕ → List ℕ → Coordinator → Outcome Unit
  | [], idle, s => mergeIdle idle s
  | c :: rest, idle, s =>
    if (s.versions c).readers = 0 then collectIdle rest (idle ++ [c]) s
    else match mergeIdle idle s with
      | (.error e, s) => (.error e, s)
      | (.ok _, s) => collectIdle rest [] s

/-- A merged version leaves the map and the chain, `transactional_storage.h:2547–2548`. -/
def forget (s : Coordinator) (c : ℕ) : Coordinator :=
  { s.setVersion c { s.versions c with previous := none } with
    storageVersions := Function.update s.storageVersions (s.versions c).version none }

/-- `merge_down`, `transactional_storage.h:2540–2564`: merged versions are forgotten, the
others kept. -/
def sweep : List ℕ → List ℕ → Coordinator → Outcome (List ℕ)
  | [], kept, s => (.ok kept, s)
  | c :: cs, kept, s =>
    if (s.versions c).merged then
      if (s.versions c).readers = 0 then
        sweep cs kept (s.forget c)
      else (.error .invalidVersion, s)
    else sweep cs (kept ++ [c]) s

/-- The last loop of `merge_down`, `transactional_storage.h:2567–2580`, which chains the
versions that were kept. -/
def relink : List ℕ → Option ℕ → List ℕ → Coordinator → Outcome Unit
  | _, _, [], s => (.ok (), s)
  | verify, prev, c :: cs, s =>
    if (s.versions c).version ∈ verify then (.error .invalidVersion, s)
    else
      let s := s.setVersion c { s.versions c with previous := prev }
      if ∃ p ∈ prev, (s.versions c).version ≤ (s.versions p).version then
        (.error .invalidWriterOrder, s)
      else relink ((s.versions c).version :: verify) (some c) cs s

/-- `merge_down`, `transactional_storage.h:2540–2584`: the committed versions are those that are
not merged. -/
def keepUnmerged (s : Coordinator) : Outcome Unit :=
  match sweep s.storages [] s with
  | (.error e, s) => (.error e, s)
  | (.ok kept, s) => match relink [] none kept { s with storages := kept } with
    | (.error e, s) => (.error e, s)
    | (.ok _, s) => if s.storages = [] then (.error .invalidVersion, s) else (.ok (), s)

/-- `merge_down`, `transactional_storage.h:2475–2590`. -/
def mergeDown (s : Coordinator) : Outcome Unit :=
  if s.journalSynching ∨ s.storages = [] then (.ok (), s)
  else match checkOrder 0 s.storages s with
    | (.error e, s) => (.error e, s)
    | (.ok _, s) => match collectIdle s.storages.reverse [] s with
      | (.error e, s) => (.error e, s)
      | (.ok _, s) => s.keepUnmerged

/-- A new version object with an allocator of its own, `transactional_storage.h:2815–2819`. -/
def newVersion (s : Coordinator) (version : ℕ) : Coordinator :=
  { s.setVersion s.size ⟨⟨version, max s.lastAddress 32, 0, ∅⟩, s.order, 0, false, false, none⟩ with
    size := s.size + 1 }

/-- The version object of `begin`, `transactional_storage.h:2813–2824`: readers take one from
the recycler where there is one. -/
def takeVersion (s : Coordinator) (writer : Bool) (version : ℕ) : ℕ × Coordinator :=
  match writer, s.recycler with
  | true, _ | false, [] => (s.size, s.newVersion version)
  | false, b :: rest => (b, { s with recycler := rest })

/-- The end of `begin`, `transactional_storage.h:2825–2850`. -/
def openVersion (s : Coordinator) (b : ℕ) (writer : Bool) : Outcome ℕ :=
  let s := s.setVersion b { s.versions b with readOnly := !writer }
  let s := { s with
    storageVersions := Function.update s.storageVersions (s.versions b).version (some b) }
  match s.storages.getLast? with
  | none => (.error .writerConsistencyViolation, s)
  | some last =>
    let s := s.setVersion b { s.versions b with previous := some last }
    let s := s.storages.foldl addReader s
    let s := { s with activeTransactions := s.activeTransactions + 1 }
    (.ok b, if writer then
      { s with writingTransactions := s.writingTransactions + 1, writingTransaction := some b }
      else s)

/-- `begin`, `transactional_storage.h:2790–2851`, with the version that `create_version` or the
caller gives, and whether the replicants could begin. -/
def begin (s : Coordinator) (writer : Bool) (version : ℕ) (replicated : Bool) : Outcome ℕ :=
  if replicated = false then (.error .replicationFailure, s)
  else if writer = true ∧ s.writingTransactions ≠ 0 then (.error .invalidWriterOrder, s)
  else (s.takeVersion writer version).2.openVersion (s.takeVersion writer version).1 writer

/-- `allocate`, `transactional_storage.h:2171–2249`, up to `complete`: the version and the
address of the block that the caller gets, or none for the end of the storage. -/
def allocate (s : Coordinator) (t which : ℕ) (how : StorageAction) :
    Outcome (Option (ℕ × ℕ)) :=
  let x := s.versions t
  if x.readOnly = true ∧ how ≠ .read then (.error .invalidStorageAction, s)
  else match how with
    | .create =>
      if which = 0 then
        (.ok (some (t, x.createNext.next)), s.setVersion t { x with toAllocator := x.createNext })
      else
        (.ok (some (t, which)), s.setVersion t { x with toAllocator := x.create which })
    | .read =>
      if which = 0 then (.error .invalidStorageAction, s)
      else if (x.block which).isSome then (.ok (some (t, which)), s)
      else match (s.bases t).find? fun v ↦ ((s.versions v).block which).isSome with
        | some v => (.ok (some (v, which)), s)
        | none => (.ok none, s)
    | .write =>
      let x := { x with changes := x.changes + 1 }
      let s := s.setVersion t x
      if which = 0 then (.error .invalidStorageAction, s)
      else if (x.block which).isSome then (.ok (some (t, which)), s)
      else match (s.bases t).findSome? fun v ↦ (s.versions v).block which with
        | some r =>
          (.ok (some (t, which)), s.setVersion t { x with
            toAllocator := (x.create which).setBlock which ⟨r.content, x.version⟩ })
        | none => (.ok none, s)

/-- `_allocate` to read, `transactional_storage.h:950–972`: the block is in memory from then on,
where the coming moves find it. -/
def load (s : Coordinator) (a : ℕ) : Coordinator :=
  { s with traversals := fun n ↦
      { s.traversals n with stored := (s.traversals n).stored.erase a } }

/-- The caller of `allocate` writes to the block it got. -/
def assign (s : Coordinator) (block : ℕ × ℕ) (content : Bytes) : Coordinator :=
  let x := s.versions block.1
  match x.block block.2 with
  | some b => s.setVersion block.1 { x with toAllocator := x.setBlock block.2 ⟨content, b.version⟩ }
  | none => s

/-- An allocation up to its completion, with what the caller may write to a block it did not
only want to read. -/
def allocateAndWrite (s : Coordinator) (t which : ℕ) (how : StorageAction)
    (content : Option Bytes) : Coordinator :=
  match s.allocate t which how, content with
  | (.ok (some block), s), some content => if how = .read then s else s.assign block content
  | (_, s), _ => s

/-- What a transaction reads at an address: the contents of the block that `allocate` returns,
none for the end of the storage and for address 0. -/
def read (s : Coordinator) (t a : ℕ) : Option Bytes :=
  match (s.allocate t a .read).1 with
  | .ok (some (v, a)) => ((s.versions v).block a).map Block.content
  | _ => none

/-- `discard`, `transactional_storage.h:3113–3170`. -/
def discard (s : Coordinator) (t : ℕ) : Outcome Unit :=
  let x := s.versions t
  let s := { s with
    writingTransactions :=
      if x.readOnly then s.writingTransactions else s.writingTransactions - 1
    activeTransactions := s.activeTransactions - 1 }
  if x.previous = none then (.error .invalidVersion, s)
  else
    let s := s.setVersion t { x with readOnly := true }
    match s.storageVersions x.version with
    | none => (.error .outOfRange, s)
    | some version =>
      if version ≠ t then (.error .invalidVersion, s)
      else match removeReaders (s.bases version) s with
        | (.error e, s) => (.error e, s)
        | (.ok _, s) =>
          (.ok (), { s with
            recycler := if x.readOnly then version :: s.recycler else s.recycler
            storageVersions := Function.update s.storageVersions x.version none })

/-- A transaction is discarded and the call throws, unless discarding it throws. -/
def discardThenThrow (s : Coordinator) (t : ℕ) (e : Thrown) : Outcome Unit :=
  match s.discard t with
  | (.error e, s) => (.error e, s)
  | (.ok _, s) => (.error e, s)

/-- `commit`, `transactional_storage.h:2906–2977`, up to where the version has joined the
committed ones. The version as the map has it is the one in `version`. -/
def commitVersion (s : Coordinator) (t : ℕ) (peers : Peers) : Outcome Unit :=
  let x := s.versions t
  if x.readOnly = true then (.error .invalidTransactionType, s)
  else if x.version ≤ s.lastCommittedVersion then
    (.error .invalidVersion, { s with lastCommittedVersion := 0 })
  else if s.activeTransactions = 0 then s.discardThenThrow t .invalidWriterOrder
  else if 0 < x.changes ∧ x.order < s.order then s.discardThenThrow t .invalidWriterOrder
  else match s.storageVersions x.version with
    | none => (.error .outOfRange, s)
    | some version =>
      if peers.control = true ∧ peers.writeReplicants = false then (.error .replicationFailure, s)
      else if peers.control = true ∧ peers.commitReplicants = true then
        (.error .replicationFailure, s)
      else
        let s := { s with
          activeTransactions := s.activeTransactions - 1
          writingTransactions := s.writingTransactions - 1
          lastAddress := max s.lastAddress (s.versions version).next }
        let s := s.setVersion version { s.versions version with readOnly := true }
        match (s.versions version).previous with
        | none => (.error .writerConsistencyViolation, s)
        | some prev =>
          if s.storages.getLast? ≠ some prev then (.error .concurrentWriterError, s)
          else match removeReaders (s.bases version) s with
            | (.error e, s) => (.error e, s)
            | (.ok _, s) =>
              (.ok (), { s with
                storages := s.storages ++ [version]
                lastCommittedVersion := x.version
                order := s.order + 1 })

/-- `commit`, `transactional_storage.h:2906–2986`. -/
def commit (s : Coordinator) (t : ℕ) (peers : Peers) : Outcome Unit :=
  match s.commitVersion t peers with
  | (.error e, s) => (.error e, s)
  | (.ok _, s) => s.mergeDown

/-- The end of `merge`, `transactional_storage.h:3078–3090`: the transaction gets the next order
and another version. -/
def renumber (s : Coordinator) (t version created : ℕ) : Coordinator :=
  let s := { s with
    order := s.order + 1
    storageVersions := Function.update s.storageVersions (s.versions version).version none }
  let s := s.setVersion t { s.versions t with order := s.order, version := created }
  { s with
    storageVersions :=
      Function.update s.storageVersions (s.versions version).version (some version) }

/-- `merge`, `transactional_storage.h:2997–3096`, with what `create_version` returns. -/
def merge (s : Coordinator) (t : ℕ) (peers : Peers) (created : ℕ) : Outcome Unit :=
  let x := s.versions t
  if x.readOnly = true then (.error .invalidTransactionType, s)
  else if s.writingTransaction ≠ some t then (.error .invalidWriterOrder, s)
  else if x.version ≤ s.lastCommittedVersion then
    (.error .invalidVersion, { s with lastCommittedVersion := 0 })
  else match s.storageVersions x.version with
    | none => (.error .outOfRange, s)
    | some version =>
      if peers.control = true ∧ peers.writeReplicants = false then (.error .replicationFailure, s)
      else if peers.control = true ∧ peers.commitReplicants = false then
        (.error .replicationFailure, s)
      else if s.activeTransactions = 0 then s.discardThenThrow t .invalidWriterOrder
      else if 0 < x.changes ∧ x.order < s.order then s.discardThenThrow t .invalidWriterOrder
      else
        let s := { s with lastAddress := max s.lastAddress (s.versions version).next }
        match (s.versions version).previous with
        | none => (.error .writerConsistencyViolation, s)
        | some prev =>
          if s.storages.getLast? ≠ some prev then (.error .concurrentWriterError, s)
          else if peers.notifyChange = false then (.error .replicationFailure, s)
          else match { s with lastCommittedVersion := x.version }.move version prev with
            | (.error e, s) => (.error e, s)
            | (.ok _, s) => (.ok (), s.renumber t version created)

/-- A transaction is open when the coordinator knows it and it is not committed. -/
def IsOpen (s : Coordinator) (t : ℕ) : Prop :=
  s.storageVersions (s.versions t).version = some t ∧ t ∉ s.storages

instance (s : Coordinator) : DecidablePred s.IsOpen := fun t ↦
  inferInstanceAs (Decidable (s.storageVersions (s.versions t).version = some t ∧ t ∉ s.storages))

/-- The open transactions. -/
def transactions (s : Coordinator) : Finset ℕ := (Finset.range s.size).filter s.IsOpen

/-- The open writing transactions. -/
def writers (s : Coordinator) : Finset ℕ :=
  s.transactions.filter fun t ↦ (s.versions t).readOnly = false

/-- No version object carries this version. -/
def IsFresh (s : Coordinator) (version : ℕ) : Prop := ∀ v < s.size, (s.versions v).version ≠ version

instance (s : Coordinator) : DecidablePred s.IsFresh := fun version ↦
  inferInstanceAs (Decidable (∀ v < s.size, (s.versions v).version ≠ version))

end Coordinator

/-- The calls on the coordinator. An allocation may come with what the caller writes to the
block before it completes the allocation. -/
inductive CoordinatorAction
  | begin (writer : Bool) (version : ℕ) (replicated : Bool)
  | allocate (t which : ℕ) (how : StorageAction) (content : Option Bytes)
  | merge (t : ℕ) (peers : Peers) (created : ℕ)
  | commit (t : ℕ) (peers : Peers)
  | discard (t : ℕ)
  | journalSynching (on : Bool)

/-- One call, whether it returns or throws. Callers name open transactions, and versions that
are created are unique. -/
def Coordinator.step (s : Coordinator) : CoordinatorAction → Option Coordinator
  | .begin writer version replicated =>
    if s.IsFresh version then some (s.begin writer version replicated).2 else none
  | .allocate t which how content =>
    if t ∈ s.transactions then some (s.allocateAndWrite t which how content) else none
  | .merge t peers created =>
    if t ∈ s.transactions ∧ s.IsFresh created then some (s.merge t peers created).2 else none
  | .commit t peers => if t ∈ s.transactions then some (s.commit t peers).2 else none
  | .discard t => if t ∈ s.transactions then some (s.discard t).2 else none
  | .journalSynching on => some { s with journalSynching := on }

end LibSpaces.Transactions
