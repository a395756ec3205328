import LibSpaces.Base.Transition
import LibSpaces.Transactions.AbstractedStorage
import LibSpaces.Transactions.MergeDown

/-!
# The block server

`block_replication_server::run`, `src/src/storage/network/replication.cpp:30–196`: all connections
share one storage object, and the requests are handled one after the other. A `begin` rolls back
what is open on the object, whichever client has begun it, and a `store` goes to what is open.
-/

namespace LibSpaces.Network

open LibSpaces.Base LibSpaces.Transactions

/-- The object that the connections share, with the coordinator of its storage and the write
lock. -/
structure Server where
  storage : Option AbstractedStorage
  coordinator : Coordinator
  locked : Bool

/-- The requests, with what the coordinator is given, and whether the journal could be synched. -/
inductive Request
  | openStorage (version : ℕ) (replicated : Bool)
  | begin (write : Bool) (version : ℕ) (replicated : Bool)
  | store (address : ℕ) (data : Bytes)
  | commit (peers : Peers) (created : ℕ) (synched : Bool)
  | rollback
  | close

namespace Server

/-- A server over an initial storage. -/
def start (initial : Opening) : Server := ⟨none, .start initial, false⟩

/-- The object with the coordinator. -/
def session (s : Server) (x : AbstractedStorage) : Session := ⟨x, s.coordinator, s.locked⟩

/-- What a call on the object leaves. -/
def left (s : Session) : Server := ⟨some s.storage, s.coordinator, s.locked⟩

/-- `open`, `replication.cpp:33–37`. A new object begins to read, and where that throws there is
none. -/
def openStorage (s : Server) (version : ℕ) (replicated : Bool) : Option Server :=
  match s.storage with
  | some _ => some s
  | none =>
    ((s.session .closed).begin false version replicated false false).map fun r ↦
      match r.1 with
      | .ok _ => left r.2
      | .error _ => { left r.2 with storage := none }

/-- `begin` and `beginVersion`, `replication.cpp:91–108,120–137`. There is no reply while the
object waits for the write lock. -/
def begin (s : Server) (write : Bool) (version : ℕ) (replicated : Bool) : Option (Bool × Server) :=
  match s.storage with
  | none => some (false, s)
  | some x =>
    ((s.session x).begin write version replicated false false).map fun r ↦
      (decide (r.1 = .ok ()), left r.2)

/-- `store`, `replication.cpp:75–90`. A reply that is true comes with the address of the block. -/
def store (s : Server) (address : ℕ) (data : Bytes) : Option ℕ × Server :=
  match s.storage with
  | none => (none, s)
  | some x =>
    match x.transacted, x.transaction with
    | true, some t =>
      (match (s.coordinator.allocate t address .create).1 with
        | .ok block => block.map Prod.snd
        | .error _ => none,
      left ((s.session x).allocateAndWrite address .create (some data)))
    | _, _ => (none, s)

/-- `commit`, `replication.cpp:138–155`: what the object returns is not looked at. -/
def commit (s : Server) (peers : Peers) (created : ℕ) (synched : Bool) : Bool × Server :=
  match s.storage with
  | none => (false, s)
  | some x =>
    match (s.session x).commit peers created false with
    | (.ok _, r) => (synched, left r)
    | (.error _, r) => (false, left r)

/-- `rollback`, `replication.cpp:156–164`. -/
def rollback (s : Server) : Server :=
  match s.storage with
  | none => s
  | some x => left ((s.session x).rollback false).2

/-- `close`, `replication.cpp:185–188`: the object is destroyed. -/
def close (s : Server) : Server :=
  match s.storage with
  | none => s
  | some x => { left ((s.session x).close false).2 with storage := none }

end Server

/-- A commit request that returned true: what its client had stored since its own last `begin`, the
last block first, and the committed contents before and after. -/
structure Commitment where
  stored : List (ℕ × Bytes)
  before : ℕ → Option Bytes
  after : ℕ → Option Bytes

/-- The server, what each client has stored since its last `begin` that succeeded, the client whose
`begin` is open, and the commit requests that returned true. -/
structure ServerLog where
  server : Server
  stored : ℕ → List (ℕ × Bytes)
  owner : Option ℕ
  commits : List Commitment

namespace ServerLog

/-- A server on a storage, before any request. -/
def start (initial : Opening) : ServerLog := ⟨.start initial, fun _ ↦ [], none, []⟩

/-- What a request leaves: without a transaction that has begun none is owned. -/
def left (h : ServerLog) (s : Server) : ServerLog where
  server := s
  stored := h.stored
  owner := if s.storage.any AbstractedStorage.transacted then h.owner else none
  commits := h.commits

/-- A request of a client. Versions that are created are unique. -/
def step (h : ServerLog) : ℕ × Request → Option ServerLog
  | (_, .openStorage version replicated) =>
    if h.server.coordinator.IsFresh version then
      (h.server.openStorage version replicated).map fun s ↦ { h with server := s }
    else none
  | (c, .begin write version replicated) =>
    if h.server.coordinator.IsFresh version then
      (h.server.begin write version replicated).map fun r ↦
        if r.1 then
          { h with server := r.2, stored := Function.update h.stored c [], owner := some c }
        else h.left r.2
    else none
  | (c, .store address data) =>
    match h.server.store address data with
    | (some a, s) =>
      some { h with server := s, stored := Function.update h.stored c ((a, data) :: h.stored c) }
    | (none, s) => some { h with server := s }
  | (c, .commit peers created synched) =>
    if h.server.coordinator.IsFresh created then
      match h.server.commit peers created synched with
      | (true, s) => some { h.left s with
          commits := ⟨h.stored c, h.server.coordinator.content, s.coordinator.content⟩ ::
            h.commits }
      | (false, s) => some (h.left s)
    else none
  | (_, .rollback) => some (h.left h.server.rollback)
  | (_, .close) => some (h.left h.server.close)

/-- Each commit that returned true has committed what its client had stored, and nothing else. -/
def NothingLost (h : ServerLog) : Prop :=
  ∀ k ∈ h.commits, ∀ a, k.after a = (k.stored.lookup a).or (k.before a)

/-- The object has begun to write. -/
def Writing (h : ServerLog) : Prop := ∃ x ∈ h.server.storage, x.Writing

instance (h : ServerLog) : Decidable h.Writing :=
  inferInstanceAs (Decidable (∃ x ∈ h.server.storage, x.Writing))

/-- What a client has stored since its last `begin` is committed. -/
def Settled (h : ServerLog) (c : ℕ) : Prop :=
  ∀ e ∈ h.stored c, h.server.coordinator.content e.1 = (h.stored c).lookup e.1

instance (h : ServerLog) (c : ℕ) : Decidable (h.Settled c) :=
  inferInstanceAs (Decidable (∀ e ∈ h.stored c, _))

/-- While the object writes, only the client whose `begin` is open stores and commits; otherwise
only clients commit that have nothing to commit. No reading begins on a transaction that a commit
has kept, which writes. -/
def Separate (h : ServerLog) : ℕ × Request → Prop
  | (_, .begin write _ _) =>
    write = false → ∀ x ∈ h.server.storage, x.transaction = none ∨ x.transacted = true
  | (c, .store _ _) => h.Writing → h.owner = some c
  | (c, .commit _ _ _) =>
    if h.Writing then h.owner = some c else h.server.storage = none ∨ h.Settled c
  | _ => True

instance (h : ServerLog) (a : ℕ × Request) : Decidable (h.Separate a) := by
  unfold Separate
  split <;> infer_instance

end ServerLog

end LibSpaces.Network
