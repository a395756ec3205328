import LibSpaces.Transactions.Coordinator

/-!
# Storage objects

`abstracted_storage`, `src/src/storage/transactions/abstracted_storage.h:47–105,238–383`: an object
has at most one transaction on the coordinator of its storage, and takes the write lock of the
coordinator to write. The order of its transaction is kept as whether there is one, the orders of
a coordinator start at 1.
-/

namespace LibSpaces.Transactions

open LibSpaces.Base

/-- What a call throws: an exception of the coordinator, or one of what it rests on. -/
inductive StorageThrown
  | coordinator (e : Thrown)
  | fault
  deriving DecidableEq

/-- `abstracted_storage`, `abstracted_storage.h:47–75`: the transaction, whether it has begun on
this object and not ended, and whether the object writes. -/
structure AbstractedStorage where
  transaction : Option ℕ
  transacted : Bool
  writer : Bool
  deriving DecidableEq

namespace AbstractedStorage

/-- An object before its first begin and after `close`. -/
def closed : AbstractedStorage := ⟨none, false, false⟩

/-- The object has begun to write. -/
def Writing (x : AbstractedStorage) : Prop :=
  x.transaction ≠ none ∧ x.transacted = true ∧ x.writer = true

instance (x : AbstractedStorage) : Decidable x.Writing :=
  inferInstanceAs (Decidable (x.transaction ≠ none ∧ x.transacted = true ∧ x.writer = true))

end AbstractedStorage

/-- An object with the coordinator and its write lock. -/
structure Session where
  storage : AbstractedStorage
  coordinator : Coordinator
  locked : Bool

/-- What a call returns or throws, and what it leaves. -/
abbrev SessionOutcome (α : Type) := Except StorageThrown α × Session

namespace Session

/-- A call of the coordinator, which may throw for reasons of its own and is not made then. -/
def call {α : Type} (s : Session) (fault : Bool) (f : Coordinator → Outcome α) : SessionOutcome α :=
  if fault then (.error .fault, s)
  else match f s.coordinator with
    | (.error e, c) => (.error (.coordinator e), { s with coordinator := c })
    | (.ok x, c) => (.ok x, { s with coordinator := c })

/-- `rollback`, `abstracted_storage.h:349–358`. -/
def rollback (s : Session) (fault : Bool) : SessionOutcome Unit :=
  match s.storage.transaction, s.storage.transacted with
  | some t, true => match s.call fault fun c ↦ c.discard t with
    | (.error e, s) => (.error e, s)
    | (.ok _, s) =>
      (.ok (), { s with
        storage := .closed
        locked := if s.storage.writer then false else s.locked })
  | _, _ => (.ok (), { s with storage := { s.storage with transacted := false } })

/-- `get_transaction`, `abstracted_storage.h:86–94`, and the end of `begin`. -/
def getTransaction (s : Session) (writer : Bool) (version : ℕ) (replicated fault : Bool) :
    SessionOutcome Unit :=
  match s.storage.transaction with
  | some _ => (.ok (), { s with storage := { s.storage with transacted := true } })
  | none => match s.call fault fun c ↦ c.begin writer version replicated with
    | (.error e, s) => (.error e, s)
    | (.ok t, s) =>
      (.ok (), { s with storage := { s.storage with transaction := some t, transacted := true } })

/-- `begin`, `abstracted_storage.h:239–262`. There is no outcome while a writer waits for the write
lock. The transaction that is rolled back may be one fault, the begin of another one a second. -/
def begin (s : Session) (writer : Bool) (version : ℕ) (replicated fault fault' : Bool) :
    Option (SessionOutcome Unit) :=
  match s.rollback fault with
  | (.error e, s) => some (.error e, s)
  | (.ok _, s) =>
    let s := { s with storage := { s.storage with writer := writer } }
    if writer = true then
      if s.locked then none
      else some ({ s with locked := true }.getTransaction writer version replicated fault')
    else some (s.getTransaction writer version replicated fault')

/-- `commit`, `abstracted_storage.h:307–327`. -/
def commit (s : Session) (peers : Peers) (created : ℕ) (fault : Bool) : SessionOutcome Bool :=
  match s.storage.transaction with
  | some t =>
    if s.storage.writer then match s.call fault fun c ↦ c.merge t peers created with
      | (.error e, s) => (.error e, s)
      | (.ok _, s) =>
        (.ok true, { s with storage := { s.storage with transacted := false }, locked := false })
    else match s.call fault fun c ↦ c.commit t peers with
      | (.error e, s) => (.error e, s)
      | (.ok _, s) =>
        (.ok true, { s with
          storage := { s.storage with transaction := none, transacted := false } })
  | none => (.ok false, { s with storage := .closed })

/-- `close`, `abstracted_storage.h:369–383`. -/
def close (s : Session) (fault : Bool) : SessionOutcome Unit :=
  match s.storage.transaction with
  | some t => match s.call fault fun c ↦ c.discard t with
    | (.error e, s) => (.error e, s)
    | (.ok _, s) => (.ok (), { s with storage := .closed })
  | none => (.ok (), { s with storage := .closed })

/-- `allocate`, `abstracted_storage.h:397–401`, with what is written to the block. -/
def allocateAndWrite (s : Session) (which : ℕ) (how : StorageAction) (content : Option Bytes) :
    Session :=
  match s.storage.transaction with
  | some t => { s with coordinator := s.coordinator.allocateAndWrite t which how content }
  | none => s

end Session

end LibSpaces.Transactions
