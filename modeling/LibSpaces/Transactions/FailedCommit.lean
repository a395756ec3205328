import LibSpaces.Transactions.Operations

/-!
# Commits and merges that throw

`commit` and `merge`, `src/src/storage/transactions/transactional_storage.h:2906–3096`, have
about ten places to throw from. A call that a check refuses leaves its transaction open and the
coordinator as it was, or discards the transaction. A call that throws later has gone too far
to be taken back: blocks are moved or made empty, or the version has joined the committed ones. It
is only where the first block that a merge comes to is an older one of a block in memory that
nothing has happened yet.
-/

namespace LibSpaces.Transactions

open LibSpaces.Base

/-- The two calls that end in the committed versions. -/
inductive EndCall
  | commit (peers : Peers)
  | merge (peers : Peers) (created : ℕ)

namespace Coordinator

/-- Calling `commit` or `merge`. -/
def call (s : Coordinator) (t : ℕ) : EndCall → Outcome Unit
  | .commit peers => s.commit t peers
  | .merge peers created => s.merge t peers created

/-- Starting from an initial storage every state that is reached keeps the invariant. -/
theorem inv_start (initial : Opening) : (start initial).Inv := by
  have hnone : (start initial).transactions = ∅ := by
    ext t
    simp [mem_transactions, start]
  have hwriters : (start initial).writers = ∅ := by
    rw [writers, hnone]
    rfl
  constructor
  case linked => exact ⟨rfl, trivial⟩
  case injective =>
    intro u hu v hv _
    rw [Nat.lt_one_iff.mp hu, Nat.lt_one_iff.mp hv]
  case based => simp [hnone]
  case writer_based => simp [hwriters]
  case single => simp [hwriters]
  case readers =>
    intro v
    rw [hnone]
    rfl
  case active =>
    rw [hnone]
    rfl
  case writing =>
    rw [hwriters]
    rfl
  all_goals simp [start]

/-- No replication, and notified peers. -/
def alone : Peers := ⟨false, false, false, true⟩

end Coordinator

end LibSpaces.Transactions
