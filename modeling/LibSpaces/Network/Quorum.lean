import LibSpaces.Base.Transition
import LibSpaces.Network.Replicants
import LibSpaces.Transactions.Allocator

/-!
# Reads from replicants

Writers store their blocks at the replicants and let them commit, readers take the newest version
that enough replicants hold, `src/src/storage/network/replication.h:204–353`. Half of the
replicants, rounded down, is enough for either. The versions of the writers increase; a replicant
that is reached keeps what it is sent and answers with what it has committed.
-/

namespace LibSpaces.Network

open LibSpaces.Base LibSpaces.Transactions

/-- A replicant: the blocks of its open transaction, the last one stored first, and those that are
committed. -/
structure Replicant where
  pending : List (ℕ × Block)
  committed : ℕ → Option Block

namespace Replicant

/-- Blocks are stored until the transaction ends. -/
def store (r : Replicant) (blocks : List (ℕ × Block)) : Replicant :=
  { r with pending := blocks.reverse ++ r.pending }

/-- What was stored is given up. -/
def rollback (r : Replicant) : Replicant := { r with pending := [] }

/-- What was stored takes the place of what is committed. -/
def commit (r : Replicant) : Replicant where
  pending := []
  committed := fun a ↦ (r.pending.lookup a).or (r.committed a)

/-- The answer of `get` in a transaction, `src/src/storage/network/replication.cpp:44–63`: a block
that is not there is answered with the empty block and the null version. -/
def get (r : Replicant) (a : ℕ) : Block := (r.committed a).getD ⟨[], 0⟩

/-- The version that a replicant answers for a block. -/
def versionAt (r : Replicant) (a : ℕ) : ℕ := (r.get a).version

end Replicant

/-- An answer to `write_replicants` or `commit_replicants`. A replicant that raises has stored some
of the blocks. When too few have answered, the others are told to roll back, and may be. -/
structure EndReply extends Reply where
  stored : ℕ
  rolledBack : Bool

namespace EndReply

/-- What is written to a replicant. -/
def write (reply : EndReply) (blocks : List (ℕ × Block)) (failed : Bool) (r : Replicant) :
    Replicant :=
  if reply.isOpen then
    if reply.completed then
      if failed && reply.rolledBack then (r.store blocks).rollback else r.store blocks
    else r.store (blocks.take reply.stored)
  else r

/-- What a commit does to a replicant. -/
def commit (reply : EndReply) (failed : Bool) (r : Replicant) : Replicant :=
  if reply.answered then r.commit
  else if reply.isOpen && failed && reply.rolledBack then r.rollback
  else r

end EndReply

/-- A replicant that is open is rolled back, or raises. -/
def Reply.rollback (reply : Reply) (r : Replicant) : Replicant :=
  if reply.answered then r.rollback else r

/-- The replicants of one control, the newest version that was begun, the addresses that were
written for it, and the blocks with the versions for which both calls returned true. -/
structure Replication where
  replicants : List Replicant
  version : ℕ
  written : Option (List ℕ)
  acknowledged : List (ℕ × ℕ)

/-- The calls on the replicants, with their answers. -/
inductive ReplicationAction
  | begin (version : ℕ) (replies : List Reply)
  | write (blocks : List (ℕ × Bytes)) (replies : List EndReply)
  | commit (replies : List EndReply)
  | rollback (replies : List Reply)

namespace Replication

/-- Replicants that hold no block. -/
def start (n : ℕ) : Replication := ⟨List.replicate n ⟨[], fun _ ↦ none⟩, 0, none, []⟩

/-- `read_replicants`, `replication.h:276–318`: the answers of the replicants for an address. A
replicant that is not in a transaction answers false, which counts as little as an exception. -/
def responses (s : Replication) (replies : List Reply) (a : ℕ) : List Block :=
  (s.replicants.zip replies).filterMap fun r ↦ if r.2.answered then some (r.1.get a) else none

/-- `read_replicants`, `replication.h:276–318`: the newest version that enough replicants hold, as
the first of them has it. -/
def read (s : Replication) (replies : List Reply) (a : ℕ) : Option Block :=
  if s.replicants.isEmpty || !checkOpenReplicants replies then none
  else
    let blocks := s.responses replies a
    let held := (blocks.map Block.version).filter fun v ↦
      s.replicants.length / 2 ≤ blocks.countP fun b ↦ b.version = v
    held.max?.bind fun v ↦ blocks.find? fun b ↦ b.version = v

/-- The replicants after a request to all, which is not sent where too few are open. -/
def sent {ρ : Type} (s : Replication) (reply : ρ → Reply) (f : ρ → Replicant → Replicant)
    (replies : List ρ) : List Replicant :=
  if checkOpenReplicants (replies.map reply) then
    s.replicants.zipWith (fun r reply ↦ f reply r) replies
  else s.replicants

/-- The blocks that are acknowledged when the replicants were told to commit. -/
def acknowledging (s : Replication) (replies : List EndReply) : List (ℕ × ℕ) :=
  if commitReplicants (replies.map EndReply.toReply) then
    (s.written.getD []).map (fun a ↦ (a, s.version)) ++ s.acknowledged
  else s.acknowledged

/-- One call. A writer begins before it writes, with a version above all others, and each replicant
gives one answer. -/
def step (s : Replication) : ReplicationAction → Option Replication
  | .begin version replies =>
    if replies.length = s.replicants.length ∧ s.version < version then
      some { s with
        replicants := s.sent id Reply.rollback replies
        version := version
        written := none }
    else none
  | .write blocks replies =>
    if replies.length = s.replicants.length then
      let blocks := blocks.map fun b ↦ (b.1, ⟨b.2, s.version⟩)
      let ok := writeReplicants (replies.map EndReply.toReply)
      some { s with
        replicants := s.sent EndReply.toReply (fun reply ↦ reply.write blocks (!ok)) replies
        written := if ok then some (blocks.map Prod.fst) else none }
    else none
  | .commit replies =>
    if replies.length = s.replicants.length then
      let ok := commitReplicants (replies.map EndReply.toReply)
      some { s with
        replicants := s.sent EndReply.toReply (fun reply ↦ reply.commit (!ok)) replies
        written := none
        acknowledged := s.acknowledging replies }
    else none
  | .rollback replies =>
    if replies.length = s.replicants.length then
      some { s with replicants := s.sent id Reply.rollback replies, written := none }
    else none

/-- The number of replicants that is enough for a read of what they hold. -/
def enough (s : Replication) : ℕ := max 1 (s.replicants.length / 2)

/-- The replicants that are left with a version of a block after a commit: they do not commit and
answer with it, or commit it. A replicant without the block is left with the null version. -/
def leftWith (s : Replication) (replies : List EndReply) (a w : ℕ) : ℕ :=
  (s.replicants.zip replies).countP fun r ↦
    if r.2.answered && checkOpenReplicants (replies.map EndReply.toReply) then
      r.1.commit.versionAt a = w
    else r.1.versionAt a = w

/-- A commit leaves too few replicants for a read with any one older version of a block that is
acknowledged. -/
def FewLeft (s : Replication) : ReplicationAction → Prop
  | .commit replies => ∀ p ∈ s.acknowledging replies, ∀ w < p.2, s.leftWith replies p.1 w < s.enough
  | _ => True

instance (s : Replication) (a : ReplicationAction) : Decidable (s.FewLeft a) := by
  unfold FewLeft
  split <;> infer_instance

/-! ### What a request changes -/

private theorem countP_zipWith {α β γ : Type*} (f : α → β → γ) (p : γ → Bool) (l : List α)
    (r : List β) :
    (l.zipWith f r).countP p = (l.zip r).countP fun x ↦ p (f x.1 x.2) := by
  rw [← List.map_uncurry_zip_eq_zipWith, List.countP_map]
  rfl

private theorem countP_zip {α β : Type*} (p : α → Bool) (l : List α) (r : List β) :
    (l.zip r).countP (fun x ↦ p x.1) ≤ l.countP p := by
  induction l generalizing r with
  | nil => simp
  | cons x l ih =>
    cases r with
    | nil => simp
    | cons y r =>
      rw [List.zip_cons_cons, List.countP_cons, List.countP_cons]
      exact Nat.add_le_add_right (ih r) _

/-- Requests that do not commit leave the committed blocks. -/
theorem countP_sent {ρ : Type} (s : Replication) (reply : ρ → Reply) (f : ρ → Replicant → Replicant)
    (replies : List ρ) (hf : ∀ x r, (f x r).committed = r.committed) (a w : ℕ) :
    (s.sent reply f replies).countP (fun r ↦ r.versionAt a = w) ≤
      s.replicants.countP fun r ↦ r.versionAt a = w := by
  unfold sent
  split
  · rw [countP_zipWith]
    have hsame : ∀ x : Replicant × ρ, (f x.2 x.1).versionAt a = x.1.versionAt a := by
      intro x
      rw [Replicant.versionAt, Replicant.get, hf, Replicant.versionAt, Replicant.get]
    simp only [hsame]
    exact countP_zip (fun r ↦ decide (r.versionAt a = w)) s.replicants replies
  · exact le_rfl

private theorem length_sent {ρ : Type} (s : Replication) (reply : ρ → Reply)
    (f : ρ → Replicant → Replicant)
    (replies : List ρ) (hlength : replies.length = s.replicants.length) :
    (s.sent reply f replies).length = s.replicants.length := by
  unfold sent
  split
  · rw [List.length_zipWith, hlength, min_self]
  · rfl

private theorem committed_rollback (reply : Reply) (r : Replicant) :
    (reply.rollback r).committed = r.committed := by
  unfold Reply.rollback
  split <;> rfl

private theorem committed_write (reply : EndReply) (blocks : List (ℕ × Block)) (failed : Bool)
    (r : Replicant) : (reply.write blocks failed r).committed = r.committed := by
  unfold EndReply.write
  split
  · split
    · split <;> rfl
    · rfl
  · rfl

private theorem versionAt_commit (reply : EndReply) (failed : Bool) (r : Replicant) (a : ℕ) :
    (reply.commit failed r).versionAt a = if reply.answered then r.commit.versionAt a
      else r.versionAt a := by
  unfold EndReply.commit
  split
  · rfl
  · split <;> rfl

/-- What is left with a version after a commit. -/
theorem countP_commit (s : Replication) (replies : List EndReply)
    (hlength : replies.length = s.replicants.length) (failed : Bool) (a w : ℕ) :
    (s.sent EndReply.toReply (fun reply ↦ reply.commit failed) replies).countP
      (fun r ↦ r.versionAt a = w) = s.leftWith replies a w := by
  unfold sent leftWith
  split
  · next hopen =>
    rw [countP_zipWith]
    refine List.countP_congr fun x _ ↦ ?_
    dsimp only
    rw [hopen, Bool.and_true, versionAt_commit]
    split <;> rfl
  · next hopen =>
    have hopen : checkOpenReplicants (replies.map EndReply.toReply) = false :=
      Bool.eq_false_iff.2 hopen
    simp only [hopen, Bool.and_false, Bool.false_eq_true, if_false]
    have hmap : (s.replicants.zip replies).map Prod.fst = s.replicants :=
      List.map_fst_zip hlength.ge
    conv_lhs => rw [← hmap, List.countP_map]
    rfl

/-! ### Reads -/

/-- Too few replicants for a read hold an older version of a block that is acknowledged. -/
def Keeps (s : Replication) : Prop :=
  ∀ p ∈ s.acknowledged, ∀ w < p.2,
    (s.replicants.countP fun r ↦ r.versionAt p.1 = w) < s.enough

/-- A request that does not commit. -/
theorem Keeps.sent {s : Replication} (hk : s.Keeps) {ρ : Type} (reply : ρ → Reply)
    (f : ρ → Replicant → Replicant) (replies : List ρ)
    (hlength : replies.length = s.replicants.length)
    (hf : ∀ x r, (f x r).committed = r.committed) (version : ℕ) (written : Option (List ℕ)) :
    Keeps ⟨s.sent reply f replies, version, written, s.acknowledged⟩ := by
  intro p hp w hw
  rw [enough, length_sent s reply f replies hlength]
  exact (countP_sent s reply f replies hf p.1 w).trans_lt (hk p hp w hw)

private theorem keeps_step (s s' : Replication) (a : ReplicationAction) (hk : s.Keeps)
    (ha : s.FewLeft a) (hstep : s.step a = some s') : s'.Keeps := by
  cases a with
  | begin version replies =>
    rw [step] at hstep
    split at hstep
    · next h =>
      cases hstep
      exact hk.sent id Reply.rollback replies h.1 committed_rollback version none
    · cases hstep
  | write blocks replies =>
    rw [step] at hstep
    split at hstep
    · next h =>
      cases hstep
      exact hk.sent _ _ replies h (fun reply r ↦ committed_write reply _ _ r) _ _
    · cases hstep
  | commit replies =>
    rw [step] at hstep
    split at hstep
    · next h =>
      cases hstep
      intro p hp w hw
      rw [enough, length_sent s _ _ replies h, countP_commit s replies h]
      exact ha p hp w hw
    · cases hstep
  | rollback replies =>
    rw [step] at hstep
    split at hstep
    · next h =>
      cases hstep
      exact hk.sent id Reply.rollback replies h committed_rollback s.version none
    · cases hstep

/-- A writer writes a block through the replicants that can be reached. -/
def writer (version : ℕ) (content : Bytes) (replies : List EndReply) : List ReplicationAction :=
  [.begin version (replies.map EndReply.toReply), .write [(40, content)] replies, .commit replies]

end Replication

end LibSpaces.Network
