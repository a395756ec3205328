import LibSpaces.Network.Acknowledgements
import LibSpaces.Transactions.ReaderCounts

/-!
# Merges of replicated storages

`merge`, `src/src/storage/transactions/transactional_storage.h:2997–3096`, sends its blocks to the
replicants and lets them commit before its own last checks. What a replicant returns for its
commit is not looked at, and half of the replicants is rounded down.
-/

namespace LibSpaces.Network

open LibSpaces.Base LibSpaces.Transactions

/-- What `merge` makes one replicant do: the answer to the blocks, whether the replicant has
stored all of them, and the answer to the commit, completed where the replicant commits. -/
structure MergeReply where
  write : Reply
  stored : Bool
  commit : Reply
  deriving DecidableEq

/-- What `merge` gets to know of the replicants and of the notified peers. -/
def peers (replies : List MergeReply) (notified : List (Option Bool)) : Peers where
  control := true
  writeReplicants := writeReplicants (replies.map MergeReply.write)
  commitReplicants := commitReplicants (replies.map MergeReply.commit)
  notifyChange := notifyChange notified

section Merge

variable (s : Coordinator) (t : ℕ) (replies : List MergeReply) (notified : List (Option Bool))

/-- The checks before the replicants are involved. -/
def Sends : Prop :=
  (s.versions t).readOnly = false ∧ s.writingTransaction = some t ∧
    s.lastCommittedVersion < (s.versions t).version

/-- The checks after the replicants have committed. -/
def Passes : Prop :=
  s.activeTransactions ≠ 0 ∧ ¬(0 < (s.versions t).changes ∧ (s.versions t).order < s.order) ∧
    notifyChange notified = true ∧ ∀ last ∈ s.storages.getLast?,
      Allocator.Movable (s.traversals 0) (s.versions t).toAllocator
        (s.versions last).toAllocator

instance : Decidable (Sends s t) := inferInstanceAs (Decidable (_ ∧ _))

instance : Decidable (Passes s t notified) := inferInstanceAs (Decidable (_ ∧ _))

variable (created : ℕ)

/-- Too few replicants can be opened for the blocks, or store them without an exception. -/
def FewWritten : Prop :=
  replies.countP (fun r ↦ r.write.opened) < replies.length / 2 ∨
    replies.countP (fun r ↦ r.write.answered) < replies.length / 2

/-- Too few replicants can be opened for the commit. -/
def FewOpened : Prop := replies.countP (fun r ↦ r.commit.opened) < replies.length / 2

/-- Too few replicants are still open when their turn to commit comes. -/
def FewOpen : Prop := replies.countP (fun r ↦ r.commit.isOpen) < replies.length / 2

/-- A replicant stores every block and carries out the commit. -/
def MergeReply.takesPart (r : MergeReply) : Bool :=
  r.write.answered && r.stored && r.commit.answered

/-- The merge ends before any replicant is asked to commit; or none carries the commit out and it
ends there or at the last checks; or it comes to its end, and the replicants that are open for the
commit are no miscount of those that take part. -/
def InStep : Prop :=
  (¬Sends s t ∨ FewWritten replies ∨ FewOpened replies) ∨
  (∀ r ∈ replies, r.commit.answered = false) ∧ (FewOpen replies ∨ ¬Passes s t notified) ∨
  ¬FewOpen replies ∧ Passes s t notified ∧
    ¬Miscounted replies.length (replies.countP MergeReply.takesPart)
      (replies.countP fun r ↦ r.commit.isOpen)

/-- How a replicant is reached for the blocks and for the commit. -/
def MergeReply.reach (r : MergeReply) : Reach × Reach :=
  (⟨r.write.opened, r.write.isOpen⟩, ⟨r.commit.opened, r.commit.isOpen⟩)

/-- Whatever the replicants that are reached answer: the merge ends before any of them is asked to
commit, or none is open for that, and it ends there or at the last checks. -/
def OutOfReach (reach : List (Reach × Reach)) : Prop :=
  reach = [] ∨ ¬Sends s t ∨ FewReached (reach.map Prod.fst) ∨
    (reach.map Prod.snd).countP Reach.opened < reach.length / 2 ∨
    (∀ r ∈ reach, r.2.isOpen = false) ∧ (1 < reach.length ∨ ¬Passes s t notified)

end Merge

variable {s : Coordinator} {t : ℕ}

/-- Out of reach, no answers get the merge out of step. -/
private theorem OutOfReach.inStep {replies : List MergeReply} {notified : List (Option Bool)}
    (h : OutOfReach s t notified (replies.map MergeReply.reach)) : InStep s t replies notified := by
  have hfst : ((replies.map MergeReply.reach).map Prod.fst).countP Reach.opened =
      replies.countP fun r ↦ r.write.opened := by rw [List.countP_map, List.countP_map]; rfl
  have hfst' : ((replies.map MergeReply.reach).map Prod.fst).countP Reach.isOpen =
      replies.countP fun r ↦ r.write.isOpen := by rw [List.countP_map, List.countP_map]; rfl
  have hsnd : ((replies.map MergeReply.reach).map Prod.snd).countP Reach.opened =
      replies.countP fun r ↦ r.commit.opened := by rw [List.countP_map, List.countP_map]; rfl
  have hanswered : (replies.countP fun r ↦ r.write.answered) ≤
      replies.countP fun r ↦ r.write.isOpen :=
    List.countP_mono_left fun r _ h ↦ (Bool.and_eq_true_iff.1 h).1
  rw [OutOfReach, FewReached, hfst, hfst', hsnd] at h
  simp only [List.length_map, List.map_eq_nil_iff, List.forall_mem_map] at h
  rcases h with rfl | hsends | hfew | hfew | ⟨hopen, hends⟩
  · by_cases hpasses : Passes s t notified
    · exact .inr (.inr ⟨Nat.not_lt_zero 0, hpasses, by unfold Miscounted; simp⟩)
    · exact .inr (.inl ⟨by simp, .inr hpasses⟩)
  · exact .inl (.inl hsends)
  · exact .inl (.inr (.inl (hfew.imp_right hanswered.trans_lt)))
  · exact .inl (.inr (.inr hfew))
  · refine .inr (.inl ⟨fun r hr ↦ ?_, hends.imp_left fun hlength ↦ ?_⟩)
    · rw [Reply.answered, show r.commit.isOpen = false from hopen r hr, Bool.false_and]
    · have hzero : (replies.countP fun r ↦ r.commit.isOpen) = 0 :=
        List.countP_eq_zero.2 fun r hr hisOpen ↦ by
          rw [show r.commit.isOpen = false from hopen r hr] at hisOpen
          cases hisOpen
      rw [FewOpen, hzero]
      omega

/-- A replicant that takes part to the end. -/
def MergeReply.whole : MergeReply := ⟨.reached, true, .reached⟩

/-- A replicant that cannot be reached. -/
def MergeReply.absent : MergeReply := ⟨.unreachable, false, .unreachable⟩

end LibSpaces.Network
