import LibSpaces.Transactions.FailedCommit

/-!
# Reader counts

`begin` counts a reader up over the list of the committed versions, `commit` and `discard` count
it down along the pointers, and `merge_down` changes both, `src/src/storage/transactions/
transactional_storage.h:2475–2590,2826–2850,2954–2980,3126–3164`.
-/

namespace LibSpaces.Transactions

open LibSpaces.Base

/-- A call, or idle versions are merged on their own, `make_singular`. -/
inductive MaintenanceAction
  | call (a : CoordinatorAction)
  | mergeDown

namespace Coordinator

/-- One call or one merge of idle versions. -/
def maintain (s : Coordinator) : MaintenanceAction → Option Coordinator
  | .call a => s.step a
  | .mergeDown => some s.mergeDown.2

/-- A call and a merge of idle versions keep the invariant. -/
theorem inv_maintain {s s' : Coordinator} {a : MaintenanceAction} (h : s.Inv)
    (hstep : s.maintain a = some s') : s'.Inv := by
  cases a with
  | call a => exact inv_step s s' a h hstep
  | mergeDown =>
    cases hstep
    exact (mergeDown_spec h).1.inv

/-- Every state that is reached with merges of idle versions keeps the invariant. -/
theorem inv_of_maintained {initial : Opening}
    {allowed : Coordinator → MaintenanceAction → Prop} {s : Coordinator}
    (hs : Reached maintain allowed (start initial) s) : s.Inv :=
  hs.invariant Inv (inv_start initial) fun _ _ _ h _ hstep ↦ inv_maintain h hstep

/-- A version below another one is seen by all who see that. -/
theorem Inv.pairwise_bases {s : Coordinator} (h : s.Inv) {t : ℕ} (ht : t ∈ s.transactions) :
    s.storages.Pairwise fun u v ↦ v ∈ s.bases t → u ∈ s.bases t := by
  obtain ⟨upper, hupper⟩ := (h.bases ht).1
  have hsplit : s.storages = (s.bases t).reverse ++ upper.reverse := by
    rw [← List.reverse_append, hupper, List.reverse_reverse]
  have hnodup := List.nodup_append.mp (hsplit ▸ h.nodup)
  rw [hsplit, List.pairwise_append]
  refine ⟨?_, ?_, fun u hu v _ _ ↦ List.mem_reverse.mp hu⟩
  · exact List.pairwise_of_forall_mem_list fun u hu v _ _ ↦ List.mem_reverse.mp hu
  · refine List.pairwise_of_forall_mem_list fun u _ v hv hin ↦ ?_
    exact absurd rfl (hnodup.2.2 v (List.mem_reverse.mpr hin) v hv)

/-- An older version has no fewer readers. -/
theorem Inv.pairwise_readers {s : Coordinator} (h : s.Inv) :
    s.storages.Pairwise fun u v ↦ (s.versions v).readers ≤ (s.versions u).readers := by
  rw [List.pairwise_iff_forall_sublist]
  intro u v huv
  rw [h.readers, h.readers]
  refine Finset.card_le_card fun t ht ↦ ?_
  obtain ⟨hopen, hv⟩ := Finset.mem_filter.mp ht
  have hu := List.pairwise_iff_forall_sublist.mp (h.pairwise_bases hopen) huv hv
  exact Finset.mem_filter.mpr ⟨hopen, hu⟩

/-! ### Merging does not remove readers -/

/-- Ending a transaction removes readers that are there. -/
theorem call_throws {s : Coordinator} (h : s.Inv) {t : ℕ} (ht : t ∈ s.transactions) (c : EndCall) :
    (s.call t c).1 ≠ .error .invalidReaderCount := by
  cases c with
  | commit peers =>
    rw [call, commit]
    rcases commitVersion_cases h ht peers with ⟨-, e, s', hresult, -, hne⟩ | ⟨-, hresult⟩
    · rw [hresult]
      exact fun he ↦ hne (Except.error.inj he)
    · rw [hresult]
      exact fun he ↦ by rcases mergeDown_throws he with he | he <;> cases he
  | merge peers created =>
    rw [call]
    rcases merge_cases h ht peers created with
      ⟨-, e, s', hresult, -, hne, -⟩ | ⟨-, -, last, -, hresult⟩
    · rw [hresult]
      exact fun he ↦ hne (Except.error.inj he)
    · rw [hresult]
      split
      · next e s' hmove =>
        have hthrown := move_throws (congrArg Prod.fst hmove)
        exact fun he ↦ by cases hthrown.symm.trans (Except.error.inj he)
      · exact fun he ↦ by cases he

/-- The counts of the committed versions, and what follows from them. -/
structure ReadersMatch (s : Coordinator) : Prop where
  count : ∀ v ∈ s.storages,
    (s.versions v).readers = (s.transactions.filter fun t ↦ v ∈ s.bases t).card
  nonincreasing : s.storages.Pairwise fun u v ↦ (s.versions v).readers ≤ (s.versions u).readers
  discard : ∀ t ∈ s.transactions, (s.discard t).1 = .ok ()
  call : ∀ t ∈ s.transactions, ∀ c, (s.call t c).1 ≠ .error .invalidReaderCount
  mergeDown : ∀ t ∈ s.transactions, s.mergeDown.2.bases t = s.bases t ∧
    ∀ v ∈ s.bases t, v ∈ s.mergeDown.2.storages ∧
      (s.mergeDown.2.versions v).toAllocator = (s.versions v).toAllocator

/-- In every state that is reached the readers of a version are the open transactions that are
based on it, so that no reader is missed and no version in use merged away. -/
theorem readersMatch_of_maintained {initial : Opening} {s : Coordinator}
    (hs : Reached maintain (fun _ _ ↦ True) (start initial) s) : s.ReadersMatch := by
  have h := inv_of_maintained hs
  obtain ⟨hmerged, -⟩ := mergeDown_spec h
  constructor
  case count => exact fun v _ ↦ h.readers v
  case nonincreasing => exact h.pairwise_readers
  case discard => exact fun t ht ↦ congrArg Prod.fst (discard_eq h ht)
  case call => exact fun t ht c ↦ call_throws h ht c
  case mergeDown =>
    intro t ht
    have hbases := hmerged.bases t ht
    refine ⟨hbases, fun v hv ↦ ⟨?_, hmerged.allocator v (.inr (h.readers_pos ht hv).ne')⟩⟩
    exact mem_storages_of_mem_bases hmerged.inv (hmerged.transactions.symm ▸ ht) (hbases.symm ▸ hv)

/-- Two readers over two versions, and a writer. -/
def overlappingReaders : List MaintenanceAction :=
  [.call (.begin false 5 true), .call (.begin true 6 true),
    .call (.allocate 2 0 .create (some [1])), .call (.commit 2 alone),
    .call (.begin false 7 true), .call (.begin true 8 true), .mergeDown]

/-- Readers that overlap each other and a commit. -/
theorem readersMatch_of_maintained_overlapping :
    ∃ s, runAllowed maintain (fun _ _ ↦ True) (start (.plain ⟨1, 32, 0, ∅⟩)) overlappingReaders =
        some s ∧
      s.storages.map (fun v ↦ (s.versions v).readers) = [3, 2] ∧ s.ReadersMatch := by
  have hrun : (runAllowed maintain (fun _ _ ↦ True) (start (.plain ⟨1, 32, 0, ∅⟩))
      overlappingReaders).map (fun s ↦ s.storages.map fun v ↦ (s.versions v).readers) =
        some [3, 2] := by decide +kernel
  obtain ⟨s, hs, hvalue⟩ := Option.map_eq_some_iff.mp hrun
  exact ⟨s, hs, hvalue, readersMatch_of_maintained (reached_of_runAllowed .start hs)⟩

end Coordinator

end LibSpaces.Transactions
