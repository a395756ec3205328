import LibSpaces.Transactions.MergeDown

/-!
# Replication on the two commit paths

`commit` and `merge` of `mvcc_coordinator` send a version to the replicants and then let them
commit, `src/src/storage/transactions/transactional_storage.h:2945–2952,3024–3031`. `merge` throws
where `commit_replicants` is false, `commit` where it is true. `merge` also notifies the peers
(`:3067`), `commit` does not.
-/

namespace LibSpaces.Transactions

/-- Either result of the replicants is false. -/
def Peers.Refuse (peers : Peers) : Prop :=
  peers.control = true ∧ (peers.writeReplicants = false ∨ peers.commitReplicants = false)

namespace Coordinator

variable {s : Coordinator} {t : ℕ}

/-- The checks that `commit` and `merge` make on the coordinator alone. -/
structure LocalChecks (s : Coordinator) (t : ℕ) : Prop where
  writer : (s.versions t).readOnly = false
  writing : s.writingTransaction = some t
  version : s.lastCommittedVersion < (s.versions t).version
  active : s.activeTransactions ≠ 0
  order : ¬ (0 < (s.versions t).changes ∧ (s.versions t).order < s.order)
  current : ∃ version prev, s.storageVersions (s.versions t).version = some version ∧
    (s.versions version).previous = some prev ∧ s.storages.getLast? = some prev

/-- Both paths throw for the replicants where one of these refuses. -/
structure RepliesAlike (s : Coordinator) (t : ℕ) (peers : Peers) (created : ℕ) : Prop where
  commit : (s.commit t peers).1 = .error .replicationFailure ↔ peers.Refuse
  merge : (s.merge t peers created).1 = .error .replicationFailure ↔ peers.Refuse

private theorem removeReaders_throws {l : List ℕ} {s : Coordinator} {e : Thrown}
    (h : (removeReaders l s).1 = .error e) : e = .invalidReaderCount := by
  induction l generalizing s with
  | nil => cases h
  | cons v vs ih =>
    rw [removeReaders] at h
    split at h
    · exact (Except.error.inj h).symm
    · exact ih h

/-- `commit` takes the success of `commit_replicants` for a failure. -/
theorem commit_replicationFailure_iff (h : s.LocalChecks t) (peers : Peers) :
    (s.commit t peers).1 = .error .replicationFailure ↔
      peers.control = true ∧ (peers.writeReplicants = false ∨ peers.commitReplicants = true) := by
  obtain ⟨version, prev, hversion, hprevious, hlast⟩ := h.current
  rw [commit, commitVersion]
  simp only [h.writer, Bool.false_eq_true, Nat.not_le.2 h.version, h.active, h.order, hversion,
    if_false]
  by_cases hwrite : peers.control = true ∧ peers.writeReplicants = false
  · rw [if_pos hwrite]
    exact iff_of_true rfl ⟨hwrite.1, .inl hwrite.2⟩
  rw [if_neg hwrite]
  by_cases hcommit : peers.control = true ∧ peers.commitReplicants = true
  · rw [if_pos hcommit]
    exact iff_of_true rfl ⟨hcommit.1, .inr hcommit.2⟩
  rw [if_neg hcommit]
  refine iff_of_false (fun hthrows ↦ ?_) fun hrefuse ↦
    hrefuse.2.elim (fun hw ↦ hwrite ⟨hrefuse.1, hw⟩) fun hc ↦ hcommit ⟨hrefuse.1, hc⟩
  -- behind the replicants the transaction is checked and idle versions are merged
  split at hthrows
  · next hresult =>
    cases hthrows
    split at hresult
    · cases hresult
    split at hresult
    · cases hresult
    split at hresult
    · next hremove =>
      cases hresult
      cases removeReaders_throws (congrArg Prod.fst hremove)
    · cases hresult
  · rcases mergeDown_throws hthrows with he | he <;> cases he

/-- `merge` throws where the replicants refuse, and where the peers are not notified. -/
theorem merge_replicationFailure_iff (h : s.LocalChecks t) (peers : Peers) (created : ℕ) :
    (s.merge t peers created).1 = .error .replicationFailure ↔
      peers.Refuse ∨ peers.notifyChange = false := by
  obtain ⟨version, prev, hversion, hprevious, hlast⟩ := h.current
  rw [merge]
  simp only [h.writer, Bool.false_eq_true, h.writing, Nat.not_le.2 h.version, h.active, h.order,
    hversion, hprevious, hlast, ne_eq, not_true_eq_false, if_false]
  by_cases hwrite : peers.control = true ∧ peers.writeReplicants = false
  · rw [if_pos hwrite]
    exact iff_of_true rfl (.inl ⟨hwrite.1, .inl hwrite.2⟩)
  rw [if_neg hwrite]
  by_cases hcommit : peers.control = true ∧ peers.commitReplicants = false
  · rw [if_pos hcommit]
    exact iff_of_true rfl (.inl ⟨hcommit.1, .inr hcommit.2⟩)
  rw [if_neg hcommit]
  have hrefuse : ¬ peers.Refuse := fun hr ↦
    hr.2.elim (fun hw ↦ hwrite ⟨hr.1, hw⟩) fun hc ↦ hcommit ⟨hr.1, hc⟩
  by_cases hnotify : peers.notifyChange = false
  · rw [if_pos hnotify]
    exact iff_of_true rfl (.inr hnotify)
  rw [if_neg hnotify]
  refine iff_of_false (fun hthrows ↦ ?_) (not_or.2 ⟨hrefuse, hnotify⟩)
  split at hthrows
  · next hmove =>
    cases hthrows
    cases move_throws (congrArg Prod.fst hmove)
  · cases hthrows

/-- With replicants both paths are alike where the first call to these already fails, without them
where the peers are notified. -/
theorem repliesAlike_iff (h : s.LocalChecks t) (peers : Peers) (created : ℕ) :
    RepliesAlike s t peers created ↔
      if peers.control then peers.writeReplicants = false else peers.notifyChange = true := by
  have hcommit := commit_replicationFailure_iff h peers
  have hmerge := merge_replicationFailure_iff h peers created
  obtain ⟨control, write, commit, notify⟩ := peers
  constructor
  · rintro ⟨hc, hm⟩
    rw [hcommit] at hc
    rw [hmerge] at hm
    cases control <;> cases write <;> cases commit <;> cases notify <;>
      simp_all [Peers.Refuse]
  · intro hcondition
    refine ⟨hcommit.trans ?_, hmerge.trans ?_⟩ <;>
      cases control <;> cases write <;> cases commit <;> cases notify <;>
        simp_all [Peers.Refuse]

/-- A writing transaction on a new storage. -/
def writerBegun : Coordinator := ((start (.plain ⟨1, 32, 0, ∅⟩)).begin true 5 true).2

private theorem localChecks_writerBegun : writerBegun.LocalChecks 1 :=
  ⟨by decide, by decide, by decide, by decide, by decide, 1, 0, by decide⟩

/-- Both paths are refused by replicants that could not write. -/
theorem repliesAlike_iff_unwritten : RepliesAlike writerBegun 1 ⟨true, false, true, true⟩ 6 :=
  (repliesAlike_iff localChecks_writerBegun ⟨true, false, true, true⟩ 6).2 rfl

/-- Where all replicants could write and commit, `commit` throws and `merge` returns. -/
theorem not_repliesAlike_committed :
    (writerBegun.commit 1 ⟨true, true, true, true⟩).1 = .error .replicationFailure ∧
      (writerBegun.merge 1 ⟨true, true, true, true⟩ 6).1 = .ok () ∧
      ¬ ∀ (s : Coordinator) (t : ℕ) (peers : Peers) (created : ℕ), s.LocalChecks t →
        RepliesAlike s t peers created := by
  refine ⟨by decide +kernel, by decide +kernel, fun hall ↦ ?_⟩
  have hcommit : (writerBegun.commit 1 ⟨true, true, true, true⟩).1 = .error .replicationFailure :=
    by decide +kernel
  rcases ((hall _ 1 _ 6 localChecks_writerBegun).commit.1 hcommit).2 with hr | hr <;> cases hr

end Coordinator

end LibSpaces.Transactions
