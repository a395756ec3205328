import LibSpaces.Transactions.FailedCommit
import LibSpaces.Transactions.Marks

/-!
# The order of the committed versions

`commit` and `merge`, `src/src/storage/transactions/transactional_storage.h:2906–3096`, compare
the version of the transaction with the last committed one. Where the check fails it sets the
last committed version back before it throws, so that a second try passes. The versions that
callers give to `begin` are arbitrary here, also such that another version object has.
-/

namespace LibSpaces.Transactions

open LibSpaces.Base

/-- The coordinator and the versions of the transactions whose `merge` or `commit` returned, the
last one first. -/
structure CommitLog where
  coordinator : Coordinator
  returned : List ℕ

namespace CommitLog

/-- The coordinator over an initial storage. -/
def start (initial : Opening) : CommitLog := ⟨.start initial, []⟩

/-- The log after `merge` or `commit` of a transaction. -/
def ended (h : CommitLog) (t : ℕ) (result : Outcome Unit) : CommitLog where
  coordinator := result.2
  returned := match result.1 with
    | .ok _ => (h.coordinator.versions t).version :: h.returned
    | .error _ => h.returned

/-- One call on any version object there is, whether it returns or throws. -/
def step (h : CommitLog) : CoordinatorAction → Option CommitLog
  | .begin writer version replicated =>
    some { h with coordinator := (h.coordinator.begin writer version replicated).2 }
  | .allocate t which how content =>
    if t < h.coordinator.size then
      some { h with coordinator := h.coordinator.allocateAndWrite t which how content }
    else none
  | .merge t peers created =>
    if t < h.coordinator.size then some (h.ended t (h.coordinator.merge t peers created)) else none
  | .commit t peers =>
    if t < h.coordinator.size then some (h.ended t (h.coordinator.commit t peers)) else none
  | .discard t =>
    if t < h.coordinator.size then some { h with coordinator := (h.coordinator.discard t).2 }
    else none
  | .journalSynching on =>
    some { h with coordinator := { h.coordinator with journalSynching := on } }

/-- The call does not set the last committed version back. -/
def Forward (h : CommitLog) : CoordinatorAction → Prop
  | .merge t _ _ =>
    (h.coordinator.versions t).readOnly = true ∨ h.coordinator.writingTransaction ≠ some t ∨
      h.coordinator.lastCommittedVersion < (h.coordinator.versions t).version
  | .commit t _ =>
    (h.coordinator.versions t).readOnly = true ∨
      h.coordinator.lastCommittedVersion < (h.coordinator.versions t).version
  | _ => True

instance (h : CommitLog) (a : CoordinatorAction) : Decidable (h.Forward a) := by
  unfold Forward
  split <;> infer_instance

/-- The versions that were returned increase. -/
def Increasing (h : CommitLog) : Prop := h.returned.Pairwise fun u v ↦ v < u

end CommitLog

namespace Coordinator

/-! ### What the calls return -/

/-- A call returns for a version above the last committed one, which it becomes. Where it throws
it sets that back only for a version that is not above it. -/
structure MovesOn (s : Coordinator) (t : ℕ) (r : Outcome Unit) : Prop where
  newer : r.1 = .ok () → s.lastCommittedVersion < (s.versions t).version ∧
    r.2.lastCommittedVersion = (s.versions t).version
  le : s.lastCommittedVersion < (s.versions t).version →
    s.lastCommittedVersion ≤ r.2.lastCommittedVersion

/-- A call that throws and keeps the last committed version, or has set it to its version. -/
theorem movesOn_throw {s : Coordinator} {t : ℕ} {r : Outcome Unit} (hthrows : r.1 ≠ .ok ())
    (hlast : r.2.lastCommittedVersion = s.lastCommittedVersion ∨
      r.2.lastCommittedVersion = (s.versions t).version) : MovesOn s t r where
  newer := fun hok ↦ absurd hok hthrows
  le := fun hlt ↦ by
    rcases hlast with h | h
    · exact h.ge
    · exact h ▸ hlt.le

private theorem movesOn_discardThenThrow (s : Coordinator) (t : ℕ) (e : Thrown) :
    MovesOn s t (s.discardThenThrow t e) := by
  obtain ⟨hthrows, hmarks⟩ := discardThenThrow_marks s t e
  exact movesOn_throw hthrows (.inl (congrArg Marks.lastCommittedVersion hmarks))

/-- A check that is passed, or the call throws. -/
theorem movesOn_check {s : Coordinator} {t : ℕ} {c : Prop} [Decidable c] {r r' : Outcome Unit}
    (hthrows : c → MovesOn s t r) (hpassed : ¬c → MovesOn s t r') :
    MovesOn s t (if c then r else r') := by
  by_cases hc : c
  · rw [if_pos hc]
    exact hthrows hc
  · rw [if_neg hc]
    exact hpassed hc

private theorem movesOn_commitVersion (s : Coordinator) (t : ℕ) (peers : Peers) :
    MovesOn s t (s.commitVersion t peers) := by
  unfold commitVersion
  dsimp only
  refine movesOn_check (fun _ ↦ movesOn_throw nofun (.inl rfl)) fun _ ↦ ?_
  refine movesOn_check (fun hold ↦ ⟨nofun, fun hlt ↦ absurd hold (Nat.not_le.2 hlt)⟩) fun hnew ↦ ?_
  refine movesOn_check (fun _ ↦ movesOn_discardThenThrow s t _) fun _ ↦ ?_
  refine movesOn_check (fun _ ↦ movesOn_discardThenThrow s t _) fun _ ↦ ?_
  cases s.storageVersions (s.versions t).version with
  | none => exact movesOn_throw nofun (.inl rfl)
  | some version =>
    refine movesOn_check (fun _ ↦ movesOn_throw nofun (.inl rfl)) fun _ ↦ ?_
    refine movesOn_check (fun _ ↦ movesOn_throw nofun (.inl rfl)) fun _ ↦ ?_
    split
    · exact movesOn_throw nofun (.inl rfl)
    · refine movesOn_check (fun _ ↦ movesOn_throw nofun (.inl rfl)) fun _ ↦ ?_
      split
      · next hresult =>
        have hlast := congrArg Marks.lastCommittedVersion (removeReaders_marks hresult)
        exact movesOn_throw nofun (.inl hlast)
      · exact ⟨fun _ ↦ ⟨Nat.not_le.1 hnew, rfl⟩, fun hlt ↦ hlt.le⟩

private theorem movesOn_commit (s : Coordinator) (t : ℕ) (peers : Peers) :
    MovesOn s t (s.commit t peers) := by
  have hversion := movesOn_commitVersion s t peers
  unfold commit
  split
  · next hresult => exact hresult ▸ hversion
  · next s₁ hresult =>
    rw [hresult] at hversion
    obtain ⟨hlt, hlast⟩ := hversion.newer rfl
    have hmerged := (congrArg Marks.lastCommittedVersion (mergeDown_marks s₁)).trans hlast
    exact ⟨fun _ ↦ ⟨hlt, hmerged⟩, fun _ ↦ hlt.le.trans hmerged.ge⟩

private theorem movesOn_merge (s : Coordinator) (t : ℕ) (peers : Peers) (created : ℕ) :
    MovesOn s t (s.merge t peers created) := by
  unfold merge
  dsimp only
  refine movesOn_check (fun _ ↦ movesOn_throw nofun (.inl rfl)) fun _ ↦ ?_
  refine movesOn_check (fun _ ↦ movesOn_throw nofun (.inl rfl)) fun _ ↦ ?_
  refine movesOn_check (fun hold ↦ ⟨nofun, fun hlt ↦ absurd hold (Nat.not_le.2 hlt)⟩) fun hnew ↦ ?_
  cases s.storageVersions (s.versions t).version with
  | none => exact movesOn_throw nofun (.inl rfl)
  | some version =>
    refine movesOn_check (fun _ ↦ movesOn_throw nofun (.inl rfl)) fun _ ↦ ?_
    refine movesOn_check (fun _ ↦ movesOn_throw nofun (.inl rfl)) fun _ ↦ ?_
    refine movesOn_check (fun _ ↦ movesOn_discardThenThrow s t _) fun _ ↦ ?_
    refine movesOn_check (fun _ ↦ movesOn_discardThenThrow s t _) fun _ ↦ ?_
    cases (s.versions version).previous with
    | none => exact movesOn_throw nofun (.inl rfl)
    | some prev =>
      refine movesOn_check (fun _ ↦ movesOn_throw nofun (.inl rfl)) fun _ ↦ ?_
      refine movesOn_check (fun _ ↦ movesOn_throw nofun (.inl rfl)) fun _ ↦ ?_
      split
      · next hresult =>
        have hlast := congrArg Marks.lastCommittedVersion (move_marks hresult)
        exact movesOn_throw nofun (.inr hlast)
      · next hresult =>
        have hlast := congrArg Marks.lastCommittedVersion (move_marks hresult)
        exact ⟨fun _ ↦ ⟨Nat.not_le.1 hnew, hlast⟩, fun hlt ↦ hlt.le.trans hlast.ge⟩

end Coordinator

namespace CommitLog

/-- The versions returned increase up to the last committed one. -/
structure Keeps (h : CommitLog) : Prop where
  increasing : h.Increasing
  le : ∀ v ∈ h.returned, v ≤ h.coordinator.lastCommittedVersion

/-- Ending a transaction with a newer version, or with an exception that moves on. -/
theorem Keeps.ended {h : CommitLog} (hk : h.Keeps) {t : ℕ} {result : Outcome Unit}
    (hr : h.coordinator.MovesOn t result)
    (hle : h.coordinator.lastCommittedVersion ≤ result.2.lastCommittedVersion) :
    (h.ended t result).Keeps := by
  obtain ⟨r, s'⟩ := result
  cases r with
  | error e => exact ⟨hk.increasing, fun v hv ↦ (hk.le v hv).trans hle⟩
  | ok u =>
    obtain ⟨hlt, hlast⟩ := hr.newer rfl
    refine ⟨List.pairwise_cons.2 ⟨fun v hv ↦ (hk.le v hv).trans_lt hlt, hk.increasing⟩, ?_⟩
    intro v hv
    rcases List.mem_cons.1 hv with rfl | hv
    · exact hlast.ge
    · exact (hk.le v hv).trans hle

/-- A change of the coordinator that does not end a transaction. -/
theorem Keeps.of_last {h : CommitLog} (hk : h.Keeps) {s' : Coordinator}
    (hlast : s'.lastCommittedVersion = h.coordinator.lastCommittedVersion) :
    ({ h with coordinator := s' } : CommitLog).Keeps :=
  ⟨hk.increasing, fun v hv ↦ (hk.le v hv).trans hlast.ge⟩

private theorem Keeps.of_marks {h : CommitLog} (hk : h.Keeps) {s' : Coordinator}
    (hmarks : s'.marks = h.coordinator.marks) : ({ h with coordinator := s' } : CommitLog).Keeps :=
  hk.of_last (congrArg Marks.lastCommittedVersion hmarks)

private theorem keeps_step (h h' : CommitLog) (a : CoordinatorAction) (hk : h.Keeps)
    (ha : h.Forward a) (hstep : h.step a = some h') : h'.Keeps := by
  cases a with
  | begin writer version replicated =>
    cases hstep
    rcases Coordinator.begin_marks h.coordinator writer version replicated with hmarks | hmarks
    · exact hk.of_marks hmarks
    · exact hk.of_last (congrArg Marks.lastCommittedVersion hmarks)
  | allocate t which how content =>
    rw [step] at hstep
    split at hstep
    · cases hstep
      exact hk.of_marks (Coordinator.allocateAndWrite_marks h.coordinator t which how content)
    · cases hstep
  | merge t peers created =>
    rw [step] at hstep
    split at hstep
    · cases hstep
      have hmoves := Coordinator.movesOn_merge h.coordinator t peers created
      apply hk.ended hmoves
      rcases ha with hro | hother | hlt
      · rw [Coordinator.merge, if_pos hro]
      · unfold Coordinator.merge
        dsimp only
        split
        · exact le_rfl
        · exact le_rfl
      · exact hmoves.le hlt
    · cases hstep
  | commit t peers =>
    rw [step] at hstep
    split at hstep
    · cases hstep
      have hmoves := Coordinator.movesOn_commit h.coordinator t peers
      apply hk.ended hmoves
      rcases ha with hro | hlt
      · rw [Coordinator.commit, Coordinator.commitVersion, if_pos hro]
      · exact hmoves.le hlt
    · cases hstep
  | discard t =>
    rw [step] at hstep
    split at hstep
    · cases hstep
      exact hk.of_marks (Coordinator.discard_marks rfl)
    · cases hstep
  | journalSynching on =>
    cases hstep
    exact hk.of_last rfl

/-- In a run in which no check on a version fails, versions are returned in increasing order. -/
theorem increasing_of_reached {initial : Opening} {h : CommitLog}
    (hs : Reached step Forward (start initial) h) : h.Increasing :=
  (hs.invariant Keeps ⟨List.Pairwise.nil, nofun⟩
    fun h h' a hk ha hstep ↦ keeps_step h h' a hk ha hstep).increasing

/-- A merge, a merge of what the transaction wrote after, and a commit of the next one. -/
def forwardRun : List CoordinatorAction :=
  [.begin true 5 true, .allocate 1 0 .create (some [1]), .merge 1 Coordinator.alone 6,
    .allocate 1 0 .create (some [2]), .merge 1 Coordinator.alone 8, .discard 1,
    .begin true 9 true, .commit 2 Coordinator.alone]

/-- A run without a retried merge. -/
theorem increasing_of_reached_forward :
    ∃ h, runAllowed step Forward (start (.plain ⟨1, 32, 0, ∅⟩)) forwardRun = some h ∧
      h.returned = [9, 6, 5] ∧ h.Increasing := by
  have hrun : (runAllowed step Forward (start (.plain ⟨1, 32, 0, ∅⟩)) forwardRun).map returned =
      some [9, 6, 5] := by decide +kernel
  obtain ⟨h, hs, hvalue⟩ := Option.map_eq_some_iff.mp hrun
  exact ⟨h, hs, hvalue, increasing_of_reached (reached_of_runAllowed .start hs)⟩

/-- Version 7 is merged. The merge of version 5 throws, and returns when it is tried again. -/
def retriedMerge : List CoordinatorAction :=
  [.begin true 7 true, .allocate 1 0 .create (some [1]), .merge 1 Coordinator.alone 8, .discard 1,
    .begin true 5 true, .merge 2 Coordinator.alone 9, .merge 2 Coordinator.alone 9]

/-- A merge that fails and is tried again returns an order below the last one. -/
theorem retriedMerge_not_increasing :
    ∃ h, run step (start (.plain ⟨1, 32, 0, ∅⟩)) retriedMerge = some h ∧ h.returned = [5, 7] ∧
      ¬h.Increasing := by
  have hrun :
      (run step (start (.plain ⟨1, 32, 0, ∅⟩)) retriedMerge).map returned = some [5, 7] := by
    decide +kernel
  obtain ⟨h, hs, hvalue⟩ := Option.map_eq_some_iff.mp hrun
  refine ⟨h, hs, hvalue, ?_⟩
  rw [Increasing, hvalue]
  decide

end CommitLog

end LibSpaces.Transactions
