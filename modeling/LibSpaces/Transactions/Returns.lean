import LibSpaces.Transactions.CommitPaths
import LibSpaces.Transactions.WriteLock

/-!
# When the calls of the coordinator return

`begin`, `discard` and `merge`, `src/src/storage/transactions/transactional_storage.h:2790–2851,
2997–3096,3113–3170`, in any state of the coordinator: the checks that each of them makes, and that
it returns where all of them pass.
-/

namespace LibSpaces.Transactions

namespace Coordinator

variable {s : Coordinator} {t : ℕ}

/-- The replicants could begin, there is a committed version, and no other one is written. -/
structure CanBegin (s : Coordinator) (writer replicated : Bool) : Prop where
  replicated : replicated = true
  storages : s.storages ≠ []
  alone : writer = true → s.writingTransactions = 0

instance (s : Coordinator) (writer replicated : Bool) : Decidable (s.CanBegin writer replicated) :=
  decidable_of_iff (replicated = true ∧ s.storages ≠ [] ∧
      (writer = true → s.writingTransactions = 0))
    ⟨fun h ↦ ⟨h.1, h.2.1, h.2.2⟩, fun h ↦ ⟨h.replicated, h.storages, h.alone⟩⟩

/-- `begin` returns a transaction exactly where it can begin one. -/
theorem begin_returns_iff (s : Coordinator) (writer : Bool) (version : ℕ) (replicated : Bool) :
    (∃ t, (s.begin writer version replicated).1 = .ok t) ↔ s.CanBegin writer replicated := by
  have hstorages : (s.takeVersion writer version).2.storages = s.storages := by
    unfold takeVersion
    split <;> rfl
  unfold begin
  split
  · next hreplicated =>
    exact iff_of_false nofun fun h ↦ absurd (h.replicated.symm.trans hreplicated) nofun
  split
  · next hwriting => exact iff_of_false nofun fun h ↦ hwriting.2 (h.alone hwriting.1)
  next hreplicated hwriting =>
  unfold openVersion
  dsimp only [setVersion]
  rw [hstorages]
  cases hlast : s.storages.getLast? with
  | none => exact iff_of_false nofun fun h ↦ h.storages (List.getLast?_eq_none_iff.1 hlast)
  | some last =>
    refine iff_of_true ⟨_, rfl⟩ ⟨by simpa using hreplicated, ?_, fun hw ↦ ?_⟩
    · rintro hnil
      rw [hnil] at hlast
      cases hlast
    · exact not_not.1 fun hne ↦ hwriting ⟨hw, hne⟩

/-- Each version has the readers that are removed. -/
theorem removeReaders_returns_iff (l : List ℕ) (s : Coordinator) :
    (removeReaders l s).1 = .ok () ↔ ∀ v, l.count v ≤ (s.versions v).readers := by
  induction l generalizing s with
  | nil => exact iff_of_true rfl fun v ↦ Nat.zero_le _
  | cons v vs ih =>
    rw [removeReaders]
    split
    · next hzero =>
      refine iff_of_false (fun he ↦ by cases he) fun hall ↦ ?_
      have hv := hall v
      rw [hzero, List.count_cons_self] at hv
      omega
    next hzero =>
    rw [ih]
    refine forall_congr' fun u ↦ ?_
    rw [versions_setVersion]
    by_cases hu : u = v
    · rw [hu, if_pos rfl, List.count_cons_self]
      dsimp only
      omega
    · rw [if_neg hu, List.count_cons_of_ne (Ne.symm hu)]

/-- The transaction has a version below it, it is the one of its number, and the versions it is
based on count it. -/
structure CanDiscard (s : Coordinator) (t : ℕ) : Prop where
  previous : (s.versions t).previous ≠ none
  current : s.storageVersions (s.versions t).version = some t
  readers : ∀ v, (s.bases t).count v ≤ (s.versions v).readers

private theorem discard_returns_iff (s : Coordinator) (t : ℕ) :
    (s.discard t).1 = .ok () ↔ s.CanDiscard t := by
  unfold discard
  dsimp only
  split
  · next hprevious => exact iff_of_false nofun fun h ↦ h.previous hprevious
  next hprevious =>
  rw [storageVersions_setVersion]
  cases hcurrent : s.storageVersions (s.versions t).version with
  | none => exact iff_of_false nofun fun h ↦ absurd (hcurrent.symm.trans h.current) nofun
  | some version =>
    dsimp only
    split
    · next hne =>
      refine iff_of_false nofun fun h ↦ hne ?_
      exact Option.some.inj (hcurrent.symm.trans h.current)
    next hsame =>
    obtain rfl := not_not.1 hsame
    generalize hmarked : setVersion _ version _ = marked
    have hfields (v : ℕ) : (marked.versions v).previous = (s.versions v).previous ∧
        (marked.versions v).readers = (s.versions v).readers := by
      rw [← hmarked, versions_setVersion]
      split
      · next hv => exact hv ▸ ⟨rfl, rfl⟩
      · exact ⟨rfl, rfl⟩
    have hbases : marked.bases version = s.bases version :=
      bases_congr (by rw [← hmarked]; rfl) (fun v ↦ (hfields v).1) version
    have hremove := removeReaders_returns_iff (marked.bases version) marked
    simp only [(hfields _).2, hbases] at hremove
    have hdiscard : s.CanDiscard version ↔
        ∀ v, (s.bases version).count v ≤ (s.versions v).readers :=
      ⟨fun h ↦ h.readers, fun h ↦ ⟨hprevious, hcurrent, h⟩⟩
    rw [hdiscard, ← hremove, hbases]
    split
    · next hresult => rw [hresult]
    · next hresult => rw [hresult]

/-- All checks pass, the replicants and the notified peers agree, and every block is newer than
what it covers in the version below. -/
structure CanMerge (s : Coordinator) (t : ℕ) (peers : Peers) : Prop where
  checks : s.LocalChecks t
  replicated : ¬ peers.Refuse
  notified : peers.notifyChange = true
  movable : ∀ version ∈ s.storageVersions (s.versions t).version, ∀ prev ∈ s.storages.getLast?,
    Allocator.Movable (s.traversals 0) (s.versions version).toAllocator
      (s.versions prev).toAllocator

private theorem discardThenThrow_ne_ok (s : Coordinator) (t : ℕ) (e : Thrown) :
    (s.discardThenThrow t e).1 ≠ .ok () := by
  unfold discardThenThrow
  split <;> nofun

private theorem merge_returns_iff (s : Coordinator) (t : ℕ) (peers : Peers) (created : ℕ) :
    (s.merge t peers created).1 = .ok () ↔ s.CanMerge t peers := by
  unfold merge
  dsimp only
  split
  · next hro => exact iff_of_false nofun fun h ↦ absurd (h.checks.writer.symm.trans hro) nofun
  next hro =>
  split
  · next hwriting => exact iff_of_false nofun fun h ↦ hwriting h.checks.writing
  next hwriting =>
  split
  · next hversion => exact iff_of_false nofun fun h ↦ Nat.not_le.2 h.checks.version hversion
  next hversion =>
  cases hcurrent : s.storageVersions (s.versions t).version with
  | none =>
    refine iff_of_false nofun fun h ↦ ?_
    obtain ⟨version, prev, hsome, -⟩ := h.checks.current
    exact absurd (hcurrent.symm.trans hsome) nofun
  | some version =>
  dsimp only
  split
  · next hwrite => exact iff_of_false nofun fun h ↦ h.replicated ⟨hwrite.1, .inl hwrite.2⟩
  next hwrite =>
  split
  · next hcommit => exact iff_of_false nofun fun h ↦ h.replicated ⟨hcommit.1, .inr hcommit.2⟩
  next hcommit =>
  split
  · next hactive =>
    exact iff_of_false (discardThenThrow_ne_ok _ _ _) fun h ↦ h.checks.active hactive
  next hactive =>
  split
  · next horder => exact iff_of_false (discardThenThrow_ne_ok _ _ _) fun h ↦ h.checks.order horder
  next horder =>
  cases hprevious : (s.versions version).previous with
  | none =>
    refine iff_of_false nofun fun h ↦ ?_
    obtain ⟨version', prev, hsome, hprev, -⟩ := h.checks.current
    rw [hcurrent, Option.some.injEq] at hsome
    exact absurd ((hsome ▸ hprevious).symm.trans hprev) nofun
  | some prev =>
  dsimp only
  split
  · next hlast =>
    refine iff_of_false nofun fun h ↦ hlast ?_
    obtain ⟨version', prev', hsome, hprev, hlast'⟩ := h.checks.current
    rw [hcurrent, Option.some.injEq] at hsome
    rw [← hsome, hprevious, Option.some.injEq] at hprev
    rw [hlast', hprev]
  next hlast =>
  split
  · next hnotify => exact iff_of_false nofun fun h ↦ absurd (h.notified.symm.trans hnotify) nofun
  next hnotify =>
  generalize hmoved : Coordinator.move _ version prev = moved
  have hmove : moved.1 = .ok () ↔
      Allocator.Movable (s.traversals 0) (s.versions version).toAllocator
        (s.versions prev).toAllocator := by
    rw [← hmoved, move_ok_iff]
  have hlast : s.storages.getLast? = some prev := not_not.1 hlast
  have hmerge : s.CanMerge t peers ↔
      Allocator.Movable (s.traversals 0) (s.versions version).toAllocator
        (s.versions prev).toAllocator := by
    constructor
    · exact fun h ↦ h.movable version hcurrent prev hlast
    · intro hmovable
      refine ⟨⟨Bool.eq_false_iff.2 hro, not_not.1 hwriting, Nat.not_le.1 hversion, hactive, horder,
        version, prev, hcurrent, hprevious, hlast⟩, fun hrefuse ↦ ?_, by simpa using hnotify, ?_⟩
      · exact hrefuse.2.elim (fun hw ↦ hwrite ⟨hrefuse.1, hw⟩) fun hc ↦ hcommit ⟨hrefuse.1, hc⟩
      · rintro version' hversion' prev' hprev'
        rw [hcurrent] at hversion'
        rw [hlast] at hprev'
        cases hversion'
        cases hprev'
        exact hmovable
  rw [hmerge, ← hmove]
  split <;> simp

end Coordinator

/-! ### The calls of a storage object -/

namespace Session

variable {s : Session}

/-- An idle object has nothing to roll back. -/
theorem rollback_idle (hidle : s.storage.transacted = false) (fault : Bool) :
    s.rollback fault = (.ok (), s) := by
  obtain ⟨⟨transaction, transacted, writer⟩, c, locked⟩ := s
  cases hidle
  cases transaction <;> rfl

/-- Outside a transaction `begin` waits for the write lock and opens a transaction. -/
theorem begin_idle (hidle : s.storage.transacted = false) (writer : Bool) (version : ℕ)
    (replicated fault fault' : Bool) :
    s.begin writer version replicated fault fault' =
      if writer = true ∧ s.locked = true then none
      else some (getTransaction
        ⟨{ s.storage with writer := writer }, s.coordinator, writer || s.locked⟩
        writer version replicated fault') := by
  unfold Session.begin
  rw [rollback_idle hidle]
  cases writer with
  | false => rfl
  | true => cases hlocked : s.locked <;> simp [hlocked]

/-- A call of the coordinator that returns under a condition. -/
theorem call_cases_iff {α : Type} (s : Session) (fault : Bool) (f : Coordinator → Outcome α)
    {P : Prop} (hf : (∃ x, (f s.coordinator).1 = .ok x) ↔ P) :
    (fault = false ∧ P) ∧ (∃ x c, s.call fault f = (.ok x, { s with coordinator := c })) ∨
      ¬ (fault = false ∧ P) ∧
        ∃ e c, s.call fault f = (.error e, { s with coordinator := c }) := by
  rcases call_cases s fault f with ⟨e, c, hcall, he⟩ | ⟨x, c, hcall, hfault, hresult⟩
  · refine .inr ⟨?_, e, c, hcall⟩
    rintro ⟨hfault, hP⟩
    rcases he with ⟨-, htrue⟩ | ⟨e', -, hresult⟩
    · exact absurd (hfault.symm.trans htrue) nofun
    · obtain ⟨x, hx⟩ := hf.2 hP
      exact absurd (hx.symm.trans (congrArg Prod.fst hresult)) nofun
  · exact .inl ⟨⟨hfault, hf.1 ⟨x, congrArg Prod.fst hresult⟩⟩, x, c, hcall⟩

/-- An object has a transaction still, or gets one from the coordinator. -/
theorem getTransaction_cases_iff (s : Session) (writer : Bool) (version : ℕ)
    (replicated fault : Bool) :
    (s.storage.transaction ≠ none ∨
        fault = false ∧ s.coordinator.CanBegin writer replicated) ∧
      (∃ t c, s.getTransaction writer version replicated fault =
        (.ok (), ⟨⟨some t, true, s.storage.writer⟩, c, s.locked⟩)) ∨
    ¬ (s.storage.transaction ≠ none ∨
        fault = false ∧ s.coordinator.CanBegin writer replicated) ∧
      ∃ e c, s.getTransaction writer version replicated fault =
        (.error e, { s with coordinator := c }) := by
  obtain ⟨⟨transaction, transacted, writer'⟩, c, locked⟩ := s
  unfold getTransaction
  cases transaction with
  | some t => exact .inl ⟨.inl nofun, t, c, rfl⟩
  | none =>
    dsimp only
    rcases call_cases_iff ⟨⟨none, transacted, writer'⟩, c, locked⟩ fault
      (fun c ↦ c.begin writer version replicated)
      (Coordinator.begin_returns_iff c writer version replicated) with
      ⟨hcan, t, c', hcall⟩ | ⟨hcannot, e, c', hcall⟩
    · rw [hcall]
      exact .inl ⟨.inr hcan, t, c', rfl⟩
    · rw [hcall]
      exact .inr ⟨not_or.2 ⟨not_not.2 rfl, hcannot⟩, e, c', rfl⟩

/-- An idle object that does not wait for the write lock begins where it gets a transaction. -/
theorem begin_cases_iff (hidle : s.storage.transacted = false) {writer : Bool} {version : ℕ}
    {replicated fault fault' : Bool} {r : SessionOutcome Unit}
    (h : s.begin writer version replicated fault fault' = some r) :
    (s.storage.transaction ≠ none ∨
        fault' = false ∧ s.coordinator.CanBegin writer replicated) ∧
      (∃ t c, r = (.ok (), ⟨⟨some t, true, writer⟩, c, writer || s.locked⟩)) ∨
    ¬ (s.storage.transaction ≠ none ∨
        fault' = false ∧ s.coordinator.CanBegin writer replicated) ∧
      ∃ e c, r = (.error e, ⟨{ s.storage with writer := writer }, c, writer || s.locked⟩) := by
  rw [begin_idle hidle] at h
  split at h
  · cases h
  rw [← Option.some.inj h]
  exact getTransaction_cases_iff ⟨{ s.storage with writer := writer }, s.coordinator, _⟩ writer
    version replicated fault'

/-- What an object has begun is rolled back where it can be discarded. -/
theorem rollback_cases_iff {t : ℕ} (ht : s.storage.transaction = some t)
    (hbegun : s.storage.transacted = true) (fault : Bool) :
    (fault = false ∧ s.coordinator.CanDiscard t) ∧
      (∃ c locked, s.rollback fault = (.ok (), ⟨.closed, c, locked⟩)) ∨
    ¬ (fault = false ∧ s.coordinator.CanDiscard t) ∧
      ∃ e c, s.rollback fault = (.error e, { s with coordinator := c }) := by
  have hdiscard : (∃ x, (s.coordinator.discard t).1 = .ok x) ↔ s.coordinator.CanDiscard t := by
    rw [← Coordinator.discard_returns_iff]
    exact ⟨fun ⟨_, hx⟩ ↦ hx, fun hx ↦ ⟨(), hx⟩⟩
  unfold rollback
  rw [ht, hbegun]
  dsimp only
  rcases call_cases_iff s fault (fun c ↦ c.discard t) hdiscard with
    ⟨hcan, x, c, hcall⟩ | ⟨hcannot, e, c, hcall⟩
  · rw [hcall]
    exact .inl ⟨hcan, c, _, rfl⟩
  · rw [hcall]
    exact .inr ⟨hcannot, e, c, rfl⟩

/-- What an object has written is committed where it can be merged. -/
theorem commit_cases_iff {t : ℕ} (ht : s.storage.transaction = some t)
    (hwriter : s.storage.writer = true) (peers : Peers) (created : ℕ) (fault : Bool) :
    (fault = false ∧ s.coordinator.CanMerge t peers) ∧
      (∃ c, s.commit peers created fault =
        (.ok true, ⟨{ s.storage with transacted := false }, c, false⟩)) ∨
    ¬ (fault = false ∧ s.coordinator.CanMerge t peers) ∧
      ∃ e c, s.commit peers created fault = (.error e, { s with coordinator := c }) := by
  have hmerge : (∃ x, (s.coordinator.merge t peers created).1 = .ok x) ↔
      s.coordinator.CanMerge t peers := by
    rw [← Coordinator.merge_returns_iff _ _ _ created]
    exact ⟨fun ⟨_, hx⟩ ↦ hx, fun hx ↦ ⟨(), hx⟩⟩
  unfold commit
  rw [ht]
  dsimp only
  rw [if_pos hwriter]
  rcases call_cases_iff s fault (fun c ↦ c.merge t peers created) hmerge with
    ⟨hcan, x, c, hcall⟩ | ⟨hcannot, e, c, hcall⟩
  · rw [hcall]
    exact .inl ⟨hcan, c, rfl⟩
  · rw [hcall]
    exact .inr ⟨hcannot, e, c, rfl⟩

end Session

end LibSpaces.Transactions
