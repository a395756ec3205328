import LibSpaces.Base.Transition
import LibSpaces.Transactions.AbstractedStorage
import LibSpaces.Transactions.FailedCommit

/-!
# The write lock

Objects on one coordinator take its write lock in `begin` and give it back in `commit` and
`rollback`, `src/src/storage/transactions/abstracted_storage.h:239–383`. A commit keeps the writing
transaction counted as active, `close` keeps the lock, and a second commit unlocks again.
-/

namespace LibSpaces.Transactions

open LibSpaces.Base

/-- Any number of objects on one coordinator. `between` are those between a `begin` for writing that
returned and the call that ends it. -/
structure LockLog where
  coordinator : Coordinator
  locked : Bool
  storages : ℕ → AbstractedStorage
  between : Finset ℕ

/-- The calls on an object, with what the coordinator is given. -/
inductive StorageCall
  | begin (writer : Bool) (version : ℕ) (replicated fault fault' : Bool)
  | commit (peers : Peers) (created : ℕ) (fault : Bool)
  | rollback (fault : Bool)
  | close (fault : Bool)
  | allocate (which : ℕ) (how : StorageAction) (content : Option Bytes)

namespace LockLog

/-- Objects that have not begun, over an initial storage. -/
def start (initial : Opening) : LockLog := ⟨.start initial, false, fun _ ↦ .closed, ∅⟩

/-- An object with the coordinator. -/
def session (h : LockLog) (o : ℕ) : Session := ⟨h.storages o, h.coordinator, h.locked⟩

/-- What a call on an object leaves. -/
def left (h : LockLog) (o : ℕ) (s : Session) (between : Finset ℕ) : LockLog where
  coordinator := s.coordinator
  locked := s.locked
  storages := Function.update h.storages o s.storage
  between := between

/-- Which objects are between their calls once one has returned, or thrown. -/
def ended {α : Type} (h : LockLog) (o : ℕ) (r : SessionOutcome α) : LockLog :=
  match r.1 with
  | .ok _ => h.left o r.2 (h.between.erase o)
  | .error _ => h.left o r.2 h.between

/-- A `begin` ends what the object had begun once it has rolled that back. -/
def began (h : LockLog) (o : ℕ) (writer rolledBack : Bool) (r : SessionOutcome Unit) : LockLog :=
  let between := if rolledBack then h.between.erase o else h.between
  match r.1 with
  | .ok _ => h.left o r.2 (if writer then insert o between else between)
  | .error _ => h.left o r.2 between

/-- One call on an object, which has no outcome while it waits for the lock. -/
def step (h : LockLog) : ℕ × StorageCall → Option LockLog
  | (o, .begin writer version replicated fault fault') =>
    ((h.session o).begin writer version replicated fault fault').map
      (h.began o writer (decide (((h.session o).rollback fault).1 = .ok ())))
  | (o, .commit peers created fault) => some (h.ended o ((h.session o).commit peers created fault))
  | (o, .rollback fault) => some (h.ended o ((h.session o).rollback fault))
  | (o, .close fault) => some (h.ended o ((h.session o).close fault))
  | (o, .allocate which how content) =>
    some (h.left o ((h.session o).allocateAndWrite which how content) h.between)

/-- The writing transactions that the coordinator counts besides one that a `begin` of the object
rolls back. -/
def othersWriting (h : LockLog) (o : ℕ) : UInt32 :=
  match (h.storages o).transaction with
  | some t => if (h.coordinator.versions t).readOnly then h.coordinator.writingTransactions
    else h.coordinator.writingTransactions - 1
  | none => h.coordinator.writingTransactions

/-- The object has a transaction that it neither writes nor reads any more. -/
def Kept (h : LockLog) (o : ℕ) : Prop :=
  (h.storages o).transaction ≠ none ∧ (h.storages o).transacted = false

/-- A `begin` for writing needs no new transaction, cannot roll back, or the coordinator counts no
writer but its own and can begin; a commit ends what has begun, or finds the lock free; a close
that does not throw finds nothing that has begun for writing. -/
def Orderly (h : LockLog) : ℕ × StorageCall → Prop
  | (o, .begin true _ replicated fault fault') =>
    h.Kept o ∨ ((h.session o).rollback fault).1 ≠ .ok () ∨
      replicated = true ∧ fault' = false ∧ h.coordinator.storages ≠ [] ∧ h.othersWriting o = 0
  | (o, .commit _ _ _) =>
    (h.storages o).writer = true → (h.storages o).transacted = true ∨ h.locked = false
  | (o, .close fault) => o ∈ h.between → fault = true
  | _ => True

instance (h : LockLog) (o : ℕ) : Decidable (h.Kept o) := inferInstanceAs (Decidable (_ ∧ _))

instance (h : LockLog) (a : ℕ × StorageCall) : Decidable (h.Orderly a) := by
  unfold Orderly
  split <;> infer_instance

/-- The lock is held where an object is between its calls, and that is one with a transaction it
writes. -/
structure Keeps (h : LockLog) : Prop where
  locked : h.locked = true ↔ h.between.Nonempty
  single : h.between.card ≤ 1
  mem : ∀ o, o ∈ h.between ↔ (h.storages o).Writing

end LockLog

namespace Coordinator

/-- A discard counts down and leaves the committed versions. -/
structure Discards (s : Coordinator) (t : ℕ) (r : Outcome Unit) : Prop where
  throws : r.1 ≠ .error .invalidWriterOrder
  storages : r.2.storages = s.storages
  writing : r.2.writingTransactions = if (s.versions t).readOnly = true then s.writingTransactions
    else s.writingTransactions - 1

private theorem removeReaders_frame {l : List ℕ} {s : Coordinator} {r : Outcome Unit}
    (h : removeReaders l s = r) : r.1 ≠ .error .invalidWriterOrder ∧ r.2.storages = s.storages ∧
      r.2.writingTransactions = s.writingTransactions := by
  subst h
  induction l generalizing s with
  | nil => exact ⟨(fun he ↦ by cases he), rfl, rfl⟩
  | cons v vs ih =>
    rw [removeReaders]
    split
    · exact ⟨(fun he ↦ by cases he), rfl, rfl⟩
    · exact ih

private theorem discards (s : Coordinator) (t : ℕ) : Discards s t (s.discard t) := by
  unfold discard
  dsimp only
  split
  · exact ⟨nofun, rfl, rfl⟩
  split
  · exact ⟨nofun, rfl, rfl⟩
  split
  · exact ⟨nofun, rfl, rfl⟩
  split
  · next hresult =>
    obtain ⟨hthrows, hstorages, hwriting⟩ := removeReaders_frame hresult
    exact ⟨hthrows, hstorages, hwriting⟩
  · next hresult =>
    obtain ⟨-, hstorages, hwriting⟩ := removeReaders_frame hresult
    exact ⟨nofun, hstorages, hwriting⟩

/-- Without another writer a writing transaction begins. -/
theorem begin_ok {s : Coordinator} (hstorages : s.storages ≠ [])
    (hwriting : s.writingTransactions = 0) (version : ℕ) :
    ∃ t s', s.begin true version true = (.ok t, s') := by
  obtain ⟨last, hlast⟩ : ∃ last, s.storages.getLast? = some last :=
    ⟨_, List.getLast?_eq_some_getLast hstorages⟩
  refine ⟨s.size, (s.begin true version true).2, Prod.ext ?_ rfl⟩
  unfold begin takeVersion openVersion
  simp [hwriting, newVersion, setVersion, hlast]

end Coordinator

namespace Session

/-- A call of the coordinator is not made, throws, or returns. -/
theorem call_cases {α : Type} (s : Session) (fault : Bool) (f : Coordinator → Outcome α) :
    (∃ e c, s.call fault f = (.error e, { s with coordinator := c }) ∧
        (e = .fault ∧ fault = true ∨
          ∃ e', e = .coordinator e' ∧ f s.coordinator = (.error e', c))) ∨
      ∃ x c, s.call fault f = (.ok x, { s with coordinator := c }) ∧ fault = false ∧
        f s.coordinator = (.ok x, c) := by
  unfold call
  split
  · next hfault => exact .inl ⟨_, s.coordinator, rfl, .inl ⟨rfl, hfault⟩⟩
  · next hfault =>
    split
    · next e c hresult => exact .inl ⟨_, c, rfl, .inr ⟨e, rfl, hresult⟩⟩
    · next x c hresult => exact .inr ⟨x, c, rfl, Bool.eq_false_iff.2 hfault, hresult⟩

/-- What `rollback` comes to: it throws and leaves the object, ends what the object had begun, or
there is nothing to end. -/
inductive RolledBack (s : Session) : SessionOutcome Unit → Prop
  | threw (e : StorageThrown) (c : Coordinator) (he : e ≠ .coordinator .invalidWriterOrder) :
    RolledBack s (.error e, { s with coordinator := c })
  | ended (t : ℕ) (c : Coordinator) (ht : s.storage.transaction = some t)
    (hbegun : s.storage.transacted = true) (hstorages : c.storages = s.coordinator.storages)
    (hwriting : c.writingTransactions = if (s.coordinator.versions t).readOnly = true then
      s.coordinator.writingTransactions else s.coordinator.writingTransactions - 1) :
    RolledBack s (.ok (), ⟨.closed, c, if s.storage.writer then false else s.locked⟩)
  | nothing (hnot : s.storage.transaction = none ∨ s.storage.transacted = false) :
    RolledBack s (.ok (), { s with storage := { s.storage with transacted := false } })

private theorem rollback_cases (s : Session) (fault : Bool) : RolledBack s (s.rollback fault) := by
  unfold rollback
  split
  · next t ht hbegun =>
    have hd := Coordinator.discards s.coordinator t
    rcases call_cases s fault fun c ↦ c.discard t with ⟨e, c, hcall, he⟩ | ⟨x, c, hcall, -, hresult⟩
    · rw [hcall]
      refine .threw e c ?_
      rcases he with ⟨rfl, -⟩ | ⟨e', rfl, hresult⟩
      · nofun
      · rintro he
        cases he
        exact hd.throws (congrArg Prod.fst hresult)
    · rw [hcall]
      have hstorages := hd.storages
      have hwriting := hd.writing
      rw [show s.coordinator.discard t = (.ok x, c) from hresult] at hstorages hwriting
      exact .ended t c ht hbegun hstorages hwriting
  · next hnot =>
    refine .nothing ?_
    cases ht : s.storage.transaction with
    | none => exact .inl rfl
    | some t => exact .inr (Bool.eq_false_iff.2 fun hb ↦ hnot t ht hb)

private theorem getTransaction_cases (s : Session) (writer : Bool) (version : ℕ)
    (replicated fault : Bool) :
    (∃ e c, s.storage.transaction = none ∧
        s.getTransaction writer version replicated fault = (.error e, { s with coordinator := c }) ∧
        (e = .fault ∧ fault = true ∨ ∃ e', e = .coordinator e' ∧
          s.coordinator.begin writer version replicated = (.error e', c))) ∨
      ∃ t c, s.getTransaction writer version replicated fault =
        (.ok (), ⟨⟨some t, true, s.storage.writer⟩, c, s.locked⟩) := by
  obtain ⟨⟨transaction, transacted, writer'⟩, c, locked⟩ := s
  unfold getTransaction
  cases transaction with
  | some t => exact .inr ⟨t, c, rfl⟩
  | none =>
    dsimp only
    rcases call_cases ⟨⟨none, transacted, writer'⟩, c, locked⟩ fault
      fun c ↦ c.begin writer version replicated with ⟨e, c, hcall, he⟩ | ⟨t, c, hcall, -, -⟩
    · rw [hcall]
      exact .inl ⟨e, c, rfl, rfl, he⟩
    · rw [hcall]
      exact .inr ⟨t, c, rfl⟩

/-- What `begin` does after it has rolled back: nothing while it waits for the lock, an exception of
the coordinator, or a transaction that has begun. -/
theorem begin_cases {s s₁ : Session} {fault : Bool} (hrolled : s.rollback fault = (.ok (), s₁))
    (writer : Bool) (version : ℕ) (replicated fault' : Bool) :
    writer = true ∧ s₁.locked = true ∧ s.begin writer version replicated fault fault' = none ∨
      (writer = true → s₁.locked = false) ∧
        ((∃ e c, s₁.storage.transaction = none ∧
            s.begin writer version replicated fault fault' = some (.error e,
              ⟨⟨none, s₁.storage.transacted, writer⟩, c, writer || s₁.locked⟩) ∧
            (e = .fault ∧ fault' = true ∨ ∃ e', e = .coordinator e' ∧
              s₁.coordinator.begin writer version replicated = (.error e', c))) ∨
          ∃ t c, s.begin writer version replicated fault fault' = some (.ok (),
            ⟨⟨some t, true, writer⟩, c, writer || s₁.locked⟩)) := by
  unfold begin
  rw [hrolled]
  dsimp only
  cases writer with
  | false =>
    refine .inr ⟨nofun, ?_⟩
    rcases getTransaction_cases { s₁ with storage := { s₁.storage with writer := false } }
      false version replicated fault' with ⟨e, c, ht, hresult, he⟩ | ⟨t, c, hresult⟩
    · refine .inl ⟨e, c, ht, ?_, he⟩
      change s₁.storage.transaction = none at ht
      rw [← ht]
      exact congrArg some hresult
    · exact .inr ⟨t, c, congrArg some hresult⟩
  | true =>
    rw [if_pos rfl]
    by_cases hlocked : s₁.locked = true
    · exact .inl ⟨rfl, hlocked, if_pos hlocked⟩
    · refine .inr ⟨fun _ ↦ Bool.eq_false_iff.2 hlocked, ?_⟩
      rw [if_neg hlocked]
      rcases getTransaction_cases ⟨{ s₁.storage with writer := true }, s₁.coordinator, true⟩ true
        version replicated fault' with ⟨e, c, ht, hresult, he⟩ | ⟨t, c, hresult⟩
      · refine .inl ⟨e, c, ht, ?_, he⟩
        change s₁.storage.transaction = none at ht
        rw [← ht]
        exact congrArg some hresult
      · exact .inr ⟨t, c, congrArg some hresult⟩

end Session

namespace LockLog

/-- What a call on an object leaves to the others. -/
theorem Keeps.left {h : LockLog} (hk : h.Keeps) {o : ℕ} {s : Session} {between : Finset ℕ}
    (hlocked : s.locked = true ↔ between.Nonempty) (hsingle : between.card ≤ 1)
    (hself : o ∈ between ↔ s.storage.Writing)
    (hother : ∀ p, p ≠ o → (p ∈ between ↔ p ∈ h.between)) :
    (h.left o s between).Keeps where
  locked := hlocked
  single := hsingle
  mem := by
    intro p
    change p ∈ between ↔ (Function.update h.storages o s.storage p).Writing
    by_cases hp : p = o
    · rw [hp, Function.update_self]
      exact hself
    · rw [Function.update_of_ne hp]
      exact (hother p hp).trans (hk.mem p)

/-- The object stays as it was. -/
theorem Keeps.stays {h : LockLog} (hk : h.Keeps) {o : ℕ} {s : Session}
    (hlocked : s.locked = h.locked) (hself : s.storage.Writing ↔ (h.storages o).Writing) :
    (h.left o s h.between).Keeps := by
  refine hk.left ?_ hk.single ((hk.mem o).trans hself.symm) fun _ _ ↦ Iff.rfl
  rw [hlocked]
  exact hk.locked

/-- One that was writing was the only one. -/
theorem Keeps.erase_eq {h : LockLog} (hk : h.Keeps) {o : ℕ} (ho : o ∈ h.between) :
    h.between.erase o = ∅ := by
  refine Finset.eq_empty_of_forall_notMem fun p hp ↦ ?_
  obtain ⟨hne, hp⟩ := Finset.mem_erase.1 hp
  exact hne (Finset.card_le_one.1 hk.single p hp o ho)

/-- The object has ended what it had begun, and gives the lock back if it was writing. -/
theorem Keeps.ends {h : LockLog} (hk : h.Keeps) {o : ℕ} {s : Session}
    (hlocked : s.locked = if (h.storages o).Writing then false else h.locked)
    (hself : ¬s.storage.Writing) : (h.left o s (h.between.erase o)).Keeps := by
  have hsub := Finset.erase_subset o h.between
  refine hk.left ?_ ((Finset.card_le_card hsub).trans hk.single) ?_ fun p hp ↦ ?_
  · by_cases ho : o ∈ h.between
    · rw [hlocked, if_pos ((hk.mem o).1 ho), hk.erase_eq ho]
      simp
    · rw [hlocked, if_neg (fun hw ↦ ho ((hk.mem o).2 hw)), Finset.erase_eq_of_notMem ho]
      exact hk.locked
  · exact iff_of_false (Finset.notMem_erase o _) hself
  · rw [Finset.mem_erase, and_iff_right hp]

/-- An object begins to write while no other one does. -/
theorem Keeps.enters {h : LockLog} (hk : h.Keeps) {o : ℕ} {s : Session} (hnone : h.between = ∅)
    (hlocked : s.locked = true) (hself : s.storage.Writing) :
    (h.left o s (insert o ∅)).Keeps := by
  refine hk.left (by simp [hlocked]) (by simp) (by simp [hself]) fun p hp ↦ ?_
  rw [hnone]
  simp [hp]

/-- Whether the object was writing, once it was rolled back. -/
theorem writing_of_begun {x : AbstractedStorage} {t : ℕ} (ht : x.transaction = some t)
    (hbegun : x.transacted = true) : x.Writing ↔ x.writer = true := by
  simp [AbstractedStorage.Writing, ht, hbegun]

private theorem not_writing_of_nothing {x : AbstractedStorage}
    (hnot : x.transaction = none ∨ x.transacted = false) : ¬x.Writing := by
  rintro ⟨ht, hbegun, -⟩
  rcases hnot with hnot | hnot
  · exact ht hnot
  · rw [hbegun] at hnot
    cases hnot

private theorem not_writing_closed : ¬AbstractedStorage.closed.Writing := fun h ↦ h.1 rfl

private theorem Keeps.rolledBack {h : LockLog} (hk : h.Keeps) (o : ℕ) (fault : Bool) :
    (h.ended o ((h.session o).rollback fault)).Keeps := by
  have hcases := Session.rollback_cases (h.session o) fault
  generalize (h.session o).rollback fault = r at hcases ⊢
  cases hcases with
  | threw e c he => exact hk.stays rfl Iff.rfl
  | ended t c ht hbegun _ _ =>
    refine hk.ends ?_ not_writing_closed
    have hwriting : (h.storages o).Writing ↔ (h.storages o).writer = true :=
      writing_of_begun ht hbegun
    simp only [hwriting]
    rfl
  | nothing hnot =>
    refine hk.ends ?_ (not_writing_of_nothing (.inr rfl))
    have hreader : ¬(h.storages o).Writing := not_writing_of_nothing hnot
    rw [if_neg hreader]
    rfl

private theorem Keeps.committed {h : LockLog} (hk : h.Keeps) (o : ℕ) (peers : Peers) (created : ℕ)
    (fault : Bool) (hordered : (h.storages o).writer = true →
      (h.storages o).transacted = true ∨ h.locked = false) :
    (h.ended o ((h.session o).commit peers created fault)).Keeps := by
  unfold Session.commit
  split
  · next t ht =>
    change (h.storages o).transaction = some t at ht
    split
    · next hwriter =>
      change (h.storages o).writer = true at hwriter
      rcases Session.call_cases (h.session o) fault fun c ↦ c.merge t peers created with
        ⟨e, c, hcall, -⟩ | ⟨x, c, hcall, -⟩
      · rw [hcall]
        exact hk.stays rfl Iff.rfl
      · rw [hcall]
        refine hk.ends ?_ (not_writing_of_nothing (.inr rfl))
        dsimp only
        split
        · rfl
        · next hnot =>
          rcases hordered hwriter with hbegun | hfree
          · exact absurd ((writing_of_begun ht hbegun).2 hwriter) hnot
          · exact hfree.symm
    · next hreader =>
      have hnot : ¬(h.storages o).Writing := fun hw ↦ hreader hw.2.2
      rcases Session.call_cases (h.session o) fault fun c ↦ c.commit t peers with
        ⟨e, c, hcall, -⟩ | ⟨x, c, hcall, -⟩
      · rw [hcall]
        exact hk.stays rfl Iff.rfl
      · rw [hcall]
        refine hk.ends ?_ (not_writing_of_nothing (.inr rfl))
        rw [if_neg hnot]
        rfl
  · next ht =>
    refine hk.ends ?_ not_writing_closed
    have hreader : ¬(h.storages o).Writing := not_writing_of_nothing (.inl ht)
    rw [if_neg hreader]
    rfl

private theorem Keeps.closed {h : LockLog} (hk : h.Keeps) (o : ℕ) (fault : Bool)
    (hordered : o ∈ h.between → fault = true) :
    (h.ended o ((h.session o).close fault)).Keeps := by
  unfold Session.close
  split
  · next t ht =>
    rcases Session.call_cases (h.session o) fault fun c ↦ c.discard t with
      ⟨e, c, hcall, -⟩ | ⟨x, c, hcall, -⟩
    · rw [hcall]
      exact hk.stays rfl Iff.rfl
    · have hnot : o ∉ h.between := by
        intro ho
        rw [hordered ho] at hcall
        cases hcall
      rw [hcall]
      refine hk.ends ?_ not_writing_closed
      rw [if_neg fun hw ↦ hnot ((hk.mem o).2 hw)]
      rfl
  · next ht =>
    refine hk.ends ?_ not_writing_closed
    have hreader : ¬(h.storages o).Writing := not_writing_of_nothing (.inl ht)
    rw [if_neg hreader]
    rfl

/-- The object goes on after a call on it. -/
theorem left_left (h : LockLog) (o : ℕ) (s s' : Session) (between between' : Finset ℕ) :
    (h.left o s between).left o s' between' = h.left o s' between' := by
  rw [LockLog.left, LockLog.left, Function.update_idem, LockLog.left]

/-- No transaction begins for writing against an order that was kept. -/
theorem Orderly.begins {h : LockLog} {o version : ℕ} {replicated fault fault' : Bool}
    (hordered : h.Orderly (o, .begin true version replicated fault fault')) {s : Session}
    (hrolled : (h.session o).rollback fault = (.ok (), s)) (hnone : s.storage.transaction = none) :
    fault' = false ∧ ∃ t c, s.coordinator.begin true version replicated = (.ok t, c) := by
  have hcases := Session.rollback_cases (h.session o) fault
  rw [hrolled] at hcases
  rcases hordered with ⟨hsome, hkept⟩ | hthrew | ⟨rfl, rfl, hstorages, hothers⟩
  · cases hcases with
    | ended t c ht hbegun _ _ =>
      change (h.storages o).transacted = true at hbegun
      rw [hkept] at hbegun
      cases hbegun
    | nothing hnot => exact absurd hnone hsome
  · exact absurd (congrArg Prod.fst hrolled) hthrew
  · refine ⟨rfl, ?_⟩
    cases hcases with
    | ended t c ht hbegun hsame hwriting =>
      change (h.storages o).transaction = some t at ht
      rw [othersWriting, ht] at hothers
      exact Coordinator.begin_ok (hsame ▸ hstorages) (hwriting.trans hothers) version
    | nothing hnot =>
      change (h.storages o).transaction = none at hnone
      rw [othersWriting, hnone] at hothers
      exact Coordinator.begin_ok hstorages hothers version

/-- A `begin` keeps the lock in order, and is not refused for another writer. -/
theorem Keeps.began {h : LockLog} (hk : h.Keeps) {o version : ℕ} {writer replicated fault : Bool}
    {fault' : Bool} (hordered : h.Orderly (o, .begin writer version replicated fault fault'))
    {r : SessionOutcome Unit}
    (hbegin : (h.session o).begin writer version replicated fault fault' = some r) :
    (h.began o writer (decide (((h.session o).rollback fault).1 = .ok ())) r).Keeps ∧
      (writer = true → r.1 ≠ .error (.coordinator .invalidWriterOrder)) := by
  have hrolledBack := hk.rolledBack o fault
  have hcases := Session.rollback_cases (h.session o) fault
  rcases hrolled : (h.session o).rollback fault with ⟨e | u, s⟩
  · rw [hrolled] at hcases
    unfold Session.begin at hbegin
    rw [hrolled] at hbegin
    cases hbegin
    cases hcases with
    | threw _ c he => exact ⟨hk.stays rfl Iff.rfl, fun _ hw ↦ he (Except.error.inj hw)⟩
  rw [hrolled] at hrolledBack hcases
  change (h.left o s (h.between.erase o)).Keeps at hrolledBack
  have hreader : ¬s.storage.Writing := fun hw ↦
    Finset.notMem_erase o h.between ((hrolledBack.mem o).2 (by
      change (Function.update h.storages o s.storage o).Writing
      rwa [Function.update_self]))
  have hself : ((h.left o s (h.between.erase o)).storages o) = s.storage :=
    Function.update_self ..
  rcases Session.begin_cases hrolled writer version replicated fault' with
    ⟨-, -, hwaits⟩ | ⟨hfree, ⟨e, c, hnone, hresult, he⟩ | ⟨t, c, hresult⟩⟩
  · rw [hwaits] at hbegin
    cases hbegin
  · rw [hresult] at hbegin
    cases hbegin
    cases writer with
    | true =>
      obtain ⟨hfault, t, c', hok⟩ := Orderly.begins hordered hrolled hnone
      rcases he with ⟨-, hfault'⟩ | ⟨e', -, hthrew⟩
      · rw [hfault] at hfault'
        cases hfault'
      · rw [hok] at hthrew
        cases hthrew
    | false =>
      refine ⟨?_, nofun⟩
      have hstays := hrolledBack.stays (s := ⟨⟨none, s.storage.transacted, false⟩, c, s.locked⟩) rfl
        (iff_of_false (fun hw ↦ hw.1 rfl) (hself ▸ hreader))
      rw [left_left] at hstays
      exact hstays
  · rw [hresult] at hbegin
    cases hbegin
    refine ⟨?_, nofun⟩
    cases writer with
    | true =>
      have hempty : h.between.erase o = ∅ := by
        rw [← Finset.not_nonempty_iff_eq_empty]
        intro hsome
        have hlocked := hrolledBack.locked.2 hsome
        change s.locked = true at hlocked
        rw [hfree rfl] at hlocked
        cases hlocked
      have henters := hrolledBack.enters (o := o) (s := ⟨⟨some t, true, true⟩, c, true⟩) hempty rfl
        ((writing_of_begun rfl rfl).2 rfl)
      rw [left_left] at henters
      change (h.left o _ (insert o (h.between.erase o))).Keeps
      rw [hempty]
      exact henters
    | false =>
      have hstays := hrolledBack.stays (s := ⟨⟨some t, true, false⟩, c, s.locked⟩) rfl
        (iff_of_false (fun hw ↦ nomatch hw.2.2) (hself ▸ hreader))
      rw [left_left] at hstays
      exact hstays

private theorem keeps_step (h h' : LockLog) (a : ℕ × StorageCall) (hk : h.Keeps) (ha : h.Orderly a)
    (hstep : h.step a = some h') : h'.Keeps := by
  obtain ⟨o, a⟩ := a
  cases a with
  | begin writer version replicated fault fault' =>
    obtain ⟨r, hr, rfl⟩ := Option.map_eq_some_iff.1 hstep
    exact (hk.began ha hr).1
  | commit peers created fault =>
    cases hstep
    exact hk.committed o peers created fault ha
  | rollback fault =>
    cases hstep
    exact hk.rolledBack o fault
  | close fault =>
    cases hstep
    exact hk.closed o fault ha
  | allocate which how content =>
    cases hstep
    unfold Session.allocateAndWrite
    split <;> exact hk.stays rfl Iff.rfl

/-- The lock is held exactly while an object is between a `begin` for writing and what ends it.
While none is, such a `begin` does not wait and is not refused for another writer. -/
structure Disciplined (h : LockLog) : Prop where
  locked : h.locked = true ↔ h.between.Nonempty
  admitted : ∀ o version replicated fault fault', h.between = ∅ →
    h.Orderly (o, .begin true version replicated fault fault') →
      ∃ r, (h.session o).begin true version replicated fault fault' = some r ∧
        r.1 ≠ .error (.coordinator .invalidWriterOrder)

private theorem Keeps.disciplined {h : LockLog} (hk : h.Keeps) : h.Disciplined := by
  refine ⟨hk.locked, fun o version replicated fault fault' hnone hordered ↦ ?_⟩
  cases hbegin : (h.session o).begin true version replicated fault fault' with
  | some r => exact ⟨r, rfl, (hk.began hordered hbegin).2 rfl⟩
  | none =>
    have hrolledBack := hk.rolledBack o fault
    rcases hrolled : (h.session o).rollback fault with ⟨e | u, s⟩
    · unfold Session.begin at hbegin
      rw [hrolled] at hbegin
      cases hbegin
    · rw [hrolled] at hrolledBack
      change (h.left o s (h.between.erase o)).Keeps at hrolledBack
      rcases Session.begin_cases hrolled true version replicated fault' with
        ⟨-, hlocked, -⟩ | ⟨-, ⟨e, c, -, hresult, -⟩ | ⟨t, c, hresult⟩⟩
      · have hsome : (h.between.erase o).Nonempty := hrolledBack.locked.1 hlocked
        rw [hnone] at hsome
        exact absurd hsome (by simp)
      · rw [hresult] at hbegin
        cases hbegin
      · rw [hresult] at hbegin
        cases hbegin

/-- With any number of objects, in every run of orderly calls the lock is in order. -/
theorem disciplined_of_reached {initial : Opening} {h : LockLog}
    (hs : Reached step Orderly (start initial) h) : h.Disciplined := by
  refine (hs.invariant Keeps ⟨?_, ?_, fun o ↦ ?_⟩ keeps_step).disciplined
  · simp [start]
  · simp [start]
  · exact iff_of_false (Finset.notMem_empty o) not_writing_closed

/-- Two objects write one after the other, the first one closes before the second one begins. -/
theorem disciplined_of_reached_two :
    ∃ h, runAllowed step Orderly (start (.plain ⟨1, 32, 0, ∅⟩))
        [(0, .begin true 5 true false false), (1, .begin false 6 true false false),
          (0, .allocate 0 .create (some [1])), (0, .commit Coordinator.alone 7 false),
          (0, .close false), (1, .begin true 8 true false false)] = some h ∧
      h.locked = true ∧ h.between = {1} ∧ h.Disciplined := by
  have hrun : (runAllowed step Orderly (start (.plain ⟨1, 32, 0, ∅⟩))
      [(0, .begin true 5 true false false), (1, .begin false 6 true false false),
        (0, .allocate 0 .create (some [1])), (0, .commit Coordinator.alone 7 false),
        (0, .close false), (1, .begin true 8 true false false)]).map
      (fun h ↦ (h.locked, h.between)) = some (true, {1}) := by decide +kernel
  obtain ⟨h, hs, hvalue⟩ := Option.map_eq_some_iff.1 hrun
  simp only [Prod.mk.injEq] at hvalue
  exact ⟨h, hs, hvalue.1, hvalue.2, disciplined_of_reached (reached_of_runAllowed .start hs)⟩

/-- After a commit the `begin` of another object is refused and leaves the lock held, and so does a
`close` of an object that writes. -/
theorem committedWriter_not_admitted :
    (∃ h, run step (start (.plain ⟨1, 32, 0, ∅⟩)) [(0, .begin true 5 true false false),
        (0, .commit Coordinator.alone 6 false)] = some h ∧ h.between = ∅ ∧
      ∃ s, (h.session 1).begin true 7 true false false =
          some (.error (.coordinator .invalidWriterOrder), s) ∧ s.locked = true) ∧
    ∃ h, run step (start (.plain ⟨1, 32, 0, ∅⟩))
        [(0, .begin true 5 true false false), (0, .close false)] = some h ∧
      h.between = ∅ ∧ h.locked = true ∧
      (h.session 1).begin true 7 true false false = none := by
  constructor
  · have hrun : (run step (start (.plain ⟨1, 32, 0, ∅⟩)) [(0, .begin true 5 true false false),
        (0, .commit Coordinator.alone 6 false)]).map (fun h ↦ (h.between,
          ((h.session 1).begin true 7 true false false).map fun r ↦
            (decide (r.1 = .error (.coordinator .invalidWriterOrder)), r.2.locked))) =
        some (∅, some (true, true)) := by decide +kernel
    obtain ⟨h, hs, hvalue⟩ := Option.map_eq_some_iff.1 hrun
    simp only [Prod.mk.injEq] at hvalue
    obtain ⟨⟨e, s⟩, hr, hresult⟩ := Option.map_eq_some_iff.1 hvalue.2
    simp only [Prod.mk.injEq, decide_eq_true_eq] at hresult
    exact ⟨h, hs, hvalue.1, s, by rw [hr, hresult.1], hresult.2⟩
  · have hrun : (run step (start (.plain ⟨1, 32, 0, ∅⟩)) [(0, .begin true 5 true false false),
        (0, .close false)]).map (fun h ↦ (h.between, h.locked,
          ((h.session 1).begin true 7 true false false).isNone)) =
        some (∅, true, true) := by decide +kernel
    obtain ⟨h, hs, hvalue⟩ := Option.map_eq_some_iff.1 hrun
    simp only [Prod.mk.injEq, Option.isNone_iff_eq_none] at hvalue
    exact ⟨h, hs, hvalue⟩

end LockLog

end LibSpaces.Transactions
