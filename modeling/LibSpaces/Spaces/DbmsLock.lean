import LibSpaces.Spaces.Identities
import LibSpaces.Transactions.Returns

/-!
# The lock of a dbms

`dbms` for readers and writers, `src/src/storage/spaces/dbms.h:24–153`, with its recursive mutex as
one thread takes it. A `begin` that throws before the storage has begun keeps the lock, and a commit
that throws gives it back whether or not the storage has ended its transaction. What the tree and
the journal do is given with a call: the pages that are stored, and which of their calls throw.
-/

namespace LibSpaces.Spaces

open LibSpaces.Base LibSpaces.Stx LibSpaces.Transactions

/-- `dbms`, `dbms.h:24–36`: how often its thread has locked `resource_x`, and whether it has
unlocked it once more than that. -/
structure GuardedDbms where
  session : Session
  isReader : Bool
  resourceX : ℕ
  unlockedFree : Bool
  id : ℤ
  startId : ℤ

/-- The storage calls of `begin` that throw. -/
structure BeginFaults where
  discard : Bool
  begin : Bool
  reload : Bool
  bootValue : Bool

/-- The storage calls of `commit` that throw, and the pages that `flush_buffers` stores before it
returns or throws. -/
structure CommitFaults where
  discard : Bool
  bootValue : Bool
  pages : List (ℕ × StorageAction × Bytes)
  flush : Bool
  merge : Bool
  localWrites : Bool
  synch : Bool

/-- What a call returns or throws, and what it leaves. -/
abbrev DbmsOutcome (α : Type) := Except StorageThrown α × GuardedDbms

namespace GuardedDbms

/-- `storage.is_transacted`. -/
def transacted (d : GuardedDbms) : Bool := d.session.storage.transacted

/-- The mutex is locked once more. -/
def lock (d : GuardedDbms) : GuardedDbms := { d with resourceX := d.resourceX + 1 }

/-- An unlock of a mutex that its thread does not hold is undefined, here it is noted. -/
def unlock (d : GuardedDbms) : GuardedDbms :=
  if d.resourceX = 0 then { d with unlockedFree := true }
  else { d with resourceX := d.resourceX - 1 }

/-- `stale`, `abstracted_storage.h:274–277`. -/
def stale (d : GuardedDbms) : Bool :=
  match d.session.storage.transaction with
  | none => true
  | some t => decide ((d.session.coordinator.versions t).order ≠ d.session.coordinator.order)

/-- `is_readonly`, `abstracted_storage.h:291–294`. -/
def isReadonly (d : GuardedDbms) : Bool :=
  match d.session.storage.transaction with
  | none => true
  | some t => (d.session.coordinator.versions t).readOnly

/-- The constructor, `dbms.h:48–55`, over the coordinator of its storage. There is no object where
it throws. -/
def construct (isReader : Bool) (coordinator : Coordinator) (locked : Bool) (version : ℕ)
    (replicated : Bool) (f : BeginFaults) (startId : ℤ) : Option GuardedDbms :=
  match Session.begin ⟨⟨none, false, !isReader⟩, coordinator, locked⟩ (!isReader) version replicated
      false f.begin with
  | some (.ok _, session) =>
    if f.reload then none
    else match session.rollback f.discard with
      | (.ok _, session) => some ⟨session, isReader, 0, false, 1, startId⟩
      | (.error _, _) => none
  | _ => none

/-- Whether the tree is reloaded once the storage has begun. -/
def reloads : SessionOutcome Unit → SessionOutcome Bool
  | (.error e, s) => (.error e, s)
  | (.ok _, s) => (.ok true, s)

/-- `abstracted_tx_begin_1`, `abstracted_storage.h:443–465`. -/
def txBegin (d : GuardedDbms) (version : ℕ) (replicated : Bool) (f : BeginFaults) :
    Option (SessionOutcome Bool) :=
  if d.isReader then
    if d.stale then match d.session.rollback f.discard with
      | (.error e, s) => some (.error e, s)
      | (.ok _, s) => (s.begin false version replicated f.discard f.begin).map reloads
    else some (.ok false, d.session)
  else if d.transacted = false ∨ d.isReadonly = true then
    (d.session.begin true version replicated f.discard f.begin).map reloads
  else some (.ok false, d.session)

/-- The block that the transaction reads. -/
def read (d : GuardedDbms) (a : ℕ) : Option Bytes :=
  match d.session.storage.transaction with
  | some t => d.session.coordinator.read t a
  | none => none

/-- `begin`, `dbms.h:72–82`. There is no outcome while a writer waits for the write lock. -/
def begin (d : GuardedDbms) (version : ℕ) (replicated : Bool) (f : BeginFaults) :
    Option (DbmsOutcome Unit) :=
  if d.transacted then some (.ok (), d)
  else
    let d := d.lock
    match d.txBegin version replicated f with
    | none => none
    | some (.error e, session) => some (.error e, { d with session := session })
    | some (.ok reload, session) =>
      let d := { d with session := session }
      if reload = true ∧ f.reload = true then some (.error .fault, d)
      else if f.bootValue then some (.error .fault, { d with id := 0 })
      else
        let id := savedId (d.read idAddress)
        some (.ok (), { d with id := id, startId := id })

/-- `rollback`, `dbms.h:83–93`. -/
def rollback (d : GuardedDbms) (discard : Bool) : DbmsOutcome Unit :=
  if d.transacted then match d.session.rollback discard with
    | (.error e, session) => (.error e, { d with session := session })
    | (.ok _, session) => (.ok (), unlock { d with session := session })
  else (.ok (), d)

/-- `commit` saves an identity that was given out, `dbms.h:128–131`. -/
def saveId (d : GuardedDbms) : GuardedDbms :=
  if d.startId ≠ d.id then
    { d with
      session := d.session.allocateAndWrite idAddress .create (some (writeSigned d.id))
      startId := d.id }
  else d

/-- `flush_buffers` stores pages. -/
def flushBuffers (d : GuardedDbms) (pages : List (ℕ × StorageAction × Bytes)) : GuardedDbms :=
  { d with
    session := pages.foldl (fun s p ↦ s.allocateAndWrite p.1 p.2.1 (some p.2.2)) d.session }

/-- `commit` of a writer, `dbms.h:126–141`. -/
def commitWriter (d : GuardedDbms) (peers : Peers) (created : ℕ) (f : CommitFaults) :
    DbmsOutcome Unit :=
  if d.startId ≠ d.id ∧ f.bootValue = true then (.error .fault, d)
  else
    let d := d.saveId.flushBuffers f.pages
    if f.flush then (.error .fault, d)
    else match d.session.commit peers created f.merge with
      | (.error e, session) => (.error e, { d with session := session })
      | (.ok _, session) =>
        if f.localWrites = true ∧ f.synch = true then (.error .fault, { d with session := session })
        else (.ok (), { d with session := session })

/-- The `try` block of `commit`, `dbms.h:121–141`. -/
def tryCommit (d : GuardedDbms) (peers : Peers) (created : ℕ) (f : CommitFaults) :
    DbmsOutcome Unit :=
  if d.isReader then match d.session.rollback f.discard with
    | (.error e, session) => (.error e, { d with session := session })
    | (.ok _, session) => (.ok (), { d with session := session })
  else d.commitWriter peers created f

/-- `commit`, `dbms.h:117–153`: it unlocks in the handler, which throws on, and at the end. -/
def commit (d : GuardedDbms) (peers : Peers) (created : ℕ) (f : CommitFaults) : DbmsOutcome Bool :=
  if d.transacted then
    let r := d.tryCommit peers created f
    (r.1.map fun _ ↦ true, r.2.unlock)
  else (.ok false, d)

end GuardedDbms

/-- The calls of the thread, and whatever it and others do to the coordinator between them. -/
inductive GuardedCall
  | begin (version : ℕ) (replicated : Bool) (f : BeginFaults)
  | commit (peers : Peers) (created : ℕ) (f : CommitFaults)
  | rollback (discard : Bool)
  | genId
  | between (coordinator : Coordinator) (locked : Bool)

namespace GuardedDbms

/-- One call, whether it returns or throws. -/
def step (d : GuardedDbms) : GuardedCall → Option GuardedDbms
  | .begin version replicated f => (d.begin version replicated f).map Prod.snd
  | .commit peers created f => some (d.commit peers created f).2
  | .rollback discard => some (d.rollback discard).2
  | .genId => if d.id + 1 < 2 ^ 63 then some { d with id := d.id + 1 } else none
  | .between coordinator locked =>
    some { d with session := { d.session with coordinator := coordinator, locked := locked } }

/-- The thread holds the lock once in a transaction and not at all otherwise, and has not unlocked
it without holding it. -/
structure Disciplined (d : GuardedDbms) : Prop where
  depth : d.resourceX = if d.transacted then 1 else 0
  held : d.unlockedFree = false

/-- The storage of an idle object begins: a writer has its transaction still, or the coordinator
gives one. -/
def StorageBegins (d : GuardedDbms) (replicated : Bool) (f : BeginFaults) : Prop :=
  d.session.storage.transaction ≠ none ∨
    f.begin = false ∧ d.session.coordinator.CanBegin (!d.isReader) replicated

/-- The storage ends its transaction: that of a reader can be discarded, that of a writer can be
merged behind the pages that are stored. -/
def StorageEnds (d : GuardedDbms) (peers : Peers) (f : CommitFaults) : Prop :=
  if d.isReader then
    f.discard = false ∧ ∀ t ∈ d.session.storage.transaction, d.session.coordinator.CanDiscard t
  else
    (d.startId ≠ d.id → f.bootValue = false) ∧ f.flush = false ∧ f.merge = false ∧
      ∀ t ∈ d.session.storage.transaction,
        (d.saveId.flushBuffers f.pages).session.coordinator.CanMerge t peers

/-- A `begin` finds the object in a transaction or the storage begins, and a `commit` finds it
idle or the storage ends its transaction. -/
def InStep (d : GuardedDbms) : GuardedCall → Prop
  | .begin _ replicated f => d.transacted = true ∨ d.StorageBegins replicated f
  | .commit peers _ f => d.transacted = true → d.StorageEnds peers f
  | _ => True

/-- What holds between the calls of a disciplined thread: also, a reader keeps no transaction, and
what has begun has a transaction, for writing if the object is a writer. -/
structure Keeps (d : GuardedDbms) : Prop where
  disciplined : Disciplined d
  reader : d.isReader = true → d.transacted = false → d.session.storage.transaction = none
  begun : d.transacted = true →
    d.session.storage.transaction ≠ none ∧ d.session.storage.writer = !d.isReader

variable {d : GuardedDbms}

private theorem keeps_construct {isReader : Bool} {coordinator : Coordinator} {locked : Bool}
    {version : ℕ} {replicated : Bool} {f : BeginFaults} {startId : ℤ}
    (h : construct isReader coordinator locked version replicated f startId = some d) :
    Keeps d := by
  rw [construct] at h
  split at h
  · next session hbegin =>
    rcases Session.begin_cases_iff rfl hbegin with ⟨-, t, c, hr⟩ | ⟨-, e, c, hr⟩
    · cases hr
      split at h
      · cases h
      rcases Session.rollback_cases_iff (s := ⟨⟨some t, true, !isReader⟩, c, _⟩) rfl rfl
        f.discard with ⟨-, c', locked', hrolled⟩ | ⟨-, e, c', hrolled⟩
      · rw [hrolled] at h
        cases h
        exact ⟨⟨rfl, rfl⟩, fun _ _ ↦ rfl, nofun⟩
      · rw [hrolled] at h
        cases h
    · cases hr
  · cases h

/-- The storage of an idle object is always begun. -/
theorem txBegin_idle (hk : d.Keeps) (hidle : d.transacted = false) (version : ℕ)
    (replicated : Bool) (f : BeginFaults) :
    d.lock.txBegin version replicated f =
      (d.session.begin (!d.isReader) version replicated f.discard f.begin).map reloads := by
  obtain ⟨session, isReader, resourceX, unlockedFree, id, startId⟩ := d
  change session.storage.transacted = false at hidle
  cases isReader with
  | true =>
    have hnone : session.storage.transaction = none := hk.reader rfl hidle
    simp only [txBegin, lock, stale, hnone, Session.rollback_idle hidle, if_true, Bool.not_true]
  | false => simp [txBegin, lock, transacted, hidle]

/-- An idle thread locks. The storage begins, whatever is thrown then, or it does not. -/
theorem begin_spec (hk : d.Keeps) (hidle : d.transacted = false) {version : ℕ} {replicated : Bool}
    {f : BeginFaults} {r : DbmsOutcome Unit} (h : d.begin version replicated f = some r) :
    (d.StorageBegins replicated f ∧
        (∃ t c locked, r.2.session = ⟨⟨some t, true, !d.isReader⟩, c, locked⟩) ∨
      ¬ d.StorageBegins replicated f ∧ r.2.transacted = false) ∧
    r.2.isReader = d.isReader ∧ r.2.resourceX = d.resourceX + 1 ∧
      r.2.unlockedFree = d.unlockedFree := by
  rw [begin, if_neg (by simp [hidle])] at h
  dsimp only at h
  rw [txBegin_idle hk hidle] at h
  cases hbegin : d.session.begin (!d.isReader) version replicated f.discard f.begin with
  | none =>
    rw [hbegin] at h
    cases h
  | some x =>
    rw [hbegin, Option.map_some] at h
    rcases Session.begin_cases_iff hidle hbegin with ⟨hbegins, t, c, rfl⟩ | ⟨hnot, e, c, rfl⟩
    · obtain ⟨id, startId, hr⟩ : ∃ id startId, r.2 =
          ⟨⟨⟨some t, true, !d.isReader⟩, c, !d.isReader || d.session.locked⟩, d.isReader,
            d.resourceX + 1, d.unlockedFree, id, startId⟩ := by
        dsimp only [reloads] at h
        split at h
        · cases h
          exact ⟨_, _, rfl⟩
        split at h
        · cases h
          exact ⟨_, _, rfl⟩
        · cases h
          exact ⟨_, _, rfl⟩
      rw [hr]
      exact ⟨.inl ⟨hbegins, t, c, _, rfl⟩, rfl, rfl, rfl⟩
    · cases h
      exact ⟨.inr ⟨hnot, hidle⟩, rfl, rfl, rfl⟩

private theorem unlock_of_depth (h : d.resourceX = 1) : d.unlock = { d with resourceX := 0 } := by
  rw [unlock, h]
  rfl

/-- In a transaction the lock is held once. -/
theorem Keeps.depth_of_begun (hk : d.Keeps) (hbegun : d.transacted = true) : d.resourceX = 1 := by
  rw [hk.disciplined.depth, if_pos hbegun]

/-- A rollback that returns unlocks, one that throws leaves the transaction and the lock. -/
theorem Keeps.rollback (hk : d.Keeps) (discard : Bool) : (d.rollback discard).2.Keeps := by
  unfold GuardedDbms.rollback
  split
  next hbegun =>
    obtain ⟨t, ht⟩ := Option.ne_none_iff_exists'.1 (hk.begun hbegun).1
    have hdepth := hk.depth_of_begun hbegun
    rcases Session.rollback_cases_iff ht hbegun discard with
      ⟨-, c, locked, hrolled⟩ | ⟨-, e, c, hrolled⟩
    · have hunlock :=
        unlock_of_depth (d := { d with session := ⟨.closed, c, locked⟩ }) hdepth
      rw [hrolled]
      dsimp only
      rw [hunlock]
      exact ⟨⟨rfl, hk.disciplined.held⟩, fun _ _ ↦ rfl, nofun⟩
    · rw [hrolled]
      exact ⟨⟨hk.disciplined.depth, hk.disciplined.held⟩, hk.reader, hk.begun⟩
  next => exact hk

private theorem storage_allocateAndWrite (s : Session) (which : ℕ) (how : StorageAction)
    (content : Option Bytes) : (s.allocateAndWrite which how content).storage = s.storage := by
  unfold Session.allocateAndWrite
  split <;> rfl

private theorem storage_saveId_flushBuffers (d : GuardedDbms)
    (pages : List (ℕ × StorageAction × Bytes)) :
    (d.saveId.flushBuffers pages).session.storage = d.session.storage := by
  have hsave : d.saveId.session.storage = d.session.storage := by
    unfold saveId
    split
    · exact storage_allocateAndWrite _ _ _ _
    · rfl
  rw [← hsave, flushBuffers]
  generalize d.saveId.session = s
  dsimp only
  induction pages generalizing s with
  | nil => rfl
  | cons p pages ih => rw [List.foldl_cons, ih, storage_allocateAndWrite]

private theorem lock_saveId_flushBuffers (d : GuardedDbms)
    (pages : List (ℕ × StorageAction × Bytes)) :
    (d.saveId.flushBuffers pages).isReader = d.isReader ∧
      (d.saveId.flushBuffers pages).resourceX = d.resourceX ∧
      (d.saveId.flushBuffers pages).unlockedFree = d.unlockedFree := by
  unfold saveId
  split <;> exact ⟨rfl, rfl, rfl⟩

/-- What the storage of a writer comes to in a commit. -/
theorem commitWriter_spec (hk : d.Keeps) (hbegun : d.transacted = true)
    (hwriter : d.isReader = false) (peers : Peers) (created : ℕ) (f : CommitFaults) :
    (d.StorageEnds peers f ∧ (d.commitWriter peers created f).2.transacted = false ∨
      ¬ d.StorageEnds peers f ∧ (d.commitWriter peers created f).2.transacted = true) ∧
    (d.commitWriter peers created f).2.isReader = d.isReader ∧
      (d.commitWriter peers created f).2.resourceX = d.resourceX ∧
      (d.commitWriter peers created f).2.unlockedFree = d.unlockedFree := by
  obtain ⟨t, ht⟩ := Option.ne_none_iff_exists'.1 (hk.begun hbegun).1
  have hends : d.StorageEnds peers f ↔ (d.startId ≠ d.id → f.bootValue = false) ∧
      f.flush = false ∧ f.merge = false ∧
        (d.saveId.flushBuffers f.pages).session.coordinator.CanMerge t peers := by
    rw [StorageEnds, hwriter, ht]
    simp
  have hstorage := storage_saveId_flushBuffers d f.pages
  have hlock := lock_saveId_flushBuffers d f.pages
  rw [hends]
  unfold commitWriter
  split
  next hboot =>
    refine ⟨.inr ⟨fun h ↦ ?_, hbegun⟩, rfl, rfl, rfl⟩
    exact absurd (hboot.2.symm.trans (h.1 hboot.1)) nofun
  next hboot =>
  have hboot' (hne : d.startId ≠ d.id) : f.bootValue = false :=
    Bool.eq_false_iff.2 fun htrue ↦ hboot ⟨hne, htrue⟩
  generalize d.saveId.flushBuffers f.pages = stored at hstorage hlock ⊢
  dsimp only
  split
  next hflush =>
    refine ⟨.inr ⟨fun h ↦ absurd (hflush.symm.trans h.2.1) nofun, ?_⟩, hlock⟩
    exact (congrArg AbstractedStorage.transacted hstorage).trans hbegun
  next hflush =>
  have hflush' : f.flush = false := Bool.eq_false_iff.2 hflush
  have hw : stored.session.storage.writer = true := by
    rw [hstorage, (hk.begun hbegun).2, hwriter]
    rfl
  rcases Session.commit_cases_iff ((congrArg AbstractedStorage.transaction hstorage).trans ht) hw
    peers created f.merge with ⟨hcan, c, hcommit⟩ | ⟨hcannot, e, c, hcommit⟩
  · rw [hcommit]
    refine ⟨.inl ⟨⟨hboot', hflush', hcan⟩, ?_⟩, ?_⟩
    · dsimp only
      split <;> rfl
    · dsimp only
      split <;> exact hlock
  · rw [hcommit]
    refine ⟨.inr ⟨fun h ↦ hcannot h.2.2, ?_⟩, hlock⟩
    exact (congrArg AbstractedStorage.transacted hstorage).trans hbegun

/-- What the storage of a reader or a writer comes to in a commit. -/
theorem tryCommit_spec (hk : d.Keeps) (hbegun : d.transacted = true) (peers : Peers) (created : ℕ)
    (f : CommitFaults) :
    (d.StorageEnds peers f ∧ (d.tryCommit peers created f).2.transacted = false ∧
        (d.isReader = true → (d.tryCommit peers created f).2.session.storage.transaction = none) ∨
      ¬ d.StorageEnds peers f ∧ (d.tryCommit peers created f).2.transacted = true) ∧
    (d.tryCommit peers created f).2.isReader = d.isReader ∧
      (d.tryCommit peers created f).2.resourceX = d.resourceX ∧
      (d.tryCommit peers created f).2.unlockedFree = d.unlockedFree := by
  rw [tryCommit]
  cases hreader : d.isReader with
  | true =>
    obtain ⟨t, ht⟩ := Option.ne_none_iff_exists'.1 (hk.begun hbegun).1
    have hends : d.StorageEnds peers f ↔
        f.discard = false ∧ d.session.coordinator.CanDiscard t := by
      rw [StorageEnds, hreader, ht]
      simp
    rw [if_pos rfl, hends]
    rcases Session.rollback_cases_iff ht hbegun f.discard with
      ⟨hcan, c, locked, hrolled⟩ | ⟨hcannot, e, c, hrolled⟩
    · rw [hrolled]
      exact ⟨.inl ⟨hcan, rfl, fun _ ↦ rfl⟩, rfl, rfl, rfl⟩
    · rw [hrolled]
      exact ⟨.inr ⟨hcannot, hbegun⟩, rfl, rfl, rfl⟩
  | false =>
    obtain ⟨hspec, hlock⟩ := commitWriter_spec hk hbegun hreader peers created f
    rw [hreader] at hlock
    rw [if_neg nofun]
    exact ⟨hspec.imp_left fun h ↦ ⟨h.1, h.2, nofun⟩, hlock⟩

/-- A commit unlocks, whether or not the storage has ended its transaction. -/
theorem commit_of_begun (hk : d.Keeps) (hbegun : d.transacted = true) (peers : Peers)
    (created : ℕ) (f : CommitFaults) :
    (d.commit peers created f).2 = { (d.tryCommit peers created f).2 with resourceX := 0 } := by
  obtain ⟨-, -, hresource, -⟩ := tryCommit_spec hk hbegun peers created f
  rw [commit, if_pos hbegun]
  exact unlock_of_depth (hresource.trans (hk.depth_of_begun hbegun))

/-- A call in step keeps the discipline, and no other call does. -/
theorem Keeps.step (hk : d.Keeps) {a : GuardedCall} {d' : GuardedDbms} (h : d.step a = some d') :
    (d.InStep a → d'.Keeps) ∧ (¬ d.InStep a → ¬ d'.Disciplined) := by
  cases a with
  | begin version replicated f =>
    obtain ⟨r, hbegin, rfl⟩ := Option.map_eq_some_iff.1 h
    cases hbegun : d.transacted with
    | true =>
      rw [GuardedDbms.begin, if_pos hbegun] at hbegin
      cases hbegin
      exact ⟨fun _ ↦ hk, fun hnot ↦ absurd (.inl hbegun) hnot⟩
    | false =>
      have hdepth : d.resourceX = 0 := by rw [hk.disciplined.depth, hbegun]; rfl
      obtain ⟨hcases, hreader, hresource, hheld⟩ := begin_spec hk hbegun hbegin
      rw [hdepth] at hresource
      rcases hcases with ⟨hbegins, t, c, locked, hsession⟩ | ⟨hnot, hidle⟩
      · have htransacted : r.2.transacted = true := by rw [transacted, hsession]
        refine ⟨fun _ ↦ ⟨⟨?_, hheld.trans hk.disciplined.held⟩, fun _ hidle ↦ ?_, fun _ ↦ ?_⟩,
          fun hnot ↦ absurd (.inr hbegins) hnot⟩
        · rw [htransacted, hresource]
          rfl
        · exact absurd (htransacted.symm.trans hidle) nofun
        · rw [hsession, hreader]
          exact ⟨nofun, rfl⟩
      · refine ⟨fun hin ↦ ?_, fun _ hd ↦ ?_⟩
        · exact absurd (hin.resolve_left (by simp [hbegun])) hnot
        · have := hd.depth
          rw [hidle, hresource] at this
          cases this
  | commit peers created f =>
    cases h
    cases hbegun : d.transacted with
    | false =>
      have hsame : (d.commit peers created f).2 = d := by
        rw [GuardedDbms.commit, if_neg (by simp [hbegun])]
      have hin : d.InStep (.commit peers created f) :=
        fun h ↦ absurd (hbegun.symm.trans h) nofun
      rw [hsame]
      exact ⟨fun _ ↦ hk, fun hnot ↦ absurd hin hnot⟩
    | true =>
      obtain ⟨hcases, hreader, -, hheld⟩ := tryCommit_spec hk hbegun peers created f
      rw [commit_of_begun hk hbegun]
      rcases hcases with ⟨hends, hidle, hnone⟩ | ⟨hnot, htransacted⟩
      · have hin : d.InStep (.commit peers created f) := fun _ ↦ hends
        have hended : (d.tryCommit peers created f).2.transacted ≠ true := by simp [hidle]
        refine ⟨fun _ ↦ ⟨⟨?_, hheld.trans hk.disciplined.held⟩,
          fun hr _ ↦ hnone (hreader.symm.trans hr), fun hb ↦ ?_⟩, fun hnot ↦ absurd hin hnot⟩
        · exact (if_neg hended).symm
        · exact absurd hb hended
      · refine ⟨fun hin ↦ absurd (hin hbegun) hnot, fun _ hd ↦ ?_⟩
        exact absurd (hd.depth.trans (if_pos htransacted)) nofun
  | rollback discard =>
    cases h
    exact ⟨fun _ ↦ hk.rollback discard, fun hnot ↦ absurd trivial hnot⟩
  | genId =>
    rw [GuardedDbms.step] at h
    split at h
    · cases h
      exact ⟨fun _ ↦ ⟨⟨hk.disciplined.depth, hk.disciplined.held⟩, hk.reader, hk.begun⟩,
        fun hnot ↦ absurd trivial hnot⟩
    · cases h
  | between coordinator locked =>
    cases h
    exact ⟨fun _ ↦ ⟨⟨hk.disciplined.depth, hk.disciplined.held⟩, hk.reader, hk.begun⟩,
      fun hnot ↦ absurd trivial hnot⟩

/-- The discipline holds after each call of a series if and only if each call of it is in step. -/
theorem disciplined_always_iff {isReader : Bool} {coordinator : Coordinator} {locked : Bool}
    {version : ℕ} {replicated : Bool} {f : BeginFaults} {startId : ℤ}
    (h : construct isReader coordinator locked version replicated f startId = some d)
    (calls : List GuardedCall) :
    Always GuardedDbms.step Disciplined d calls ↔ EachStep GuardedDbms.step InStep d calls :=
  always_iff_eachStep (fun _ (hk : Keeps _) ↦ hk.disciplined)
    (fun _ _ _ hk hstep ↦ (hk.step hstep).1) (fun _ _ _ hk hstep ↦ (hk.step hstep).2) calls d
    (keeps_construct h)

/-- Nothing throws in `begin`. -/
def noFaults : BeginFaults := ⟨false, false, false, false⟩

/-- A writer on a new storage. -/
def newWriter : Option GuardedDbms :=
  construct false (.start (.plain ⟨1, 32, 0, ∅⟩)) false 5 true noFaults 1

/-- The tree cannot be reloaded after the storage has begun, and the writer rolls back. -/
theorem disciplined_always_iff_reload : ∃ d, newWriter = some d ∧
    Always GuardedDbms.step Disciplined d
      [.begin 6 true { noFaults with reload := true }, .rollback false] := by
  have hbegins : newWriter.map
      (fun d ↦ decide (d.session.coordinator.CanBegin (!d.isReader) true)) =
      some true := by decide +kernel
  obtain ⟨d, hd, hcan⟩ := Option.map_eq_some_iff.1 hbegins
  refine ⟨d, hd, (disciplined_always_iff hd _).2 fun _ _ ↦ ⟨.inr (.inr ⟨rfl, ?_⟩), fun _ _ ↦ ?_⟩⟩
  · exact of_decide_eq_true hcan
  · exact ⟨trivial, trivial⟩

/-- The replicants cannot begin: the writer holds the lock and is in no transaction. The pages
cannot be stored in a commit: it has given the lock back, and the rollback unlocks again. -/
theorem not_disciplined_thrown :
    (newWriter.bind fun d ↦ run GuardedDbms.step d [.begin 6 false noFaults]).map
        (fun d ↦ (d.transacted, d.resourceX, d.unlockedFree)) = some (false, 1, false) ∧
      (newWriter.bind fun d ↦ run GuardedDbms.step d
        [.begin 6 true noFaults, .commit ⟨false, false, false, true⟩ 7
          ⟨false, false, [], true, false, false, false⟩, .rollback false]).map
        (fun d ↦ (d.transacted, d.resourceX, d.unlockedFree)) = some (false, 0, true) ∧
      ¬ ∀ (isReader : Bool) (coordinator : Coordinator) (locked : Bool) (version : ℕ)
        (replicated : Bool) (f : BeginFaults) (startId : ℤ) (d : GuardedDbms),
        construct isReader coordinator locked version replicated f startId = some d →
          ∀ calls, Always GuardedDbms.step Disciplined d calls := by
  have hthrown : (newWriter.bind fun d ↦ run GuardedDbms.step d [.begin 6 false noFaults]).map
      (fun d ↦ (d.transacted, d.resourceX, d.unlockedFree)) = some (false, 1, false) := by
    decide +kernel
  refine ⟨hthrown, by decide +kernel, fun hall ↦ ?_⟩
  obtain ⟨d', hrun, hvalue⟩ := Option.map_eq_some_iff.1 hthrown
  obtain ⟨d, hd, hrun⟩ := Option.bind_eq_some_iff.1 hrun
  simp only [Prod.mk.injEq] at hvalue
  have hdepth := ((hall _ _ _ _ _ _ _ d hd [.begin 6 false noFaults]).last hrun).depth
  rw [hvalue.1, hvalue.2.1] at hdepth
  cases hdepth

end GuardedDbms

end LibSpaces.Spaces
