import LibSpaces.Transactions.BlockCache

/-!
# The blocks after a rollback

A rollback drops the blocks in memory and returns the table to the last commit. The result
variables of the statements are kept, so the address that was written to the table or read from it
last is found once more where it has no row.
-/

namespace LibSpaces.Transactions

open LibSpaces.Base

namespace SqliteAllocator

/-- Outside a transaction the rows are the committed ones, a transaction has a session, and a
storage without a file has neither a session nor rows. -/
structure Recoverable (s : SqliteAllocator) : Prop where
  unchanged : s.transacted = false → s.rows = s.committed
  opened : s.transacted = true → s.session = true
  new : s.isNew = true → s.session = false ∧ s.committed = ∅
  permanent : s.transient = false

/-- The states differ in what is in memory only. -/
structure SameFile (s s' : SqliteAllocator) : Prop where
  rows : s'.rows = s.rows
  committed : s'.committed = s.committed
  transacted : s'.transacted = s.transacted
  session : s'.session = s.session
  isNew : s'.isNew = s.isNew
  transient : s'.transient = s.transient

/-- Nothing was committed or rolled back between the states. -/
structure Continues (s s' : SqliteAllocator) : Prop where
  committed : s'.committed = s.committed
  session : s.session = true → s'.session = true
  transacted : s.transacted = true → s'.transacted = true
  recoverable : s'.Recoverable

variable {s s' s'' : SqliteAllocator} {a : ℕ} {size : ℕ → ℤ}

/-- A state has its own file. -/
theorem SameFile.refl (s : SqliteAllocator) : SameFile s s := ⟨rfl, rfl, rfl, rfl, rfl, rfl⟩

private theorem SameFile.trans (h : SameFile s s') (h' : SameFile s' s'') : SameFile s s'' :=
  ⟨h'.rows.trans h.rows, h'.committed.trans h.committed, h'.transacted.trans h.transacted,
    h'.session.trans h.session, h'.isNew.trans h.isNew, h'.transient.trans h.transient⟩

private theorem SameFile.continues (h : SameFile s s') (hs : s.Recoverable) : Continues s s' := by
  refine ⟨h.committed, fun ho ↦ h.session.trans ho, fun ht ↦ h.transacted.trans ht, ?_, ?_, ?_, ?_⟩
  · rw [h.transacted, h.rows, h.committed]
    exact hs.unchanged
  · rw [h.transacted, h.session]
    exact hs.opened
  · rw [h.isNew, h.session, h.committed]
    exact hs.new
  · exact h.transient.trans hs.permanent

private theorem Continues.trans (h : Continues s s') (h' : Continues s' s'') : Continues s s'' :=
  ⟨h'.committed.trans h.committed, h'.session ∘ h.session, h'.transacted ∘ h.transacted,
    h'.recoverable⟩

private theorem sameFile_reflectUse (s : SqliteAllocator) (a : ℕ) :
    SameFile s (s.reflectUse size a) := by
  rw [SqliteAllocator.reflectUse]
  split <;> exact ⟨rfl, rfl, rfl, rfl, rfl, rfl⟩

/-- Dropping a block from the cache does not touch the file. -/
theorem sameFile_drop (s : SqliteAllocator) (a : ℕ) : SameFile s (s.drop size a) :=
  (sameFile_reflectUse s a).trans ⟨rfl, rfl, rfl, rfl, rfl, rfl⟩

/-- Neither does a series of steps that do not touch it. -/
theorem sameFile_foldl {f : SqliteAllocator → ℕ → SqliteAllocator}
    (hf : ∀ s a, SameFile s (f s a)) (l : List ℕ) (s : SqliteAllocator) :
    SameFile s (l.foldl f s) := by
  induction l generalizing s with
  | nil => exact .refl s
  | cons a l ih => exact (hf s a).trans (ih (f s a))

private theorem sameFile_collect (limit : ℤ) (release : Bool) (blocks byAddress : List ℕ)
    (s : SqliteAllocator) : SameFile s (collect size limit release blocks byAddress s).2 := by
  induction blocks generalizing byAddress s with
  | nil => exact .refl s
  | cons b blocks ih =>
    rw [collect]
    split
    · exact ih _ s
    · split
      · exact (sameFile_drop s b).trans (ih _ _)
      · exact ih _ s

/-- The parts of the operations that neither commit nor roll back respect a relation. -/
structure Respects (R : SqliteAllocator → SqliteAllocator → Prop) : Prop where
  trans : ∀ {s s' s''}, R s s' → R s' s'' → R s s''
  same : ∀ {s s'}, SameFile s s' → R s s'
  getSession : ∀ s, R s s.getSession
  beginTransaction : ∀ s, R s s.beginTransaction
  writeBlock : ∀ s a, s.transacted = true → R s (s.writeBlock a)

private theorem transacted_beginTransaction (s : SqliteAllocator) :
    s.beginTransaction.transacted = true := by
  rw [SqliteAllocator.beginTransaction]
  split
  · next h => exact h
  · rfl

private theorem transacted_writeBlock (s : SqliteAllocator) (a : ℕ) :
    (s.writeBlock a).transacted = s.transacted := by
  rw [SqliteAllocator.writeBlock]
  split
  · split <;> rfl
  · rfl

namespace Respects

variable {R : SqliteAllocator → SqliteAllocator → Prop}

private theorem writeBack (hR : Respects R) (limit : ℤ) (release : Bool) (mods : ℕ)
    (blocks : List ℕ) (ht : s.transacted = true) :
    R s (SqliteAllocator.writeBack size limit release mods blocks s) := by
  induction blocks generalizing mods s with
  | nil => exact hR.same (.refl s)
  | cons b blocks ih =>
    have hnext : R s (if release then (s.writeBlock b).drop size b
        else (s.writeBlock b).reflectUse size b) := by
      refine hR.trans (hR.writeBlock s b ht) (hR.same ?_)
      cases release with
      | true => exact sameFile_drop _ b
      | false => exact sameFile_reflectUse _ b
    have hwritten : (s.writeBlock b).transacted = true := (transacted_writeBlock s b).trans ht
    have htransacted : (if release then (s.writeBlock b).drop size b
        else (s.writeBlock b).reflectUse size b).transacted = true := by
      cases release with
      | true => exact (sameFile_drop _ b).transacted.trans hwritten
      | false => exact (sameFile_reflectUse _ b).transacted.trans hwritten
    rw [SqliteAllocator.writeBack]
    generalize (if release then (s.writeBlock b).drop size b
      else (s.writeBlock b).reflectUse size b) = s' at hnext htransacted ⊢
    split
    · exact hnext
    · exact hR.trans hnext (ih _ htransacted)

/-- An eviction is made of the steps of the relation. -/
theorem flushBack (hR : Respects R) (factor : ℤ) (release : Bool) (s : SqliteAllocator) :
    R s (SqliteAllocator.flushBack size factor release s) := by
  have hreflected := sameFile_foldl (f := SqliteAllocator.reflectUse size) sameFile_reflectUse
    s.allocations.keys s
  rw [SqliteAllocator.flushBack]
  dsimp only
  generalize s.allocations.keys.foldl (SqliteAllocator.reflectUse size) s = s₁ at hreflected ⊢
  have hcollected := hR.same (hreflected.trans
    (@sameFile_collect size (s.use * factor) release s₁.byClock [] s₁))
  split
  · exact hcollected
  · have hbegun := hR.trans hcollected (hR.beginTransaction _)
    exact hR.trans (hR.trans hbegun (hR.writeBack _ _ _ _ (transacted_beginTransaction _)))
      (hR.getSession _)

/-- So is the check of the use of memory. -/
theorem checkUse (hR : Respects R) (s : SqliteAllocator) (depleted : Bool) :
    R s (s.checkUse size depleted) := by
  rw [SqliteAllocator.checkUse]
  split
  · exact hR.trans (hR.flushBack 30 true s) (hR.getSession _)
  · exact hR.same (.refl s)

end Respects

private theorem sameFile_hand (s : SqliteAllocator) (a : ℕ) (d : Descriptor) :
    SameFile s (s.hand size a d) := by
  have hset : SameFile s { s with
      clock := (s.clock + 1) % 2 ^ 32
      allocations := s.allocations.insert a { d with clock := (s.clock + 1) % 2 ^ 32 } } :=
    ⟨rfl, rfl, rfl, rfl, rfl, rfl⟩
  exact hset.trans (sameFile_reflectUse _ a)

private theorem sameFile_assign (s : SqliteAllocator) (a : ℕ) (content : Option Bytes) :
    SameFile s (s.assign a content) := by
  unfold assign
  split <;> exact ⟨rfl, rfl, rfl, rfl, rfl, rfl⟩

private theorem sameFile_select (s : SqliteAllocator) (a : ℕ) : SameFile s (s.select a) := by
  rw [select]
  split <;> exact ⟨rfl, rfl, rfl, rfl, rfl, rfl⟩

variable {which : ℕ} {how : StorageAction} {content : Option Bytes} {sizeAfter : ℕ → ℤ}

namespace Respects

variable {R : SqliteAllocator → SqliteAllocator → Prop}

private theorem getBuffer (hR : Respects R) (s : SqliteAllocator) (a : ℕ) :
    R s (s.getBuffer a).2 := by
  rw [SqliteAllocator.getBuffer]
  split
  · exact hR.same (.refl s)
  · have hcleared : SameFile s.getSession { s.getSession with currentVersion := 0 } :=
      ⟨rfl, rfl, rfl, rfl, rfl, rfl⟩
    exact hR.trans (hR.getSession s) (hR.same (hcleared.trans (sameFile_select _ a)))

private theorem findBlock (hR : Respects R) (s : SqliteAllocator) (which : ℕ)
    (how : StorageAction) :
    R s (s.findBlock size which how).2 := by
  have hnext : ∀ next, SameFile s { s with next := next } := fun _ ↦ ⟨rfl, rfl, rfl, rfl, rfl, rfl⟩
  rw [SqliteAllocator.findBlock]
  split
  · split
    · exact hR.same (.refl s)
    · exact hR.same ((hnext _).trans (sameFile_hand _ _ _))
  · split
    · exact hR.same (sameFile_hand _ _ _)
    · split
      · exact hR.same ((hnext _).trans (sameFile_hand _ _ _))
      · have hbuffer := hR.getBuffer s which
        split
        · next s₁ hfound =>
          rw [hfound] at hbuffer
          exact hbuffer
        · next s₁ hfound =>
          rw [hfound] at hbuffer
          dsimp only
          split
          · exact hR.trans hbuffer (hR.same (sameFile_hand s₁ _ _))
          · exact hbuffer

end Respects

private theorem sameFile_finished (found : Except Thrown (Option (ℕ × Bytes)) × SqliteAllocator) :
    SameFile found.2 (finished sizeAfter how content found) := by
  obtain ⟨_ | _ | ⟨a, block⟩, s⟩ := found
  · exact .refl s
  · exact .refl s
  · rw [finished]
    split
    · exact sameFile_reflectUse s a
    · exact (sameFile_assign s a content).trans (sameFile_reflectUse _ a)

/-- A step that neither commits nor rolls back. -/
def Step.Pending : Step → Prop
  | .access .. | .beginNew | .flush _ | .reduce _ => True
  | .commit _ | .rollback _ => False

namespace Respects

variable {R : SqliteAllocator → SqliteAllocator → Prop}

private theorem access (hR : Respects R) (s : SqliteAllocator) (depleted : Bool) :
    R s (s.access size sizeAfter depleted which how content).2 := by
  have hcounted : SameFile (s.checkUse size depleted)
      (if how = .read then s.checkUse size depleted
        else { s.checkUse size depleted with
          changes := (s.checkUse size depleted).changes + 1 }) := by
    split <;> exact ⟨rfl, rfl, rfl, rfl, rfl, rfl⟩
  rw [access_eq]
  exact hR.trans (hR.checkUse s depleted) (hR.trans (hR.same hcounted)
    (hR.trans (hR.findBlock _ which how) (hR.same (sameFile_finished _))))

/-- So is every step inside a transaction. -/
theorem step_pending (hR : Respects R) (s : SqliteAllocator) {x : Step} (hx : x.Pending) :
    R s (s.step x).2 := by
  cases x with
  | access size sizeAfter depleted which how content => exact hR.access s depleted
  | beginNew => exact hR.beginTransaction s
  | commit size => exact hx.elim
  | rollback size => exact hx.elim
  | flush size =>
    change R s (s.flush size)
    rw [SqliteAllocator.flush]
    split
    · exact hR.same (.refl s)
    · exact hR.trans (hR.flushBack 85 false s) (hR.getSession _)
  | reduce size =>
    change R s (s.reduce size)
    rw [SqliteAllocator.reduce]
    split
    · exact hR.same (.refl s)
    · split
      · exact hR.trans (hR.flushBack 45 true s) (hR.getSession _)
      · exact hR.getSession s

end Respects

/-! ### What a rollback returns to -/

/-- The committed rows stay recoverable. -/
theorem respects_continues : Respects fun s s' ↦ s.Recoverable → Continues s s' where
  trans h h' hs := (h hs).trans (h' (h hs).recoverable)
  same h hs := h.continues hs
  getSession s hs := by
    rw [SqliteAllocator.getSession]
    split
    · exact (SameFile.refl s).continues hs
    · exact ⟨rfl, fun _ ↦ rfl, id, hs.unchanged, fun _ ↦ rfl,
        fun hnew ↦ absurd hnew Bool.false_ne_true, hs.permanent⟩
  beginTransaction s hs := by
    rw [SqliteAllocator.beginTransaction]
    split
    · exact (SameFile.refl s).continues hs
    · rw [SqliteAllocator.getSession]
      split
      · next hsession =>
        exact ⟨rfl, id, fun _ ↦ rfl, fun hf ↦ absurd hf Bool.false_ne_true.symm, fun _ ↦ hsession,
          hs.new, hs.permanent⟩
      · exact ⟨rfl, fun _ ↦ rfl, fun _ ↦ rfl, fun hf ↦ absurd hf Bool.false_ne_true.symm,
          fun _ ↦ rfl, fun hnew ↦ absurd hnew Bool.false_ne_true, hs.permanent⟩
  writeBlock s a ht hs := by
    rw [SqliteAllocator.writeBlock]
    split
    · split
      · exact ⟨rfl, id, id, fun hf ↦ absurd (ht.symm.trans hf) Bool.false_ne_true.symm, hs.opened,
          hs.new, hs.permanent⟩
      · exact (SameFile.refl s).continues hs
    · exact (SameFile.refl s).continues hs

private theorem Recoverable.step_pending (h : s.Recoverable) {x : Step} (hx : x.Pending) :
    Continues s (s.step x).2 :=
  respects_continues.step_pending s hx h

/-- A commit makes the rows the committed ones. -/
theorem Recoverable.commit (h : s.Recoverable) : (s.commit size).Recoverable := by
  rw [SqliteAllocator.commit]
  split
  · next ht =>
    have hflushed : Continues s (s.flushBack size 80 false) :=
      respects_continues.flushBack 80 false s h
    have hsession := hflushed.session (h.opened ht)
    refine ⟨fun _ ↦ rfl, fun hf ↦ absurd hf Bool.false_ne_true, fun hnew ↦ ?_,
      hflushed.recoverable.permanent⟩
    exact absurd (hsession.symm.trans (hflushed.recoverable.new hnew).1)
      Bool.false_ne_true.symm
  · exact h

/-- What a rollback leaves. -/
structure RolledBack (s s' : SqliteAllocator) : Prop where
  allocations : s'.allocations = ∅
  rows : s'.rows = s.committed
  committed : s'.committed = s.committed
  transacted : s'.transacted = false
  session : s'.session = false
  isNew : s'.isNew = s.isNew
  transient : s'.transient = s.transient
  currentAddress : s'.currentAddress = s.currentAddress

private theorem currentAddress_foldl_drop (l : List ℕ) (s : SqliteAllocator) :
    (l.foldl (drop size) s).currentAddress = s.currentAddress := by
  induction l generalizing s with
  | nil => rfl
  | cons a l ih =>
    rw [List.foldl_cons, ih]
    change (s.reflectUse size a).currentAddress = s.currentAddress
    rw [SqliteAllocator.reflectUse]
    split <;> rfl

private theorem Recoverable.rollback (h : s.Recoverable) : RolledBack s (s.rollback size) := by
  have hdropped := sameFile_foldl (f := drop size) sameFile_drop s.allocations.keys s
  have hcurrent := @currentAddress_foldl_drop size s.allocations.keys s
  rw [SqliteAllocator.rollback]
  dsimp only
  generalize s.allocations.keys.foldl (drop size) s = s₁ at hdropped hcurrent ⊢
  obtain ⟨hrows, hcommitted, htransacted, hsession, hnew, htransient⟩ := hdropped
  have hpermanent : s₁.transient = false := htransient.trans h.permanent
  cases hs : s₁.session with
  | false =>
    have ht : s.transacted = false := by
      by_contra ht
      have ho := h.opened (by simpa using ht)
      rw [← hsession, hs] at ho
      cases ho
    simp only [Bool.false_eq_true, if_false]
    exact ⟨rfl, hrows.trans (h.unchanged ht), hcommitted, rfl, rfl, hnew, htransient, hcurrent⟩
  | true =>
    simp only [if_true, hpermanent, Bool.false_eq_true, if_false]
    refine ⟨rfl, ?_, hcommitted, rfl, rfl, hnew, h.permanent.symm, hcurrent⟩
    cases ht : s₁.transacted with
    | false => exact hrows.trans (h.unchanged (htransacted.symm.trans ht))
    | true => exact hcommitted

private theorem RolledBack.recoverable (hr : RolledBack s s') (h : s.Recoverable) :
    s'.Recoverable where
  unchanged _ := hr.rows.trans hr.committed.symm
  opened ht := absurd (hr.transacted.symm.trans ht) nofun
  new hnew := ⟨hr.session, hr.committed.trans (h.new (hr.isNew.symm.trans hnew)).2⟩
  permanent := hr.transient.trans h.permanent

private theorem Recoverable.step (h : s.Recoverable) (x : Step) : (s.step x).2.Recoverable := by
  by_cases hx : x.Pending
  · exact (h.step_pending hx).recoverable
  · cases x with
    | commit size => exact h.commit
    | rollback size => exact h.rollback.recoverable h
    | access size sizeAfter depleted which how content => exact absurd trivial hx
    | beginNew => exact absurd trivial hx
    | flush size => exact absurd trivial hx
    | reduce size => exact absurd trivial hx

private theorem Recoverable.run (h : s.Recoverable) (xs : List Step) :
    (s.run xs).2.Recoverable := by
  induction xs generalizing s with
  | nil => exact h
  | cons x xs ih => exact ih (h.step x)

private theorem Recoverable.run_pending (h : s.Recoverable) {xs : List Step}
    (hxs : ∀ x ∈ xs, x.Pending) :
    Continues s (s.run xs).2 := by
  induction xs generalizing s with
  | nil => exact (SameFile.refl s).continues h
  | cons x xs ih =>
    have hx := h.step_pending (hxs x List.mem_cons_self)
    exact hx.trans (ih hx.recoverable fun y hy ↦ hxs y (List.mem_cons_of_mem _ hy))

private theorem recoverable_start (localWrites readCache : Bool) (version minimum current : ℕ)
    (file : Option Table) :
    (start false localWrites readCache version minimum current file).Recoverable := by
  cases file with
  | none => exact ⟨fun _ ↦ rfl, nofun, fun _ ↦ ⟨rfl, rfl⟩, rfl⟩
  | some rows => exact ⟨fun _ ↦ rfl, nofun, nofun, rfl⟩

/-! ### The first read after a rollback -/

/-- What a session that is opened leaves of the table and of the result variables. -/
theorem RolledBack.getSession (hr : RolledBack s s') :
    s'.getSession.allocations = ∅ ∧ s'.getSession.rows = s.committed ∧
    s'.getSession.currentAddress = s.currentAddress ∧ s'.getSession.isNew = false := by
  obtain ⟨hrows, hallocations, hcurrent, -⟩ := getSession_fields s'
  refine ⟨hallocations.trans hr.allocations, hrows.trans hr.rows,
    hcurrent.trans hr.currentAddress, ?_⟩
  rw [SqliteAllocator.getSession, if_neg (by simp [hr.session])]

private theorem getSession_of_session (h : s.session = true) : s.getSession = s := if_pos h

/-- Where nothing is in memory a flush writes nothing. -/
theorem RolledBack.flushBack (hr : RolledBack s s') :
    s'.flushBack size 30 true = s' ∨
      s'.flushBack size 30 true = { s'.getSession with transacted := true } := by
  have hclock : s'.byClock = [] := by
    rw [byClock, hr.allocations]
    rfl
  have hbegin : s'.beginTransaction = { s'.getSession with transacted := true } :=
    if_neg (by simp [hr.transacted])
  rw [SqliteAllocator.flushBack, hr.allocations]
  simp only [AList.keys_empty, List.foldl_nil, hclock, collect, true_and]
  split
  · exact .inl rfl
  · refine .inr ?_
    rw [List.insertionSort_nil, SqliteAllocator.writeBack, hbegin]
    exact getSession_of_session (session_getSession s')

/-- The state in which the first read after a rollback looks up the block. -/
theorem RolledBack.checkUse (hr : RolledBack s s') (depleted : Bool) :
    (s'.checkUse size depleted).allocations = ∅ ∧ (s'.checkUse size depleted).rows = s.committed ∧
    (s'.checkUse size depleted).currentAddress = s.currentAddress ∧
    (s'.checkUse size depleted).isNew = (s.isNew && !depleted) := by
  cases depleted with
  | false =>
    exact ⟨hr.allocations, hr.rows, hr.currentAddress, hr.isNew.trans (Bool.and_true _).symm⟩
  | true =>
    obtain ⟨hallocations, hrows, hcurrent, hnew⟩ := hr.getSession
    rw [SqliteAllocator.checkUse, if_pos rfl, Bool.not_true, Bool.and_false]
    rcases hr.flushBack with hflush | hflush
    · rw [hflush]
      exact ⟨hallocations, hrows, hcurrent, hnew⟩
    · have hopen : ({ s'.getSession with transacted := true } : SqliteAllocator).session = true :=
        session_getSession s'
      rw [hflush, getSession_of_session hopen]
      exact ⟨hallocations, hrows, hcurrent, hnew⟩

/-- What a read returns that finds nothing in memory. -/
theorem access_read_of_empty (ha : a ≠ 0) (depleted : Bool)
    (hempty : (s.checkUse size depleted).allocations = ∅) :
    (s.access size sizeAfter depleted a .read none).1 =
      if (s.checkUse size depleted).isNew then .ok none
      else match (s.checkUse size depleted).rows.lookup a with
        | some row => .ok (some (a, row.content))
        | none => if (s.checkUse size depleted).currentAddress = a then
            .ok (some (a, (s.checkUse size depleted).encodedBlock)) else .ok none := by
  rw [access_eq, allocateBlock, if_pos rfl]
  generalize s.checkUse size depleted = s₁ at hempty ⊢
  have hnone : s₁.allocations.lookup a = none := by rw [hempty, AList.lookup_empty]
  have hcreate : ¬StorageAction.read = .create := nofun
  cases hnew : s₁.isNew with
  | true =>
    have hbuffer : s₁.getBuffer a = (false, s₁) := if_pos hnew
    simp only [findBlock, if_neg ha, hnone, if_neg hcreate, hbuffer, if_true]
  | false =>
    cases hrow : s₁.rows.lookup a with
    | some row =>
      simp only [findBlock, if_neg ha, hnone, if_neg hcreate, getBuffer_of_row hnew hrow,
        Bool.false_eq_true, if_false]
    | none =>
      simp only [findBlock, if_neg ha, hnone, if_neg hcreate, getBuffer_of_none hnew hrow,
        Bool.false_eq_true, if_false]
      by_cases hcurrent : s₁.currentAddress = a
      · simp only [hcurrent, decide_true, if_true, (getSession_fields s₁).2.2.2]
      · simp only [hcurrent, decide_false, if_false]

/-- The first read after a rollback returns what was committed exactly where the file was not
opened yet, the statements were last used for another address or the address has a row. -/
theorem rollback_read_iff (localWrites readCache : Bool) (version minimum current : ℕ)
    (file : Option Table) (before xs : List Step) (size size' sizeAfter : ℕ → ℤ)
    (hxs : ∀ x ∈ xs, x.Pending) (depleted : Bool) (ha : a ≠ 0) :
    let s := ((start false localWrites readCache version minimum current file).run
      (before ++ [.commit size])).2
    let s' := (s.run xs).2
    ((s'.rollback size').access size' sizeAfter depleted a .read none).1 =
        .ok ((s.committed.lookup a).map fun row ↦ (a, row.content)) ↔
      (s'.isNew = true ∧ depleted = false) ∨ s'.currentAddress ≠ a ∨
        (s.committed.lookup a).isSome = true := by
  intro s s'
  have hs : s.Recoverable := (recoverable_start ..).run _
  have hcontinues := hs.run_pending hxs
  have hs' : s'.Recoverable := hcontinues.recoverable
  obtain ⟨hempty, hrows, hcurrent, hnew⟩ := (hs'.rollback).checkUse
    depleted
  have hcommitted : s'.committed = s.committed := hcontinues.committed
  rw [access_read_of_empty ha depleted hempty, hrows, hcurrent, hnew, hcommitted]
  cases hopen : (s'.isNew && !depleted) with
  | true =>
    rw [Bool.and_eq_true, Bool.not_eq_true'] at hopen
    rw [← hcommitted, (hs'.new hopen.1).2]
    simp [hopen]
  | false =>
    have hclosed : ¬(s'.isNew = true ∧ depleted = false) := by
      rintro ⟨h, h'⟩
      rw [h, h'] at hopen
      cases hopen
    cases hrow : s.committed.lookup a with
    | some row => simp
    | none => by_cases hc : s'.currentAddress = a <;> simp [hc, hclosed]

/-- What was committed of a block is read that the transaction wrote to. -/
theorem rollback_read_written :
    let size : ℕ → ℤ := fun _ ↦ 100
    let s := ((start false true true 0 32 0 none).run
      ([.access size size false 0 .create (some [1]), .beginNew] ++ [.commit size])).2
    let s' := (s.run [.access size size false 33 .write (some [2]), .flush size]).2
    ((s'.rollback size).access size size false 33 .read none).1 =
      .ok ((s.committed.lookup 33).map fun row ↦ (33, row.content)) :=
  (rollback_read_iff true true 0 32 0 none
    [.access (fun _ ↦ 100) (fun _ ↦ 100) false 0 .create (some [1]), .beginNew]
    [.access (fun _ ↦ 100) (fun _ ↦ 100) false 33 .write (some [2]), .flush fun _ ↦ 100]
    (fun _ ↦ 100) (fun _ ↦ 100) (fun _ ↦ 100) (by simp [Step.Pending]) false (by decide)).2
    (.inr (.inr (by decide +kernel)))

/-- A block that was created and written to the table is still read after the rollback. -/
theorem not_rollback_created :
    let size : ℕ → ℤ := fun _ ↦ 100
    let s := ((start false true true 0 32 0 none).run ([.beginNew] ++ [.commit size])).2
    let s' := (s.run [.access size size false 0 .create (some [1]), .flush size]).2
    ((s'.rollback size).access size size false 33 .read none).1 ≠
      .ok ((s.committed.lookup 33).map fun row ↦ (33, row.content)) := by
  decide +kernel

end SqliteAllocator

end LibSpaces.Transactions
