import LibSpaces.Transactions.CacheRollback

/-!
# Whether a block exists

`exists` and `contains` of `sqlite_allocator`, `src/src/storage/transactions/
transactional_storage.h:644–665,1049–1052,1649–1664`, beside the reads. `next` is the last address
that was given out.
-/

namespace LibSpaces.Transactions

open LibSpaces.Base

namespace SqliteAllocator

/-- `exists` by `get_exists`, `transactional_storage.h:644–665`. -/
def getExists (s : SqliteAllocator) (w : ℕ) : Bool × SqliteAllocator :=
  if s.isNew then (false, s)
  else if s.next ≤ w then (false, s)
  else ((s.getSession.rows.lookup w).isSome, s.getSession)

/-- `contains`, `transactional_storage.h:1649–1664`. -/
def contains (size : ℕ → ℤ) (s : SqliteAllocator) (depleted : Bool) (w : ℕ) :
    Bool × SqliteAllocator :=
  let s := s.checkUse size depleted
  if w = 0 then (false, s)
  else match s.allocations.lookup w with
    | some _ => (true, s)
    | none => s.getBuffer w

/-- A storage without a file has neither a session nor rows, and a transaction has a session. -/
structure Filed (s : SqliteAllocator) : Prop where
  new : s.isNew = true → s.session = false ∧ s.rows = ∅
  transacted : s.transacted = true → s.session = true

/-- Rows may be added, and the file may be created. -/
structure Extends (s s' : SqliteAllocator) : Prop where
  rows : ∀ a, (s.rows.lookup a).isSome = true → (s'.rows.lookup a).isSome = true
  isNew : s.isNew = false → s'.isNew = false
  filed : s'.Filed

variable {s s' : SqliteAllocator} {size : ℕ → ℤ}

private theorem Filed.isNew (h : s.Filed) {a : ℕ} (ha : (s.rows.lookup a).isSome = true) :
    s.isNew = false := by
  by_contra hnew
  rw [(h.new (Bool.not_eq_false _ ▸ hnew)).2, AList.lookup_empty] at ha
  cases ha

private theorem SameFile.extends (h : SameFile s s') (hs : s.Filed) : Extends s s' where
  rows a ha := h.rows ▸ ha
  isNew hnew := h.isNew.trans hnew
  filed := by
    refine ⟨?_, ?_⟩
    · rw [h.isNew, h.session, h.rows]
      exact hs.new
    · rw [h.transacted, h.session]
      exact hs.transacted

private theorem isNew_getSession (hs : s.Filed) : s.getSession.isNew = false := by
  rw [SqliteAllocator.getSession]
  split
  · next hsession =>
    by_contra hnew
    exact absurd (hsession.symm.trans (hs.new (Bool.not_eq_false _ ▸ hnew)).1)
      Bool.false_ne_true.symm
  · rfl

private theorem Filed.getSession (hs : s.Filed) : Extends s s.getSession where
  rows _ ha := (getSession_fields s).1 ▸ ha
  isNew _ := isNew_getSession hs
  filed := ⟨fun hnew ↦ absurd ((isNew_getSession hs).symm.trans hnew) nofun,
    fun _ ↦ session_getSession s⟩

/-- No row is lost but in a rollback. -/
theorem respects_extends : Respects fun s s' ↦ s.Filed → Extends s s' where
  trans h h' hs :=
    have hs' := h hs
    have hs'' := h' hs'.filed
    ⟨fun a ha ↦ hs''.rows a (hs'.rows a ha), hs''.isNew ∘ hs'.isNew, hs''.filed⟩
  same h hs := h.extends hs
  getSession _ hs := hs.getSession
  beginTransaction s hs := by
    rw [SqliteAllocator.beginTransaction]
    split
    · exact (SameFile.refl s).extends hs
    · obtain ⟨hrows, hnew, hfiled⟩ := hs.getSession
      exact ⟨hrows, hnew, hfiled.new, fun _ ↦ session_getSession s⟩
  writeBlock s a ht hs := by
    have hopen : s.isNew = false := by
      by_contra hnew
      exact absurd ((hs.transacted ht).symm.trans (hs.new (Bool.not_eq_false _ ▸ hnew)).1)
        Bool.false_ne_true.symm
    rw [SqliteAllocator.writeBlock]
    split
    · split
      · next d hd =>
        refine ⟨fun b hb ↦ ?_, id, fun hnew ↦ ?_, hs.transacted⟩
        · by_cases hba : b = a
          · rw [hba, addBuffer]
            exact Option.isSome_iff_exists.2 ⟨_, AList.lookup_insert _⟩
          · exact (AList.lookup_insert_ne hba).symm ▸ hb
        · exact absurd (hopen.symm.trans hnew) Bool.false_ne_true
      · exact (SameFile.refl s).extends hs
    · exact (SameFile.refl s).extends hs

private theorem Filed.commit (h : s.Filed) : (s.commit size).Filed := by
  rw [SqliteAllocator.commit]
  split
  · have hflushed : Extends s (s.flushBack size 80 false) := respects_extends.flushBack 80 false s h
    exact ⟨hflushed.filed.new, fun ht ↦ absurd ht Bool.false_ne_true⟩
  · exact h

private theorem Filed.rollback (h : s.Filed) : (s.rollback size).Filed := by
  have hdropped := (sameFile_foldl (f := drop size) sameFile_drop s.allocations.keys s).extends h
  rw [SqliteAllocator.rollback]
  dsimp only
  generalize s.allocations.keys.foldl (drop size) s = s₁ at hdropped ⊢
  have hnew := hdropped.filed.new
  split
  · next hsession =>
    split
    · exact ⟨fun _ ↦ ⟨rfl, rfl⟩, fun ht ↦ absurd ht Bool.false_ne_true⟩
    · refine ⟨fun h ↦ ?_, fun ht ↦ absurd ht Bool.false_ne_true⟩
      exact absurd (hsession.symm.trans (hnew h).1) Bool.false_ne_true.symm
  · exact ⟨hnew, fun ht ↦ absurd ht Bool.false_ne_true⟩

private theorem Filed.step (h : s.Filed) (x : Step) : (s.step x).2.Filed := by
  by_cases hx : x.Pending
  · exact (respects_extends.step_pending s hx h).filed
  · cases x with
    | commit size => exact h.commit
    | rollback size => exact h.rollback
    | access size sizeAfter depleted which how content => exact absurd trivial hx
    | beginNew => exact absurd trivial hx
    | flush size => exact absurd trivial hx
    | reduce size => exact absurd trivial hx

private theorem Filed.run (h : s.Filed) (xs : List Step) : (s.run xs).2.Filed := by
  induction xs generalizing s with
  | nil => exact h
  | cons x xs ih => exact ih (h.step x)

private theorem filed_start (transient localWrites readCache : Bool) (version minimum current : ℕ)
    (file : Option Table) :
    (start transient localWrites readCache version minimum current file).Filed := by
  cases file with
  | none => exact ⟨fun _ ↦ ⟨rfl, rfl⟩, nofun⟩
  | some rows => exact ⟨nofun, nofun⟩

/-! ### Blocks with a row -/

/-- A block with a row exists unless its address is the last one or above. -/
theorem getExists_of_row (h : s.Filed) {w : ℕ} (hrow : (s.rows.lookup w).isSome = true) :
    (s.getExists w).1 = decide (w < s.next) := by
  rw [getExists, if_neg (Bool.eq_false_iff.1 (h.isNew hrow))]
  split
  · next hle => exact (decide_eq_false (Nat.not_lt.2 hle)).symm
  · next hlt =>
    rw [decide_eq_true (Nat.not_le.1 hlt)]
    exact (getSession_fields s).1 ▸ hrow

/-- A block that exists has a row. -/
theorem row_of_getExists {w : ℕ} (h : (s.getExists w).1 = true) :
    (s.rows.lookup w).isSome = true := by
  rw [getExists] at h
  split at h
  · cases h
  · split at h
    · cases h
    · exact (getSession_fields s).1 ▸ h

/-- A block with a row is contained. -/
theorem contains_of_row (h : s.Filed) {w : ℕ} (hw : w ≠ 0)
    (hrow : (s.rows.lookup w).isSome = true) (depleted : Bool) :
    (s.contains size depleted w).1 = true := by
  have hchecked : Extends s (s.checkUse size depleted) := respects_extends.checkUse s depleted h
  obtain ⟨row, hrow'⟩ := Option.isSome_iff_exists.1 (hchecked.rows w hrow)
  rw [contains, if_neg hw]
  cases (s.checkUse size depleted).allocations.lookup w with
  | some d => rfl
  | none =>
    dsimp only
    rw [getBuffer_of_row (hchecked.isNew (h.isNew hrow)) hrow']

/-- A block with a row is read. -/
theorem access_of_row (h : s.Filed) {w : ℕ} (hw : w ≠ 0) (hrow : (s.rows.lookup w).isSome = true)
    (depleted : Bool) (sizeAfter : ℕ → ℤ) :
    ∃ block, (s.access size sizeAfter depleted w .read none).1 = .ok (some (w, block)) := by
  have hchecked : Extends s (s.checkUse size depleted) := respects_extends.checkUse s depleted h
  obtain ⟨row, hrow'⟩ := Option.isSome_iff_exists.1 (hchecked.rows w hrow)
  have hnew := hchecked.isNew (h.isNew hrow)
  rw [access_eq, allocateBlock, if_pos rfl, findBlock, if_neg hw]
  cases hd : (s.checkUse size depleted).allocations.lookup w with
  | some d => exact ⟨d.block, rfl⟩
  | none =>
    simp only [if_neg (show ¬StorageAction.read = .create by decide), getBuffer_of_row hnew hrow']
    exact ⟨_, rfl⟩

/-- The existence check agrees with the reads. -/
structure ExistsAgrees (s : SqliteAllocator) (w : ℕ) : Prop where
  stored : (s.rows.lookup w).isSome = true → (s.getExists w).1 = true
  found : (s.getExists w).1 = true → ∀ size depleted,
    (s.contains size depleted w).1 = true ∧
      ∀ sizeAfter, ∃ block,
        (s.access size sizeAfter depleted w .read none).1 = .ok (some (w, block))

/-- In every state that is reached and for every address: the existence check agrees with the reads
if and only if the block is not in the table or its address is below the last one. -/
theorem existsAgrees_iff (transient localWrites readCache : Bool) (version minimum current : ℕ)
    (file : Option Table) (xs : List Step) (w : ℕ) (hw : w ≠ 0) :
    let s := ((start transient localWrites readCache version minimum current file).run xs).2
    ExistsAgrees s w ↔ (s.rows.lookup w = none ∨ w < s.next) := by
  intro s
  have hs : s.Filed := (filed_start ..).run xs
  constructor
  · intro h
    rw [or_iff_not_imp_left]
    intro hrow
    have hexists := h.stored (Option.isSome_iff_ne_none.2 hrow)
    rw [getExists_of_row hs (Option.isSome_iff_ne_none.2 hrow)] at hexists
    exact of_decide_eq_true hexists
  · intro h
    refine ⟨fun hrow ↦ ?_, fun hexists size depleted ↦ ?_⟩
    · rw [getExists_of_row hs hrow]
      exact decide_eq_true (h.resolve_left (Option.isSome_iff_ne_none.1 hrow))
    · have hrow := row_of_getExists hexists
      exact ⟨contains_of_row hs hw hrow depleted, access_of_row hs hw hrow depleted⟩

/-- The first of two blocks of a file. -/
theorem existsAgrees_first :
    let file : Table := AList.insert 33 ⟨[1], 5⟩ (AList.insert 34 ⟨[2], 5⟩ ∅)
    ExistsAgrees ((start false true true 0 32 0 (some file)).run []).2 33 :=
  (existsAgrees_iff false true true 0 32 0
    (some (AList.insert 33 ⟨[1], 5⟩ (AList.insert 34 ⟨[2], 5⟩ ∅))) [] 33 (by decide)).2
      (.inr (by decide +kernel))

/-- The last block is denied once it is in the table, also when the file is opened again. -/
theorem not_existsAgrees_last :
    ¬ExistsAgrees ((start false true true 0 32 0 none).run
        [.access (fun _ ↦ 1) (fun _ ↦ 1) false 0 .create (some [1]), .flush fun _ ↦ 1]).2 33 ∧
      ¬ExistsAgrees
        ((start false true true 0 32 0 (some (AList.insert 33 ⟨[1], 5⟩ ∅))).run []).2 33 :=
  ⟨fun h ↦ absurd (h.stored (by decide +kernel)) (by decide +kernel),
    fun h ↦ absurd (h.stored (by decide +kernel)) (by decide +kernel)⟩

end SqliteAllocator

end LibSpaces.Transactions
