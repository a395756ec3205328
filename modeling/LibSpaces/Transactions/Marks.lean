import LibSpaces.Transactions.Operations

/-!
# What the calls leave

The orders, the last committed version, the last address and the flag of a journal synch are
written by `begin`, `commit` and `merge` alone, `src/src/storage/transactions/
transactional_storage.h:2471–3170`. Discarding a transaction, allocating blocks and merging idle
versions leave them.
-/

namespace LibSpaces.Transactions

open LibSpaces.Base

/-- The fields of a coordinator besides its lists and counts, and the orders of the versions. -/
structure Marks where
  order : ℕ
  lastCommittedVersion : ℕ
  lastAddress : ℕ
  journalSynching : Bool
  orders : ℕ → ℕ

namespace Coordinator

/-- What the operations on blocks leave of the coordinator. -/
def marks (s : Coordinator) : Marks where
  order := s.order
  lastCommittedVersion := s.lastCommittedVersion
  lastAddress := s.lastAddress
  journalSynching := s.journalSynching
  orders := fun v ↦ (s.versions v).order

/-- A version that keeps its order keeps the marks. -/
theorem marks_setVersion (s : Coordinator) (v : ℕ) {x : VersionStorage}
    (hx : x.order = (s.versions v).order) : (s.setVersion v x).marks = s.marks := by
  have horders : ∀ u, ((s.setVersion v x).versions u).order = (s.versions u).order := by
    intro u
    rw [versions_setVersion]
    split
    · next h => rw [h, hx]
    · rfl
  simp only [marks, horders]
  rfl

private theorem marks_setAllocator (s : Coordinator) (v : ℕ) (x : Allocator) :
    (s.setVersion v { s.versions v with toAllocator := x }).marks = s.marks :=
  marks_setVersion s v rfl

/-! ### Calls on one transaction -/

/-- Removing readers keeps the marks. -/
theorem removeReaders_marks {l : List ℕ} {s : Coordinator} {r : Outcome Unit}
    (h : removeReaders l s = r) : r.2.marks = s.marks := by
  subst h
  induction l generalizing s with
  | nil => rfl
  | cons v vs ih =>
    rw [removeReaders]
    split
    · rfl
    · rw [ih]
      exact marks_setVersion s v rfl

/-- So does discarding a transaction. -/
theorem discard_marks {s : Coordinator} {t : ℕ} {r : Outcome Unit} (h : s.discard t = r) :
    r.2.marks = s.marks := by
  subst h
  unfold discard
  dsimp only
  split
  · rfl
  split
  · exact marks_setVersion _ t rfl
  split
  · exact marks_setVersion _ t rfl
  split
  · next hresult => exact (removeReaders_marks hresult).trans (marks_setVersion _ t rfl)
  · next hresult =>
    have hmarks := (removeReaders_marks hresult).trans (marks_setVersion _ t rfl)
    exact hmarks

/-- So it does where an exception follows. -/
theorem discardThenThrow_marks (s : Coordinator) (t : ℕ) (e : Thrown) :
    (s.discardThenThrow t e).1 ≠ .ok () ∧ (s.discardThenThrow t e).2.marks = s.marks := by
  unfold discardThenThrow
  split
  · next hresult => exact ⟨nofun, discard_marks hresult⟩
  · next hresult =>
    have hmarks := discard_marks hresult
    exact ⟨nofun, hmarks⟩

private theorem addReader_marks (l : List ℕ) (s : Coordinator) :
    (l.foldl addReader s).marks = s.marks := by
  induction l generalizing s with
  | nil => rfl
  | cons v vs ih => exact (ih _).trans (marks_setVersion s v rfl)

private theorem openVersion_marks (s : Coordinator) (b : ℕ) (writer : Bool) :
    (s.openVersion b writer).2.marks = s.marks := by
  unfold openVersion
  dsimp only
  have hfirst := marks_setVersion s b (x := { s.versions b with readOnly := !writer }) rfl
  split
  · exact hfirst
  · next last _ =>
    have hsecond (s : Coordinator) :=
      marks_setVersion s b (x := { s.versions b with previous := some last }) rfl
    split
    · exact (addReader_marks _ _).trans ((hsecond _).trans hfirst)
    · exact (addReader_marks _ _).trans ((hsecond _).trans hfirst)

/-- A new version object has the order of the coordinator. -/
theorem newVersion_marks (s : Coordinator) (version : ℕ) : (s.newVersion version).marks =
    { s.marks with orders := Function.update s.marks.orders s.size s.order } := by
  have horders : (fun v ↦ ((s.newVersion version).versions v).order) =
      Function.update s.marks.orders s.size s.order := by
    ext1 v
    rw [newVersion, versions_setVersion, Function.update_apply]
    split <;> rfl
  simp only [marks, horders]
  rfl

/-- A new version is marked with the current order. -/
theorem begin_marks (s : Coordinator) (writer : Bool) (version : ℕ) (replicated : Bool) :
    (s.begin writer version replicated).2.marks = s.marks ∨
      (s.begin writer version replicated).2.marks =
        { s.marks with orders := Function.update s.marks.orders s.size s.order } := by
  unfold begin
  split
  · exact .inl rfl
  split
  · exact .inl rfl
  rw [openVersion_marks]
  rcases takeVersion_cases s writer version with h | ⟨-, b, rest, -, h⟩
  · rw [h]
    exact .inr (newVersion_marks s version)
  · rw [h]
    exact .inl rfl

/-- So has a transaction that begins to write. -/
theorem begin_order {s : Coordinator} {version b : ℕ} {replicated : Bool}
    (h : (s.begin true version replicated).1 = .ok b) (hb : b = s.size) :
    ((s.begin true version replicated).2.versions b).order = s.order := by
  have hmarks : (s.begin true version replicated).2.marks =
      { s.marks with orders := Function.update s.marks.orders s.size s.order } := by
    unfold begin at h ⊢
    split at h
    · cases h
    next hreplicated =>
    rw [if_neg hreplicated]
    split at h
    · cases h
    next hwriting =>
    rw [if_neg hwriting, openVersion_marks]
    exact newVersion_marks s version
  have horder := congrFun (congrArg Marks.orders hmarks) b
  rw [hb] at horder ⊢
  exact horder.trans (Function.update_self ..)

/-- Allocations keep the marks. -/
theorem allocateAndWrite_marks (s : Coordinator) (t which : ℕ) (how : StorageAction)
    (content : Option Bytes) : (s.allocateAndWrite t which how content).marks = s.marks := by
  have hallocate : (s.allocate t which how).2.marks = s.marks := by
    obtain ⟨⟨al, -, -, hs'⟩, -⟩ := allocate_spec s t which how
    rw [hs']
    exact marks_setVersion s t rfl
  unfold allocateAndWrite
  split
  · next block s₁ content hresult =>
    rw [hresult] at hallocate
    split
    · exact hallocate
    · unfold assign
      dsimp only
      split
      · exact (marks_setAllocator s₁ block.1 _).trans hallocate
      · exact hallocate
  · next hresult _ =>
    rw [hresult] at hallocate
    exact hallocate

/-! ### Merging idle versions -/

/-- So does a move. -/
theorem move_marks {s : Coordinator} {v dest : ℕ} {r : Outcome Unit} (h : s.move v dest = r) :
    r.2.marks = s.marks := by
  subst h
  unfold Coordinator.move
  dsimp only
  split
  · exact (marks_setAllocator _ dest _).trans (marks_setAllocator s v _)
  · exact (marks_setAllocator _ dest _).trans (marks_setAllocator s v _)

private theorem setMerged_marks (s : Coordinator) (v : ℕ) (merged : Bool) :
    (s.setMerged v merged).marks = s.marks := marks_setVersion s v rfl

private theorem checkOrder_marks {version : ℕ} {l : List ℕ} {s : Coordinator} {r : Outcome Unit}
    (h : checkOrder version l s = r) : r.2.marks = s.marks := by
  subst h
  fun_induction checkOrder version l s with
  | case1 | case2 => rfl
  | case3 version c cs s _ ih => exact ih.trans (setMerged_marks s c false)

private theorem mergeIdle_marks {idle : List ℕ} {s : Coordinator} {r : Outcome Unit}
    (h : mergeIdle idle s = r) : r.2.marks = s.marks := by
  subst h
  fun_induction mergeIdle idle s with
  | case1 | case3 | case4 => rfl
  | case2 latest s => exact setMerged_marks s latest false
  | case5 latest i idle s _ _ e s' hmove => exact move_marks hmove
  | case6 latest i idle s _ _ _ s' hmove ih =>
    exact ih.trans ((setMerged_marks s' latest true).trans (move_marks hmove))

private theorem collectIdle_marks {rest idle : List ℕ} {s : Coordinator} {r : Outcome Unit}
    (h : collectIdle rest idle s = r) : r.2.marks = s.marks := by
  subst h
  fun_induction collectIdle rest idle s with
  | case1 idle s => exact mergeIdle_marks rfl
  | case2 c rest idle s _ ih => exact ih
  | case3 c rest idle s _ e s' hmerge => exact mergeIdle_marks hmerge
  | case4 c rest idle s _ _ s' hmerge ih => exact ih.trans (mergeIdle_marks hmerge)

private theorem sweep_marks {l kept : List ℕ} {s : Coordinator} {r : Outcome (List ℕ)}
    (h : sweep l kept s = r) : r.2.marks = s.marks := by
  subst h
  fun_induction sweep l kept s with
  | case1 | case3 => rfl
  | case2 c cs kept s _ _ ih => exact ih.trans (marks_setVersion s c rfl)
  | case4 c cs kept s _ ih => exact ih

private theorem relink_marks {verify : List ℕ} {prev : Option ℕ} {l : List ℕ} {s : Coordinator}
    {r : Outcome Unit} (h : relink verify prev l s = r) : r.2.marks = s.marks := by
  subst h
  fun_induction relink verify prev l s with
  | case1 | case2 => rfl
  | case3 verify prev c cs s _ s' _ => exact marks_setVersion s c rfl
  | case4 verify prev c cs s _ s' _ ih => exact ih.trans (marks_setVersion s c rfl)

private theorem keepUnmerged_marks (s : Coordinator) : s.keepUnmerged.2.marks = s.marks := by
  unfold keepUnmerged
  split
  · next hresult => exact sweep_marks hresult
  next hresult =>
  have hsweep := sweep_marks hresult
  split
  · next hresult => exact (relink_marks hresult).trans hsweep
  · next hresult =>
    have hrelink := relink_marks hresult
    split <;> exact hrelink.trans hsweep

/-- So does a merge of stored versions. -/
theorem mergeDown_marks (s : Coordinator) : s.mergeDown.2.marks = s.marks := by
  unfold mergeDown
  split
  · rfl
  split
  · next hresult => exact checkOrder_marks hresult
  next hresult =>
  have hcheck := checkOrder_marks hresult
  split
  · next hresult => exact (collectIdle_marks hresult).trans hcheck
  · next hresult => exact (keepUnmerged_marks _).trans ((collectIdle_marks hresult).trans hcheck)

end Coordinator

end LibSpaces.Transactions
