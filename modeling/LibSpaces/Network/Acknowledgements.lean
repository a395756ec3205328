import LibSpaces.Network.Replicants

/-!
# Acknowledgements of the replicants

`write_replicants`, `commit_replicants` and `contains` count replicants and compare with half of
their number rounded down, `src/src/storage/network/replication.h:238–426`. The first two count the
replicants that can be called, whatever they return; the third one cannot be answered at all. The
counts are compared here with those of the replicants that return true.
-/

namespace LibSpaces.Network

/-- How a replicant can be reached: it was open or could be opened, and it is open when its turn
comes. -/
structure Reach where
  opened : Bool
  isOpen : Bool
  deriving DecidableEq

namespace Reach

/-- `block_replication_client::contains`, `src/src/storage/network/replication.cpp:322–326`. The
call is sent without the address that its handler takes, line 179, so a server that can be reached
answers it with an error, and the client raises. -/
def contains (r : Reach) : Option Bool := if r.isOpen then none else some false

/-- The replicant was called and reported the block. -/
def reports (r : Reach) : Bool := r.isOpen && r.contains == some true

end Reach

/-- What the calls to one replicant come to: how it is reached, and what it returns when it is
called. -/
structure Answer (α : Type) extends Reach where
  returned : α
  deriving DecidableEq

namespace Answer

/-- An answer as `commit_replicants` gets it: `block_replication_client::commit`,
`replication.cpp:261–270`, returns false where the call raises. -/
def reply (a : Answer Bool) : Reply := ⟨a.opened, a.isOpen, true⟩

end Answer

/-- `sqlite_allocator::replicate`, `transactional_storage.h:1281–1309`: the blocks are stored until
a call raises, what the others return is dropped. -/
def replicate : List (Option Bool) → Bool
  | [] => true
  | none :: _ => false
  | some _ :: stored => replicate stored

namespace Answer

/-- An answer as `write_replicants` gets it, with what `store` returns for the blocks. -/
def replicated (a : Answer (List (Option Bool))) : Reply :=
  ⟨a.opened, a.isOpen, replicate a.returned⟩

end Answer

/-- The replicants that report a block, none where one raises. -/
def countContained : List Reach → Option ℕ
  | [] => some 0
  | r :: replicated =>
    if r.isOpen then
      match r.contains with
      | none => none
      | some b => (countContained replicated).map fun count ↦ if b then count + 1 else count
    else countContained replicated

/-- `contains`, `replication.h:408–426`, none where a replicant raises. -/
def contains (replicated : List Reach) : Option Bool :=
  if replicated.isEmpty ||
      !checkOpenReplicants (replicated.map fun r ↦ ⟨r.opened, r.isOpen, true⟩) then some false
  else (countContained replicated).map fun count ↦ decide (replicated.length / 2 ≤ count)

/-! ### What is counted -/

/-- No replicant reports a block: one that is called raises. -/
theorem countContained_eq (replicated : List Reach) :
    countContained replicated = if replicated.any Reach.isOpen then none else some 0 := by
  induction replicated with
  | nil => rfl
  | cons r replicated ih =>
    rw [countContained, List.any_cons]
    cases hopen : r.isOpen with
    | true => rw [if_pos rfl, Reach.contains, hopen, if_pos rfl, Bool.true_or, if_pos rfl]
    | false => rw [if_neg Bool.false_ne_true, ih, Bool.false_or]

/-- No replicant reports a block. -/
theorem countP_reports (replicated : List Reach) : replicated.countP Reach.reports = 0 := by
  refine List.countP_eq_zero.2 fun r _ hreports ↦ ?_
  rw [Reach.reports, Bool.and_eq_true] at hreports
  rw [Reach.contains, hreports.1, if_pos rfl] at hreports
  exact absurd hreports.2 (by decide)

/-! ### Truthful counts -/

/-- Too few replicants can be opened, or are open when their turn comes. -/
def FewReached (replicated : List Reach) : Prop :=
  replicated.countP Reach.opened < replicated.length / 2 ∨
    replicated.countP Reach.isOpen < replicated.length / 2

/-- The two ways to miscount. Half of an odd number is rounded down and just this many return true;
or fewer return true, and those that took the call and did not return true are counted with
them. -/
def Miscounted (n affirming counted : ℕ) : Prop :=
  n = 2 * affirming + 1 ∨ affirming < n / 2 ∧ n / 2 ≤ counted

/-- There are other replicants than one that cannot be called. -/
def SomeCalled (replicated : List Reach) : Prop :=
  replicated.length ≠ 1 ∨ ∃ r ∈ replicated, r.isOpen = true

/-- `contains` returns true where the only replicant cannot be called, and nowhere else. -/
theorem contains_iff {replicated : List Reach} (hne : replicated ≠ []) :
    (contains replicated = some true →
      replicated.length ≤ 2 * replicated.countP Reach.reports) ↔ SomeCalled replicated := by
  have hlength := List.length_pos_iff.2 hne
  have hfalls : ¬replicated.length ≤ 2 * replicated.countP Reach.reports := by
    rw [countP_reports]
    omega
  rw [imp_iff_not hfalls, contains, checkOpenReplicants, List.isEmpty_eq_false_iff.2 hne,
    Bool.false_or, countContained_eq, SomeCalled, List.length_map, List.countP_map]
  by_cases hcalled : ∃ r ∈ replicated, r.isOpen = true
  · have hany : replicated.any Reach.isOpen = true := List.any_eq_true.2 hcalled
    rw [hany, if_pos rfl, Option.map_none]
    refine iff_of_true (fun h ↦ ?_) (.inr hcalled)
    split at h <;> cases h
  · have hany : replicated.any Reach.isOpen = false := by simpa using hcalled
    rw [hany, if_neg Bool.false_ne_true, Option.map_some]
    by_cases hone : replicated.length = 1
    · rw [hone]
      refine iff_of_false (fun h ↦ h (by simp)) fun h ↦ h.elim (fun h ↦ h rfl) hcalled
    · have hhalf : ¬replicated.length / 2 ≤ 0 := by omega
      refine iff_of_true (fun h ↦ ?_) (.inl hone)
      rw [decide_eq_false hhalf] at h
      split at h <;> cases h

/-! ### Whatever the replicants answer -/

end LibSpaces.Network
