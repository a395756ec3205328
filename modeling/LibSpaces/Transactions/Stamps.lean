import LibSpaces.Transactions.ReaderCounts
import LibSpaces.Transactions.Views

/-!
# Blocks stamped by increasing versions

Where `create_version` increases, a block that a transaction writes is newer than all that are
committed, `src/src/storage/transactions/transactional_storage.h:938–1014,1310–1369,2790–3096`.
The committed versions are in order then at every point of a run.
-/

namespace LibSpaces.Transactions

open LibSpaces.Base

namespace Allocator

/-- Every block has the version of the allocator. -/
def Own (s : Allocator) : Prop := ∀ a b, s.block a = some b → b.version = s.version

private theorem Own.setBlock {s : Allocator} (h : s.Own) (a : ℕ) {b : Block}
    (hb : b.version = s.version) :
    (s.setBlock a b).Own := by
  intro a' b' hb'
  rw [block_setBlock] at hb'
  split at hb'
  · cases hb'
    exact hb
  · exact h a' b' hb'

private theorem Own.create {s : Allocator} (h : s.Own) (a : ℕ) : (s.create a).Own := by
  unfold Allocator.create
  split
  · exact h
  · exact h.setBlock a rfl

private theorem Own.changed {s : Allocator} (h : s.Own) (n : ℕ) :
    Allocator.Own { s with changes := n } :=
  h

end Allocator

namespace Coordinator

/-- What an allocation leaves in its transaction has its version. -/
theorem own_allocateAndWrite {s : Coordinator} {t : ℕ} (h : (s.versions t).Own) (which : ℕ)
    (how : StorageAction) (content : Option Bytes) :
    ((s.allocateAndWrite t which how content).versions t).Own := by
  have hallocate : ((s.allocate t which how).2.versions t).Own := by
    unfold allocate
    dsimp only
    split
    · exact h
    split
    · split
      · rw [versions_setVersion, if_pos rfl]
        exact h.setBlock _ rfl
      · rw [versions_setVersion, if_pos rfl]
        exact h.create which
    · split
      · exact h
      · split
        · exact h
        · split <;> exact h
    · split
      · rw [versions_setVersion, if_pos rfl]
        exact h
      · split
        · rw [versions_setVersion, if_pos rfl]
          exact h
        · split
          · rw [versions_setVersion, if_pos rfl]
            apply (Allocator.Own.create (Allocator.Own.changed h _) which).setBlock which
            rw [Allocator.version_create]
          · rw [versions_setVersion, if_pos rfl]
            exact h
  unfold allocateAndWrite
  split
  · next block s₁ content hresult =>
    rw [hresult] at hallocate
    split
    · exact hallocate
    · unfold assign
      dsimp only
      split
      · next b hb =>
        rw [versions_setVersion]
        split
        · next ht =>
          rw [← ht] at hb ⊢
          exact hallocate.setBlock block.2 (hallocate _ b hb)
        · exact hallocate
      · exact hallocate
  · next hresult _ =>
    rw [hresult] at hallocate
    exact hallocate

/-- What an increasing `create_version` gives is above the versions of all version objects. -/
def Above (s : Coordinator) (version : ℕ) : Prop := ∀ v < s.size, (s.versions v).version < version

instance (s : Coordinator) : DecidablePred s.Above := fun version ↦
  inferInstanceAs (Decidable (∀ v < s.size, (s.versions v).version < version))

/-- The call takes its version from an increasing `create_version`. -/
def VersionsIncrease (s : Coordinator) : MaintenanceAction → Prop
  | .call (.begin _ version _) => s.Above version
  | .call (.merge _ _ created) => s.Above created
  | _ => True

instance (s : Coordinator) (a : MaintenanceAction) : Decidable (s.VersionsIncrease a) := by
  unfold VersionsIncrease
  split <;> infer_instance

/-- The committed versions descend from the newest on, and a writing transaction with all its
blocks is newer. -/
structure Stamped (s : Coordinator) : Prop where
  positive : ∀ v ∈ s.storages, 0 < (s.versions v).version
  descending : s.Descending s.storages.reverse
  below : ∀ v ∈ s.storages, ∀ a b, (s.versions v).block a = some b →
    ∃ u < s.size, b.version ≤ (s.versions u).version
  own : ∀ w ∈ s.writers, (s.versions w).Own
  above : ∀ w ∈ s.writers, ∀ v ∈ s.storages, (s.versions v).version < (s.versions w).version ∧
    ∀ a b, (s.versions v).block a = some b → b.version < (s.versions w).version

/-- The committed versions of a run are in order. -/
theorem Stamped.ordered {s : Coordinator} (hs : s.Stamped) (h : s.Inv) : s.Ordered :=
  ⟨h.storages_lt, h.nonempty, h.linked, hs.positive, hs.descending⟩

/-- A change that leaves the committed versions and opens no other writing transaction. -/
theorem Stamped.frame {s s' : Coordinator} (hs : s.Stamped) (hstorages : s'.storages = s.storages)
    (hsize : s'.size = s.size) (hversion : ∀ v, (s'.versions v).version = (s.versions v).version)
    (hallocator : ∀ v ∈ s.storages, (s'.versions v).toAllocator = (s.versions v).toAllocator)
    (hwriters : ∀ w ∈ s'.writers, w ∈ s.writers ∧ (s'.versions w).Own) : s'.Stamped where
  positive := by
    intro v hv
    rw [hversion]
    exact hs.positive v (hstorages ▸ hv)
  descending := by
    rw [hstorages]
    exact hs.descending.congr fun v hv ↦ hallocator v (List.mem_reverse.1 hv)
  below := by
    intro v hv a b hb
    rw [hstorages] at hv
    rw [hallocator v hv] at hb
    obtain ⟨u, hu, hle⟩ := hs.below v hv a b hb
    exact ⟨u, hsize ▸ hu, by rwa [hversion]⟩
  own := fun w hw ↦ (hwriters w hw).2
  above := by
    intro w hw v hv
    rw [hstorages] at hv
    rw [hallocator v hv, hversion]
    exact hs.above w (hwriters w hw).1 v hv

/-- A new transaction is newer than all that is committed. -/
theorem Stamped.opened {s s' : Coordinator} (hs : s.Stamped) (h : s.Inv) {b : ℕ} {writer : Bool}
    (ho : Opens s s' b writer) {version : ℕ} (habove : s.Above version)
    (hother : ∀ v, v ≠ b → (s'.versions v).toAllocator = (s.versions v).toAllocator)
    (hself : b = s.size ∧ (s'.versions b).toAllocator = ⟨version, max s.lastAddress 32, 0, ∅⟩ ∨
      writer = false ∧ b ∈ s.recycler ∧
        (s'.versions b).toAllocator = (s.versions b).toAllocator) : s'.Stamped := by
  have hallocator : ∀ v ∈ s.storages, (s'.versions v).toAllocator = (s.versions v).toAllocator :=
    fun v hv ↦ hother v fun he ↦ ho.notMem (he ▸ hv)
  have hversion : ∀ v < s.size, (s'.versions v).version = (s.versions v).version := by
    intro v hv
    by_cases hvb : v = b
    · rcases hself with ⟨hb, -⟩ | ⟨-, -, hsame⟩
      · exact absurd (hvb.trans hb) hv.ne
      · rw [hvb, hsame]
    · rw [hother v hvb]
  have hnew : ∀ w ∈ s'.writers, w ∈ s.writers ∧ w ≠ b ∨
      writer = true ∧ w = b ∧
        (s'.versions w).toAllocator = ⟨version, max s.lastAddress 32, 0, ∅⟩ := by
    intro w hw
    rw [ho.writers h] at hw
    split at hw
    · next hwriter =>
      rcases hself with ⟨-, hself⟩ | ⟨hreader, -⟩
      · have hwb := Finset.mem_singleton.1 hw
        exact .inr ⟨hwriter, hwb, hwb ▸ hself⟩
      · rw [hwriter] at hreader
        cases hreader
    · exact .inl ⟨hw, fun he ↦ ho.closed (he ▸ (mem_writers.1 hw).1)⟩
  constructor
  case positive =>
    intro v hv
    rw [hallocator v (ho.storages ▸ hv)]
    exact hs.positive v (ho.storages ▸ hv)
  case descending =>
    rw [ho.storages]
    exact hs.descending.congr fun v hv ↦ hallocator v (List.mem_reverse.1 hv)
  case below =>
    intro v hv a b hb
    rw [ho.storages] at hv
    rw [hallocator v hv] at hb
    obtain ⟨u, hu, hle⟩ := hs.below v hv a b hb
    exact ⟨u, hu.trans_le ho.size, by rwa [hversion u hu]⟩
  case own =>
    intro w hw
    rcases hnew w hw with ⟨hw, hne⟩ | ⟨-, -, hself⟩
    · rw [hother w hne]
      exact hs.own w hw
    · intro a b hb
      rw [hself] at hb
      cases hb
  case above =>
    intro w hw v hv
    rw [ho.storages] at hv
    rw [hallocator v hv]
    rcases hnew w hw with ⟨hw, hne⟩ | ⟨-, -, hself⟩
    · rw [hother w hne]
      exact hs.above w hw v hv
    · rw [hself]
      refine ⟨habove v (h.storages_lt v hv), fun a b hb ↦ ?_⟩
      obtain ⟨u, hu, hle⟩ := hs.below v hv a b hb
      exact hle.trans_lt (habove u hu)

/-- An allocation stamps its blocks with the version of its transaction. -/
theorem Stamped.allocated {s : Coordinator} (hs : s.Stamped) {t : ℕ} (ht : t ∈ s.transactions)
    (which : ℕ) (how : StorageAction) (content : Option Bytes) :
    (s.allocateAndWrite t which how content).Stamped := by
  have hshape := sameShape_allocateAndWrite s t which how content
  refine hs.frame hshape.storages hshape.size hshape.version (fun v hv ↦ ?_) fun w hw ↦ ?_
  · rw [versions_allocateAndWrite]
    exact fun he ↦ (mem_transactions.1 ht).2.2 (he ▸ hv)
  · rw [hshape.writers] at hw
    refine ⟨hw, ?_⟩
    by_cases hwt : w = t
    · rw [hwt]
      exact own_allocateAndWrite (hs.own t (hwt ▸ hw)) which how content
    · rw [versions_allocateAndWrite s which how content hwt]
      exact hs.own w hw

/-- A refused call leaves the versions or closes its transaction. -/
theorem Stamped.refused {s s' : Coordinator} (hs : s.Stamped) (h : s.Inv) {t : ℕ}
    (ht : t ∈ s.transactions) (hr : s.RefusedAs t s') : s'.Stamped := by
  cases hr with
  | same last address _ =>
    exact hs.frame rfl rfl (fun _ ↦ rfl) (fun _ _ ↦ rfl) fun w hw ↦ ⟨hw, hs.own w hw⟩
  | discarded =>
    refine hs.frame rfl rfl (fun _ ↦ rfl) (fun _ _ ↦ rfl) fun w hw ↦ ?_
    have hw' : w ∈ s.writers := by
      rw [(closes_discarded h ht).writers] at hw
      exact Finset.mem_of_mem_erase hw
    exact ⟨hw', hs.own w hw'⟩

/-- A writing transaction comes above the committed versions. -/
theorem Stamped.cons {s : Coordinator} (hs : s.Stamped) {w : ℕ} (hw : w ∈ s.writers) :
    s.Descending (w :: s.storages.reverse) where
  nodup := by
    refine List.nodup_cons.2 ⟨fun hin ↦ ?_, hs.descending.nodup⟩
    exact (mem_transactions.1 (mem_writers.1 hw).1).2.2 (List.mem_reverse.1 hin)
  versions := List.pairwise_cons.2
    ⟨fun v hv ↦ (hs.above w hw v (List.mem_reverse.1 hv)).1, hs.descending.versions⟩
  newer := by
    refine List.pairwise_cons.2 ⟨fun v hv a b hb ↦ ?_, hs.descending.newer⟩
    rw [hs.own w hw a b hb]
    obtain ⟨hversion, hblocks⟩ := hs.above w hw v (List.mem_reverse.1 hv)
    exact ⟨hversion, hblocks a⟩

/-- A committed version comes above the others. -/
theorem Stamped.committed {s : Coordinator} (hs : s.Stamped) (h : s.Inv) {t : ℕ}
    (hw : t ∈ s.writers) : (s.committed t).Stamped := by
  have ht := (mem_writers.1 hw).1
  have hc := closes_committed h hw
  have hnone : ∀ w, w ∉ (s.committed t).writers := by
    intro w hin
    rw [hc.writers, Finset.mem_erase] at hin
    exact hin.1 (Finset.card_le_one.1 h.single w hin.2 t hw)
  have hmem : ∀ v, v ∈ (s.committed t).storages → v ∈ s.storages ∨ v = t := by
    intro v hv
    rcases List.mem_append.1 hv with hv | hv
    · exact .inl hv
    · exact .inr (List.mem_singleton.1 hv)
  constructor
  case positive =>
    intro v hv
    rcases hmem v hv with hv | rfl
    · exact hs.positive v hv
    · obtain ⟨last, hlast⟩ := h.exists_last
      have hlow := (hs.above v hw last (List.mem_of_getLast? hlast)).1
      exact Nat.zero_lt_of_lt hlow
  case descending =>
    have hstorages : (s.committed t).storages.reverse = t :: s.storages.reverse := by
      simp [Coordinator.committed]
    rw [hstorages]
    exact (hs.cons hw).congr fun _ _ ↦ rfl
  case below =>
    intro v hv a b hb
    rcases hmem v hv with hv | rfl
    · exact hs.below v hv a b hb
    · exact ⟨v, (mem_transactions.1 ht).1, (hs.own v hw a b hb).le⟩
  case own => exact fun w hin ↦ absurd hin (hnone w)
  case above => exact fun w hin ↦ absurd hin (hnone w)

/-- Merging idle versions keeps what is stamped. -/
theorem Stamped.mergedDown {s : Coordinator} (hs : s.Stamped) (h : s.Inv) :
    s.mergeDown.2.Stamped := by
  obtain ⟨-, hmerged⟩ := mergeDown_ok (hs.ordered h)
  obtain ⟨hdown, -⟩ := mergeDown_spec h
  obtain ⟨hsize, hversion, hsub⟩ := hmerged.shape
  have hwriters : s.mergeDown.2.writers = s.writers := by
    ext w
    rw [mem_writers, mem_writers, hdown.transactions, hdown.readOnly]
  constructor
  case positive => exact hmerged.ordered.positive
  case descending => exact hmerged.ordered.descending
  case below =>
    intro v hv a b hb
    obtain ⟨u, hu, hb⟩ := hmerged.stems v hv a b hb
    obtain ⟨u', hu', hle⟩ := hs.below u hu a b hb
    exact ⟨u', hsize ▸ hu', by rwa [hversion]⟩
  case own =>
    intro w hw
    rw [hwriters] at hw
    rw [hdown.allocator w (.inl (mem_transactions.1 (mem_writers.1 hw).1).2.2)]
    exact hs.own w hw
  case above =>
    intro w hw v hv
    rw [hwriters] at hw
    rw [hversion, hversion]
    refine ⟨(hs.above w hw v (hsub.subset hv)).1, fun a b hb ↦ ?_⟩
    obtain ⟨u, hu, hb⟩ := hmerged.stems v hv a b hb
    exact (hs.above w hw u hu).2 a b hb

/-- A merge moves all blocks of its transaction, which then gets a version above them. -/
theorem Stamped.merged {s s' : Coordinator} (hs : s.Stamped) (h : s.Inv) {t last created : ℕ}
    (hw : t ∈ s.writers) (hlast : s.storages.getLast? = some last) (habove : s.Above created)
    (hs' : s' = ((s.mergeStart t).move t last).2) :
    ((s.mergeStart t).move t last).1 = .ok () ∧ (s'.renumber t t created).Stamped := by
  have ht := (mem_writers.1 hw).1
  have hnot := (mem_transactions.1 ht).2.2
  have hne := ne_newest ht hlast
  obtain ⟨lower, hlower⟩ := exists_lower hlast
  have hdescending : (s.mergeStart t).Descending ([] ++ t :: last :: lower) :=
    (hlower ▸ hs.cons hw).congr fun _ _ ↦ rfl
  have hnewer : (s.mergeStart t).Newer t last :=
    (List.pairwise_cons.1 hdescending.newer).1 last List.mem_cons_self
  have hok := move_ok hnewer
  refine ⟨hok, ?_⟩
  have hshape : SameShape s s' := by
    rw [hs']
    exact sameShape_merging ht hlast
  have hlowered := hdescending.move
  rw [← hs'] at hlowered
  have hempty : ∀ a, (s'.versions t).block a = none := by
    intro a
    rw [Allocator.block, hs', blocks_move _ hne hok, AList.lookup_empty]
  have hfresh : s'.IsFresh created := hshape.isFresh fun v hv ↦ (habove v hv).ne
  have ht' : t ∈ s'.transactions := hshape.transactions ▸ ht
  have hwriters : ∀ w ∈ (s'.renumber t t created).writers, w = t := by
    intro w hin
    rw [mem_writers, transactions_renumber (hshape.inv h) ht' hfresh, readOnly_renumber,
      ← mem_writers, hshape.writers] at hin
    exact Finset.card_le_one.1 h.single w hin t hw
  have hversions : ∀ v ∈ s.storages, (s'.renumber t t created).versions v = s'.versions v := by
    intro v hv
    have hvt : v ≠ t := fun he ↦ hnot (he ▸ hv)
    rw [versions_renumber, if_neg hvt]
  have hself : ((s'.renumber t t created).versions t).version = created := by
    rw [versions_renumber, if_pos rfl]
  -- every block that is committed now was written by the transaction or committed before
  have hstamp : ∀ v ∈ s.storages, ∀ a b, (s'.versions v).block a = some b →
      b.version < created := by
    intro v hv a b hb
    have hlisted : v ∈ [] ++ t :: last :: lower := by
      rw [← hlower]
      exact List.mem_cons_of_mem _ (List.mem_reverse.2 hv)
    obtain ⟨u, hu, hb⟩ := hlowered.stems v hlisted a b hb
    rw [← hlower] at hu
    rcases List.mem_cons.1 hu with rfl | hu
    · rw [hs.own u hw a b hb]
      exact habove u (mem_transactions.1 ht).1
    · obtain ⟨u', hu', hle⟩ := hs.below u (List.mem_reverse.1 hu) a b hb
      exact hle.trans_lt (habove u' hu')
  have hstorages : (s'.renumber t t created).storages = s.storages := hshape.storages
  constructor
  case positive =>
    intro v hv
    rw [hstorages] at hv
    rw [hversions v hv, hshape.version]
    exact hs.positive v hv
  case descending =>
    rw [hstorages]
    refine (hlowered.descending.sublist ?_).congr fun v hv ↦ by
      rw [hversions v (List.mem_reverse.1 hv)]
    rw [hlower]
    exact List.sublist_cons_self ..
  case below =>
    intro v hv a b hb
    rw [hstorages] at hv
    rw [hversions v hv] at hb
    have hsize : (s'.renumber t t created).size = s.size := hshape.size
    refine ⟨t, hsize ▸ (mem_transactions.1 ht).1, ?_⟩
    rw [hself]
    exact (hstamp v hv a b hb).le
  case own =>
    intro w hin a b hb
    rw [hwriters w hin, Allocator.block, blocks_renumber, ← Allocator.block, hempty] at hb
    cases hb
  case above =>
    intro w hin v hv
    rw [hstorages] at hv
    rw [hwriters w hin, hself, hversions v hv, hshape.version]
    exact ⟨habove v (h.storages_lt v hv), hstamp v hv⟩

/-- Every call and every merge of idle versions keeps what is stamped. -/
theorem Stamped.maintained {s s' : Coordinator} {a : MaintenanceAction} (hs : s.Stamped)
    (h : s.Inv) (ha : s.VersionsIncrease a) (hstep : s.maintain a = some s') : s'.Stamped := by
  cases a with
  | mergeDown =>
    cases hstep
    exact hs.mergedDown h
  | call a =>
    cases called_of_step h hstep with
    | unopened => exact hs
    | opened _ hopens hother _ hself => exact hs.opened h hopens ha hother hself
    | allocated ht => exact hs.allocated ht _ _ _
    | mergeRefused ht _ _ hrefused => exact hs.refused h ht hrefused
    | mergeHalted hw hlast hmove =>
      obtain ⟨hok, -⟩ := hs.merged h hw hlast ha rfl
      rw [hmove] at hok
      cases hok
    | merged hw hlast _ hmove =>
      obtain ⟨-, hmerged⟩ := hs.merged h hw hlast ha rfl
      rwa [hmove] at hmerged
    | commitRefused ht _ hrefused => exact hs.refused h ht hrefused
    | committed hw =>
      exact (hs.committed h hw).mergedDown
        ((closes_committed h hw).inv h (mem_writers.1 hw).1)
    | discarded ht => exact hs.refused h ht .discarded
    | journalSynching on =>
      exact hs.frame rfl rfl (fun _ ↦ rfl) (fun _ _ ↦ rfl) fun w hw ↦ ⟨hw, hs.own w hw⟩

/-- The initial storage alone, with blocks no newer than its version. -/
theorem stamped_start {initial : Opening} (hpositive : 0 < initial.version)
    (hstamps : ∀ a b, initial.block a = some b → b.version ≤ initial.version) :
    (start initial).Stamped := by
  have hnone : ∀ w, w ∉ (start initial).writers := by
    intro w hw
    cases (mem_transactions.1 (mem_writers.1 hw).1).2.1
  exact ⟨fun _ _ ↦ hpositive,
    ⟨List.nodup_singleton _, List.pairwise_singleton .., List.pairwise_singleton ..⟩,
    fun v _ a b hb ↦ ⟨0, Nat.zero_lt_one, hstamps a b hb⟩, fun w hw ↦ absurd hw (hnone w),
    fun w hw ↦ absurd hw (hnone w)⟩

/-- The order of the versions has nothing to do with their readers. -/
theorem Ordered.withReaders {s : Coordinator} (h : s.Ordered) (readers : ℕ → ℕ) :
    (s.withReaders readers).Ordered :=
  ⟨h.lt, h.nonempty, h.linked.congr fun _ _ ↦ rfl, h.positive, h.descending.congr fun _ _ ↦ rfl⟩

/-- Merging idle versions that a run has committed, whatever their readers are, does not throw
and keeps the views. Of adjacent versions one is in use then, unless a journal synch is in
progress, when nothing changes. -/
theorem mergeDown_of_maintained {initial : Opening} (hpositive : 0 < initial.version)
    (hstamps : ∀ a b, initial.block a = some b → b.version ≤ initial.version) {s : Coordinator}
    (hs : Reached maintain VersionsIncrease (start initial) s) (readers : ℕ → ℕ) :
    (s.withReaders readers).mergeDown.1 = .ok () ∧
      ViewsKept (s.withReaders readers) (s.withReaders readers).mergeDown.2 ∧
      if s.journalSynching = true then
        (s.withReaders readers).mergeDown.2 = s.withReaders readers
      else (s.withReaders readers).mergeDown.2.storages.IsChain fun u v ↦
        readers u ≠ 0 ∨ readers v ≠ 0 := by
  have hkeeps : s.Inv ∧ s.Stamped := by
    refine hs.invariant (fun s ↦ s.Inv ∧ s.Stamped)
      ⟨inv_start initial, stamped_start hpositive hstamps⟩ fun s s' a hs ha hstep ↦ ?_
    exact ⟨inv_maintain hs.1 hstep, hs.2.maintained hs.1 ha hstep⟩
  obtain ⟨hok, hmerged⟩ := mergeDown_ok ((hkeeps.2.ordered hkeeps.1).withReaders readers)
  refine ⟨hok, hmerged.views, ?_⟩
  split
  · next hsynching =>
    unfold mergeDown
    rw [if_pos (.inl hsynching)]
  · next hsynching => exact hmerged.neighbours (Bool.eq_false_iff.2 hsynching)

/-- Two commits with a reader between them, and another one. -/
def commitsAroundReader : List MaintenanceAction :=
  [.call (.begin true 5 true), .call (.allocate 1 20 .create (some [1])),
    .call (.begin false 6 true), .call (.commit 1 alone), .call (.begin false 7 true),
    .call (.begin true 8 true),
    .call (.allocate 4 20 .write (some [2])), .call (.commit 4 alone)]

/-- Where all readers leave, one version is left. -/
theorem mergeDown_of_maintained_idle :
    ∃ s, runAllowed maintain VersionsIncrease (start (.plain ⟨1, 32, 0, ∅⟩)) commitsAroundReader =
        some s ∧
      s.storages = [0, 1, 4] ∧ (s.withReaders fun _ ↦ 0).mergeDown.2.storages = [0] ∧
      ViewsKept (s.withReaders fun _ ↦ 0) (s.withReaders fun _ ↦ 0).mergeDown.2 := by
  have hrun : (runAllowed maintain VersionsIncrease (start (.plain ⟨1, 32, 0, ∅⟩))
      commitsAroundReader).map (fun s ↦
        (s.storages, (s.withReaders fun _ ↦ 0).mergeDown.2.storages)) =
        some ([0, 1, 4], [0]) := by decide +kernel
  obtain ⟨s, hs, hvalue⟩ := Option.map_eq_some_iff.mp hrun
  simp only [Prod.mk.injEq] at hvalue
  refine ⟨s, hs, hvalue.1, hvalue.2, ?_⟩
  have hviews := mergeDown_of_maintained (by decide) (fun a b hb ↦ by cases hb)
    (reached_of_runAllowed .start hs) fun _ ↦ 0
  exact hviews.2.1

/-- While a journal is synched idle neighbours stay. -/
theorem synching_not_merged :
    ∃ s, runAllowed maintain VersionsIncrease (start (.plain ⟨1, 32, 0, ∅⟩))
        [.call (.journalSynching true), .call (.begin true 5 true), .call (.commit 1 alone)] =
          some s ∧
      s.mergeDown.2.storages = [0, 1] ∧ ¬s.mergeDown.2.storages.IsChain s.InUse := by
  have hrun : (runAllowed maintain VersionsIncrease (start (.plain ⟨1, 32, 0, ∅⟩))
      [.call (.journalSynching true), .call (.begin true 5 true), .call (.commit 1 alone)]).map
        (fun s ↦ (s.mergeDown.2.storages, (s.versions 0).readers, (s.versions 1).readers)) =
          some ([0, 1], 0, 0) := by decide +kernel
  obtain ⟨s, hs, hvalue⟩ := Option.map_eq_some_iff.mp hrun
  simp only [Prod.mk.injEq] at hvalue
  obtain ⟨hstorages, hzero, hone⟩ := hvalue
  refine ⟨s, hs, hstorages, ?_⟩
  rw [hstorages, List.isChain_pair, InUse, hzero, hone]
  decide

end Coordinator

end LibSpaces.Transactions
