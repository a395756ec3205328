import LibSpaces.Network.Replicants
import LibSpaces.Transactions.Marks
import LibSpaces.Transactions.ReaderCounts

/-!
# Fresh block addresses

A transaction counts on from the last address of the coordinator, which it hands back when it is
committed or merged, `src/src/storage/transactions/transactional_storage.h:938–1014,2790–2850,
2906–3096`. `add_replicant` only tells the initial storage of the addresses that the replicants
have given out, `transactional_storage.h:1039–1044,2700–2706`. Recovery from the journal begins a
writing transaction, creates its pages and commits, like any other caller.
-/

namespace LibSpaces.Transactions

open LibSpaces.Base LibSpaces.Network

namespace Allocator

/-- No block is above the last address given out. -/
def Bounded (s : Allocator) : Prop := ∀ a, (s.block a).isSome → a ≤ s.next

/-- The counter goes up, and no block is left above it. -/
structure Grows (s s' : Allocator) : Prop where
  next : s.next ≤ s'.next
  bounded : s.Bounded → s'.Bounded

private theorem Grows.refl (s : Allocator) : Grows s s := ⟨le_rfl, id⟩

private theorem Grows.trans {s s' s'' : Allocator} (h : Grows s s') (h' : Grows s' s'') :
    Grows s s'' :=
  ⟨h.next.trans h'.next, h'.bounded ∘ h.bounded⟩

private theorem Grows.setBlock {s : Allocator} {a : ℕ} (b : Block) (ha : s.Bounded → a ≤ s.next) :
    Grows s (s.setBlock a b) where
  next := le_rfl
  bounded := by
    intro h a' ha'
    rw [block_setBlock] at ha'
    split at ha'
    · next he => exact he ▸ ha h
    · exact h a' ha'

private theorem Grows.create (s : Allocator) (a : ℕ) : Grows s (s.create a) := by
  unfold Allocator.create
  split
  · exact ⟨le_rfl, id⟩
  · refine ⟨le_max_right _ _, fun h a' ha' ↦ ?_⟩
    have hset : ((s.setBlock a ⟨[], s.version⟩).block a').isSome := ha'
    rw [block_setBlock] at hset
    split at hset
    · next he => exact he ▸ le_max_left _ _
    · exact (h a' hset).trans (le_max_right _ _)

/-- As long as the counter does not overflow. -/
theorem Grows.createNext {s : Allocator} (hroom : s.next + 1 < 2 ^ 64) : Grows s s.createNext := by
  unfold Allocator.createNext
  rw [Nat.mod_eq_of_lt hroom]
  refine ⟨Nat.le_succ _, fun h a' ha' ↦ ?_⟩
  have hset : ((s.setBlock (s.next + 1) ⟨[], s.version⟩).block a').isSome := ha'
  rw [block_setBlock] at hset
  split at hset
  · next he => exact he.le
  · exact (h a' hset).trans (Nat.le_succ _)

end Allocator

namespace Coordinator

/-- There are 64-bit addresses left for the call. -/
def HasRoom (s : Coordinator) (t which : ℕ) (how : StorageAction) : Prop :=
  how = .create → which = 0 → (s.versions t).next + 1 < 2 ^ 64

instance (s : Coordinator) (t which : ℕ) (how : StorageAction) :
    Decidable (s.HasRoom t which how) :=
  inferInstanceAs (Decidable (_ → _ → _))

/-- An allocation counts up in its transaction. -/
theorem grows_allocateAndWrite {s : Coordinator} {t which : ℕ} {how : StorageAction}
    (hroom : s.HasRoom t which how) (content : Option Bytes) :
    Allocator.Grows (s.versions t).toAllocator
      ((s.allocateAndWrite t which how content).versions t).toAllocator := by
  have hallocate : Allocator.Grows (s.versions t).toAllocator
      ((s.allocate t which how).2.versions t).toAllocator := by
    unfold allocate
    dsimp only
    split
    · exact .refl _
    split
    · split
      · next hzero =>
        rw [versions_setVersion, if_pos rfl]
        exact .createNext (hroom rfl hzero)
      · rw [versions_setVersion, if_pos rfl]
        exact .create _ which
    · split
      · exact .refl _
      · split
        · exact .refl _
        · split <;> exact .refl _
    · have hchanged : Allocator.Grows (s.versions t).toAllocator
          { (s.versions t).toAllocator with changes := (s.versions t).changes + 1 } := ⟨le_rfl, id⟩
      split
      · rw [versions_setVersion, if_pos rfl]
        exact hchanged
      · split
        · rw [versions_setVersion, if_pos rfl]
          exact hchanged
        · split
          · rw [versions_setVersion, if_pos rfl]
            refine (hchanged.trans (.create _ which)).trans (.setBlock _ fun h ↦ ?_)
            apply h
            rw [Allocator.block_create]
            rfl
          · rw [versions_setVersion, if_pos rfl]
            exact hchanged
  unfold allocateAndWrite
  split
  · next block s₁ content hresult =>
    rw [hresult] at hallocate
    split
    · exact hallocate
    · unfold assign
      dsimp only
      split
      · next b hb =>
        rw [versions_setVersion]
        split
        · next ht =>
          rw [← ht] at hb ⊢
          refine hallocate.trans (.setBlock _ fun h ↦ h _ ?_)
          rw [hb]
          rfl
        · exact hallocate
      · exact hallocate
  · next hresult _ =>
    rw [hresult] at hallocate
    exact hallocate

/-- `add_replicant` with what the replicants answer, and `check_max_address` of the initial
storage, `transactional_storage.h:1039–1044,2700–2706`. -/
def addReplicant (s : Coordinator) (replies : List (Reply × ℕ)) : Coordinator :=
  match getMaxAddress replies with
  | some m => s.setVersion 0 { s.versions 0 with next := max m (s.versions 0).next }
  | none => s

private theorem sameShape_addReplicant (s : Coordinator) (replies : List (Reply × ℕ)) :
    SameShape s (s.addReplicant replies) := by
  unfold addReplicant
  split
  · exact SameShape.setVersion _ _ _ rfl
  · rfl

private theorem block_addReplicant (s : Coordinator) (replies : List (Reply × ℕ)) (v a : ℕ) :
    ((s.addReplicant replies).versions v).block a = (s.versions v).block a := by
  unfold addReplicant
  split
  · rw [versions_setVersion]
    split
    · next h => rw [h]; rfl
    · rfl
  · rfl

private theorem addReplicant_marks (s : Coordinator) (replies : List (Reply × ℕ)) :
    (s.addReplicant replies).marks = s.marks := by
  unfold addReplicant
  split
  · exact marks_setVersion s 0 rfl
  · rfl

private theorem grows_addReplicant (s : Coordinator) (replies : List (Reply × ℕ)) (v : ℕ) :
    Allocator.Grows (s.versions v).toAllocator
      ((s.addReplicant replies).versions v).toAllocator := by
  unfold addReplicant
  split
  · rw [versions_setVersion]
    split
    · next h =>
      rw [h]
      exact ⟨le_max_right _ _, fun hb a ha ↦ (hb a ha).trans (le_max_right _ _)⟩
    · exact .refl _
  · exact .refl _

end Coordinator

/-- The coordinator and the addresses that replicants have reported. -/
structure AddressLog where
  coordinator : Coordinator
  reported : List ℕ

/-- A call, or a replicant is added. -/
inductive AddressAction
  | maintain (a : MaintenanceAction)
  | addReplicant (replies : List (Reply × ℕ))

namespace AddressLog

/-- The coordinator over an initial storage. -/
def start (initial : Opening) : AddressLog := ⟨.start initial, []⟩

/-- One step of the coordinator, with the addresses it has given out. -/
def step (h : AddressLog) : AddressAction → Option AddressLog
  | .maintain a => (h.coordinator.maintain a).map fun s ↦ { h with coordinator := s }
  | .addReplicant replies =>
    some ⟨h.coordinator.addReplicant replies, reports replies ++ h.reported⟩

/-- The addresses that were reported are known: they are not above the last address when a
writing transaction begins, nor above the counter of one that is open when they are reported. -/
def Known (h : AddressLog) : AddressAction → Prop
  | .maintain (.call (.begin true _ _)) => ∀ m ∈ h.reported, m ≤ max h.coordinator.lastAddress 32
  | .maintain (.call (.allocate t which how _)) => h.coordinator.HasRoom t which how
  | .addReplicant replies =>
    ∀ m ∈ reports replies, ∀ w ∈ h.coordinator.writers, m ≤ (h.coordinator.versions w).next
  | _ => True

instance (h : AddressLog) (a : AddressAction) : Decidable (h.Known a) := by
  unfold Known
  split <;> infer_instance

/-- The counters are in order: the blocks that are committed, the last address, the counters of
the writing transactions. -/
structure Keeps (h : AddressLog) : Prop where
  inv : h.coordinator.Inv
  committed : ∀ v ∈ h.coordinator.storages, ∀ a,
    ((h.coordinator.versions v).block a).isSome → a ≤ h.coordinator.lastAddress
  bounded : ∀ w ∈ h.coordinator.writers, (h.coordinator.versions w).Bounded
  le_next : ∀ w ∈ h.coordinator.writers, h.coordinator.lastAddress ≤ (h.coordinator.versions w).next
  reported : ∀ w ∈ h.coordinator.writers, ∀ m ∈ h.reported, m ≤ (h.coordinator.versions w).next

/-- A change that commits no block at a new address and opens no writing transaction. -/
theorem Keeps.frame {h : AddressLog} (hk : h.Keeps) {s : Coordinator} (hinv : s.Inv)
    (hlast : s.lastAddress = h.coordinator.lastAddress)
    (hcommitted : ∀ v ∈ s.storages, ∀ a, ((s.versions v).block a).isSome →
      ∃ u ∈ h.coordinator.storages, ((h.coordinator.versions u).block a).isSome)
    (hwriters : ∀ w ∈ s.writers, w ∈ h.coordinator.writers ∧
      Allocator.Grows (h.coordinator.versions w).toAllocator (s.versions w).toAllocator) :
    Keeps { h with coordinator := s } where
  inv := hinv
  committed := by
    intro v hv a ha
    obtain ⟨u, hu, hb⟩ := hcommitted v hv a ha
    exact hlast ▸ hk.committed u hu a hb
  bounded := fun w hw ↦ (hwriters w hw).2.bounded (hk.bounded w (hwriters w hw).1)
  le_next := by
    intro w hw
    rw [hlast]
    exact (hk.le_next w (hwriters w hw).1).trans (hwriters w hw).2.next
  reported := fun w hw m hm ↦ (hk.reported w (hwriters w hw).1 m hm).trans (hwriters w hw).2.next

/-- The versions stay as they are, some writing transactions may close. -/
theorem Keeps.same {h : AddressLog} (hk : h.Keeps) {s : Coordinator} (hinv : s.Inv)
    (hlast : s.lastAddress = h.coordinator.lastAddress)
    (hstorages : s.storages = h.coordinator.storages)
    (hallocator : ∀ v, (s.versions v).toAllocator = (h.coordinator.versions v).toAllocator)
    (hwriters : s.writers ⊆ h.coordinator.writers) : Keeps { h with coordinator := s } := by
  refine hk.frame hinv hlast (fun v hv a ha ↦ ⟨v, hstorages ▸ hv, ?_⟩) fun w hw ↦ ⟨hwriters hw, ?_⟩
  · rwa [hallocator] at ha
  · rw [hallocator]
    exact .refl _

/-- A new writing transaction counts on from the last address. -/
theorem Keeps.opened {h : AddressLog} (hk : h.Keeps) {s : Coordinator} {b : ℕ} {writer : Bool}
    (ho : Coordinator.Opens h.coordinator s b writer) (version : ℕ)
    (hknown : writer = true → ∀ m ∈ h.reported, m ≤ max h.coordinator.lastAddress 32)
    (hother : ∀ v, v ≠ b → (s.versions v).toAllocator = (h.coordinator.versions v).toAllocator)
    (hlast : s.lastAddress = h.coordinator.lastAddress)
    (hself : writer = true →
      (s.versions b).toAllocator = ⟨version, max h.coordinator.lastAddress 32, 0, ∅⟩) :
    Keeps { h with coordinator := s } := by
  have hstored : ∀ v ∈ h.coordinator.storages,
      (s.versions v).toAllocator = (h.coordinator.versions v).toAllocator :=
    fun v hv ↦ hother v fun he ↦ ho.notMem (he ▸ hv)
  have hwriters : ∀ w ∈ s.writers, w ∈ h.coordinator.writers ∧ w ≠ b ∨ writer = true ∧ w = b := by
    intro w hw
    rw [ho.writers hk.inv] at hw
    split at hw
    · next hwriter => exact .inr ⟨hwriter, Finset.mem_singleton.1 hw⟩
    · exact .inl ⟨hw, fun he ↦ ho.closed (he ▸ (Coordinator.mem_writers.1 hw).1)⟩
  constructor
  case inv => exact ho.inv hk.inv
  case committed =>
    intro v hv a ha
    dsimp only at hv ha ⊢
    rw [ho.storages] at hv
    rw [hstored v hv] at ha
    exact hlast ▸ hk.committed v hv a ha
  case bounded =>
    intro w hw
    rcases hwriters w hw with ⟨hw, hne⟩ | ⟨hwriter, rfl⟩
    · dsimp only
      rw [hother w hne]
      exact hk.bounded w hw
    · dsimp only
      rw [hself hwriter]
      exact fun a ha ↦ nomatch ha
  case le_next =>
    intro w hw
    dsimp only
    rw [hlast]
    rcases hwriters w hw with ⟨hw, hne⟩ | ⟨hwriter, rfl⟩
    · rw [hother w hne]
      exact hk.le_next w hw
    · rw [hself hwriter]
      exact le_max_left _ _
  case reported =>
    intro w hw m hm
    dsimp only
    rcases hwriters w hw with ⟨hw, hne⟩ | ⟨hwriter, rfl⟩
    · rw [hother w hne]
      exact hk.reported w hw m hm
    · rw [hself hwriter]
      exact hknown hwriter m hm

/-- A refused call hands back the counter of its transaction, or leaves the last address. -/
theorem Keeps.refused {h : AddressLog} (hk : h.Keeps) {t : ℕ} {s : Coordinator}
    (ht : t ∈ h.coordinator.transactions) (hr : h.coordinator.RefusedAs t s) :
    Keeps { h with coordinator := s } := by
  have hinv := hr.inv hk.inv ht
  cases hr with
  | same last address haddress =>
    rcases haddress with rfl | ⟨hw, rfl⟩
    · exact hk.same hinv rfl rfl (fun _ ↦ rfl) (Finset.Subset.refl _)
    · refine ⟨hinv, fun v hv a ha ↦ (hk.committed v hv a ha).trans (le_max_left _ _), hk.bounded,
        fun w hw' ↦ ?_, hk.reported⟩
      have hwt : w = t := Finset.card_le_one.1 hk.inv.single w hw' t hw
      exact max_le (hk.le_next w hw') (hwt ▸ le_rfl)
  | discarded =>
    refine hk.same hinv rfl rfl (fun _ ↦ rfl) ?_
    rw [(Coordinator.closes_discarded hk.inv ht).writers]
    exact Finset.erase_subset _ _

/-- A committed version hands back its counter. -/
theorem Keeps.committedVersion {h : AddressLog} (hk : h.Keeps) {t : ℕ}
    (hw : t ∈ h.coordinator.writers) :
    Keeps { h with coordinator := h.coordinator.committed t } := by
  have hc := Coordinator.closes_committed hk.inv hw
  have hnone : ∀ w, w ∉ (h.coordinator.committed t).writers := by
    intro w hin
    rw [hc.writers, Finset.mem_erase] at hin
    exact hin.1 (Finset.card_le_one.1 hk.inv.single w hin.2 t hw)
  refine ⟨hc.inv hk.inv (Coordinator.mem_writers.1 hw).1, fun v hv a ha ↦ ?_,
    fun w hin ↦ absurd hin (hnone w), fun w hin ↦ absurd hin (hnone w),
    fun w hin ↦ absurd hin (hnone w)⟩
  rcases List.mem_append.1 hv with hv | hv
  · exact (hk.committed v hv a ha).trans (le_max_left _ _)
  · rw [List.mem_singleton] at hv
    subst hv
    exact (hk.bounded v hw a ha).trans (le_max_right _ _)

/-- Merging idle versions commits nothing new. -/
theorem Keeps.mergedDown {h : AddressLog} (hk : h.Keeps) :
    Keeps { h with coordinator := h.coordinator.mergeDown.2 } := by
  obtain ⟨hm, -⟩ := Coordinator.mergeDown_spec hk.inv
  refine hk.frame hm.inv (congrArg Marks.lastAddress (Coordinator.mergeDown_marks h.coordinator))
    (fun v hv a ha ↦ ?_) fun w hw ↦ ?_
  · have hseen :
        (h.coordinator.mergeDown.2.view h.coordinator.mergeDown.2.storages.reverse a).isSome :=
      List.findSome?_isSome_iff.2 ⟨v, List.mem_reverse.2 hv, ha⟩
    rw [hm.view] at hseen
    obtain ⟨u, hu, hb⟩ := List.findSome?_isSome_iff.1 hseen
    exact ⟨u, List.mem_reverse.1 hu, hb⟩
  · have hw' : w ∈ h.coordinator.writers := by
      rw [Coordinator.mem_writers, hm.transactions, hm.readOnly] at hw
      exact Coordinator.mem_writers.2 hw
    refine ⟨hw', ?_⟩
    have hnot := (Coordinator.mem_transactions.1 (Coordinator.mem_writers.1 hw').1).2.2
    rw [hm.allocator w (.inl hnot)]
    exact .refl _

/-- Moving the blocks of a transaction to the newest version hands back its counter first. -/
theorem Keeps.moved {h : AddressLog} (hk : h.Keeps) {t last : ℕ} (hw : t ∈ h.coordinator.writers)
    (hlast : h.coordinator.storages.getLast? = some last) :
    Keeps { h with coordinator := ((h.coordinator.mergeStart t).move t last).2 } := by
  have hin : last ∈ h.coordinator.storages := List.mem_of_getLast? hlast
  have ht := (Coordinator.mem_writers.1 hw).1
  have hne := Coordinator.ne_newest ht hlast
  have hshape := Coordinator.sameShape_merging ht hlast
  have hversions := Coordinator.versions_move (h.coordinator.mergeStart t) hne
  have hor := Coordinator.or_block_move (h.coordinator.mergeStart t) hne
  have haddress : ((h.coordinator.mergeStart t).move t last).2.lastAddress =
      max h.coordinator.lastAddress (h.coordinator.versions t).next :=
    congrArg Marks.lastAddress (Coordinator.move_marks rfl)
  have hwriters : ∀ w ∈ ((h.coordinator.mergeStart t).move t last).2.writers, w = t := by
    intro w hw'
    rw [hshape.writers] at hw'
    exact Finset.card_le_one.1 hk.inv.single w hw' t hw
  have hnext : (((h.coordinator.mergeStart t).move t last).2.versions t).next =
      (h.coordinator.versions t).next := by
    rw [hversions, if_neg hne, if_pos rfl]
    exact Allocator.next_move _ _ _
  -- a block that is at one of the two now was at one of them before
  have hbound : ∀ v, v = t ∨ v = last → ∀ a,
      ((((h.coordinator.mergeStart t).move t last).2.versions v).block a).isSome →
        a ≤ (h.coordinator.versions t).next := by
    intro v hv a ha
    have hsome : (((h.coordinator.versions t).block a).or
        ((h.coordinator.versions last).block a)).isSome := by
      change (((h.coordinator.mergeStart t).versions t).block a |>.or
        (((h.coordinator.mergeStart t).versions last).block a)).isSome
      rw [← hor, Option.isSome_or]
      rcases hv with rfl | rfl
      · rw [ha]
        rfl
      · rw [ha, Bool.or_true]
    rw [Option.isSome_or, Bool.or_eq_true] at hsome
    rcases hsome with hsome | hsome
    · exact hk.bounded t hw a hsome
    · exact (hk.committed last hin a hsome).trans (hk.le_next t hw)
  refine ⟨hshape.inv hk.inv, fun v hv a ha ↦ ?_, fun w hw' a ha ↦ ?_, fun w hw' ↦ ?_,
    fun w hw' m hm ↦ ?_⟩
  · dsimp only at hv ha ⊢
    rw [hshape.storages] at hv
    rw [haddress]
    by_cases hvl : v = last
    · exact (hbound v (.inr hvl) a ha).trans (le_max_right _ _)
    · have hvt : v ≠ t := fun he ↦
        (Coordinator.mem_transactions.1 (Coordinator.mem_writers.1 hw).1).2.2 (he ▸ hv)
      rw [hversions, if_neg hvl, if_neg hvt] at ha
      exact (hk.committed v hv a ha).trans (le_max_left _ _)
  · dsimp only at hw' ha ⊢
    rw [hwriters w hw'] at ha ⊢
    rw [hnext]
    exact hbound t (.inl rfl) a ha
  · dsimp only at hw' ⊢
    rw [hwriters w hw', hnext, haddress]
    exact max_le (hk.le_next t hw) le_rfl
  · dsimp only at hw' ⊢
    rw [hwriters w hw', hnext]
    exact hk.reported t hw m hm

/-- Another version changes no counter. -/
theorem Keeps.renumbered {h : AddressLog} (hk : h.Keeps) {t created : ℕ}
    (ht : t ∈ h.coordinator.transactions) (hfresh : h.coordinator.IsFresh created) :
    Keeps { h with coordinator := h.coordinator.renumber t t created } := by
  have hnext := Coordinator.renumber_field h.coordinator t created (fun x ↦ x.next) fun _ _ _ ↦ rfl
  have hblock : ∀ v a, ((h.coordinator.renumber t t created).versions v).block a =
      (h.coordinator.versions v).block a := by
    intro v a
    rw [Allocator.block, Coordinator.blocks_renumber, Allocator.block]
  have hwriters : (h.coordinator.renumber t t created).writers = h.coordinator.writers := by
    ext w
    rw [Coordinator.mem_writers, Coordinator.transactions_renumber hk.inv ht hfresh,
      Coordinator.readOnly_renumber, Coordinator.mem_writers]
  refine hk.frame (Coordinator.inv_renumber hk.inv ht hfresh) rfl
    (fun v hv a ha ↦ ⟨v, hv, by rwa [hblock] at ha⟩) fun w hw ↦ ⟨hwriters ▸ hw, ?_⟩
  refine ⟨(hnext w).ge, fun hb a ha ↦ ?_⟩
  rw [hblock] at ha
  exact (hb a ha).trans (hnext w).ge

/-- An allocation with room for its address keeps the addresses apart. -/
theorem Keeps.allocated {h : AddressLog} (hk : h.Keeps) {t which : ℕ} {how : StorageAction}
    (ht : t ∈ h.coordinator.transactions) (hroom : h.coordinator.HasRoom t which how)
    (content : Option Bytes) :
    Keeps { h with coordinator := h.coordinator.allocateAndWrite t which how content } := by
  have hshape := Coordinator.sameShape_allocateAndWrite h.coordinator t which how content
  refine hk.frame (hshape.inv hk.inv) (congrArg Marks.lastAddress
    (Coordinator.allocateAndWrite_marks h.coordinator t which how content))
    (fun v hv a ha ↦ ⟨v, hshape.storages ▸ hv, ?_⟩) fun w hw ↦ ⟨hshape.writers ▸ hw, ?_⟩
  · rw [hshape.storages] at hv
    have hvt : v ≠ t := fun he ↦ (Coordinator.mem_transactions.1 ht).2.2 (he ▸ hv)
    rwa [Allocator.block, Coordinator.blocks_allocateAndWrite _ _ _ _ _ (.inl hvt)] at ha
  · by_cases hwt : w = t
    · rw [hwt]
      exact Coordinator.grows_allocateAndWrite hroom content
    · rw [Coordinator.versions_allocateAndWrite _ which how content hwt]
      exact .refl _

/-- So does maintenance. -/
theorem keeps_maintain {h : AddressLog} (hk : h.Keeps) {a : MaintenanceAction}
    (hknown : h.Known (.maintain a)) {s : Coordinator} (hstep : h.coordinator.maintain a = some s) :
    Keeps { h with coordinator := s } := by
  cases a with
  | mergeDown =>
    cases hstep
    exact hk.mergedDown
  | call a =>
    cases Coordinator.called_of_step hk.inv hstep with
    | unopened => exact hk
    | @opened writer version _ b _ _ hopens hother hlast hself =>
      refine hk.opened hopens version (fun hwriter ↦ ?_) hother hlast fun hwriter ↦ ?_
      · subst hwriter
        exact hknown
      · rcases hself with ⟨-, hself⟩ | ⟨hreader, -⟩
        · exact hself
        · rw [hwriter] at hreader
          cases hreader
    | allocated ht => exact hk.allocated ht hknown _
    | mergeRefused ht _ _ hrefused => exact hk.refused ht hrefused
    | mergeHalted hw hlast hmove =>
      have hmoved := hk.moved hw hlast
      rwa [hmove] at hmoved
    | merged hw hlast hfresh hmove =>
      have ht := (Coordinator.mem_writers.1 hw).1
      have hmoved := hk.moved hw hlast
      have hshape := Coordinator.sameShape_merging ht hlast
      rw [hmove] at hmoved hshape
      exact hmoved.renumbered (hshape.transactions ▸ ht) (hshape.isFresh hfresh)
    | commitRefused ht _ hrefused => exact hk.refused ht hrefused
    | committed hw => exact (hk.committedVersion hw).mergedDown
    | discarded ht => exact hk.refused ht .discarded
    | journalSynching on =>
      have hinv := Coordinator.inv_step _ _ (.journalSynching on) hk.inv rfl
      exact hk.same hinv rfl rfl (fun _ ↦ rfl) (Finset.Subset.refl _)

private theorem keeps_step (h h' : AddressLog) (a : AddressAction) (hk : h.Keeps)
    (hknown : h.Known a) (hstep : h.step a = some h') : h'.Keeps := by
  cases a with
  | maintain a =>
    obtain ⟨s, hs, rfl⟩ := Option.map_eq_some_iff.1 hstep
    exact keeps_maintain hk hknown hs
  | addReplicant replies =>
    cases hstep
    have hshape := Coordinator.sameShape_addReplicant h.coordinator replies
    have hgrows := Coordinator.grows_addReplicant h.coordinator replies
    have hframe : Keeps { h with coordinator := h.coordinator.addReplicant replies } := by
      refine hk.frame (hshape.inv hk.inv)
        (congrArg Marks.lastAddress (Coordinator.addReplicant_marks h.coordinator replies))
        (fun v hv a ha ↦ ⟨v, hshape.storages ▸ hv, ?_⟩) fun w hw ↦ ⟨hshape.writers ▸ hw, hgrows w⟩
      rwa [Coordinator.block_addReplicant] at ha
    refine ⟨hframe.inv, hframe.committed, hframe.bounded, hframe.le_next, fun w hw m hm ↦ ?_⟩
    rcases List.mem_append.1 hm with hm | hm
    · exact (hknown m hm w (hshape.writers ▸ hw)).trans (hgrows w).next
    · exact hframe.reported w hw m hm

/-- So does a storage that is opened with its counters above its addresses. -/
theorem keeps_start {initial : Opening} (hinitial : initial.Bounded) : (start initial).Keeps := by
  have hnone : ∀ w, w ∉ (start initial).coordinator.writers := by
    intro w hw
    cases (Coordinator.mem_transactions.1 (Coordinator.mem_writers.1 hw).1).2.1
  exact ⟨Coordinator.inv_start initial, fun _ _ a ha ↦ hinitial a ha,
    fun w hw ↦ absurd hw (hnone w), fun w hw ↦ absurd hw (hnone w), fun w hw ↦ absurd hw (hnone w)⟩

/-- The address that a writing transaction gets for a new block is that of no committed block, and
above all addresses that replicants have reported. -/
def Fresh (h : AddressLog) : Prop :=
  ∀ t ∈ h.coordinator.writers, h.coordinator.HasRoom t 0 .create →
    ∃ a, (h.coordinator.allocate t 0 .create).1 = .ok (some (t, a)) ∧
      (∀ v ∈ h.coordinator.storages, (h.coordinator.versions v).block a = none) ∧
      ∀ m ∈ h.reported, m < a

private theorem Keeps.fresh {h : AddressLog} (hk : h.Keeps) : h.Fresh := by
  intro t hw hroom
  have hnext : ((h.coordinator.versions t).createNext).next = (h.coordinator.versions t).next + 1 :=
    Nat.mod_eq_of_lt (hroom rfl rfl)
  refine ⟨(h.coordinator.versions t).next + 1, ?_, fun v hv ↦ ?_, fun m hm ↦ ?_⟩
  · have hwriter := (Coordinator.mem_writers.1 hw).2
    simp [Coordinator.allocate, hwriter, hnext]
  · by_contra hsome
    have hle := hk.committed v hv _ (Option.ne_none_iff_isSome.1 hsome)
    exact absurd (hle.trans (hk.le_next t hw)) (Nat.not_succ_le_self _)
  · exact Nat.lt_succ_of_le (hk.reported t hw m hm)

/-- In a run in which the addresses that replicants report are known, and none is counted beyond
64 bits, new blocks get fresh addresses. -/
theorem fresh_of_reached {initial : Opening} (hinitial : initial.Bounded) {h : AddressLog}
    (hs : Reached step Known (start initial) h) : h.Fresh :=
  (hs.invariant Keeps (keeps_start hinitial) keeps_step).fresh

/-- A block at a given address and the next one, merged, after a replicant that knows no other
addresses was added, and a page of a journal that is recovered. -/
def givenAddresses : List AddressAction :=
  [.maintain (.call (.begin true 5 true)), .maintain (.call (.allocate 1 40 .create (some [1]))),
    .addReplicant [(.reached, 40)], .maintain (.call (.allocate 1 0 .create (some [2]))),
    .maintain (.call (.merge 1 Coordinator.alone 6)), .maintain (.call (.discard 1)),
    .maintain (.call (.begin true 7 true)), .maintain (.call (.allocate 2 50 .create (some [3]))),
    .maintain (.call (.commit 2 Coordinator.alone)), .maintain (.call (.begin true 8 true))]

/-- Addresses that are given by the caller, and one that is not. -/
theorem fresh_of_reached_given :
    ∃ h, runAllowed step Known (start (.plain ⟨1, 32, 0, ∅⟩)) givenAddresses = some h ∧
      (h.coordinator.allocate 3 0 .create).1 = .ok (some (3, 51)) ∧ h.Fresh := by
  have hrun : (runAllowed step Known (start (.plain ⟨1, 32, 0, ∅⟩)) givenAddresses).map
      (fun h ↦ (h.coordinator.allocate 3 0 .create).1) = some (.ok (some (3, 51))) := by
    decide +kernel
  obtain ⟨h, hs, hvalue⟩ := Option.map_eq_some_iff.mp hrun
  have hempty : Allocator.Bounded ⟨1, 32, 0, ∅⟩ := fun a ha ↦ nomatch ha
  exact ⟨h, hs, hvalue, fresh_of_reached hempty (reached_of_runAllowed .start hs)⟩

/-- A replicant holds blocks up to address 100, the next new block gets address 33. -/
theorem addedReplicant_not_fresh :
    ∃ h, run step (start (.plain ⟨1, 32, 0, ∅⟩))
        [.addReplicant [(.reached, 100)], .maintain (.call (.begin true 5 true))] = some h ∧
      (h.coordinator.allocate 1 0 .create).1 = .ok (some (1, 33)) ∧ h.reported = [100] ∧
      ¬h.Fresh := by
  have hrun : (run step (start (.plain ⟨1, 32, 0, ∅⟩))
      [.addReplicant [(.reached, 100)], .maintain (.call (.begin true 5 true))]).map
        (fun h ↦ ((h.coordinator.allocate 1 0 .create).1, h.reported,
          decide (1 ∈ h.coordinator.writers), decide (h.coordinator.HasRoom 1 0 .create))) =
        some (.ok (some (1, 33)), [100], true, true) := by decide +kernel
  obtain ⟨h, hs, hvalue⟩ := Option.map_eq_some_iff.mp hrun
  simp only [Prod.mk.injEq, decide_eq_true_eq] at hvalue
  obtain ⟨hok, hreported, hw, hroom⟩ := hvalue
  refine ⟨h, hs, hok, hreported, fun hfresh ↦ ?_⟩
  obtain ⟨a, ha, -, habove⟩ := hfresh 1 hw hroom
  rw [hok] at ha
  cases ha
  exact absurd (habove 100 (hreported ▸ List.mem_singleton_self 100)) (by decide)

end AddressLog

end LibSpaces.Transactions
