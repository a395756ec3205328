import LibSpaces.Transactions.Addresses
import LibSpaces.Transactions.Isolation
import LibSpaces.Transactions.Returns
import LibSpaces.Transactions.SoleTransaction
import LibSpaces.Transactions.Stamps

/-!
# One writer without replicants

A storage object that is the only one to write, and whose versions increase: each of its commits
returns and publishes what the transaction has written, `src/src/storage/transactions/
transactional_storage.h:2790–2851,2997–3096`. New blocks get addresses that are not in use.
-/

namespace LibSpaces.Transactions

open LibSpaces.Base

namespace Coordinator

variable {x : AbstractedStorage} {s s' : Coordinator} {t version created : ℕ}

/-! ### The transaction that is written -/

private theorem writingTransaction_begin {replicated : Bool}
    (h : s.begin true version replicated = (.ok t, s')) : s'.writingTransaction = some t := by
  unfold begin at h
  split at h
  · cases h
  split at h
  · cases h
  unfold openVersion at h
  dsimp only at h
  split at h
  · cases h
  · cases h
    rfl

private theorem writingTransaction_allocateAndWrite (s : Coordinator) (t which : ℕ)
    (how : StorageAction) (content : Option Bytes) :
    (s.allocateAndWrite t which how content).writingTransaction = s.writingTransaction := by
  obtain ⟨versions, hversions⟩ := allocateAndWrite_eq s t which how content
  rw [hversions]

private theorem writingTransaction_move (s : Coordinator) (v dest : ℕ) :
    (s.move v dest).2.writingTransaction = s.writingTransaction := by
  unfold Coordinator.move
  dsimp only
  split
  · rfl
  · rfl

private theorem Above.isFresh (h : s.Above version) : s.IsFresh version := fun v hv ↦ (h v hv).ne

/-- A transaction without blocks sees what is committed. -/
theorem overlay_of_empty (hempty : (s.versions t).blocks = ∅) : s.overlay t = s.content := by
  ext1 a
  rw [overlay, Allocator.block, hempty, AList.lookup_empty]
  rfl

/-- The object is the only writer: its transaction is the one that is written, newer than what was
committed last, and its version objects and addresses are in order. -/
structure SoleWriter (x : AbstractedStorage) (s : Coordinator) : Prop extends Sole x s where
  writes : ∀ t ∈ x.transaction, x.writer = true
  addresses : AddressLog.Keeps ⟨s, []⟩
  stamped : s.Stamped
  positive : 0 < s.order
  marked : ∃ v < s.size, s.lastCommittedVersion ≤ (s.versions v).version
  current : ∀ t ∈ x.transaction, s.writingTransaction = some t ∧
    s.lastCommittedVersion < (s.versions t).version
  room : ∀ t ∈ x.transaction, 32 ≤ (s.versions t).next

namespace SoleWriter

private theorem mem_writers (h : SoleWriter x s) (ht : x.transaction = some t) : t ∈ s.writers := by
  rw [Coordinator.mem_writers]
  refine ⟨h.mem ht, ?_⟩
  rw [h.readOnly t ht, h.writes t ht]
  rfl

/-- A transaction that has begun. -/
theorem exists_transaction (h : SoleWriter x s) (hbegun : x.transacted = true) :
    ∃ t, x = ⟨some t, true, true⟩ := by
  obtain ⟨t, ht⟩ := Option.ne_none_iff_exists'.1 (h.begun hbegun)
  obtain ⟨transaction, transacted, writer⟩ := x
  obtain rfl : transacted = true := hbegun
  obtain rfl : transaction = some t := ht
  obtain rfl : writer = true := h.writes t rfl
  exact ⟨t, rfl⟩

/-- A new storage. -/
theorem start {initial : Opening} (hbounded : initial.Bounded) (hpositive : 0 < initial.version)
    (hstamps : ∀ a b, initial.block a = some b → b.version ≤ initial.version) :
    SoleWriter .closed (.start initial) where
  toSole := .start initial
  writes := nofun
  addresses := AddressLog.keeps_start hbounded
  stamped := stamped_start hpositive hstamps
  positive := Nat.one_pos
  marked := ⟨0, Nat.one_pos, Nat.zero_le _⟩
  current := nofun
  room := nofun

/-- Reading a block leaves the versions. -/
theorem load (h : SoleWriter x s) (a : ℕ) : SoleWriter x (s.load a) where
  toSole := h.toSole.load a
  writes := h.writes
  addresses :=
    ⟨(h.toSole.load a).inv, h.addresses.committed, h.addresses.bounded, h.addresses.le_next,
      h.addresses.reported⟩
  stamped :=
    ⟨h.stamped.positive, h.stamped.descending.congr fun _ _ ↦ rfl, h.stamped.below, h.stamped.own,
      h.stamped.above⟩
  positive := h.positive
  marked := h.marked
  current := h.current
  room := h.room

/-- The object may remember another state of the same transaction. -/
theorem of_sole {y : AbstractedStorage} (h : SoleWriter x s) (hy : Sole y s)
    (htransaction : ∀ t ∈ y.transaction, x.transaction = some t ∧ y.writer = true) :
    SoleWriter y s where
  toSole := hy
  writes t ht := (htransaction t ht).2
  addresses := h.addresses
  stamped := h.stamped
  positive := h.positive
  marked := h.marked
  current t ht := h.current t (htransaction t ht).1
  room t ht := h.room t (htransaction t ht).1

/-- A transaction begins to write. -/
theorem opened (h : SoleWriter x s) (hx : x.transaction = none) (habove : s.Above version)
    {replicated : Bool} (hbegin : s.begin true version replicated = (.ok t, s')) :
    SoleWriter ⟨some t, true, true⟩ s' ∧ s'.content = s.content ∧ (s'.versions t).blocks = ∅ := by
  have hstep : s.maintain (.call (.begin true version replicated)) = some s' :=
    (if_pos habove.isFresh).trans (by rw [hbegin])
  have haddresses := AddressLog.keeps_maintain (a := .call (.begin true version replicated))
    h.addresses nofun hstep
  have hstamped := h.stamped.maintained (a := .call (.begin true version replicated)) h.inv habove
    hstep
  obtain ⟨b, s₁, hresult, hsole, hcontent, hempty⟩ :=
    (h.toSole.opened hx true habove.isFresh replicated).resolve_left
      (by rintro ⟨e, he⟩; rw [hbegin] at he; cases he)
  rw [hbegin] at hresult
  cases hresult
  refine ⟨?_, hcontent, hempty rfl⟩
  rcases begin_cases h.inv true habove.isFresh replicated with
    ⟨e, he⟩ | ⟨b, hok, hopens, -, -, hself⟩
  · rw [hbegin] at he
    cases he
  have hmarks := begin_marks s true version replicated
  have horder := begin_order hok
  rw [hbegin] at hok hopens hself hmarks horder
  cases hok
  obtain ⟨rfl, hself⟩ := hself.resolve_right fun hr ↦ nomatch hr.1
  have hlast : s'.lastCommittedVersion = s.lastCommittedVersion ∧ s'.order = s.order := by
    rcases hmarks with hmarks | hmarks
    · exact ⟨congrArg Marks.lastCommittedVersion hmarks, congrArg Marks.order hmarks⟩
    · exact ⟨congrArg Marks.lastCommittedVersion hmarks, congrArg Marks.order hmarks⟩
  obtain ⟨v, hv, hle⟩ := h.marked
  have hversion : (s'.versions s.size).version = version := congrArg Allocator.version hself
  constructor
  case toSole => exact hsole
  case writes => exact fun _ _ ↦ rfl
  case addresses => exact haddresses
  case stamped => exact hstamped
  case positive => exact hlast.2 ▸ h.positive
  case marked =>
    refine ⟨v, hv.trans_le hopens.size, ?_⟩
    rw [hlast.1, hopens.version v hv.ne]
    exact hle
  case current =>
    intro t ht
    cases ht
    refine ⟨writingTransaction_begin hbegin, ?_⟩
    rw [hlast.1, hversion]
    exact hle.trans_lt (habove v hv)
  case room =>
    intro t ht
    cases ht
    have hnext : (s'.versions s.size).next = max s.lastAddress 32 := congrArg Allocator.next hself
    rw [hnext]
    exact le_max_right _ _

/-- The transaction is given up. -/
theorem discarded (h : SoleWriter x s) (ht : x.transaction = some t) :
    SoleWriter .closed (s.discarded t) where
  toSole := h.toSole.discarded ht
  writes := nofun
  addresses := h.addresses.refused (h.mem ht) .discarded
  stamped := h.stamped.refused h.inv (h.mem ht) .discarded
  positive := h.positive
  marked := h.marked
  current := nofun
  room := nofun

/-- A block is created, and something may be written to it. -/
theorem allocated (h : SoleWriter x s) (ht : x.transaction = some t) {which : ℕ}
    (hroom : s.HasRoom t which .create) (content : Option Bytes) :
    SoleWriter x (s.allocateAndWrite t which .create content) ∧
      (s.allocateAndWrite t which .create content).content = s.content := by
  have hshape := sameShape_allocateAndWrite s t which .create content
  have hmarks := allocateAndWrite_marks s t which .create content
  have hlast : (s.allocateAndWrite t which .create content).lastCommittedVersion =
      s.lastCommittedVersion := congrArg Marks.lastCommittedVersion hmarks
  have horder : (s.allocateAndWrite t which .create content).order = s.order :=
    congrArg Marks.order hmarks
  refine ⟨⟨⟨hshape.inv h.inv, hshape.transactions.trans h.transactions, h.begun, h.kept, ?_, ?_⟩,
    h.writes, h.addresses.allocated (h.mem ht) hroom content,
    h.stamped.allocated (h.mem ht) which .create content, ?_, ?_, ?_, ?_⟩, ?_⟩
  · intro u hu
    rw [hshape.readOnly]
    exact h.readOnly u hu
  · intro u hu hw
    rw [horder]
    exact (congrFun (congrArg Marks.orders hmarks) u).trans (h.order u hu hw)
  · rw [horder]
    exact h.positive
  · obtain ⟨v, hv, hle⟩ := h.marked
    refine ⟨v, hshape.size ▸ hv, ?_⟩
    rw [hlast, hshape.version]
    exact hle
  · intro u hu
    rw [writingTransaction_allocateAndWrite, hlast, hshape.version]
    exact h.current u hu
  · intro u hu
    obtain rfl := Option.some.inj (ht.symm.trans hu)
    exact (h.room t ht).trans (grows_allocateAndWrite hroom content).next
  · refine content_congr hshape.storages fun v hv ↦ blocks_allocateAndWrite _ _ _ _ _ (.inl ?_)
    exact fun he ↦ (mem_transactions.1 (h.mem ht)).2.2 (he ▸ hv)

/-- Nothing stops a merge of the writer. -/
theorem not_mergeRefused (h : SoleWriter x s) (ht : x.transaction = some t) :
    ¬s.MergeRefused t alone := by
  obtain ⟨hwriting, hlast⟩ := h.current t ht
  have hactive : s.activeTransactions ≠ 0 := by
    rw [h.inv.active, h.transactions, ht, Option.toFinset_some, Finset.card_singleton]
    decide
  rintro (hro | hother | hversion | hnone | ⟨-, horder⟩ | ⟨hcontrol, -⟩ | hnotify)
  · rw [h.readOnly t ht, h.writes t ht] at hro
    cases hro
  · exact hother hwriting
  · omega
  · exact hactive hnone
  · exact horder.ne (h.order t ht (h.writes t ht))
  · cases hcontrol
  · cases hnotify

/-- A merge of the writer returns, and all that its transaction read is committed. -/
theorem merged (h : SoleWriter x s) (ht : x.transaction = some t) (habove : s.Above created) :
    ∃ s', s.merge t alone created = (.ok (), s') ∧ SoleWriter x s' ∧ s'.content = s.overlay t ∧
      (s'.versions t).blocks = ∅ := by
  have hw := h.mem_writers ht
  have hstep : s.maintain (.call (.merge t alone created)) = some (s.merge t alone created).2 :=
    if_pos ⟨h.mem ht, habove.isFresh⟩
  have haddresses := AddressLog.keeps_maintain (a := .call (.merge t alone created)) h.addresses
    trivial hstep
  have hstamped := h.stamped.maintained (a := .call (.merge t alone created)) h.inv habove hstep
  obtain ⟨r, s', hresult, hsole, hpublishes, hempty⟩ :=
    h.toSole.merged ht (h.writes t ht) alone habove.isFresh
  rcases merge_cases h.inv (h.mem ht) alone created with ⟨hrefused, -⟩ | ⟨-, -, last, hlast, hmerge⟩
  · exact absurd hrefused (h.not_mergeRefused ht)
  obtain ⟨hmoved, -⟩ := h.stamped.merged h.inv hw hlast habove rfl
  have hne := ne_newest (h.mem ht) hlast
  have hshape := sameShape_merging (h.mem ht) hlast
  have hmarks : ((s.mergeStart t).move t last).2.marks = (s.mergeStart t).marks := move_marks rfl
  have hwriting := writingTransaction_move (s.mergeStart t) t last
  have hnext : (((s.mergeStart t).move t last).2.versions t).next = (s.versions t).next := by
    rw [versions_move _ hne, if_neg hne, if_pos rfl]
    exact Allocator.next_move _ _ _
  generalize (s.mergeStart t).move t last = moved at hmerge hmoved hshape hmarks hwriting hnext
  obtain ⟨r₁, s₁⟩ := moved
  obtain rfl : r₁ = .ok () := hmoved
  rw [hmerge] at hresult haddresses hstamped
  cases hresult
  have hself : ((s₁.renumber t t created).versions t).version = created := by
    rw [versions_renumber, if_pos rfl]
  have hlastVersion : s₁.lastCommittedVersion = (s.versions t).version :=
    congrArg Marks.lastCommittedVersion hmarks
  refine ⟨_, hmerge, ⟨hsole, h.writes, haddresses, hstamped, Nat.succ_pos _, ?_, ?_, ?_⟩, ?_,
    hempty rfl⟩
  · refine ⟨t, hshape.size ▸ (mem_transactions.1 (h.mem ht)).1, ?_⟩
    rw [hself]
    exact hlastVersion.trans_le (habove t (mem_transactions.1 (h.mem ht)).1).le
  · intro u hu
    obtain rfl := Option.some.inj (ht.symm.trans hu)
    refine ⟨hwriting.trans (h.current t ht).1, ?_⟩
    rw [hself]
    exact hlastVersion.trans_lt (habove t (mem_transactions.1 (h.mem ht)).1)
  · intro u hu
    obtain rfl := Option.some.inj (ht.symm.trans hu)
    have hsame := renumber_field s₁ t created (fun x ↦ x.next) (fun _ _ _ ↦ rfl) t
    exact (h.room t ht).trans (hsame.trans hnext).ge
  · exact (overlay_of_empty (hempty rfl)).symm.trans hpublishes.overlay

/-! ### What the transaction reads and stores -/

/-- Committed blocks have addresses that were given out. -/
theorem content_le (h : SoleWriter x s) {a : ℕ} (ha : (s.content a).isSome) :
    a ≤ s.lastAddress := by
  rw [content, Option.isSome_map, view, List.findSome?_isSome_iff] at ha
  obtain ⟨v, hv, hblock⟩ := ha
  exact h.addresses.committed v (List.mem_reverse.1 hv) a hblock

/-- No address that a transaction sees is above its counter. -/
theorem overlay_le (h : SoleWriter x s) (ht : x.transaction = some t) {a : ℕ}
    (ha : (s.overlay t a).isSome) : a ≤ (s.versions t).next := by
  have hw := h.mem_writers ht
  rw [overlay, Option.isSome_or, Bool.or_eq_true, Option.isSome_map] at ha
  rcases ha with ha | ha
  · exact h.addresses.bounded t hw a ha
  · exact (h.content_le ha).trans (h.addresses.le_next t hw)

/-- The transaction reads its own blocks and what is committed. -/
theorem read_eq_overlay (h : SoleWriter x s) (ht : x.transaction = some t) {a : ℕ} (ha : a ≠ 0) :
    s.read t a = s.overlay t a := by
  have hread : ¬((s.versions t).readOnly = true ∧ StorageAction.read ≠ .read) := fun h ↦ h.2 rfl
  rw [overlay, content, ← h.inv.bases_writer (h.mem_writers ht), view, ← History.bind_find?_isSome]
  unfold Coordinator.read Coordinator.allocate
  dsimp only
  rw [if_neg hread, if_neg ha]
  cases hblock : (s.versions t).block a with
  | some b => simp [hblock]
  | none =>
    simp only [Option.isSome_none, Bool.false_eq_true, if_false]
    cases (s.bases t).find? fun v ↦ ((s.versions v).block a).isSome <;> rfl

/-- There is no block at address 0. -/
theorem read_zero (s : Coordinator) (t : ℕ) : s.read t 0 = none := by
  have hread : ¬((s.versions t).readOnly = true ∧ StorageAction.read ≠ .read) := fun h ↦ h.2 rfl
  unfold Coordinator.read Coordinator.allocate
  dsimp only
  rw [if_neg hread, if_pos rfl]

private theorem writable (h : SoleWriter x s) (ht : x.transaction = some t) :
    ¬((s.versions t).readOnly = true ∧ StorageAction.create ≠ .read) := by
  rw [h.readOnly t ht, h.writes t ht]
  exact fun hro ↦ nomatch hro.1

/-- A block is stored at its address. -/
theorem overlay_stored (h : SoleWriter x s) (ht : x.transaction = some t) {which : ℕ}
    (hwhich : which ≠ 0) (data : Bytes) :
    (s.allocateAndWrite t which .create (some data)).overlay t =
      Function.update (s.overlay t) which (some data) := by
  obtain ⟨a, s', hallocate, rfl, -, hcontent, hblock⟩ :=
    h.toSole.stored ht (h.writes t ht) which data
  have hat : (s.allocate t which .create).1 = .ok (some (t, which)) := by
    unfold allocate
    dsimp only
    rw [if_neg (h.writable ht), if_neg hwhich]
  rw [hallocate] at hat
  cases hat
  ext1 a
  rw [overlay, hblock, hcontent, Function.update_apply]
  split
  · rfl
  · rfl

/-- A new block is empty and has the next address, at which there was none. -/
theorem overlay_created (h : SoleWriter x s) (ht : x.transaction = some t)
    (hroom : (s.versions t).next + 1 < 2 ^ 64) :
    (s.allocateAndWrite t 0 .create none).overlay t =
        Function.update (s.overlay t) ((s.versions t).next + 1) (some []) ∧
      ((s.allocateAndWrite t 0 .create none).versions t).next = (s.versions t).next + 1 ∧
      s.overlay t ((s.versions t).next + 1) = none := by
  have hcreated : s.allocateAndWrite t 0 .create none =
      s.setVersion t { s.versions t with toAllocator := (s.versions t).createNext } := by
    unfold allocateAndWrite allocate
    dsimp only
    rw [if_neg (h.writable ht), if_pos rfl]
  have hallocate : s.HasRoom t 0 .create := fun _ _ ↦ hroom
  have hcontent := (h.allocated ht hallocate none).2
  have hnext : ((s.versions t).createNext).next = (s.versions t).next + 1 := Nat.mod_eq_of_lt hroom
  refine ⟨?_, ?_, ?_⟩
  · ext1 a
    rw [overlay, hcontent, hcreated, versions_setVersion, if_pos rfl, Function.update_apply]
    have hblock : ((s.versions t).createNext).block a =
        if a = (s.versions t).next + 1 then some ⟨[], (s.versions t).version⟩
        else (s.versions t).block a := by
      have hset : ((s.versions t).createNext).block a =
          ((s.versions t).setBlock (((s.versions t).next + 1) % 2 ^ 64)
            ⟨[], (s.versions t).version⟩).block a := rfl
      rw [hset, Nat.mod_eq_of_lt hroom, Allocator.block_setBlock]
    rw [hblock]
    split
    · rfl
    · rfl
  · rw [hcreated, versions_setVersion, if_pos rfl]
    exact hnext
  · rw [← Option.not_isSome_iff_eq_none]
    intro hsome
    exact absurd (h.overlay_le ht hsome) (Nat.not_succ_le_self _)

end SoleWriter

end Coordinator

namespace Session

open Coordinator

variable {session : Session} {t version created : ℕ}

/-- An idle writer begins as soon as the write lock is free, and its transaction is empty. -/
theorem begin_of_writer (h : SoleWriter session.storage session.coordinator)
    (hidle : session.storage.transacted = false) (hlocked : session.locked = false)
    (hkept : ∀ t ∈ session.storage.transaction, (session.coordinator.versions t).blocks = ∅)
    (habove : session.coordinator.Above version) :
    ∃ t s, session.begin true version true false false =
        some (.ok (), ⟨⟨some t, true, true⟩, s, true⟩) ∧
      SoleWriter ⟨some t, true, true⟩ s ∧ s.content = session.coordinator.content ∧
      (s.versions t).blocks = ∅ := by
  rw [begin_idle hidle, hlocked, if_neg nofun]
  obtain ⟨⟨transaction, transacted, writer⟩, s, locked⟩ := session
  cases transaction with
  | some t =>
    obtain rfl : writer = true := h.writes t rfl
    have hsole : Sole ⟨some t, true, true⟩ s :=
      ⟨h.inv, h.transactions, nofun, nofun, h.readOnly, h.order⟩
    exact ⟨t, s, rfl, h.of_sole hsole (fun _ ht ↦ ⟨ht, rfl⟩), rfl, hkept t rfl⟩
  | none =>
    have hwriting : s.writingTransactions = 0 := by
      have hempty : s.writers = ∅ := by
        rw [Finset.eq_empty_iff_forall_notMem]
        intro w hw
        have hmem := (Coordinator.mem_writers.1 hw).1
        rw [h.transactions] at hmem
        cases hmem
      rw [h.inv.writing, hempty]
      rfl
    obtain ⟨t, ht⟩ := (begin_returns_iff s true version true).2
      ⟨rfl, h.inv.nonempty, fun _ ↦ hwriting⟩
    have hresult : s.begin true version true = (.ok t, (s.begin true version true).2) :=
      Prod.ext ht rfl
    obtain ⟨hwriter, hcontent, hempty⟩ := h.opened rfl habove hresult
    refine ⟨t, _, ?_, hwriter, hcontent, hempty⟩
    simp only [getTransaction, call, Bool.false_eq_true, if_false]
    rw [hresult]
    rfl

/-- A rollback closes the transaction and leaves what is committed. -/
theorem rollback_of_writer (session : Session)
    (h : SoleWriter session.storage session.coordinator)
    (ht : session.storage = ⟨some t, true, true⟩) :
    session.rollback false = (.ok (), ⟨.closed, session.coordinator.discarded t, false⟩) ∧
      SoleWriter .closed (session.coordinator.discarded t) ∧
      (session.coordinator.discarded t).content = session.coordinator.content := by
  obtain ⟨x, s, locked⟩ := session
  cases ht
  refine ⟨?_, h.discarded rfl, Sole.content_discarded s t⟩
  simp only [rollback, call, discard_eq h.inv (h.mem rfl), Bool.false_eq_true, if_false, if_true]

/-- A commit returns. -/
theorem commit_of_writer (session : Session)
    (h : SoleWriter session.storage session.coordinator)
    (ht : session.storage = ⟨some t, true, true⟩) (habove : session.coordinator.Above created) :
    ∃ s, session.commit alone created false = (.ok true, ⟨⟨some t, false, true⟩, s, false⟩) ∧
      SoleWriter ⟨some t, false, true⟩ s ∧ s.content = session.coordinator.overlay t ∧
      (s.versions t).blocks = ∅ := by
  obtain ⟨x, s, locked⟩ := session
  cases ht
  obtain ⟨s', hmerge, hwriter, hcontent, hempty⟩ := h.merged rfl habove
  have hsole : Sole ⟨some t, false, true⟩ s' :=
    ⟨hwriter.inv, hwriter.transactions, nofun, fun _ ↦ .inr rfl, hwriter.readOnly, hwriter.order⟩
  refine ⟨s', ?_, hwriter.of_sole hsole (fun _ ht ↦ ⟨ht, rfl⟩), hcontent, hempty⟩
  simp only [commit, call, hmerge, Bool.false_eq_true, if_false, if_true]

/-- The end of the storage object leaves what is committed. -/
theorem close_of_writer (h : SoleWriter session.storage session.coordinator) :
    ∃ s, (session.close false).2 = ⟨.closed, s, session.locked⟩ ∧ SoleWriter .closed s ∧
      s.content = session.coordinator.content := by
  obtain ⟨⟨transaction, transacted, writer⟩, s, locked⟩ := session
  cases transaction with
  | none => exact ⟨s, rfl, h.of_sole (h.toSole.writer rfl false false rfl) nofun, rfl⟩
  | some t =>
    refine ⟨s.discarded t, ?_, h.discarded rfl, Sole.content_discarded s t⟩
    simp only [close, call, discard_eq h.inv (h.mem rfl), Bool.false_eq_true, if_false]

end Session

end LibSpaces.Transactions
