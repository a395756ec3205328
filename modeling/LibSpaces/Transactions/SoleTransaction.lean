import Mathlib.Data.Finset.Option
import LibSpaces.Transactions.AbstractedStorage
import LibSpaces.Transactions.FailedCommit
import LibSpaces.Transactions.Marks

/-!
# One object on a coordinator

What the calls on a storage object come to where the coordinator has no other,
`src/src/storage/transactions/abstracted_storage.h:239–383`: the one transaction that is open is
that of the object, and only a commit changes what is committed.
-/

namespace LibSpaces.Transactions

open LibSpaces.Base

namespace Coordinator

/-- Only the blocks of the committed versions are committed. -/
theorem content_congr {s s' : Coordinator} (hstorages : s'.storages = s.storages)
    (hblocks : ∀ v ∈ s.storages, (s'.versions v).blocks = (s.versions v).blocks) :
    s'.content = s.content := by
  ext1 a
  rw [content, content, hstorages]
  congr 1
  refine view_congr a fun v hv ↦ ?_
  rw [Allocator.block, hblocks v (List.mem_reverse.1 hv)]
  rfl

/-- What is committed, seen through a transaction. -/
def overlay (s : Coordinator) (t a : ℕ) : Option Bytes :=
  (((s.versions t).block a).map Block.content).or (s.content a)

/-- Blocks of a transaction have become committed ones, or none have. -/
structure Publishes (s s' : Coordinator) (t : ℕ) : Prop where
  overlay : s'.overlay t = s.overlay t
  none : ∀ a, (s.versions t).block a = none → (s'.versions t).block a = none

private theorem Publishes.of_blocks {s s' : Coordinator} {t : ℕ}
    (hstorages : s'.storages = s.storages)
    (hblocks : ∀ v, (s'.versions v).blocks = (s.versions v).blocks) : Publishes s s' t := by
  have hblock (a : ℕ) : (s'.versions t).block a = (s.versions t).block a := by
    rw [Allocator.block, hblocks]
    rfl
  refine ⟨?_, fun a h ↦ (hblock a).trans h⟩
  ext1 a
  rw [Coordinator.overlay, Coordinator.overlay, hblock,
    content_congr hstorages fun v _ ↦ hblocks v]

/-- A move to the newest version publishes, also where it breaks off. -/
theorem publishes_move {s : Coordinator} (h : s.Inv) {t last : ℕ} (ht : t ∈ s.transactions)
    (hlast : s.storages.getLast? = some last) :
    Publishes s ((s.mergeStart t).move t last).2 t := by
  have hnot : t ∉ s.storages := (mem_transactions.1 ht).2.2
  have hne := ne_newest ht hlast
  obtain ⟨lower, hlower⟩ := exists_lower hlast
  have hnodup := List.nodup_cons.1 (hlower ▸ List.nodup_reverse.2 h.nodup)
  have htl : t ∉ lower := by
    intro hin
    exact hnot (List.mem_reverse.1 (hlower ▸ List.mem_cons_of_mem _ hin))
  constructor
  · ext1 a
    have hview := view_move (s.mergeStart t) hne htl hnodup.1 a
    have hstorages : ((s.mergeStart t).move t last).2.storages = s.storages :=
      (sameShape_move _ hne).storages
    rw [overlay, content, hstorages, hlower, ← Option.map_or, ← view_cons, hview, view_cons,
      Option.map_or, overlay, content, hlower]
    rfl
  · intro a hnone
    rw [versions_move _ hne, if_neg hne, if_pos rfl]
    exact Allocator.block_moveBlocks_of_none _ _ _ _ hnone

/-- The object's transaction is the only one that is open, a commit keeps it only where it writes,
and one that writes has the order of the coordinator. -/
structure Sole (x : AbstractedStorage) (s : Coordinator) : Prop where
  inv : s.Inv
  transactions : s.transactions = x.transaction.toFinset
  begun : x.transacted = true → x.transaction ≠ none
  kept : x.transacted = false → x.transaction = none ∨ x.writer = true
  readOnly : ∀ t ∈ x.transaction, (s.versions t).readOnly = !x.writer
  order : ∀ t ∈ x.transaction, x.writer = true → (s.versions t).order = s.order

namespace Sole

variable {x : AbstractedStorage} {s : Coordinator} {t : ℕ}

/-- The transaction of the storage is open. -/
theorem mem (h : Sole x s) (ht : x.transaction = some t) : t ∈ s.transactions := by
  rw [h.transactions, ht]
  exact Finset.mem_singleton_self t

private theorem not_stale (h : Sole x s) (ht : x.transaction = some t) (hw : x.writer = true) :
    ¬s.Stale t := by
  rintro (hactive | ⟨-, horder⟩)
  · rw [h.inv.active, h.transactions, ht] at hactive
    cases hactive
  · exact horder.ne (h.order t ht hw)

/-- A new storage and its coordinator. -/
theorem start (initial : Opening) : Sole .closed (.start initial) where
  inv := inv_start initial
  transactions := by
    ext t
    simp [Coordinator.start, mem_transactions, AbstractedStorage.closed]
  begun := fun hb ↦ absurd hb Bool.false_ne_true
  kept := fun _ ↦ .inl rfl
  readOnly := fun _ ht ↦ by cases ht
  order := fun _ ht ↦ by cases ht

/-- The object gives up its transaction. -/
theorem discarded (h : Sole x s) (ht : x.transaction = some t) : Sole .closed (s.discarded t) where
  inv := (closes_discarded h.inv (h.mem ht)).inv h.inv (h.mem ht)
  transactions := by
    rw [(closes_discarded h.inv (h.mem ht)).transactions, h.transactions, ht]
    exact Finset.erase_singleton t
  begun := nofun
  kept := fun _ ↦ .inl rfl
  readOnly := nofun
  order := nofun

/-- Reading a block leaves the transactions. -/
theorem load (h : Sole x s) (a : ℕ) : Sole x (s.load a) :=
  have hshape : SameShape s (s.load a) := ⟨rfl, rfl, rfl, rfl, rfl, rfl, rfl⟩
  ⟨hshape.inv h.inv, hshape.transactions.trans h.transactions, h.begun, h.kept, h.readOnly,
    h.order⟩

/-- A discarded transaction leaves the committed contents as they are. -/
theorem content_discarded (s : Coordinator) (t : ℕ) : (s.discarded t).content = s.content :=
  content_congr rfl fun _ _ ↦ rfl

/-- An object that has not begun may turn to reading or writing while it has no transaction. -/
theorem writer (h : Sole x s) (ht : x.transaction = none) (writer transacted : Bool)
    (hbegun : transacted = false) : Sole ⟨none, transacted, writer⟩ s where
  inv := h.inv
  transactions := by rw [h.transactions, ht]
  begun := fun hb ↦ absurd hb (by simp [hbegun])
  kept := fun _ ↦ .inl rfl
  readOnly := nofun
  order := nofun

end Sole

/-- With no transaction open, `begin` opens an empty one or throws. -/
theorem Sole.opened {x : AbstractedStorage} {s : Coordinator} (h : Sole x s)
    (hx : x.transaction = none) (writer : Bool) {version : ℕ} (hfresh : s.IsFresh version)
    (replicated : Bool) :
    (∃ e, s.begin writer version replicated = (.error e, s)) ∨
      ∃ b s', s.begin writer version replicated = (.ok b, s') ∧ Sole ⟨some b, true, writer⟩ s' ∧
        s'.content = s.content ∧ (writer = true → (s'.versions b).blocks = ∅) := by
  rcases begin_cases h.inv writer hfresh replicated with
    ⟨e, hresult⟩ | ⟨b, hok, hopens, hother, -, hblocks⟩
  · exact .inl ⟨e, hresult⟩
  refine .inr ⟨b, (s.begin writer version replicated).2, Prod.ext hok rfl, ?_, ?_, ?_⟩
  · constructor
    case inv => exact hopens.inv h.inv
    case transactions =>
      rw [hopens.transactions, h.transactions, hx]
      rfl
    case begun => exact nofun
    case kept => exact nofun
    case readOnly =>
      intro t ht
      obtain rfl := Option.some.inj ht
      exact hopens.readOnly_self
    case order =>
      intro t ht hw
      obtain rfl := Option.some.inj ht
      change writer = true at hw
      subst hw
      have hb : b = s.size := by
        rcases hblocks with ⟨hb, -⟩ | ⟨hw, -⟩
        · exact hb
        · cases hw
      rw [begin_order hok hb]
      rcases begin_marks s true version replicated with hmarks | hmarks
      · exact (congrArg Marks.order hmarks).symm
      · exact (congrArg Marks.order hmarks).symm
  · refine content_congr hopens.storages fun v hv ↦ ?_
    rw [hother v fun he ↦ hopens.notMem (he ▸ hv)]
  · intro hw
    rcases hblocks with ⟨-, hempty⟩ | ⟨hreader, -⟩
    · rw [hempty]
    · rw [hw] at hreader
      cases hreader

/-- An allocation changes versions only. -/
theorem allocateAndWrite_eq (s : Coordinator) (t which : ℕ) (how : StorageAction)
    (content : Option Bytes) :
    ∃ versions, s.allocateAndWrite t which how content = { s with versions := versions } := by
  obtain ⟨⟨al, -, -, hs'⟩, -⟩ := allocate_spec s t which how
  unfold allocateAndWrite
  split
  · next hresult =>
    rw [hresult] at hs'
    dsimp only at hs'
    subst hs'
    split
    · exact ⟨_, rfl⟩
    · unfold assign
      dsimp only
      split
      · exact ⟨_, rfl⟩
      · exact ⟨_, rfl⟩
  · next hresult _ =>
    rw [hresult] at hs'
    exact ⟨_, hs'⟩

/-- A transaction that writes stores a block at the address it asks for, or at a new one. -/
theorem Sole.stored {x : AbstractedStorage} {s : Coordinator} {t : ℕ} (h : Sole x s)
    (ht : x.transaction = some t) (hw : x.writer = true) (which : ℕ) (data : Bytes) :
    ∃ a s', (s.allocate t which .create).1 = .ok (some (t, a)) ∧
      s.allocateAndWrite t which .create (some data) = s' ∧ Sole x s' ∧ s'.content = s.content ∧
      ∀ a', ((s'.versions t).block a').map Block.content =
        if a' = a then some data else ((s.versions t).block a').map Block.content := by
  have hro : (s.versions t).readOnly = false := by
    rw [h.readOnly t ht, hw]
    rfl
  obtain ⟨a, al, b, hallocate, hb, hother⟩ : ∃ a, ∃ al : Allocator, ∃ b,
      s.allocate t which .create = (.ok (some (t, a)),
        s.setVersion t { s.versions t with toAllocator := al }) ∧ al.block a = some b ∧
      ∀ a', a' ≠ a → al.block a' = (s.versions t).block a' := by
    have hnot : ¬((s.versions t).readOnly = true ∧ StorageAction.create ≠ .read) := by simp [hro]
    unfold allocate
    dsimp only
    rw [if_neg hnot]
    by_cases hwhich : which = 0
    · rw [if_pos hwhich]
      refine ⟨_, (s.versions t).createNext, _, rfl,
        (Allocator.block_setBlock _ _ _ _).trans (if_pos rfl), fun a' ha' ↦ ?_⟩
      exact (Allocator.block_setBlock _ _ _ _).trans (if_neg ha')
    · rw [if_neg hwhich]
      exact ⟨which, (s.versions t).create which, _, rfl, Allocator.block_create _ _,
        fun a' ha' ↦ Allocator.block_create_ne _ ha'⟩
  have hwritten : s.allocateAndWrite t which .create (some data) =
      s.setVersion t { s.versions t with toAllocator := al.setBlock a ⟨data, b.version⟩ } := by
    unfold allocateAndWrite
    rw [hallocate]
    dsimp only
    rw [if_neg nofun, assign]
    dsimp only
    rw [versions_setVersion, if_pos rfl, hb]
    exact setVersion_setVersion ..
  refine ⟨a, _, congrArg Prod.fst hallocate, rfl, ?_, ?_, fun a' ↦ ?_⟩
  · have hshape := sameShape_allocateAndWrite s t which .create (some data)
    have hmarks := allocateAndWrite_marks s t which .create (some data)
    refine ⟨hshape.inv h.inv, hshape.transactions.trans h.transactions, h.begun, h.kept, ?_, ?_⟩
    · intro u hu
      rw [hshape.readOnly]
      exact h.readOnly u hu
    · intro u hu hw
      have horder := congrFun (congrArg Marks.orders hmarks) u
      exact horder.trans ((h.order u hu hw).trans (congrArg Marks.order hmarks).symm)
  · refine content_congr (sameShape_allocateAndWrite ..).storages fun v hv ↦ ?_
    refine blocks_allocateAndWrite s t which .create _ (.inl fun he ↦ ?_)
    exact (mem_transactions.1 (h.mem ht)).2.2 (he ▸ hv)
  · rw [hwritten, versions_setVersion, if_pos rfl]
    by_cases ha : a' = a
    · rw [if_pos ha, ha, Allocator.block_setBlock, if_pos rfl]
      rfl
    · rw [if_neg ha, Allocator.block_setBlock, if_neg ha, hother a' ha]

/-- A merge of the only transaction throws and keeps it open, or publishes all its blocks. -/
theorem Sole.merged {x : AbstractedStorage} {s : Coordinator} {t : ℕ} (h : Sole x s)
    (ht : x.transaction = some t) (hw : x.writer = true) (peers : Peers) {created : ℕ}
    (hfresh : s.IsFresh created) :
    ∃ r s', s.merge t peers created = (r, s') ∧ Sole x s' ∧ Publishes s s' t ∧
      (r = .ok () → (s'.versions t).blocks = ∅) := by
  have hinv : (s.merge t peers created).2.Inv :=
    inv_step s _ (.merge t peers created) h.inv (if_pos ⟨h.mem ht, hfresh⟩)
  have hkeep {s' : Coordinator} (hinv : s'.Inv) (htransactions : s'.transactions = s.transactions)
      (hro : (s'.versions t).readOnly = (s.versions t).readOnly)
      (horder : (s'.versions t).order = s'.order) : Sole x s' := by
    refine ⟨hinv, htransactions.trans h.transactions, h.begun, h.kept, fun u hu ↦ ?_,
      fun u hu _ ↦ ?_⟩
    · obtain rfl := Option.some.inj (ht.symm.trans hu)
      rw [hro]
      exact h.readOnly t ht
    · obtain rfl := Option.some.inj (ht.symm.trans hu)
      exact horder
  rcases merge_cases h.inv (h.mem ht) peers created with
    ⟨-, e, s', hresult, -, -, hstale⟩ | ⟨-, -, last, hlast, hresult⟩
  · obtain ⟨hshape, hversions, horder, -⟩ := hstale.resolve_left (h.not_stale ht hw)
    refine ⟨_, s', hresult, hkeep ?_ hshape.transactions (hshape.readOnly t) ?_,
      .of_blocks hshape.storages fun v ↦ by rw [hversions], nofun⟩
    · exact hshape.inv h.inv
    · rw [hversions, horder]
      exact h.order t ht hw
  · have hne := ne_newest (h.mem ht) hlast
    have hshape := sameShape_merging (h.mem ht) hlast
    have hpublishes := publishes_move h.inv (h.mem ht) hlast
    rw [hresult] at hinv ⊢
    generalize hmove : (s.mergeStart t).move t last = r at hinv hshape hpublishes ⊢
    have hmarks := move_marks hmove
    obtain ⟨r, s'⟩ := r
    cases r with
    | error e =>
      refine ⟨_, s', rfl, hkeep hinv hshape.transactions (hshape.readOnly t) ?_, hpublishes, nofun⟩
      have horder := congrFun (congrArg Marks.orders hmarks) t
      exact horder.trans ((h.order t ht hw).trans (congrArg Marks.order hmarks).symm)
    | ok u =>
      have hempty : (s'.versions t).blocks = ∅ := by
        have hblocks := blocks_move (s.mergeStart t) hne (by rw [hmove])
        rwa [hmove] at hblocks
      have hfresh' := hshape.isFresh hfresh
      have hrenumber : Publishes s' (s'.renumber t t created) t :=
        .of_blocks rfl fun v ↦ blocks_renumber s' t created v
      refine ⟨_, _, rfl, hkeep hinv ?_ ?_ ?_, ?_, fun _ ↦ ?_⟩
      · rw [transactions_renumber (hshape.inv h.inv) (hshape.transactions ▸ h.mem ht) hfresh',
          hshape.transactions]
      · rw [readOnly_renumber]
        exact hshape.readOnly t
      · rw [versions_renumber, if_pos rfl]
        rfl
      · exact ⟨hrenumber.overlay.trans hpublishes.overlay,
          fun a ha ↦ hrenumber.none a (hpublishes.none a ha)⟩
      · rw [blocks_renumber]
        exact hempty

end Coordinator

namespace Session

open Coordinator

variable {x : AbstractedStorage} {s : Coordinator}

/-- A rollback leaves nothing that has begun. -/
theorem rollback_of_sole (h : Sole x s) (locked : Bool) :
    ∃ y s' locked', (⟨x, s, locked⟩ : Session).rollback false = (.ok (), ⟨y, s', locked'⟩) ∧
      Sole y s' ∧ y.transacted = false ∧ s'.content = s.content ∧ s'.IsFresh = s.IsFresh ∧
      (y = .closed ∨ y = x ∧ s' = s) := by
  obtain ⟨transaction, transacted, writer⟩ := x
  cases transacted with
  | false =>
    refine ⟨_, s, locked, ?_, h, rfl, rfl, rfl, .inr ⟨rfl, rfl⟩⟩
    cases transaction <;> rfl
  | true =>
    cases transaction with
    | none => exact absurd rfl (h.begun rfl)
    | some t =>
      refine ⟨.closed, s.discarded t, if writer then false else locked, ?_, h.discarded rfl, rfl,
        Sole.content_discarded s t, rfl, .inl rfl⟩
      simp only [rollback, call, discard_eq h.inv (h.mem rfl), Bool.false_eq_true, if_false]

/-- A `begin` waits for the lock, throws with no transaction left, or opens one, which is empty
where it writes and was not kept by a commit. -/
theorem begin_of_sole (h : Sole x s) (locked writer : Bool) {version : ℕ}
    (hfresh : s.IsFresh version) (replicated : Bool)
    (hkept : writer = false → x.transaction = none ∨ x.transacted = true) :
    (⟨x, s, locked⟩ : Session).begin writer version replicated false false = none ∨
      ∃ r y s' locked', (⟨x, s, locked⟩ : Session).begin writer version replicated false false =
          some (r, ⟨y, s', locked'⟩) ∧ Sole y s' ∧ s'.content = s.content ∧
        (r ≠ .ok () ∧ y.transaction = none ∧ y.transacted = false ∨
          r = .ok () ∧ y.transacted = true ∧ y.writer = writer ∧
            ∀ t ∈ y.transaction, writer = true → (s'.versions t).blocks = ∅ ∨
              x.transacted = false ∧ x.writer = writer ∧ x.transaction = some t ∧ s' = s) := by
  obtain ⟨y, s₁, locked₁, hrollback, hy, hbegun, hcontent, hfresh₁, hx⟩ := rollback_of_sole h locked
  obtain ⟨transaction, transacted, writer'⟩ := y
  change transacted = false at hbegun
  subst hbegun
  rw [← hfresh₁] at hfresh
  unfold begin
  rw [hrollback]
  dsimp only
  cases transaction with
  | none =>
    rcases (hy.writer rfl writer false rfl).opened rfl writer hfresh replicated with
      ⟨e, hresult⟩ | ⟨b, s', hresult, hopened, hcontent', hempty⟩
    · have hclosed := hy.writer rfl writer false rfl
      cases writer with
      | false =>
        refine .inr ⟨.error (.coordinator e), _, s₁, locked₁, ?_, hclosed, hcontent,
          .inl ⟨nofun, rfl, rfl⟩⟩
        simp only [getTransaction, call, hresult, Bool.false_eq_true, if_false]
      | true =>
        rw [if_pos rfl]
        split
        · exact .inl rfl
        · refine .inr ⟨.error (.coordinator e), _, s₁, true, ?_, hclosed, hcontent,
            .inl ⟨nofun, rfl, rfl⟩⟩
          simp only [getTransaction, call, hresult, Bool.false_eq_true, if_false]
    · have hopen : ∀ t ∈ some b, writer = true → (s'.versions t).blocks = ∅ ∨
          x.transacted = false ∧ x.writer = writer ∧ x.transaction = some t ∧ s' = s := by
        intro t ht hw
        obtain rfl := Option.some.inj ht
        exact .inl (hempty hw)
      cases writer with
      | false =>
        refine .inr ⟨_, _, s', locked₁, ?_, hopened, hcontent'.trans hcontent,
          .inr ⟨rfl, rfl, rfl, hopen⟩⟩
        simp only [getTransaction, call, hresult, Bool.false_eq_true, if_false]
      | true =>
        rw [if_pos rfl]
        split
        · exact .inl rfl
        · refine .inr ⟨_, _, s', true, ?_, hopened, hcontent'.trans hcontent,
            .inr ⟨rfl, rfl, rfl, hopen⟩⟩
          simp only [getTransaction, call, hresult, Bool.false_eq_true, if_false]
  | some t =>
    obtain ⟨rfl, rfl⟩ := hx.resolve_left nofun
    have hwriter' : writer' = true := (hy.kept rfl).resolve_left nofun
    subst hwriter'
    cases writer with
    | false => exact absurd (hkept rfl) nofun
    | true =>
      rw [if_pos rfl]
      split
      · exact .inl rfl
      · have hsole : Sole ⟨some t, true, true⟩ s₁ :=
          ⟨hy.inv, hy.transactions, nofun, nofun, hy.readOnly, hy.order⟩
        refine .inr ⟨_, _, s₁, true, rfl, hsole, hcontent, .inr ⟨rfl, rfl, rfl, ?_⟩⟩
        intro u hu _
        exact .inr ⟨rfl, rfl, hu, rfl⟩

/-- A commit throws and leaves the object, has nothing to commit, or has published all blocks of
the transaction that writes, which is kept. -/
theorem commit_of_sole (h : Sole x s) (locked : Bool) (peers : Peers) {created : ℕ}
    (hfresh : s.IsFresh created) :
    ∃ r y s' locked', (⟨x, s, locked⟩ : Session).commit peers created false =
        (r, ⟨y, s', locked'⟩) ∧ Sole y s' ∧
      ((∃ e, r = .error e) ∧ y = x ∧ (∀ t ∈ x.transaction, Publishes s s' t) ∨
        (∃ b, r = .ok b) ∧ y.transacted = false ∧ y.transaction = x.transaction ∧
          (x.transaction = none ∧ s' = s ∨ ∃ t, x.transaction = some t ∧ x.writer = true ∧
            Publishes s s' t ∧ (s'.versions t).blocks = ∅)) := by
  obtain ⟨transaction, transacted, writer⟩ := x
  cases transaction with
  | none =>
    have hclosed := h.writer rfl false false rfl
    exact ⟨_, _, s, locked, rfl, hclosed, .inr ⟨⟨_, rfl⟩, rfl, rfl, .inl ⟨rfl, rfl⟩⟩⟩
  | some t =>
    cases writer with
    | false =>
      have hro : (s.versions t).readOnly = true := h.readOnly t rfl
      have hrefused : s.commit t peers = (.error .invalidTransactionType, s) := by
        rw [Coordinator.commit, commitVersion, if_pos hro]
      refine ⟨.error (.coordinator .invalidTransactionType), _, s, locked, ?_, h,
        .inl ⟨⟨_, rfl⟩, rfl, fun _ _ ↦ .of_blocks rfl fun _ ↦ rfl⟩⟩
      simp only [commit, call, hrefused, Bool.false_eq_true, if_false]
    | true =>
      obtain ⟨r, s', hmerge, hsole, hpublishes, hempty⟩ := h.merged rfl rfl peers hfresh
      cases r with
      | error e =>
        refine ⟨.error (.coordinator e), _, s', locked, ?_, hsole, .inl ⟨⟨_, rfl⟩, rfl, ?_⟩⟩
        · simp only [commit, call, hmerge, Bool.false_eq_true, if_false, if_true]
        · intro u hu
          obtain rfl := Option.some.inj hu
          exact hpublishes
      | ok u =>
        have hkept : Sole ⟨some t, false, true⟩ s' :=
          ⟨hsole.inv, hsole.transactions, fun hb ↦ absurd hb Bool.false_ne_true, fun _ ↦ .inr rfl,
            hsole.readOnly, hsole.order⟩
        refine ⟨.ok true, _, s', false, ?_, hkept,
          .inr ⟨⟨_, rfl⟩, rfl, rfl, .inr ⟨t, rfl, rfl, hpublishes, hempty rfl⟩⟩⟩
        simp only [commit, call, hmerge, Bool.false_eq_true, if_false, if_true]

/-- Closing the object ends its transaction. -/
theorem close_of_sole (h : Sole x s) (locked : Bool) :
    ∃ s', ((⟨x, s, locked⟩ : Session).close false).2 = ⟨.closed, s', locked⟩ ∧ Sole .closed s' ∧
      s'.content = s.content := by
  obtain ⟨transaction, transacted, writer⟩ := x
  cases transaction with
  | none => exact ⟨s, rfl, h.writer rfl false false rfl, rfl⟩
  | some t =>
    refine ⟨s.discarded t, ?_, h.discarded rfl, Sole.content_discarded s t⟩
    simp only [close, call, discard_eq h.inv (h.mem rfl), Bool.false_eq_true, if_false]

end Session

/-! ### Over a single committed version -/

/-- What a move, whether it ends or not, leaves at the destination: what was there, a block of the
source, or an empty block where there was none in memory. -/
theorem Allocator.block_moveBlocks_cases (stored : Finset ℕ) (todo : List (Σ _ : ℕ, Block))
    (s dest : Allocator) (a : ℕ) :
    (moveBlocks stored todo s dest).2.2.block a = dest.block a ∨
      (∃ b ∈ todo, b.1 = a ∧ (moveBlocks stored todo s dest).2.2.block a = some b.2) ∨
      (dest.block a = none ∨ a ∈ stored) ∧
        (moveBlocks stored todo s dest).2.2.block a = some ⟨[], dest.version⟩ := by
  induction todo generalizing s dest with
  | nil => exact .inl rfl
  | cons b todo ih =>
    obtain ⟨at', current⟩ := b
    rw [moveBlocks]
    split
    · by_cases ha : a = at'
      · subst ha
        change (dest.createOver stored a).block a = _ ∨ _
        rw [block_createOver]
        split
        · next hstored => exact .inr (.inr ⟨.inr hstored, rfl⟩)
        · cases hdest : dest.block a with
          | none => exact .inr (.inr ⟨.inl rfl, rfl⟩)
          | some b => exact .inl rfl
      · exact .inl (block_createOver_ne stored dest ha)
    · have hset : ((dest.createOver stored at').setBlock at' current).block a =
          if a = at' then some current else dest.block a := by
        rw [block_setBlock]
        split
        · rfl
        · next ha => exact block_createOver_ne stored dest ha
      have hversion : ((dest.createOver stored at').setBlock at' current).version =
          dest.version := by
        rw [version_setBlock, version_createOver]
      rcases ih { s with blocks := s.blocks.erase at' }
        ((dest.createOver stored at').setBlock at' current) with
        hsame | ⟨b, hb, hba, hmoved⟩ | ⟨hnone, hempty⟩
      · rw [hset] at hsame
        by_cases ha : a = at'
        · rw [if_pos ha] at hsame
          exact .inr (.inl ⟨_, List.mem_cons_self, ha.symm, hsame⟩)
        · rw [if_neg ha] at hsame
          exact .inl hsame
      · exact .inr (.inl ⟨b, List.mem_cons_of_mem _ hb, hba, hmoved⟩)
      · rw [hset] at hnone
        rw [hversion] at hempty
        rcases hnone with hnone | hstored
        · by_cases ha : a = at'
          · rw [if_pos ha] at hnone
            cases hnone
          · rw [if_neg ha] at hnone
            exact .inr (.inr ⟨.inl hnone, hempty⟩)
        · exact .inr (.inr ⟨.inr hstored, hempty⟩)

namespace Coordinator

/-- Over a single committed version, what is committed at an address after a call that moves blocks
of a transaction: what was, what the transaction has there, or an empty block where nothing was in
memory. -/
def Settles (s s' : Coordinator) (t : ℕ) : Prop :=
  ∀ a, s'.content a = s.content a ∨ s'.content a = s.overlay t a ∨
    (s.content a = none ∨ a ∈ (s.traversals 0).stored) ∧ s'.content a = some []

/-- With one stored version its blocks are the committed contents. -/
theorem content_single {s : Coordinator} {v : ℕ} (h : s.storages = [v]) (a : ℕ) :
    s.content a = ((s.versions v).block a).map Block.content := by
  rw [content, h, List.reverse_singleton, view_cons, view, List.findSome?_nil, Option.or_none]

private theorem settles_move {s : Coordinator} {t last : ℕ} (hne : t ≠ last)
    (hlast : s.storages = [last]) :
    Settles s (s.move t last).2 t := by
  intro a
  have hstorages : (s.move t last).2.storages = [last] :=
    (sameShape_move s hne).storages.trans hlast
  rw [content_single hstorages, content_single hlast, versions_move s hne, if_pos rfl, overlay]
  rcases Allocator.block_moveBlocks_cases (s.traversals 0).stored
    ((s.versions t).todo (s.traversals 0)) (s.versions t).toAllocator
    (s.versions last).toAllocator a with hsame | ⟨b, hb, rfl, hmoved⟩ | ⟨hnone, hempty⟩
  · exact .inl (congrArg _ hsame)
  · have hentry := (Allocator.perm_todo (s.traversals 0) (s.versions t).toAllocator).mem_iff.1 hb
    have hblock : (s.versions t).block b.1 = some b.2 := AList.mem_lookup_iff.2 hentry
    refine .inr (.inl ?_)
    rw [hblock]
    exact congrArg (Option.map Block.content) hmoved
  · exact .inr (.inr ⟨hnone.imp_left (congrArg _), congrArg _ hempty⟩)

private theorem traversals_move (s : Coordinator) (v dest n : ℕ) :
    (s.move v dest).2.traversals n = s.traversals (n + 1) := by
  unfold move
  dsimp only
  split
  · rfl
  · rfl

private theorem settles_of_content {s s' : Coordinator} (t : ℕ) (h : s'.content = s.content) :
    Settles s s' t := fun a ↦ .inl (congrFun h a)

/-- A merge of the only transaction settles it. It leaves what the moves after it find. -/
theorem Sole.settles {x : AbstractedStorage} {s : Coordinator} {t : ℕ} (h : Sole x s)
    (ht : x.transaction = some t) (hw : x.writer = true) (peers : Peers) (created : ℕ) {last : ℕ}
    (hlast : s.storages = [last]) :
    (s.merge t peers created).2.storages = [last] ∧ Settles s (s.merge t peers created).2 t ∧
      ∃ k, ∀ n, (s.merge t peers created).2.traversals n = s.traversals (n + k) := by
  rcases merge_cases h.inv (h.mem ht) peers created with
    ⟨-, e, s', hresult, -, -, hstale⟩ | ⟨-, -, newest, hnewest, hresult⟩
  · obtain ⟨hshape, hversions, -, htraversals⟩ := hstale.resolve_left (h.not_stale ht hw)
    rw [hresult]
    exact ⟨hshape.storages.trans hlast,
      settles_of_content t (content_congr hshape.storages fun v _ ↦ by rw [hversions]),
      0, congrFun htraversals⟩
  · rw [hlast, List.getLast?_singleton, Option.some.injEq] at hnewest
    subst hnewest
    have hne : t ≠ last := by
      rintro rfl
      exact (mem_transactions.1 (h.mem ht)).2.2 (hlast ▸ List.mem_singleton_self t)
    have hstart : (s.mergeStart t).storages = [last] := hlast
    have hmoved := settles_move hne hstart
    have hstorages : ((s.mergeStart t).move t last).2.storages = [last] :=
      (sameShape_move _ hne).storages.trans hstart
    have htraversals := traversals_move (s.mergeStart t) t last
    rw [hresult]
    generalize (s.mergeStart t).move t last = r at hmoved hstorages htraversals ⊢
    obtain ⟨r, s'⟩ := r
    cases r with
    | error e => exact ⟨hstorages, hmoved, 1, htraversals⟩
    | ok u =>
      have hcontent : (s'.renumber t t created).content = s'.content :=
        content_congr rfl fun v _ ↦ blocks_renumber s' t created v
      refine ⟨hstorages, fun a ↦ ?_, 1, htraversals⟩
      change (s'.renumber t t created).content a = _ ∨ (s'.renumber t t created).content a = _ ∨
        _ ∧ (s'.renumber t t created).content a = _
      rw [hcontent]
      exact hmoved a

end Coordinator

namespace Session

open Coordinator

variable {x : AbstractedStorage} {s : Coordinator}

/-- A rollback stores no version. -/
theorem storages_rollback (h : Sole x s) (locked : Bool) :
    ((⟨x, s, locked⟩ : Session).rollback false).2.coordinator.storages = s.storages := by
  obtain ⟨transaction, transacted, writer⟩ := x
  cases transaction with
  | none => rfl
  | some t =>
    cases transacted with
    | false => rfl
    | true =>
      simp only [rollback, call, discard_eq h.inv (h.mem rfl), Bool.false_eq_true, if_false]
      rfl

/-- Neither does a `begin` with a fresh version. -/
theorem storages_begin (h : Sole x s) (locked writer : Bool) {version : ℕ}
    (hfresh : s.IsFresh version) (replicated : Bool) {r : SessionOutcome Unit}
    (hr : (⟨x, s, locked⟩ : Session).begin writer version replicated false false = some r) :
    r.2.coordinator.storages = s.storages := by
  obtain ⟨y, s₁, locked₁, hrollback, hy, -, -, hfresh₁, -⟩ := rollback_of_sole h locked
  have hstorages := storages_rollback h locked
  rw [hrollback] at hstorages
  change s₁.storages = s.storages at hstorages
  rw [← hfresh₁] at hfresh
  have hopened : (s₁.begin writer version replicated).2.storages = s.storages := by
    rcases begin_cases hy.inv writer hfresh replicated with ⟨e, hresult⟩ | ⟨b, -, hopens, -⟩
    · rw [hresult]
      exact hstorages
    · exact hopens.storages.trans hstorages
  have hget : ∀ y locked, ((⟨y, s₁, locked⟩ : Session).getTransaction writer version replicated
      false).2.coordinator.storages = s.storages := by
    intro y locked
    rw [getTransaction]
    split
    · exact hstorages
    · simp only [call, Bool.false_eq_true, if_false]
      generalize s₁.begin writer version replicated = result at hopened ⊢
      obtain ⟨e | b, s₂⟩ := result
      · exact hopened
      · exact hopened
  rw [begin, hrollback] at hr
  dsimp only at hr
  split at hr
  · split at hr
    · cases hr
    · cases hr
      exact hget _ _
  · cases hr
    exact hget _ _

/-- Neither does the end of the storage object. -/
theorem storages_close (h : Sole x s) (locked : Bool) :
    ((⟨x, s, locked⟩ : Session).close false).2.coordinator.storages = s.storages := by
  obtain ⟨transaction, transacted, writer⟩ := x
  cases transaction with
  | none => rfl
  | some t =>
    simp only [close, call, discard_eq h.inv (h.mem rfl), Bool.false_eq_true, if_false]
    rfl

/-- A commit of the object settles its transaction. It leaves what the moves after it find. -/
theorem settles_commit (h : Sole x s) (locked : Bool) {t : ℕ} (ht : x.transaction = some t)
    (hw : x.writer = true) (peers : Peers) (created : ℕ) {last : ℕ} (hlast : s.storages = [last]) :
    ((⟨x, s, locked⟩ : Session).commit peers created false).2.coordinator.storages = [last] ∧
      Settles s ((⟨x, s, locked⟩ : Session).commit peers created false).2.coordinator t ∧
      ∃ k, ∀ n, ((⟨x, s, locked⟩ : Session).commit peers created false).2.coordinator.traversals n =
        s.traversals (n + k) := by
  have hmerge := h.settles ht hw peers created hlast
  obtain ⟨transaction, transacted, writer⟩ := x
  change transaction = some t at ht
  change writer = true at hw
  subst ht hw
  simp only [commit, call, if_true, Bool.false_eq_true, if_false]
  generalize s.merge t peers created = result at hmerge ⊢
  obtain ⟨e | u, s'⟩ := result
  · exact hmerge
  · exact hmerge

end Session

end LibSpaces.Transactions
