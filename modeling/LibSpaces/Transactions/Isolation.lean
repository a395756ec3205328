import LibSpaces.Transactions.FailedCommit

/-!
# Snapshot isolation

What a reading transaction sees, `src/docs/API.md:110–165`: from its begin to its discard the
contents that were committed last when it began. Beside the coordinator runs the abstract
store, which knows only the committed contents and the snapshot each transaction took.
-/

namespace LibSpaces.Transactions

open LibSpaces.Base

/-- The coordinator with the contents of the newest committed version, and those there were
when each transaction began. -/
structure History where
  coordinator : Coordinator
  committed : ℕ → Option Bytes
  snapshot : ℕ → ℕ → Option Bytes

namespace History

open Coordinator

/-- Nothing but the initial storage is committed. -/
def start (initial : Opening) : History where
  coordinator := .start initial
  committed := fun a ↦ (initial.block a).map Block.content
  snapshot := fun _ _ ↦ none

/-- The committed contents once a transaction has published its blocks. -/
def published (h : History) (t a : ℕ) : Option Bytes :=
  (((h.coordinator.versions t).block a).map Block.content).or (h.committed a)

/-- The committed contents after a call. A merge publishes when it returns, a commit when the
version joins the committed ones. -/
def committedAfter (h : History) : CoordinatorAction → ℕ → Option Bytes
  | .merge t peers created =>
    if (h.coordinator.merge t peers created).1 = .ok () then h.published t else h.committed
  | .commit t peers =>
    if (h.coordinator.commitVersion t peers).1 = .ok () then h.published t else h.committed
  | _ => h.committed

/-- The snapshots after a call: a transaction that begins takes one. -/
def snapshotAfter (h : History) : CoordinatorAction → ℕ → ℕ → Option Bytes
  | .begin writer version replicated =>
    match (h.coordinator.begin writer version replicated).1 with
    | .ok b => Function.update h.snapshot b h.committed
    | .error _ => h.snapshot
  | _ => h.snapshot

/-- One call. -/
def step (h : History) (a : CoordinatorAction) : Option History :=
  (h.coordinator.step a).map fun s ↦ ⟨s, h.committedAfter a, h.snapshotAfter a⟩

/-- Whatever address a reading transaction allocates, it reads the contents that were committed
when it began. -/
def Isolated (h : History) : Prop :=
  ∀ t ∈ h.coordinator.transactions, (h.coordinator.versions t).readOnly = true →
    ∀ a ≠ 0, h.coordinator.read t a = h.snapshot t a

/-- A merge that gets to move blocks moves all of them, and no reading transaction is open. -/
def Sound (h : History) : CoordinatorAction → Prop
  | .merge t peers _ => h.coordinator.MergeRefused t peers ∨
      (∀ u ∈ h.coordinator.transactions, (h.coordinator.versions u).readOnly = false) ∧
        ∀ last ∈ h.coordinator.storages.getLast?,
          Allocator.Movable (h.coordinator.traversals 0) (h.coordinator.versions t).toAllocator
            (h.coordinator.versions last).toAllocator
  | _ => True

instance (s : Coordinator) (t : ℕ) (peers : Peers) : Decidable (s.MergeRefused t peers) :=
  inferInstanceAs (Decidable (_ ∨ _))

instance (h : History) (a : CoordinatorAction) : Decidable (h.Sound a) :=
  match a with
  | .merge _ _ _ => inferInstanceAs (Decidable (_ ∨ _))
  | .begin _ _ _ | .allocate _ _ _ _ | .commit _ _ | .discard _ | .journalSynching _ =>
    isTrue trivial

/-- What sound steps keep: the committed contents are seen through the committed versions, and
each reading transaction sees its snapshot through the versions it is based on. -/
structure Keeps (h : History) : Prop where
  inv : h.coordinator.Inv
  committed : ∀ a, (h.coordinator.view h.coordinator.storages.reverse a).map Block.content =
    h.committed a
  blocks : ∀ t ∈ h.coordinator.transactions, (h.coordinator.versions t).readOnly = true →
    (h.coordinator.versions t).blocks = ∅
  snapshot : ∀ t ∈ h.coordinator.transactions, (h.coordinator.versions t).readOnly = true →
    ∀ a, (h.coordinator.view (h.coordinator.bases t) a).map Block.content = h.snapshot t a
  recycled : ∀ v ∈ h.coordinator.recycler, (h.coordinator.versions v).blocks = ∅

/-- The first value is the value of the first member that has one. -/
theorem bind_find?_isSome {α β : Type*} (f : α → Option β) (l : List α) :
    (l.find? fun v ↦ (f v).isSome).bind f = l.findSome? f := by
  induction l with
  | nil => rfl
  | cons v l ih =>
    rw [List.findSome?_cons]
    cases hv : f v with
    | none => rw [List.find?_cons_of_neg (by simp [hv]), ih]
    | some b => rw [List.find?_cons_of_pos (by simp [hv]), Option.bind_some, hv]

/-- A transaction without blocks of its own reads through the versions it is based on. -/
theorem read_of_blocks_eq_empty {s : Coordinator} {t a : ℕ} (ha : a ≠ 0)
    (hblocks : (s.versions t).blocks = ∅) :
    s.read t a = (s.view (s.bases t) a).map Block.content := by
  have hnone : (s.versions t).block a = none := by
    rw [Allocator.block, hblocks, AList.lookup_empty]
  have hread : ¬((s.versions t).readOnly = true ∧ StorageAction.read ≠ .read) := fun h ↦ h.2 rfl
  rw [view, ← bind_find?_isSome]
  unfold Coordinator.read Coordinator.allocate
  dsimp only
  rw [if_neg hread, if_neg ha, hnone]
  simp only [Option.isSome_none, Bool.false_eq_true, if_false]
  cases (s.bases t).find? fun v ↦ ((s.versions v).block a).isSome with
  | none => rfl
  | some v => rfl

/-- The invariant makes every reading transaction isolated. -/
theorem Keeps.isolated {h : History} (hk : h.Keeps) : h.Isolated := by
  intro t ht hro a ha
  rw [read_of_blocks_eq_empty ha (hk.blocks t ht hro)]
  exact hk.snapshot t ht hro a

private theorem keeps_start (initial : Opening) : (start initial).Keeps where
  inv := inv_start initial
  committed := by
    intro a
    change (Coordinator.view _ [0] a).map Block.content = _
    rw [view_cons]
    exact congrArg _ Option.or_none
  blocks := by
    intro t ht
    simp [start, Coordinator.start, mem_transactions] at ht
  snapshot := by
    intro t ht
    simp [start, Coordinator.start, mem_transactions] at ht
  recycled := by simp [start, Coordinator.start]

/-- The blocks that open readers see stay where they are. -/
theorem Keeps.of_frame {h : History} (hk : h.Keeps) {s' : Coordinator}
    {committed : ℕ → Option Bytes} (hinv : s'.Inv)
    (htransactions : s'.transactions ⊆ h.coordinator.transactions)
    (hbases : ∀ t ∈ s'.transactions, s'.bases t = h.coordinator.bases t)
    (hreadOnly : ∀ t ∈ s'.transactions,
      (s'.versions t).readOnly = (h.coordinator.versions t).readOnly)
    (hsame : ∀ t ∈ s'.transactions, (s'.versions t).readOnly = true →
      ∀ v ∈ t :: h.coordinator.bases t,
        (s'.versions v).blocks = (h.coordinator.versions v).blocks)
    (hcommitted : ∀ a, (s'.view s'.storages.reverse a).map Block.content = committed a)
    (hrecycled : ∀ v ∈ s'.recycler, (s'.versions v).blocks = ∅) :
    Keeps ⟨s', committed, h.snapshot⟩ where
  inv := hinv
  committed := hcommitted
  blocks := by
    intro t ht hro
    have hro' := (hreadOnly t ht).symm.trans hro
    exact (hsame t ht hro t List.mem_cons_self).trans (hk.blocks t (htransactions ht) hro')
  snapshot := by
    intro t ht hro a
    have hro' := (hreadOnly t ht).symm.trans hro
    rw [← hk.snapshot t (htransactions ht) hro' a]
    dsimp only
    rw [hbases t ht]
    congr 1
    apply view_congr
    intro v hv
    rw [Allocator.block, hsame t ht hro v (List.mem_cons_of_mem _ hv)]
    rfl
  recycled := hrecycled

/-- Only open writing transactions may change their blocks. -/
theorem Keeps.of_sameShape {h : History} (hk : h.Keeps) {s' : Coordinator}
    (hshape : SameShape h.coordinator s')
    (hblocks : ∀ v ∉ h.coordinator.writers,
      (s'.versions v).blocks = (h.coordinator.versions v).blocks) :
    Keeps ⟨s', h.committed, h.snapshot⟩ := by
  have hstored : ∀ v ∈ h.coordinator.storages, v ∉ h.coordinator.writers :=
    fun v hv hw ↦ (mem_transactions.mp (mem_writers.mp hw).1).2.2 hv
  apply hk.of_frame (hshape.inv hk.inv)
  · exact hshape.transactions.subset
  · exact fun t _ ↦ hshape.bases t
  · exact fun t _ ↦ hshape.readOnly t
  · intro t ht hro v hv
    rw [hshape.transactions] at ht
    rw [hshape.readOnly] at hro
    apply hblocks
    rcases List.mem_cons.mp hv with rfl | hv
    · intro hw
      rw [(mem_writers.mp hw).2] at hro
      cases hro
    · exact hstored v (mem_storages_of_mem_bases hk.inv ht hv)
  · intro a
    rw [← hk.committed a, hshape.storages]
    congr 1
    apply view_congr
    intro v hv
    rw [Allocator.block, hblocks v (hstored v (List.mem_reverse.mp hv))]
    rfl
  · intro v hv
    rw [hshape.recycler] at hv
    have hclosed : v ∉ h.coordinator.writers :=
      fun hw ↦ hk.inv.notMem_recycler (mem_writers.mp hw).1 hv
    rw [hblocks v hclosed]
    exact hk.recycled v hv

/-- A refused call leaves what readers see. -/
theorem Keeps.refused {h : History} (hk : h.Keeps) {t : ℕ} (ht : t ∈ h.coordinator.transactions)
    {s' : Coordinator} (hr : h.coordinator.RefusedAs t s') :
    Keeps ⟨s', h.committed, h.snapshot⟩ := by
  have hinv := hr.inv hk.inv ht
  cases hr with
  | same => exact hk.of_sameShape ⟨rfl, rfl, rfl, rfl, rfl, rfl, rfl⟩ fun _ _ ↦ rfl
  | discarded =>
    have hc := closes_discarded hk.inv ht
    apply hk.of_frame hinv
    · rw [hc.transactions]
      exact Finset.erase_subset _ _
    · exact fun u _ ↦ bases_congr hc.size hc.previous u
    · intro u hu
      rw [hc.transactions] at hu
      exact hc.readOnly u (Finset.ne_of_mem_erase hu)
    · exact fun _ _ _ _ _ ↦ rfl
    · exact hk.committed
    · intro v hv
      have hv' : v ∈ if (h.coordinator.versions t).readOnly = true then t :: h.coordinator.recycler
          else h.coordinator.recycler := hv
      split at hv'
      · next hro =>
        rcases List.mem_cons.mp hv' with rfl | hv'
        · exact hk.blocks v ht hro
        · exact hk.recycled v hv'
      · exact hk.recycled v hv'

/-- A committed version is seen above all others. -/
theorem Keeps.committedVersion {h : History} (hk : h.Keeps) {t : ℕ}
    (ht : t ∈ h.coordinator.writers) :
    Keeps ⟨h.coordinator.committed t, h.published t, h.snapshot⟩ := by
  have hopen := (mem_writers.mp ht).1
  have hc := closes_committed hk.inv ht
  apply hk.of_frame (hc.inv hk.inv hopen)
  · rw [hc.transactions]
    exact Finset.erase_subset _ _
  · exact fun u _ ↦ bases_congr hc.size hc.previous u
  · intro u hu
    rw [hc.transactions] at hu
    exact hc.readOnly u (Finset.ne_of_mem_erase hu)
  · exact fun _ _ _ _ _ ↦ rfl
  · intro a
    have hview : (h.coordinator.committed t).view h.coordinator.storages.reverse a =
        h.coordinator.view h.coordinator.storages.reverse a := view_congr a fun _ _ ↦ rfl
    change (Coordinator.view _ (h.coordinator.storages ++ [t]).reverse a).map _ = _
    rw [List.reverse_append, published, ← hk.committed a, ← Option.map_or, ← hview]
    exact congrArg _ (view_cons _ t _ a)
  · exact hk.recycled

/-- Merging idle versions leaves what readers see. -/
theorem Keeps.mergedDown {h : History} (hk : h.Keeps) {s' : Coordinator}
    (hm : MergedDown h.coordinator s') : Keeps ⟨s', h.committed, h.snapshot⟩ := by
  apply hk.of_frame hm.inv
  · exact hm.transactions.subset
  · exact fun u hu ↦ hm.bases u (hm.transactions ▸ hu)
  · exact fun u _ ↦ hm.readOnly u
  · intro u hu _ v hv
    have hu' : u ∈ h.coordinator.transactions := hm.transactions ▸ hu
    rw [hm.allocator v]
    rcases List.mem_cons.mp hv with rfl | hv
    · exact .inl (mem_transactions.mp hu').2.2
    · exact .inr (hk.inv.readers_pos hu' hv).ne'
  · intro a
    rw [hm.view]
    exact hk.committed a
  · intro v hv
    rw [hm.recycler] at hv
    rw [hm.allocator v (.inl (hk.inv.recycled v hv).2.1)]
    exact hk.recycled v hv

/-- A merge without readers puts the blocks of its transaction over those of the newest
version. -/
theorem Keeps.merged {h : History} (hk : h.Keeps) {t last created : ℕ} {s' : Coordinator}
    (ht : t ∈ h.coordinator.transactions)
    (hwriters : ∀ u ∈ h.coordinator.transactions, (h.coordinator.versions u).readOnly = false)
    (hlast : h.coordinator.storages.getLast? = some last)
    (hfresh : h.coordinator.IsFresh created)
    (hmove : (h.coordinator.mergeStart t).move t last = (.ok (), s')) :
    Keeps ⟨s'.renumber t t created, h.published t, h.snapshot⟩ := by
  have hnot : t ∉ h.coordinator.storages := (mem_transactions.mp ht).2.2
  have hne := ne_newest ht hlast
  have hs' : s' = ((h.coordinator.mergeStart t).move t last).2 := by rw [hmove]
  have hempty : (s'.versions t).blocks = ∅ := by
    rw [hs']
    exact blocks_move _ hne (by rw [hmove])
  have hshape : SameShape h.coordinator s' := by
    rw [hs']
    exact sameShape_merging ht hlast
  have hother : ∀ v, v ≠ t → v ≠ last → s'.versions v = h.coordinator.versions v := by
    intro v hv hv'
    rw [hs', versions_move _ hne, if_neg hv', if_neg hv]
    rfl
  have hblock : ∀ a, (s'.versions last).block a =
      ((h.coordinator.versions t).block a).or ((h.coordinator.versions last).block a) := by
    intro a
    have hor := or_block_move (h.coordinator.mergeStart t) hne a
    have hnone : (s'.versions t).block a = none := by
      rw [Allocator.block, hempty, AList.lookup_empty]
    rw [← hs', hnone, Option.none_or] at hor
    exact hor
  have hfresh' := hshape.isFresh hfresh
  have ht' : t ∈ s'.transactions := hshape.transactions ▸ ht
  have htransactions := transactions_renumber (hshape.inv hk.inv) ht' hfresh'
  apply hk.of_frame (inv_renumber (hshape.inv hk.inv) ht' hfresh')
  · rw [htransactions, hshape.transactions]
  · intro u _
    rw [bases_renumber, hshape.bases]
  · intro u _
    rw [readOnly_renumber, hshape.readOnly]
  · intro u hu hro
    rw [htransactions, hshape.transactions] at hu
    rw [readOnly_renumber, hshape.readOnly, hwriters u hu] at hro
    cases hro
  · intro a
    obtain ⟨lower, hlower⟩ := exists_lower hlast
    have hnodup := List.nodup_cons.mp (hlower ▸ List.nodup_reverse.mpr hk.inv.nodup)
    have hrest : (s'.renumber t t created).view lower a = h.coordinator.view lower a := by
      apply view_congr
      intro v hv
      have hstored : v ∈ h.coordinator.storages := by
        rw [← List.mem_reverse, hlower]
        exact List.mem_cons_of_mem _ hv
      rw [Allocator.block, blocks_renumber,
        hother v (fun he ↦ hnot (he ▸ hstored)) (fun he ↦ hnodup.1 (he ▸ hv))]
      rfl
    have htop : ((s'.renumber t t created).versions last).block a =
        ((h.coordinator.versions t).block a).or ((h.coordinator.versions last).block a) := by
      rw [Allocator.block, blocks_renumber]
      exact hblock a
    have hstorages : (s'.renumber t t created).storages = h.coordinator.storages := hshape.storages
    rw [hstorages, hlower, view_cons, hrest, htop, Option.or_assoc, ← view_cons, ← hlower,
      Option.map_or, hk.committed a]
    rfl
  · intro v hv
    have hv' : v ∈ h.coordinator.recycler := hshape.recycler ▸ hv
    have hvt : v ≠ t := fun he ↦ hk.inv.notMem_recycler ht (he ▸ hv')
    have hvlast : v ≠ last :=
      fun he ↦ (hk.inv.recycled v hv').2.1 (he ▸ List.mem_of_getLast? hlast)
    rw [blocks_renumber, hother v hvt hvlast]
    exact hk.recycled v hv'

/-- A transaction that begins sees what is committed. -/
theorem Keeps.opened {h : History} (hk : h.Keeps) {s' : Coordinator} {b : ℕ} {writer : Bool}
    (ho : Opens h.coordinator s' b writer)
    (hother : ∀ v, v ≠ b → (s'.versions v).toAllocator = (h.coordinator.versions v).toAllocator)
    (hempty : (s'.versions b).blocks = ∅) :
    Keeps ⟨s', h.committed, Function.update h.snapshot b h.committed⟩ := by
  have hstored : ∀ v ∈ h.coordinator.storages, v ≠ b := fun v hv he ↦ ho.notMem (he ▸ hv)
  have hold : ∀ t ∈ h.coordinator.transactions, t ≠ b := fun t ht he ↦ ho.closed (he ▸ ht)
  have hview : ∀ l, (∀ v ∈ l, v ∈ h.coordinator.storages) → ∀ a,
      s'.view l a = h.coordinator.view l a := by
    intro l hl a
    apply view_congr
    intro v hv
    rw [hother v (hstored v (hl v hv))]
  have hcommitted : ∀ a, (s'.view h.coordinator.storages.reverse a).map Block.content =
      h.committed a := by
    intro a
    rw [hview _ (fun v hv ↦ List.mem_reverse.mp hv), hk.committed]
  constructor
  case inv => exact ho.inv hk.inv
  case committed =>
    dsimp only
    rw [ho.storages]
    exact hcommitted
  case blocks =>
    intro t ht hro
    rcases Finset.mem_insert.mp (ho.transactions ▸ ht) with rfl | ht
    · exact hempty
    · dsimp only at hro ⊢
      rw [ho.readOnly t (hold t ht)] at hro
      rw [hother t (hold t ht)]
      exact hk.blocks t ht hro
  case snapshot =>
    intro t ht hro a
    rcases Finset.mem_insert.mp (ho.transactions ▸ ht) with rfl | ht
    · dsimp only
      rw [ho.bases_self hk.inv, Function.update_self]
      exact hcommitted a
    · dsimp only at hro ⊢
      rw [ho.readOnly t (hold t ht)] at hro
      rw [ho.bases hk.inv ht, Function.update_of_ne (hold t ht),
        hview _ (fun v hv ↦ mem_storages_of_mem_bases hk.inv ht hv)]
      exact hk.snapshot t ht hro a
  case recycled =>
    intro v hv
    have hvb : v ≠ b := fun he ↦ ho.recycler.2 (he ▸ hv)
    dsimp only
    rw [hother v hvb]
    exact hk.recycled v (ho.recycler.1.subset hv)

/-- Sound steps keep the invariant. -/
theorem keeps_step (h h' : History) (a : CoordinatorAction) (hk : h.Keeps) (ha : h.Sound a)
    (hstep : h.step a = some h') : h'.Keeps := by
  obtain ⟨s', hs', rfl⟩ := Option.map_eq_some_iff.mp hstep
  cases called_of_step hk.inv hs' with
  | unopened hresult =>
    simp only [committedAfter, snapshotAfter, hresult]
    exact hk
  | @opened _ _ _ b _ hresult hopens hother _ hself =>
    simp only [committedAfter, snapshotAfter, hresult]
    apply hk.opened hopens hother
    rcases hself with ⟨-, hself⟩ | ⟨-, hrecycled, hsame⟩
    · rw [hself]
    · rw [hsame]
      exact hk.recycled b hrecycled
  | @allocated t _ _ _ ht =>
    apply hk.of_sameShape (sameShape_allocateAndWrite ..)
    intro v hv
    apply blocks_allocateAndWrite
    by_cases hvt : v = t
    · right
      rw [mem_writers, hvt] at hv
      exact (Bool.not_eq_false _).mp fun hro ↦ hv ⟨ht, hro⟩
    · exact .inl hvt
  | mergeRefused ht hresult _ hrefused =>
    simp only [committedAfter, snapshotAfter, hresult]
    exact hk.refused ht hrefused
  | mergeHalted hw hlast hmove _ hcause =>
    obtain ⟨-, hmovable⟩ := ha.resolve_left hcause
    have hmoved := (hmovable _ hlast).move.1
    unfold Coordinator.move at hmove
    dsimp only at hmove
    cases (congrArg Prod.fst (if_pos hmoved)).symm.trans (congrArg Prod.fst hmove)
  | merged hw hlast hfresh hmove hresult hcause =>
    obtain ⟨hreaders, -⟩ := ha.resolve_left hcause
    simp only [committedAfter, snapshotAfter, hresult]
    exact hk.merged (mem_writers.mp hw).1 hreaders hlast hfresh hmove
  | commitRefused ht hresult hrefused =>
    simp only [committedAfter, snapshotAfter, hresult]
    exact hk.refused ht hrefused
  | committed hw hresult =>
    have hcommitted := hk.committedVersion hw
    simp only [committedAfter, snapshotAfter, hresult]
    exact hcommitted.mergedDown (mergeDown_spec hcommitted.inv).1
  | discarded ht => exact hk.refused ht .discarded
  | journalSynching on => exact hk.of_sameShape ⟨rfl, rfl, rfl, rfl, rfl, rfl, rfl⟩ fun _ _ ↦ rfl

/-- In every run in which no merge moves blocks while a reading transaction is open, and none
breaks off halfway, each reading transaction sees the contents committed before its begin. -/
theorem isolated_of_reached {initial : Opening} {h : History}
    (hs : Reached step Sound (start initial) h) : h.Isolated :=
  (hs.invariant Keeps (keeps_start initial) keeps_step).isolated

/-- An initial storage with a block at address 20. -/
def storedBlock : Opening := .plain ⟨1, 32, 0, AList.singleton 20 ⟨[1], 1⟩⟩

/-- A merge without readers, then a reader, a commit, and another reader. -/
def commitBesideReader : List CoordinatorAction :=
  [.begin true 3 true, .allocate 1 20 .write (some [2]), .merge 1 alone 4, .begin false 5 true,
    .allocate 1 20 .write (some [3]), .commit 1 alone, .begin false 6 true]

/-- The reader that began before the commit reads what was merged before, the other one what
was committed. -/
theorem isolated_of_reached_readers :
    ∃ h, runAllowed step Sound (start storedBlock) commitBesideReader = some h ∧
      h.coordinator.read 2 20 = some [2] ∧ h.coordinator.read 3 20 = some [3] ∧ h.Isolated := by
  have hrun : (runAllowed step Sound (start storedBlock) commitBesideReader).map
      (fun h ↦ (h.coordinator.read 2 20, h.coordinator.read 3 20)) =
        some (some [2], some [3]) := by decide +kernel
  obtain ⟨h, hs, hvalue⟩ := Option.map_eq_some_iff.mp hrun
  simp only [Prod.mk.injEq] at hvalue
  exact ⟨h, hs, hvalue.1, hvalue.2, isolated_of_reached (reached_of_runAllowed .start hs)⟩

/-- A reader begins, and a writing transaction changes the block at address 20. -/
def readerThenWriter : List CoordinatorAction :=
  [.begin false 2 true, .begin true 3 true, .allocate 2 20 .write (some [2])]

/-- The same reader reads one content before the merge and another after it. -/
theorem mergeUnderReader_not_isolated :
    ∃ h h', run step (start storedBlock) readerThenWriter = some h ∧
      h.step (.merge 2 alone 4) = some h' ∧ h.coordinator.read 1 20 = some [1] ∧
      h'.coordinator.read 1 20 = some [2] ∧ ¬h'.Isolated := by
  have hrun : ((run step (start storedBlock) readerThenWriter).bind fun h ↦
      (h.step (.merge 2 alone 4)).map fun h' ↦ (h.coordinator.read 1 20,
        h'.coordinator.read 1 20, h'.snapshot 1 20, decide (1 ∈ h'.coordinator.transactions),
        (h'.coordinator.versions 1).readOnly)) =
      some (some [1], some [2], some [1], true, true) := by decide +kernel
  obtain ⟨h, hs, hmerge⟩ := Option.bind_eq_some_iff.mp hrun
  obtain ⟨h', hs', hvalue⟩ := Option.map_eq_some_iff.mp hmerge
  simp only [Prod.mk.injEq, decide_eq_true_eq] at hvalue
  obtain ⟨hbefore, hafter, hsnapshot, hopen, hro⟩ := hvalue
  refine ⟨h, h', hs, hs', hbefore, hafter, fun hisolated ↦ ?_⟩
  have hread := hisolated 1 hopen hro 20 (by decide)
  rw [hafter, hsnapshot] at hread
  cases hread

end History

end LibSpaces.Transactions
