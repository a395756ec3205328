import LibSpaces.Transactions.MergeDown

/-!
# The operations of the coordinator

What `begin`, `discard`, `commit` and `merge` do to a coordinator that keeps the invariant,
`src/src/storage/transactions/transactional_storage.h:2790–3170`. On an open transaction a
discard always succeeds, and a commit or a merge is refused by a check on its transaction or
on the peers, or gets to move blocks.
-/

namespace LibSpaces.Transactions

open LibSpaces.Base

namespace Coordinator

/-- There is a last stored version. -/
theorem Inv.exists_last {s : Coordinator} (h : s.Inv) : ∃ last, s.storages.getLast? = some last :=
  ⟨_, List.getLast?_eq_some_getLast h.nonempty⟩

/-- The versions with other reader counts. -/
def withReaders (s : Coordinator) (readers : ℕ → ℕ) : Coordinator :=
  { s with versions := fun v ↦ { s.versions v with readers := readers v } }

/-- Removing a reader from versions in use succeeds. -/
theorem removeReaders_eq (l : List ℕ) (s : Coordinator) (hnodup : l.Nodup)
    (hused : ∀ v ∈ l, 0 < (s.versions v).readers) :
    removeReaders l s = (.ok (), s.withReaders fun v ↦
      if v ∈ l then (s.versions v).readers - 1 else (s.versions v).readers) := by
  induction l generalizing s with
  | nil => simp [removeReaders, withReaders]
  | cons c cs ih =>
    obtain ⟨hc, hcs⟩ := List.nodup_cons.mp hnodup
    have hversions := fun v ↦ versions_setVersion s c v
      { s.versions c with readers := (s.versions c).readers - 1 }
    rw [removeReaders, if_neg (hused c List.mem_cons_self).ne', ih _ hcs]
    · rw [Prod.mk.injEq]
      refine ⟨rfl, ?_⟩
      apply Coordinator.ext
      case versions =>
        ext1 v
        simp only [withReaders, hversions, List.mem_cons]
        by_cases hv : v = c
        · simp [hv, hc]
        · simp [hv]
      all_goals rfl
    · intro v hv
      have hne : v ≠ c := fun he ↦ hc (he ▸ hv)
      rw [hversions, if_neg hne]
      exact hused v (List.mem_cons_of_mem _ hv)

/-- Adding a reader to each of several versions. -/
theorem foldl_addReader (l : List ℕ) (s : Coordinator) (hnodup : l.Nodup) :
    l.foldl addReader s = s.withReaders fun v ↦
      if v ∈ l then (s.versions v).readers + 1 else (s.versions v).readers := by
  induction l generalizing s with
  | nil => simp [withReaders]
  | cons c cs ih =>
    obtain ⟨hc, hcs⟩ := List.nodup_cons.mp hnodup
    have hversions := fun v ↦ versions_setVersion s c v
      { s.versions c with readers := (s.versions c).readers + 1 }
    rw [List.foldl_cons, ih _ hcs]
    apply Coordinator.ext
    case versions =>
      ext1 v
      simp only [withReaders, addReader, hversions, List.mem_cons]
      by_cases hv : v = c
      · simp [hv, hc]
      · simp [hv]
    all_goals rfl

/-- A transaction closes: its versions lose a reader and the counters go down by one. A
committed version may join the others. -/
structure Closes (s s' : Coordinator) (t : ℕ) : Prop where
  size : s'.size = s.size
  version : ∀ v, (s'.versions v).version = (s.versions v).version
  previous : ∀ v, (s'.versions v).previous = (s.versions v).previous
  readOnly : ∀ v, v ≠ t → (s'.versions v).readOnly = (s.versions v).readOnly
  readers : ∀ v, (s'.versions v).readers =
    if v ∈ s.bases t then (s.versions v).readers - 1 else (s.versions v).readers
  transactions : s'.transactions = s.transactions.erase t
  active : s'.activeTransactions = s.activeTransactions - 1
  writing : s'.writingTransactions =
    if (s.versions t).readOnly = true then s.writingTransactions else s.writingTransactions - 1
  storages : s'.storages = s.storages ∨ t ∈ s.writers ∧ s'.storages = s.storages ++ [t]
  recycled : ∀ v ∈ s'.recycler,
    v < s'.size ∧ v ∉ s'.storages ∧ s'.storageVersions (s'.versions v).version ≠ some v
  recycler_nodup : s'.recycler.Nodup

private theorem ofNat_succ_sub_one (n : ℕ) : UInt32.ofNat (n + 1) - 1 = UInt32.ofNat n := by
  rw [UInt32.ofNat_add]
  exact UInt32.add_sub_cancel _ _

/-- A closed transaction is no writer. -/
theorem Closes.writers {s s' : Coordinator} {t : ℕ} (hc : Closes s s' t) :
    s'.writers = s.writers.erase t := by
  ext u
  rw [mem_writers, hc.transactions, Finset.mem_erase, Finset.mem_erase, mem_writers, and_assoc]
  refine and_congr_right fun hu ↦ ?_
  rw [hc.readOnly u hu]

/-- Closing a transaction keeps the invariant. -/
theorem Closes.inv {s s' : Coordinator} {t : ℕ} (hc : Closes s s' t) (h : s.Inv)
    (ht : t ∈ s.transactions) : s'.Inv := by
  have hbases := bases_congr hc.size hc.previous
  have hnot : t ∉ s.storages := (mem_transactions.mp ht).2.2
  have hold : ∀ l, l <:+ s.storages.reverse → l <:+ s'.storages.reverse := by
    intro l hl
    rcases hc.storages with he | ⟨-, he⟩
    · exact he ▸ hl
    · rw [he, List.reverse_append]
      exact hl.trans (List.suffix_append _ _)
  constructor
  case storages_lt =>
    intro v hv
    rw [hc.size]
    rcases hc.storages with he | ⟨-, he⟩
    · exact h.storages_lt v (he ▸ hv)
    · rw [he, List.mem_append, List.mem_singleton] at hv
      rcases hv with hv | rfl
      · exact h.storages_lt v hv
      · exact (mem_transactions.mp ht).1
  case nodup =>
    rcases hc.storages with he | ⟨-, he⟩
    · exact he ▸ h.nodup
    · rw [he, ← List.concat_eq_append]
      exact h.nodup.concat hnot
  case nonempty =>
    rcases hc.storages with he | ⟨-, he⟩
    · exact he ▸ h.nonempty
    · simp [he]
  case linked =>
    have hlinked := h.linked.congr fun v _ ↦ hc.previous v
    rcases hc.storages with he | ⟨hw, he⟩
    · exact he ▸ hlinked
    · rw [he, List.reverse_append]
      refine ⟨?_, hlinked⟩
      rw [hc.previous, h.writer_based t hw, List.getLast?_eq_head?_reverse]
      rfl
  case injective =>
    intro u hu v hv he
    rw [hc.version, hc.version] at he
    exact h.injective u (hc.size ▸ hu) v (hc.size ▸ hv) he
  case based =>
    intro u hu
    rw [hc.transactions] at hu
    obtain ⟨l, hl, hne, hp⟩ := h.based u (Finset.mem_of_mem_erase hu)
    exact ⟨l, hold l hl, hne, (hc.previous u).trans hp⟩
  case writer_based =>
    intro u hu
    rw [hc.writers] at hu
    rw [hc.previous]
    rcases hc.storages with he | ⟨hw, he⟩
    · rw [he]
      exact h.writer_based u (Finset.mem_of_mem_erase hu)
    · have hu' := Finset.mem_erase.mp hu
      exact absurd (Finset.card_le_one.mp h.single u hu'.2 t hw) hu'.1
  case recycled => exact hc.recycled
  case recycler_nodup => exact hc.recycler_nodup
  case single =>
    rw [hc.writers]
    exact (Finset.card_le_card (Finset.erase_subset _ _)).trans h.single
  case readers =>
    intro v
    rw [hc.readers, hc.transactions]
    simp only [hbases]
    rw [Finset.filter_erase, Finset.card_erase_eq_ite, ← h.readers v]
    congr 1
    simp [ht]
  case active =>
    obtain ⟨n, hn⟩ := Nat.exists_eq_succ_of_ne_zero (Finset.card_ne_zero_of_mem ht)
    rw [hc.active, hc.transactions, Finset.card_erase_of_mem ht, h.active, hn]
    exact ofNat_succ_sub_one n
  case writing =>
    rw [hc.writing, hc.writers]
    split
    · next hro =>
      have hnot : t ∉ s.writers := by
        rw [mem_writers, hro]
        exact fun hw ↦ nomatch hw.2
      rw [Finset.erase_eq_of_notMem hnot, h.writing]
    · next hro =>
      have hw : t ∈ s.writers := mem_writers.mpr ⟨ht, Bool.eq_false_iff.mpr hro⟩
      obtain ⟨n, hn⟩ := Nat.exists_eq_succ_of_ne_zero (Finset.card_ne_zero_of_mem hw)
      rw [Finset.card_erase_of_mem hw, h.writing, hn]
      exact ofNat_succ_sub_one n

/-- The readers that are left when a transaction closes. -/
def readersWithout (s : Coordinator) (t v : ℕ) : ℕ :=
  if v ∈ s.bases t then (s.versions v).readers - 1 else (s.versions v).readers

/-- The versions when a transaction has closed. -/
def versionsWithout (s : Coordinator) (t v : ℕ) : VersionStorage :=
  { s.versions v with
    readOnly := if v = t then true else (s.versions v).readOnly
    readers := s.readersWithout t v }

/-- A closing transaction can be removed from its readers once it is read only. -/
theorem removeReaders_bases {s s' : Coordinator} (h : s.Inv) {t : ℕ} (ht : t ∈ s.transactions)
    (hsize : s'.size = s.size)
    (hversions : ∀ v, s'.versions v =
      { s.versions v with readOnly := if v = t then true else (s.versions v).readOnly }) :
    removeReaders (s'.bases t) s' = (.ok (), { s' with versions := s.versionsWithout t }) := by
  have hbases : s'.bases t = s.bases t := bases_congr hsize (fun v ↦ by rw [hversions]) t
  rw [hbases, removeReaders_eq _ _ (h.bases_nodup ht)]
  · rw [Prod.mk.injEq]
    refine ⟨rfl, ?_⟩
    apply Coordinator.ext
    case versions =>
      ext1 v
      simp only [withReaders, hversions]
      rfl
    all_goals rfl
  · intro v hv
    rw [hversions]
    exact h.readers_pos ht hv

/-- The state in which `discard` leaves an open transaction. -/
def discarded (s : Coordinator) (t : ℕ) : Coordinator :=
  { s with
    versions := s.versionsWithout t
    writingTransactions :=
      if (s.versions t).readOnly then s.writingTransactions else s.writingTransactions - 1
    activeTransactions := s.activeTransactions - 1
    recycler := if (s.versions t).readOnly then t :: s.recycler else s.recycler
    storageVersions := Function.update s.storageVersions (s.versions t).version none }

/-- An open transaction can be discarded. -/
theorem discard_eq {s : Coordinator} (h : s.Inv) {t : ℕ} (ht : t ∈ s.transactions) :
    s.discard t = (.ok (), s.discarded t) := by
  obtain ⟨hlt, hopen, hnot⟩ := mem_transactions.mp ht
  obtain ⟨hl, hne, hprevious⟩ := h.bases ht
  have hsome : (s.versions t).previous ≠ none := by
    rw [hprevious]
    exact fun hnone ↦ hne (List.head?_eq_none_iff.mp hnone)
  unfold discard
  dsimp only
  rw [if_neg hsome, storageVersions_setVersion]
  dsimp only
  rw [hopen]
  dsimp only
  rw [if_neg (not_not.mpr rfl)]
  rw [removeReaders_bases h ht]
  · rfl
  · rfl
  · intro v
    rw [versions_setVersion]
    by_cases hv : v = t
    · simp [hv]
    · simp [hv]

/-- The state in which `commit` leaves the coordinator before idle versions are merged. -/
def committed (s : Coordinator) (t : ℕ) : Coordinator :=
  { s with
    versions := s.versionsWithout t
    activeTransactions := s.activeTransactions - 1
    writingTransactions := s.writingTransactions - 1
    lastAddress := max s.lastAddress (s.versions t).next
    storages := s.storages ++ [t]
    lastCommittedVersion := (s.versions t).version
    order := s.order + 1 }

/-- A check on the transaction or an answer of the peers stops `commit`. -/
def CommitRefused (s : Coordinator) (t : ℕ) (peers : Peers) : Prop :=
  (s.versions t).readOnly = true ∨ (s.versions t).version ≤ s.lastCommittedVersion ∨
    s.activeTransactions = 0 ∨ 0 < (s.versions t).changes ∧ (s.versions t).order < s.order ∨
    peers.control = true ∧ (peers.writeReplicants = false ∨ peers.commitReplicants = true)

/-- A check on the transaction or an answer of the peers stops `merge`. -/
def MergeRefused (s : Coordinator) (t : ℕ) (peers : Peers) : Prop :=
  (s.versions t).readOnly = true ∨ s.writingTransaction ≠ some t ∨
    (s.versions t).version ≤ s.lastCommittedVersion ∨ s.activeTransactions = 0 ∨
    0 < (s.versions t).changes ∧ (s.versions t).order < s.order ∨
    peers.control = true ∧ (peers.writeReplicants = false ∨ peers.commitReplicants = false) ∨
    peers.notifyChange = false

/-- A refused call changes the marks of the last calls only, or discards the transaction. The
last address may be counted up for a writing transaction. -/
inductive RefusedAs (s : Coordinator) (t : ℕ) : Coordinator → Prop
  | same (lastCommittedVersion lastAddress : ℕ)
      (haddress : lastAddress = s.lastAddress ∨
        t ∈ s.writers ∧ lastAddress = max s.lastAddress (s.versions t).next) : RefusedAs s t
      { s with lastCommittedVersion := lastCommittedVersion, lastAddress := lastAddress }
  | discarded : RefusedAs s t (s.discarded t)

private theorem discardThenThrow_eq {s : Coordinator} (h : s.Inv) {t : ℕ} (ht : t ∈ s.transactions)
    (e : Thrown) : s.discardThenThrow t e = (.error e, s.discarded t) := by
  rw [discardThenThrow, discard_eq h ht]

/-- On an open transaction `commit` is refused or the version joins the committed ones. -/
theorem commitVersion_cases {s : Coordinator} (h : s.Inv) {t : ℕ} (ht : t ∈ s.transactions)
    (peers : Peers) :
    s.CommitRefused t peers ∧ (∃ e s', s.commitVersion t peers = (.error e, s') ∧
        s.RefusedAs t s' ∧ e ≠ .invalidReaderCount) ∨
      ¬s.CommitRefused t peers ∧ s.commitVersion t peers = (.ok (), s.committed t) := by
  obtain ⟨hlt, hopen, hnot⟩ := mem_transactions.mp ht
  unfold commitVersion
  dsimp only
  by_cases hro : (s.versions t).readOnly = true
  · exact .inl ⟨.inl hro, _, _, if_pos hro, .same _ _ (.inl rfl), nofun⟩
  rw [if_neg hro]
  by_cases hversion : (s.versions t).version ≤ s.lastCommittedVersion
  · exact .inl ⟨.inr (.inl hversion), _, _, if_pos hversion, .same _ _ (.inl rfl), nofun⟩
  rw [if_neg hversion]
  by_cases hactive : s.activeTransactions = 0
  · exact .inl ⟨.inr (.inr (.inl hactive)), _, _,
      (if_pos hactive).trans (discardThenThrow_eq h ht _), .discarded, nofun⟩
  rw [if_neg hactive]
  by_cases horder : 0 < (s.versions t).changes ∧ (s.versions t).order < s.order
  · exact .inl ⟨.inr (.inr (.inr (.inl horder))), _, _,
      (if_pos horder).trans (discardThenThrow_eq h ht _), .discarded, nofun⟩
  rw [if_neg horder, hopen]
  dsimp only
  by_cases hwrite : peers.control = true ∧ peers.writeReplicants = false
  · exact .inl ⟨.inr (.inr (.inr (.inr ⟨hwrite.1, .inl hwrite.2⟩))), _, _, if_pos hwrite,
      .same _ _ (.inl rfl), nofun⟩
  rw [if_neg hwrite]
  by_cases hcommit : peers.control = true ∧ peers.commitReplicants = true
  · exact .inl ⟨.inr (.inr (.inr (.inr ⟨hcommit.1, .inr hcommit.2⟩))), _, _, if_pos hcommit,
      .same _ _ (.inl rfl), nofun⟩
  rw [if_neg hcommit]
  refine .inr ⟨?_, ?_⟩
  · rintro (hn | hn | hn | hn | ⟨hcontrol, hn | hn⟩)
    · exact hro hn
    · exact hversion hn
    · exact hactive hn
    · exact horder hn
    · exact hwrite ⟨hcontrol, hn⟩
    · exact hcommit ⟨hcontrol, hn⟩
  · have hw : t ∈ s.writers := mem_writers.mpr ⟨ht, Bool.eq_false_iff.mpr hro⟩
    have hprevious : (s.versions t).previous = s.storages.getLast? := h.writer_based t hw
    obtain ⟨last, hlast⟩ := h.exists_last
    rw [versions_setVersion, if_pos rfl]
    dsimp only
    rw [hprevious, hlast]
    dsimp only
    rw [storages_setVersion, if_neg (not_not.mpr hlast), removeReaders_bases h ht]
    · rfl
    · rfl
    · intro v
      rw [versions_setVersion]
      by_cases hv : v = t
      · simp [hv, hprevious, hlast]
      · simp [hv]

/-- The state in which `merge` leaves the coordinator before the blocks are moved. -/
def mergeStart (s : Coordinator) (t : ℕ) : Coordinator :=
  { s with
    lastAddress := max s.lastAddress (s.versions t).next
    lastCommittedVersion := (s.versions t).version }

private theorem sameShape_mergeStart (s : Coordinator) (t : ℕ) : SameShape s (s.mergeStart t) :=
  ⟨rfl, rfl, rfl, rfl, rfl, rfl, rfl⟩

/-- Moving the blocks of an open transaction to the newest version leaves what is counted. -/
theorem sameShape_merging {s : Coordinator} {t last : ℕ} (ht : t ∈ s.transactions)
    (hlast : s.storages.getLast? = some last) : SameShape s ((s.mergeStart t).move t last).2 :=
  (sameShape_mergeStart s t).trans (sameShape_move (s.mergeStart t) (ne_newest ht hlast))

/-- After a merge the order is counted up, and the map has the transaction under its new
version. -/
theorem renumber_eq (s : Coordinator) (t created : ℕ) :
    s.renumber t t created =
      { s with
        order := s.order + 1
        versions := Function.update s.versions t
          { s.versions t with order := s.order + 1, version := created }
        storageVersions := Function.update
          (Function.update s.storageVersions (s.versions t).version none) created (some t) } := by
  simp [renumber, setVersion]

/-- No transaction is active, or another one was merged since this one began. -/
def Stale (s : Coordinator) (t : ℕ) : Prop :=
  s.activeTransactions = 0 ∨ 0 < (s.versions t).changes ∧ (s.versions t).order < s.order

/-- On an open transaction `merge` is refused, or moves its blocks to the newest version. It is not
discarded where it is not stale. -/
theorem merge_cases {s : Coordinator} (h : s.Inv) {t : ℕ} (ht : t ∈ s.transactions)
    (peers : Peers) (created : ℕ) :
    s.MergeRefused t peers ∧ (∃ e s', s.merge t peers created = (.error e, s') ∧
        s.RefusedAs t s' ∧ e ≠ .invalidReaderCount ∧
        (s.Stale t ∨ SameShape s s' ∧ s'.versions = s.versions ∧ s'.order = s.order ∧
          s'.traversals = s.traversals)) ∨
      ¬s.MergeRefused t peers ∧ t ∈ s.writers ∧ ∃ last, s.storages.getLast? = some last ∧
        s.merge t peers created = match (s.mergeStart t).move t last with
          | (.error e, s) => (.error e, s)
          | (.ok _, s) => (.ok (), s.renumber t t created) := by
  obtain ⟨hlt, hopen, hnot⟩ := mem_transactions.mp ht
  have hkept (version address : ℕ) :
      SameShape s { s with lastCommittedVersion := version, lastAddress := address } :=
    ⟨rfl, rfl, rfl, rfl, rfl, rfl, rfl⟩
  unfold merge
  dsimp only
  by_cases hro : (s.versions t).readOnly = true
  · exact .inl ⟨.inl hro, _, _, if_pos hro, .same _ _ (.inl rfl), nofun,
      .inr ⟨hkept _ _, rfl, rfl, rfl⟩⟩
  rw [if_neg hro]
  by_cases hwriting : s.writingTransaction ≠ some t
  · exact .inl ⟨.inr (.inl hwriting), _, _, if_pos hwriting, .same _ _ (.inl rfl), nofun,
      .inr ⟨hkept _ _, rfl, rfl, rfl⟩⟩
  rw [if_neg hwriting]
  by_cases hversion : (s.versions t).version ≤ s.lastCommittedVersion
  · exact .inl ⟨.inr (.inr (.inl hversion)), _, _, if_pos hversion, .same _ _ (.inl rfl), nofun,
      .inr ⟨hkept _ _, rfl, rfl, rfl⟩⟩
  rw [if_neg hversion, hopen]
  dsimp only
  by_cases hwrite : peers.control = true ∧ peers.writeReplicants = false
  · exact .inl ⟨.inr (.inr (.inr (.inr (.inr (.inl ⟨hwrite.1, .inl hwrite.2⟩))))), _, _,
      if_pos hwrite, .same _ _ (.inl rfl), nofun,
      .inr ⟨hkept _ _, rfl, rfl, rfl⟩⟩
  rw [if_neg hwrite]
  by_cases hcommit : peers.control = true ∧ peers.commitReplicants = false
  · exact .inl ⟨.inr (.inr (.inr (.inr (.inr (.inl ⟨hcommit.1, .inr hcommit.2⟩))))), _, _,
      if_pos hcommit, .same _ _ (.inl rfl), nofun,
      .inr ⟨hkept _ _, rfl, rfl, rfl⟩⟩
  rw [if_neg hcommit]
  by_cases hactive : s.activeTransactions = 0
  · exact .inl ⟨.inr (.inr (.inr (.inl hactive))), _, _,
      (if_pos hactive).trans (discardThenThrow_eq h ht _), .discarded, nofun, .inl (.inl hactive)⟩
  rw [if_neg hactive]
  by_cases horder : 0 < (s.versions t).changes ∧ (s.versions t).order < s.order
  · exact .inl ⟨.inr (.inr (.inr (.inr (.inl horder)))), _, _,
      (if_pos horder).trans (discardThenThrow_eq h ht _), .discarded, nofun, .inl (.inr horder)⟩
  rw [if_neg horder]
  have hw : t ∈ s.writers := mem_writers.mpr ⟨ht, Bool.eq_false_iff.mpr hro⟩
  obtain ⟨last, hlast⟩ := h.exists_last
  rw [h.writer_based t hw, hlast]
  dsimp only
  rw [if_neg (not_not.mpr rfl)]
  by_cases hnotify : peers.notifyChange = false
  · exact .inl ⟨.inr (.inr (.inr (.inr (.inr (.inr hnotify))))), _, _, if_pos hnotify,
      .same _ _ (.inr ⟨hw, rfl⟩), nofun, .inr ⟨hkept _ _, rfl, rfl, rfl⟩⟩
  rw [if_neg hnotify]
  refine .inr ⟨?_, hw, last, rfl, ?_⟩
  · rintro (hn | hn | hn | hn | hn | ⟨hcontrol, hn | hn⟩ | hn)
    · exact hro hn
    · exact hwriting hn
    · exact hversion hn
    · exact hactive hn
    · exact horder hn
    · exact hwrite ⟨hcontrol, hn⟩
    · exact hcommit ⟨hcontrol, hn⟩
    · exact hnotify hn
  · rfl

/-- An open transaction is not in the recycler. -/
theorem Inv.notMem_recycler {s : Coordinator} (h : s.Inv) {t : ℕ} (ht : t ∈ s.transactions) :
    t ∉ s.recycler := fun hin ↦ (h.recycled t hin).2.2 (mem_transactions.mp ht).2.1

/-- Discarding a transaction closes it. -/
theorem closes_discarded {s : Coordinator} (h : s.Inv) {t : ℕ} (ht : t ∈ s.transactions) :
    Closes s (s.discarded t) t := by
  obtain ⟨hlt, hopen, hnot⟩ := mem_transactions.mp ht
  constructor
  case transactions =>
    ext u
    rw [Finset.mem_erase, mem_transactions, mem_transactions]
    change u < s.size ∧ Function.update s.storageVersions (s.versions t).version none
      (s.versions u).version = some u ∧ u ∉ s.storages ↔ _
    by_cases hu : u = t
    · simp [hu]
    · refine Iff.trans (and_congr_right fun hltu ↦ ?_) (and_iff_right hu).symm
      have hne : (s.versions u).version ≠ (s.versions t).version :=
        fun he ↦ hu (h.injective u hltu t hlt he)
      rw [Function.update_of_ne hne]
  case readOnly =>
    intro v hv
    exact if_neg hv
  case storages => exact .inl rfl
  case recycled =>
    intro v hv
    have hv' : v = t ∨ v ∈ s.recycler := by
      simp only [discarded] at hv
      split at hv
      · exact List.mem_cons.mp hv
      · exact .inr hv
    change v < s.size ∧ v ∉ s.storages ∧ Function.update s.storageVersions
      (s.versions t).version none (s.versions v).version ≠ some v
    rcases hv' with rfl | hv'
    · refine ⟨hlt, hnot, ?_⟩
      rw [Function.update_self]
      exact nofun
    · obtain ⟨hltv, hnotv, hclosed⟩ := h.recycled v hv'
      refine ⟨hltv, hnotv, ?_⟩
      rw [Function.update_apply]
      split
      · exact nofun
      · exact hclosed
  case recycler_nodup =>
    simp only [discarded]
    split
    · exact List.nodup_cons.mpr ⟨h.notMem_recycler ht, h.recycler_nodup⟩
    · exact h.recycler_nodup
  all_goals first | rfl | exact fun _ ↦ rfl

/-- Committing a writer closes it. -/
theorem closes_committed {s : Coordinator} (h : s.Inv) {t : ℕ} (ht : t ∈ s.writers) :
    Closes s (s.committed t) t := by
  have hopen := (mem_writers.mp ht).1
  constructor
  case transactions =>
    ext u
    rw [Finset.mem_erase, mem_transactions, mem_transactions]
    change u < s.size ∧ s.storageVersions (s.versions u).version = some u ∧
      u ∉ s.storages ++ [t] ↔ _
    rw [List.mem_append, List.mem_singleton, not_or]
    tauto
  case readOnly =>
    intro v hv
    exact if_neg hv
  case writing =>
    rw [(mem_writers.mp ht).2]
    rfl
  case storages => exact .inr ⟨ht, rfl⟩
  case recycled =>
    intro v hv
    obtain ⟨hltv, hnotv, hclosed⟩ := h.recycled v hv
    refine ⟨hltv, fun hin ↦ ?_, hclosed⟩
    rcases List.mem_append.mp hin with hin | hin
    · exact hnotv hin
    · exact h.notMem_recycler hopen (List.mem_singleton.mp hin ▸ hv)
  case recycler_nodup => exact h.recycler_nodup
  all_goals first | rfl | exact fun _ ↦ rfl

/-- A refused call keeps the invariant. -/
theorem RefusedAs.inv {s s' : Coordinator} {t : ℕ} (hr : s.RefusedAs t s') (h : s.Inv)
    (ht : t ∈ s.transactions) : s'.Inv := by
  cases hr with
  | same last address _ =>
    have hshape : SameShape s { s with lastCommittedVersion := last, lastAddress := address } :=
      ⟨rfl, rfl, rfl, rfl, rfl, rfl, rfl⟩
    exact hshape.inv h
  | discarded => exact (closes_discarded h ht).inv h ht

/-- Only the renumbered version changes. -/
theorem versions_renumber (s : Coordinator) (t created v : ℕ) :
    (s.renumber t t created).versions v =
      if v = t then { s.versions t with order := s.order + 1, version := created }
      else s.versions v := by
  rw [renumber_eq]
  exact Function.update_apply ..

/-- What does not depend on the version and its order stays. -/
theorem renumber_field {α : Type*} (s : Coordinator) (t created : ℕ) (f : VersionStorage → α)
    (hf : ∀ x order version, f { x with order := order, version := version } = f x) (v : ℕ) :
    f ((s.renumber t t created).versions v) = f (s.versions v) := by
  rw [versions_renumber]
  split
  · next hv => rw [hv, hf]
  · rfl

/-- It is based on the same versions. -/
theorem bases_renumber (s : Coordinator) (t created u : ℕ) :
    (s.renumber t t created).bases u = s.bases u :=
  have hsize : (s.renumber t t created).size = s.size := rfl
  bases_congr hsize (renumber_field s t created VersionStorage.previous fun _ _ _ ↦ rfl) u

/-- It may be written as before. -/
theorem readOnly_renumber (s : Coordinator) (t created v : ℕ) :
    ((s.renumber t t created).versions v).readOnly = (s.versions v).readOnly :=
  renumber_field s t created VersionStorage.readOnly (fun _ _ _ ↦ rfl) v

/-- It has the same blocks. -/
theorem blocks_renumber (s : Coordinator) (t created v : ℕ) :
    ((s.renumber t t created).versions v).blocks = (s.versions v).blocks :=
  renumber_field s t created (fun x ↦ x.blocks) (fun _ _ _ ↦ rfl) v

/-- The map has other versions where they were. -/
theorem storageVersions_renumber {s : Coordinator} (h : s.Inv) {t : ℕ} (ht : t ∈ s.transactions)
    {created : ℕ} (hfresh : s.IsFresh created) {v : ℕ} (hv : v < s.size) (hne : v ≠ t) :
    (s.renumber t t created).storageVersions ((s.renumber t t created).versions v).version =
      s.storageVersions (s.versions v).version := by
  have hlt := (mem_transactions.mp ht).1
  rw [versions_renumber, if_neg hne, renumber_eq]
  dsimp only
  rw [Function.update_of_ne (hfresh v hv),
    Function.update_of_ne fun he ↦ hne (h.injective v hv t hlt he)]

/-- The transactions are the same. -/
theorem transactions_renumber {s : Coordinator} (h : s.Inv) {t : ℕ} (ht : t ∈ s.transactions)
    {created : ℕ} (hfresh : s.IsFresh created) :
    (s.renumber t t created).transactions = s.transactions := by
  ext u
  rw [mem_transactions, mem_transactions]
  refine and_congr_right fun hu ↦ ?_
  by_cases hut : u = t
  · have hself : (s.renumber t t created).storageVersions
        ((s.renumber t t created).versions t).version = some t := by
      rw [versions_renumber, if_pos rfl, renumber_eq]
      exact Function.update_self ..
    rw [hut, hself, (mem_transactions.mp ht).2.1]
    rfl
  · rw [storageVersions_renumber h ht hfresh hu hut]
    rfl

/-- A transaction gets another version. -/
theorem inv_renumber {s : Coordinator} (h : s.Inv) {t : ℕ} (ht : t ∈ s.transactions)
    {created : ℕ} (hfresh : s.IsFresh created) : (s.renumber t t created).Inv := by
  have htransactions := transactions_renumber h ht hfresh
  have hprevious := renumber_field s t created VersionStorage.previous fun _ _ _ ↦ rfl
  have hwriters : (s.renumber t t created).writers = s.writers := by
    ext u
    rw [mem_writers, mem_writers, htransactions, readOnly_renumber]
  constructor
  case storages_lt => exact h.storages_lt
  case nodup => exact h.nodup
  case nonempty => exact h.nonempty
  case linked => exact h.linked.congr fun v _ ↦ hprevious v
  case injective =>
    intro u hu v hv he
    rw [versions_renumber, versions_renumber] at he
    split at he
    · next hut =>
      split at he
      · next hvt => rw [hut, hvt]
      · exact absurd he.symm (hfresh v hv)
    · split at he
      · exact absurd he (hfresh u hu)
      · exact h.injective u hu v hv he
  case based =>
    intro u hu
    rw [hprevious]
    exact h.based u (htransactions ▸ hu)
  case writer_based =>
    intro u hu
    rw [hprevious]
    exact h.writer_based u (hwriters ▸ hu)
  case recycled =>
    intro v hv
    obtain ⟨hltv, hnotv, hclosed⟩ := h.recycled v hv
    refine ⟨hltv, hnotv, ?_⟩
    rw [storageVersions_renumber h ht hfresh hltv fun he ↦ h.notMem_recycler ht (he ▸ hv)]
    exact hclosed
  case recycler_nodup => exact h.recycler_nodup
  case single => exact hwriters ▸ h.single
  case readers =>
    intro v
    rw [renumber_field s t created VersionStorage.readers fun _ _ _ ↦ rfl, htransactions]
    simp only [bases_renumber]
    exact h.readers v
  case active =>
    rw [htransactions]
    exact h.active
  case writing =>
    rw [hwriters]
    exact h.writing

/-- A transaction opens on top of the committed versions, each of which gets a reader. -/
structure Opens (s s' : Coordinator) (b : ℕ) (writer : Bool) : Prop where
  size : s.size ≤ s'.size
  lt : ∀ v, v < s'.size ↔ v < s.size ∨ v = b
  closed : b ∉ s.transactions
  notMem : b ∉ s.storages
  version : ∀ v, v ≠ b → (s'.versions v).version = (s.versions v).version
  fresh : ∀ v, v ≠ b → v < s.size → (s.versions v).version ≠ (s'.versions b).version
  previous : ∀ v, v ≠ b → (s'.versions v).previous = (s.versions v).previous
  previous_self : (s'.versions b).previous = s.storages.getLast?
  readOnly : ∀ v, v ≠ b → (s'.versions v).readOnly = (s.versions v).readOnly
  readOnly_self : (s'.versions b).readOnly = !writer
  readers : ∀ v, (s'.versions v).readers =
    if v ∈ s.storages then (s.versions v).readers + 1 else (s.versions v).readers
  storages : s'.storages = s.storages
  storageVersions : s'.storageVersions =
    Function.update s.storageVersions (s'.versions b).version (some b)
  recycler : s'.recycler.Sublist s.recycler ∧ b ∉ s'.recycler
  active : s'.activeTransactions = s.activeTransactions + 1
  writing : s'.writingTransactions =
    if writer = true then s.writingTransactions + 1 else s.writingTransactions
  single : writer = true → s.writingTransactions = 0

namespace Opens

variable {s s' : Coordinator} {b : ℕ} {writer : Bool}

/-- An opened version is one more transaction. -/
theorem transactions (ho : Opens s s' b writer) : s'.transactions = insert b s.transactions := by
  ext u
  rw [Finset.mem_insert, mem_transactions, mem_transactions, ho.lt, ho.storageVersions,
    ho.storages]
  by_cases hu : u = b
  · simp [hu, ho.notMem]
  · simp only [hu, or_false, false_or]
    refine and_congr_right fun hlt ↦ ?_
    rw [ho.version u hu, Function.update_of_ne (ho.fresh u hu hlt)]

private theorem linked (ho : Opens s s' b writer) (h : s.Inv) : s'.Linked s'.storages.reverse := by
  rw [ho.storages]
  apply h.linked.congr
  intro v hv
  exact ho.previous v fun he ↦ ho.notMem (he ▸ List.mem_reverse.mp hv)

private theorem length_le (ho : Opens s s' b writer) (h : s.Inv) :
    s'.storages.reverse.length ≤ s'.size := by
  rw [List.length_reverse, ho.storages]
  exact (length_le_of_lt h.nodup h.storages_lt).trans ho.size

/-- The open transactions stay based on what they are based on. -/
theorem bases (ho : Opens s s' b writer) (h : s.Inv) {t : ℕ} (ht : t ∈ s.transactions) :
    s'.bases t = s.bases t := by
  obtain ⟨hl, -, hp⟩ := h.bases ht
  rw [← ho.storages] at hl
  have hne : t ≠ b := fun he ↦ ho.closed (he ▸ ht)
  rw [Coordinator.bases, ho.previous t hne, hp]
  apply ((ho.linked h).of_suffix hl).chain
  exact hl.length_le.trans (ho.length_le h)

/-- The new transaction is based on all committed versions. -/
theorem bases_self (ho : Opens s s' b writer) (h : s.Inv) : s'.bases b = s.storages.reverse := by
  rw [Coordinator.bases, ho.previous_self, List.getLast?_eq_head?_reverse, ← ho.storages]
  exact (ho.linked h).chain (ho.length_le h)

/-- A writing transaction opens where there is none. -/
theorem writers_eq_empty (ho : Opens s s' b writer) (h : s.Inv) (hw : writer = true) :
    s.writers = ∅ := by
  have hzero : UInt32.ofNat s.writers.card = 0 := h.writing ▸ ho.single hw
  rcases Nat.le_one_iff_eq_zero_or_eq_one.mp h.single with hcard | hcard
  · exact Finset.card_eq_zero.mp hcard
  · rw [hcard] at hzero
    cases hzero

/-- It is the only writer if it writes. -/
theorem writers (ho : Opens s s' b writer) (h : s.Inv) :
    s'.writers = if writer = true then {b} else s.writers := by
  ext u
  rw [mem_writers, ho.transactions, Finset.mem_insert]
  by_cases hu : u = b
  · rw [hu, ho.readOnly_self]
    cases hw : writer with
    | true => simp
    | false => simp [mem_writers, ho.closed]
  · rw [ho.readOnly u hu]
    cases hw : writer with
    | true =>
      have hnone : u ∉ s.writers := by simp [ho.writers_eq_empty h hw]
      simpa [hu, mem_writers] using hnone
    | false => simp [hu, mem_writers]

/-- Opening a transaction keeps the invariant. -/
theorem inv (ho : Opens s s' b writer) (h : s.Inv) : s'.Inv := by
  have hmem : ∀ t ∈ s'.transactions, t = b ∨ t ∈ s.transactions := by
    intro t ht
    exact Finset.mem_insert.mp (ho.transactions ▸ ht)
  constructor
  case storages_lt =>
    intro v hv
    exact (ho.lt v).mpr (.inl (h.storages_lt v (ho.storages ▸ hv)))
  case nodup => exact ho.storages ▸ h.nodup
  case nonempty => exact ho.storages ▸ h.nonempty
  case linked => exact ho.linked h
  case injective =>
    intro u hu v hv he
    by_cases hub : u = b
    · by_cases hvb : v = b
      · rw [hub, hvb]
      · rw [hub, ho.version v hvb] at he
        exact absurd he.symm (ho.fresh v hvb (((ho.lt v).mp hv).resolve_right hvb))
    · by_cases hvb : v = b
      · rw [hvb, ho.version u hub] at he
        exact absurd he (ho.fresh u hub (((ho.lt u).mp hu).resolve_right hub))
      · rw [ho.version u hub, ho.version v hvb] at he
        exact h.injective u (((ho.lt u).mp hu).resolve_right hub) v
          (((ho.lt v).mp hv).resolve_right hvb) he
  case based =>
    intro t ht
    rw [ho.storages]
    rcases hmem t ht with rfl | hold
    · refine ⟨s.storages.reverse, List.suffix_refl _, ?_, ?_⟩
      · exact fun hnil ↦ h.nonempty (List.reverse_eq_nil_iff.mp hnil)
      · rw [ho.previous_self, List.getLast?_eq_head?_reverse]
    · rw [ho.previous t fun he ↦ ho.closed (he ▸ hold)]
      exact h.based t hold
  case writer_based =>
    intro t ht
    rw [ho.writers h] at ht
    rw [ho.storages]
    split at ht
    · rw [Finset.mem_singleton.mp ht, ho.previous_self]
    · rw [ho.previous t fun he ↦ ho.closed (he ▸ (mem_writers.mp ht).1)]
      exact h.writer_based t ht
  case recycled =>
    intro v hv
    have hvb : v ≠ b := fun he ↦ ho.recycler.2 (he ▸ hv)
    obtain ⟨hlt, hnot, hclosed⟩ := h.recycled v (ho.recycler.1.subset hv)
    refine ⟨(ho.lt v).mpr (.inl hlt), ho.storages ▸ hnot, ?_⟩
    rw [ho.storageVersions, ho.version v hvb, Function.update_of_ne (ho.fresh v hvb hlt)]
    exact hclosed
  case recycler_nodup => exact h.recycler_nodup.sublist ho.recycler.1
  case single =>
    rw [ho.writers h]
    split
    · exact (Finset.card_singleton b).le
    · exact h.single
  case readers =>
    intro v
    rw [ho.readers, ho.transactions, Finset.filter_insert, ho.bases_self h]
    have hcongr : (s.transactions.filter fun t ↦ v ∈ s'.bases t) =
        s.transactions.filter fun t ↦ v ∈ s.bases t :=
      Finset.filter_congr fun t ht ↦ by rw [ho.bases h ht]
    rw [hcongr]
    by_cases hv : v ∈ s.storages
    · have hnot : b ∉ s.transactions.filter fun t ↦ v ∈ s.bases t :=
        fun hin ↦ ho.closed (Finset.mem_filter.mp hin).1
      rw [if_pos hv, if_pos (List.mem_reverse.mpr hv), Finset.card_insert_of_notMem hnot,
        h.readers v]
    · rw [if_neg hv, if_neg (List.mem_reverse.not.mpr hv), h.readers v]
  case active =>
    rw [ho.active, ho.transactions, Finset.card_insert_of_notMem ho.closed, UInt32.ofNat_add,
      h.active]
    rfl
  case writing =>
    rw [ho.writing, ho.writers h]
    split
    · next hw =>
      rw [ho.single hw, Finset.card_singleton]
      rfl
    · exact h.writing

end Opens

/-- What the end of `begin` makes of the state. -/
theorem openVersion_eq {s : Coordinator} (hnodup : s.storages.Nodup) {b last : ℕ}
    (hlast : s.storages.getLast? = some last) (writer : Bool) :
    s.openVersion b writer = (.ok b, { s with
      versions := fun v ↦ { s.versions v with
        readOnly := if v = b then !writer else (s.versions v).readOnly
        previous := if v = b then some last else (s.versions v).previous
        readers := if v ∈ s.storages then (s.versions v).readers + 1 else (s.versions v).readers }
      storageVersions := Function.update s.storageVersions (s.versions b).version (some b)
      activeTransactions := s.activeTransactions + 1
      writingTransactions :=
        if writer = true then s.writingTransactions + 1 else s.writingTransactions
      writingTransaction := if writer = true then some b else s.writingTransaction }) := by
  simp only [openVersion, storages_setVersion, hlast, foldl_addReader _ _ hnodup, Prod.mk.injEq,
    true_and]
  apply Coordinator.ext
  case versions =>
    ext1 v
    by_cases hv : v = b
    · cases writer <;> simp [withReaders, setVersion, hv]
    · cases writer <;> simp [withReaders, setVersion, hv]
  case storageVersions => cases writer <;> simp [withReaders, setVersion]
  all_goals cases writer <;> rfl

/-- The version object that `begin` takes is closed, and newer than nothing. -/
theorem takeVersion_cases (s : Coordinator) (writer : Bool) (version : ℕ) :
    s.takeVersion writer version = (s.size, s.newVersion version) ∨
      writer = false ∧ ∃ b rest, s.recycler = b :: rest ∧
        s.takeVersion writer version = (b, { s with recycler := rest }) := by
  unfold takeVersion
  split
  · exact .inl rfl
  · exact .inl rfl
  · next b rest hrecycler => exact .inr ⟨rfl, b, rest, hrecycler, rfl⟩

private theorem newVersion_of_ne (s : Coordinator) (version : ℕ) {v : ℕ} (hv : v ≠ s.size) :
    (s.newVersion version).versions v = s.versions v := Function.update_of_ne hv ..

private theorem newVersion_self (s : Coordinator) (version : ℕ) :
    (s.newVersion version).versions s.size =
      ⟨⟨version, max s.lastAddress 32, 0, ∅⟩, s.order, 0, false, false, none⟩ :=
  Function.update_self ..

/-- A version object of its own opens as a transaction. -/
theorem opens_newVersion {s : Coordinator} (h : s.Inv) {writer : Bool} {version last : ℕ}
    (hfresh : s.IsFresh version) (hlast : s.storages.getLast? = some last)
    (hsingle : writer = true → s.writingTransactions = 0) :
    Opens s ((s.newVersion version).openVersion s.size writer).2 s.size writer := by
  have hnot : s.size ∉ s.storages := fun hin ↦ Nat.lt_irrefl _ (h.storages_lt _ hin)
  rw [openVersion_eq (s := s.newVersion version) h.nodup hlast]
  constructor
  case size => exact Nat.le_succ _
  case lt => exact fun v ↦ Nat.lt_succ_iff_lt_or_eq
  case closed => exact fun hin ↦ Nat.lt_irrefl _ (mem_transactions.mp hin).1
  case notMem => exact hnot
  case fresh =>
    intro v _ hv
    dsimp only
    rw [newVersion_self]
    exact hfresh v hv
  case previous_self => exact (if_pos rfl).trans hlast.symm
  case readOnly_self => exact if_pos rfl
  case readers =>
    intro v
    by_cases hv : v = s.size
    · have hzero : (s.versions s.size).readers = 0 := by
        rw [h.readers, Finset.card_eq_zero, Finset.filter_eq_empty_iff]
        exact fun t ht hin ↦ hnot (mem_storages_of_mem_bases h ht hin)
      dsimp only
      rw [hv, newVersion_self, if_neg hnot, hzero]
      exact if_neg hnot
    · dsimp only
      rw [newVersion_of_ne s version hv]
      rfl
  case storages | storageVersions | active | writing => rfl
  case recycler =>
    refine ⟨.refl _, fun hin ↦ ?_⟩
    exact Nat.lt_irrefl _ (h.recycled _ hin).1
  case single => exact hsingle
  case version =>
    intro v hv
    dsimp only
    rw [newVersion_of_ne s version hv]
  case previous =>
    intro v hv
    dsimp only
    rw [newVersion_of_ne s version hv]
    exact if_neg hv
  case readOnly =>
    intro v hv
    dsimp only
    rw [newVersion_of_ne s version hv]
    exact if_neg hv

/-- A version object from the recycler opens as a transaction. -/
theorem opens_recycled {s : Coordinator} (h : s.Inv) {writer : Bool} {b last : ℕ} {rest : List ℕ}
    (hrecycler : s.recycler = b :: rest) (hlast : s.storages.getLast? = some last)
    (hsingle : writer = true → s.writingTransactions = 0) :
    Opens s ((Coordinator.openVersion { s with recycler := rest } b writer).2) b writer := by
  obtain ⟨hlt, hnot, hclosed⟩ := h.recycled b (hrecycler ▸ List.mem_cons_self)
  rw [openVersion_eq (s := { s with recycler := rest }) h.nodup hlast]
  constructor
  case size => exact Nat.le_refl _
  case lt => exact fun v ↦ ⟨.inl, fun hv ↦ hv.elim id fun he ↦ he ▸ hlt⟩
  case closed => exact fun hin ↦ hclosed (mem_transactions.mp hin).2.1
  case notMem => exact hnot
  case fresh => exact fun v hv hltv he ↦ hv (h.injective v hltv b hlt he)
  case previous_self => exact (if_pos rfl).trans hlast.symm
  case readOnly_self => exact if_pos rfl
  case previous => exact fun v hv ↦ if_neg hv
  case readOnly => exact fun v hv ↦ if_neg hv
  case recycler =>
    have hnodup := List.nodup_cons.mp (hrecycler ▸ h.recycler_nodup)
    exact ⟨hrecycler ▸ List.sublist_cons_self b rest, hnodup.1⟩
  case single => exact hsingle
  all_goals first | rfl | exact fun _ ↦ rfl | exact fun _ _ ↦ rfl

/-- `begin` throws and leaves the coordinator as it is, or opens a transaction. -/
theorem begin_cases {s : Coordinator} (h : s.Inv) (writer : Bool) {version : ℕ}
    (hfresh : s.IsFresh version) (replicated : Bool) :
    (∃ e, s.begin writer version replicated = (.error e, s)) ∨
      ∃ b, (s.begin writer version replicated).1 = .ok b ∧
        Opens s (s.begin writer version replicated).2 b writer ∧
        (∀ v, v ≠ b → ((s.begin writer version replicated).2.versions v).toAllocator =
          (s.versions v).toAllocator) ∧
        (s.begin writer version replicated).2.lastAddress = s.lastAddress ∧
        (b = s.size ∧ ((s.begin writer version replicated).2.versions b).toAllocator =
            ⟨version, max s.lastAddress 32, 0, ∅⟩ ∨
          writer = false ∧ b ∈ s.recycler ∧
            ((s.begin writer version replicated).2.versions b).toAllocator =
              (s.versions b).toAllocator) := by
  unfold begin
  by_cases hreplicated : replicated = false
  · exact .inl ⟨_, if_pos hreplicated⟩
  rw [if_neg hreplicated]
  by_cases hwriting : writer = true ∧ s.writingTransactions ≠ 0
  · exact .inl ⟨_, if_pos hwriting⟩
  rw [if_neg hwriting]
  have hsingle : writer = true → s.writingTransactions = 0 :=
    fun hw ↦ not_not.mp fun hne ↦ hwriting ⟨hw, hne⟩
  obtain ⟨last, hlast⟩ := h.exists_last
  right
  rcases takeVersion_cases s writer version with htake | ⟨hreader, b, rest, hrecycler, htake⟩
  · have hopens := opens_newVersion h hfresh hlast hsingle
    rw [htake]
    rw [openVersion_eq (s := s.newVersion version) h.nodup hlast] at hopens ⊢
    refine ⟨s.size, rfl, hopens, fun v hv ↦ ?_, rfl, .inl ⟨rfl, ?_⟩⟩
    · dsimp only
      rw [newVersion_of_ne s version hv]
    · dsimp only
      rw [newVersion_self]
  · have hopens := opens_recycled h hrecycler hlast hsingle
    rw [htake]
    rw [openVersion_eq (s := { s with recycler := rest }) h.nodup hlast] at hopens ⊢
    exact ⟨b, rfl, hopens, fun v _ ↦ rfl, rfl,
      .inr ⟨hreader, hrecycler ▸ List.mem_cons_self, rfl⟩⟩

private theorem setVersion_self (s : Coordinator) (v : ℕ) : s.setVersion v (s.versions v) = s := by
  simp [setVersion]

/-- The last version that is set stays. -/
theorem setVersion_setVersion (s : Coordinator) (v : ℕ) (x y : VersionStorage) :
    (s.setVersion v x).setVersion v y = s.setVersion v y := by
  simp [setVersion]

/-- An allocation changes nothing but the blocks of its transaction, and those not where it is
read only. -/
theorem allocate_spec (s : Coordinator) (t which : ℕ) (how : StorageAction) :
    (∃ al : Allocator, al.version = (s.versions t).version ∧
      ((s.versions t).readOnly = true → al = (s.versions t).toAllocator) ∧
      (s.allocate t which how).2 = s.setVersion t { s.versions t with toAllocator := al }) ∧
    ∀ block, (s.allocate t which how).1 = .ok (some block) → how ≠ .read → block.1 = t := by
  have hsame : ∃ al : Allocator, al.version = (s.versions t).version ∧
      ((s.versions t).readOnly = true → al = (s.versions t).toAllocator) ∧
      s = s.setVersion t { s.versions t with toAllocator := al } :=
    ⟨(s.versions t).toAllocator, rfl, fun _ ↦ rfl, (setVersion_self s t).symm⟩
  unfold allocate
  by_cases hro : (s.versions t).readOnly = true ∧ how ≠ .read
  · simp only [if_pos hro]
    exact ⟨hsame, nofun⟩
  rw [if_neg hro]
  cases how with
  | read =>
    refine ⟨?_, fun _ _ hne ↦ absurd rfl hne⟩
    dsimp only
    split
    · exact hsame
    · split
      · exact hsame
      · split <;> exact hsame
  | create =>
    have hwriter : (s.versions t).readOnly ≠ true := fun h ↦ hro ⟨h, nofun⟩
    dsimp only
    split
    · refine ⟨⟨(s.versions t).createNext, rfl, fun h ↦ absurd h hwriter, rfl⟩,
        fun block hok _ ↦ ?_⟩
      cases hok
      rfl
    · refine ⟨⟨_, Allocator.version_create _ _, fun h ↦ absurd h hwriter, rfl⟩,
        fun block hok _ ↦ ?_⟩
      cases hok
      rfl
  | write =>
    have hwriter : (s.versions t).readOnly ≠ true := fun h ↦ hro ⟨h, nofun⟩
    let changed : Allocator :=
      { (s.versions t).toAllocator with changes := (s.versions t).changes + 1 }
    dsimp only
    split
    · exact ⟨⟨changed, rfl, fun h ↦ absurd h hwriter, rfl⟩, nofun⟩
    split
    · refine ⟨⟨changed, rfl, fun h ↦ absurd h hwriter, rfl⟩, fun block hok _ ↦ ?_⟩
      cases hok
      rfl
    split
    · refine ⟨⟨_, ?_, fun h ↦ absurd h hwriter, setVersion_setVersion ..⟩, fun block hok _ ↦ ?_⟩
      · exact Allocator.version_create _ _
      · cases hok
        rfl
    · refine ⟨⟨changed, rfl, fun h ↦ absurd h hwriter, rfl⟩, nofun⟩

/-- An allocation keeps all but blocks. -/
theorem sameShape_allocate (s : Coordinator) (t which : ℕ) (how : StorageAction) :
    SameShape s (s.allocate t which how).2 := by
  obtain ⟨al, hversion, -, hs'⟩ := (allocate_spec s t which how).1
  rw [hs']
  exact SameShape.setVersion _ _ _ (by rw [hversion]; rfl)

private theorem sameShape_assign (s : Coordinator) (block : ℕ × ℕ) (content : Bytes) :
    SameShape s (s.assign block content) := by
  unfold assign
  dsimp only
  split
  · exact SameShape.setVersion _ _ _ rfl
  · rfl

/-- An allocation keeps the shape. -/
theorem sameShape_allocateAndWrite (s : Coordinator) (t which : ℕ) (how : StorageAction)
    (content : Option Bytes) : SameShape s (s.allocateAndWrite t which how content) := by
  have hallocate := sameShape_allocate s t which how
  unfold allocateAndWrite
  split
  · next block s' content hresult =>
    rw [hresult] at hallocate
    split
    · exact hallocate
    · exact hallocate.trans (sameShape_assign s' block content)
  · next s' hresult _ =>
    have hs' : (s.allocate t which how).2 = s' := by rw [hresult]
    exact hs' ▸ hallocate

/-- An allocation writes to its own transaction only, and not where it is read only. -/
theorem blocks_allocateAndWrite (s : Coordinator) (t which : ℕ) (how : StorageAction)
    (content : Option Bytes) {v : ℕ} (hv : v ≠ t ∨ (s.versions t).readOnly = true) :
    ((s.allocateAndWrite t which how content).versions v).blocks = (s.versions v).blocks := by
  obtain ⟨⟨al, -, hreader, hs'⟩, hown⟩ := allocate_spec s t which how
  have hallocate : ((s.allocate t which how).2.versions v).blocks = (s.versions v).blocks := by
    rw [hs', versions_setVersion]
    split
    · next he =>
      rcases hv with hv | hro
      · exact absurd he hv
      · rw [hreader hro, he]
    · rfl
  unfold allocateAndWrite
  split
  · next block s₁ content hresult =>
    rw [hresult] at hallocate hown
    split
    · exact hallocate
    · next hhow =>
      have hblock := hown block rfl hhow
      have hne : v ≠ t := by
        rcases hv with hv | hro
        · exact hv
        · have hthrows : (s.allocate t which how).1 = .error .invalidStorageAction := by
            unfold allocate
            dsimp only
            rw [if_pos ⟨hro, hhow⟩]
          rw [hresult] at hthrows
          cases hthrows
      unfold assign
      dsimp only
      split
      · rw [versions_setVersion, hblock, if_neg hne]
        exact hallocate
      · exact hallocate
  · next s₁ hresult _ =>
    rw [hresult] at hallocate
    exact hallocate

/-- An allocation changes its own transaction only. -/
theorem versions_allocateAndWrite (s : Coordinator) {t v : ℕ} (which : ℕ) (how : StorageAction)
    (content : Option Bytes) (hv : v ≠ t) :
    (s.allocateAndWrite t which how content).versions v = s.versions v := by
  obtain ⟨⟨al, -, -, hs'⟩, hown⟩ := allocate_spec s t which how
  have hallocate : (s.allocate t which how).2.versions v = s.versions v := by
    rw [hs', versions_setVersion, if_neg hv]
  unfold allocateAndWrite
  split
  · next block s₁ content hresult =>
    rw [hresult] at hallocate hown
    split
    · exact hallocate
    · next hhow =>
      unfold assign
      dsimp only
      split
      · rw [versions_setVersion, hown block rfl hhow, if_neg hv]
        exact hallocate
      · exact hallocate
  · next s₁ hresult _ =>
    rw [hresult] at hallocate
    exact hallocate

/-- A merge that returns keeps the invariant. -/
theorem inv_renumbered {s s' : Coordinator} (h : s.Inv) {t last created : ℕ}
    (ht : t ∈ s.transactions) (hlast : s.storages.getLast? = some last)
    (hfresh : s.IsFresh created) (hmove : (s.mergeStart t).move t last = (.ok (), s')) :
    (s'.renumber t t created).Inv := by
  have hshape := sameShape_merging ht hlast
  rw [hmove] at hshape
  exact inv_renumber (hshape.inv h) (hshape.transactions ▸ ht) (hshape.isFresh hfresh)

/-- What a call makes of a coordinator whose bookkeeping is right. -/
inductive Called (s : Coordinator) : CoordinatorAction → Coordinator → Prop
  | unopened {writer : Bool} {version : ℕ} {replicated : Bool} {e : Thrown}
      (hresult : s.begin writer version replicated = (.error e, s)) :
      Called s (.begin writer version replicated) s
  | opened {writer : Bool} {version : ℕ} {replicated : Bool} {b : ℕ} {s' : Coordinator}
      (hresult : s.begin writer version replicated = (.ok b, s')) (hopens : Opens s s' b writer)
      (hother : ∀ v, v ≠ b → (s'.versions v).toAllocator = (s.versions v).toAllocator)
      (hlast : s'.lastAddress = s.lastAddress)
      (hself : b = s.size ∧
          (s'.versions b).toAllocator = ⟨version, max s.lastAddress 32, 0, ∅⟩ ∨
        writer = false ∧ b ∈ s.recycler ∧
          (s'.versions b).toAllocator = (s.versions b).toAllocator) :
      Called s (.begin writer version replicated) s'
  | allocated {t which : ℕ} {how : StorageAction} {content : Option Bytes}
      (ht : t ∈ s.transactions) :
      Called s (.allocate t which how content) (s.allocateAndWrite t which how content)
  | mergeRefused {t : ℕ} {peers : Peers} {created : ℕ} {e : Thrown} {s' : Coordinator}
      (ht : t ∈ s.transactions) (hresult : s.merge t peers created = (.error e, s'))
      (hcause : s.MergeRefused t peers) (hrefused : s.RefusedAs t s') :
      Called s (.merge t peers created) s'
  | mergeHalted {t : ℕ} {peers : Peers} {created last : ℕ} {e : Thrown} {s' : Coordinator}
      (hw : t ∈ s.writers) (hlast : s.storages.getLast? = some last)
      (hmove : (s.mergeStart t).move t last = (.error e, s'))
      (hresult : s.merge t peers created = (.error e, s')) (hcause : ¬s.MergeRefused t peers) :
      Called s (.merge t peers created) s'
  | merged {t : ℕ} {peers : Peers} {created last : ℕ} {s' : Coordinator} (hw : t ∈ s.writers)
      (hlast : s.storages.getLast? = some last) (hfresh : s.IsFresh created)
      (hmove : (s.mergeStart t).move t last = (.ok (), s'))
      (hresult : s.merge t peers created = (.ok (), s'.renumber t t created))
      (hcause : ¬s.MergeRefused t peers) :
      Called s (.merge t peers created) (s'.renumber t t created)
  | commitRefused {t : ℕ} {peers : Peers} {e : Thrown} {s' : Coordinator}
      (ht : t ∈ s.transactions) (hresult : s.commitVersion t peers = (.error e, s'))
      (hrefused : s.RefusedAs t s') :
      Called s (.commit t peers) s'
  | committed {t : ℕ} {peers : Peers} (hw : t ∈ s.writers)
      (hresult : s.commitVersion t peers = (.ok (), s.committed t)) :
      Called s (.commit t peers) (s.committed t).mergeDown.2
  | discarded {t : ℕ} (ht : t ∈ s.transactions) : Called s (.discard t) (s.discarded t)
  | journalSynching (on : Bool) :
      Called s (.journalSynching on) { s with journalSynching := on }

/-- The calls on the coordinator do nothing else. -/
theorem called_of_step {s s' : Coordinator} {a : CoordinatorAction} (h : s.Inv)
    (hstep : s.step a = some s') : s.Called a s' := by
  cases a with
  | begin writer version replicated =>
    obtain ⟨hfresh, hs'⟩ := Option.ite_none_right_eq_some.1 hstep
    cases hs'
    rcases begin_cases h writer hfresh replicated with
      ⟨e, hresult⟩ | ⟨b, hok, hopens, hother, hlast, hself⟩
    · rw [hresult]
      exact .unopened hresult
    · exact .opened (Prod.ext hok rfl) hopens hother hlast hself
  | allocate t which how content =>
    obtain ⟨ht, hs'⟩ := Option.ite_none_right_eq_some.1 hstep
    cases hs'
    exact .allocated ht
  | merge t peers created =>
    obtain ⟨⟨ht, hfresh⟩, hs'⟩ := Option.ite_none_right_eq_some.1 hstep
    cases hs'
    rcases merge_cases h ht peers created with
      ⟨hcause, e, s', hresult, hrefused, -⟩ | ⟨hcause, hw, last, hlast, hresult⟩
    · rw [hresult]
      exact .mergeRefused ht hresult hcause hrefused
    · cases hmove : (s.mergeStart t).move t last with
      | mk r s' =>
        rw [hmove] at hresult
        rw [hresult]
        cases r with
        | error e => exact .mergeHalted hw hlast hmove hresult hcause
        | ok u => exact .merged hw hlast hfresh hmove hresult hcause
  | commit t peers =>
    obtain ⟨ht, hs'⟩ := Option.ite_none_right_eq_some.1 hstep
    cases hs'
    rw [commit]
    rcases commitVersion_cases h ht peers with
      ⟨-, e, s', hresult, hrefused, -⟩ | ⟨hcause, hresult⟩
    · rw [hresult]
      exact .commitRefused ht hresult hrefused
    · have hw : t ∈ s.writers :=
        mem_writers.mpr ⟨ht, Bool.eq_false_iff.mpr fun hro ↦ hcause (.inl hro)⟩
      rw [hresult]
      exact .committed hw hresult
  | discard t =>
    obtain ⟨ht, hs'⟩ := Option.ite_none_right_eq_some.1 hstep
    cases hs'
    rw [discard_eq h ht]
    exact .discarded ht
  | journalSynching on =>
    cases hstep
    exact .journalSynching on

/-- Every call keeps the invariant. -/
theorem inv_step (s s' : Coordinator) (a : CoordinatorAction) (h : s.Inv)
    (hstep : s.step a = some s') : s'.Inv := by
  cases called_of_step h hstep with
  | unopened => exact h
  | opened _ hopens => exact hopens.inv h
  | allocated => exact (sameShape_allocateAndWrite ..).inv h
  | mergeRefused ht _ _ hrefused => exact hrefused.inv h ht
  | mergeHalted hw hlast hmove =>
    have hshape := sameShape_merging (mem_writers.mp hw).1 hlast
    rw [hmove] at hshape
    exact hshape.inv h
  | merged hw hlast hfresh hmove => exact inv_renumbered h (mem_writers.mp hw).1 hlast hfresh hmove
  | commitRefused ht _ hrefused => exact hrefused.inv h ht
  | committed hw =>
    have hcommitted := (closes_committed h hw).inv h (mem_writers.mp hw).1
    exact (mergeDown_spec hcommitted).1.inv
  | discarded ht => exact (closes_discarded h ht).inv h ht
  | journalSynching on =>
    have hshape : SameShape s { s with journalSynching := on } :=
      ⟨rfl, rfl, rfl, rfl, rfl, rfl, rfl⟩
    exact hshape.inv h

end Coordinator

end LibSpaces.Transactions
