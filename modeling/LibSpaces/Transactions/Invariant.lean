import Mathlib.Data.Finset.Card
import LibSpaces.Base.Transition
import LibSpaces.Transactions.Coordinator

/-!
# What every run of the coordinator keeps

The committed versions are chained from the newest to the oldest, the versions an open
transaction is based on are the lower end of that chain, and each version counts the open
transactions above it. A version in use is thus never merged away, and no check of the
coordinator on its own structure fails.
-/

namespace LibSpaces.Transactions

open LibSpaces.Base

namespace Coordinator

/-- The list is a chain from the newest version to the oldest. -/
def Linked (s : Coordinator) : List ℕ → Prop
  | [] => True
  | c :: cs => (s.versions c).previous = cs.head? ∧ s.Linked cs

/-- Every version object with what its blocks come to left out. -/
def shape (s : Coordinator) (v : ℕ) : ℕ × ℕ × Bool × Option ℕ :=
  ((s.versions v).version, (s.versions v).readers, (s.versions v).readOnly,
    (s.versions v).previous)

/-- The two states differ in the blocks of the versions and in the marks of the last calls. -/
structure SameShape (s s' : Coordinator) : Prop where
  shape : s'.shape = s.shape
  size : s'.size = s.size
  storages : s'.storages = s.storages
  storageVersions : s'.storageVersions = s.storageVersions
  recycler : s'.recycler = s.recycler
  activeTransactions : s'.activeTransactions = s.activeTransactions
  writingTransactions : s'.writingTransactions = s.writingTransactions

/-- The invariant of the coordinator. -/
structure Inv (s : Coordinator) : Prop where
  storages_lt : ∀ v ∈ s.storages, v < s.size
  nodup : s.storages.Nodup
  nonempty : s.storages ≠ []
  linked : s.Linked s.storages.reverse
  injective : ∀ u < s.size, ∀ v < s.size, (s.versions u).version = (s.versions v).version → u = v
  based : ∀ t ∈ s.transactions,
    ∃ l, l <:+ s.storages.reverse ∧ l ≠ [] ∧ (s.versions t).previous = l.head?
  writer_based : ∀ t ∈ s.writers, (s.versions t).previous = s.storages.getLast?
  recycled : ∀ v ∈ s.recycler,
    v < s.size ∧ v ∉ s.storages ∧ s.storageVersions (s.versions v).version ≠ some v
  recycler_nodup : s.recycler.Nodup
  single : s.writers.card ≤ 1
  readers : ∀ v, (s.versions v).readers = (s.transactions.filter fun t ↦ v ∈ s.bases t).card
  active : s.activeTransactions = UInt32.ofNat s.transactions.card
  writing : s.writingTransactions = UInt32.ofNat s.writers.card

/-- A transaction is a version that is known by its number and is not stored. -/
theorem mem_transactions {s : Coordinator} {t : ℕ} :
    t ∈ s.transactions ↔ t < s.size ∧ s.storageVersions (s.versions t).version = some t ∧
      t ∉ s.storages := by
  rw [transactions, Finset.mem_filter, Finset.mem_range]
  rfl

/-- A writer is a transaction that is not only read. -/
theorem mem_writers {s : Coordinator} {t : ℕ} :
    t ∈ s.writers ↔ t ∈ s.transactions ∧ (s.versions t).readOnly = false := by
  rw [writers, Finset.mem_filter]

/-- The tail of a chain is a chain. -/
theorem Linked.of_suffix {s : Coordinator} {l r : List ℕ} (h : s.Linked r) (hl : l <:+ r) :
    s.Linked l := by
  induction r with
  | nil => exact (List.suffix_nil.mp hl) ▸ h
  | cons c cs ih =>
    rcases List.suffix_cons_iff.mp hl with he | hs
    · exact he ▸ h
    · exact ih h.2 hs

/-- Only the pointers of its versions make a chain. -/
theorem Linked.congr {s s' : Coordinator} {l : List ℕ} (h : s.Linked l)
    (hsame : ∀ v ∈ l, (s'.versions v).previous = (s.versions v).previous) : s'.Linked l := by
  induction l with
  | nil => trivial
  | cons c cs ih =>
    exact ⟨(hsame c List.mem_cons_self).trans h.1,
      ih h.2 fun v hv ↦ hsame v (List.mem_cons_of_mem _ hv)⟩

/-- The walk from the newest version of a chain visits the chain. -/
theorem Linked.chain {s : Coordinator} {l : List ℕ} (h : s.Linked l) {n : ℕ}
    (hn : l.length ≤ n) : s.chain n l.head? = l := by
  induction l generalizing n with
  | nil => cases n <;> rfl
  | cons c cs ih =>
    cases n with
    | zero => cases hn
    | succ n =>
      rw [List.head?_cons, Coordinator.chain, h.1, ih h.2 (Nat.le_of_succ_le_succ hn)]

/-- Only the pointers of the versions make a walk. -/
theorem chain_congr {s s' : Coordinator}
    (h : ∀ v, (s'.versions v).previous = (s.versions v).previous) (n : ℕ) (v : Option ℕ) :
    s'.chain n v = s.chain n v := by
  induction n generalizing v with
  | zero => rfl
  | succ n ih =>
    cases v with
    | none => rfl
    | some v => rw [Coordinator.chain, Coordinator.chain, ih, h]

/-- Only the pointers of the versions decide what a transaction is based on. -/
theorem bases_congr {s s' : Coordinator} (hsize : s'.size = s.size)
    (h : ∀ v, (s'.versions v).previous = (s.versions v).previous) (t : ℕ) :
    s'.bases t = s.bases t := by
  rw [bases, bases, hsize, h, chain_congr h]

/-- Distinct versions are no more than there are. -/
theorem length_le_of_lt {l : List ℕ} {n : ℕ} (hnodup : l.Nodup) (hlt : ∀ v ∈ l, v < n) :
    l.length ≤ n := by
  have hsub : l.toFinset ⊆ Finset.range n := by
    intro v hv
    exact Finset.mem_range.mpr (hlt v (List.mem_toFinset.mp hv))
  have hcard := Finset.card_le_card hsub
  rw [List.toFinset_card_of_nodup hnodup, Finset.card_range] at hcard
  exact hcard

/-- The versions below a pointer into the committed versions. -/
theorem Inv.chain {s : Coordinator} (h : s.Inv) {l : List ℕ} (hl : l <:+ s.storages.reverse) :
    s.chain s.size l.head? = l := by
  apply (h.linked.of_suffix hl).chain
  apply length_le_of_lt
  · exact (List.nodup_reverse.mpr h.nodup).sublist hl.sublist
  · intro v hv
    exact h.storages_lt v (List.mem_reverse.mp (hl.subset hv))

/-- The versions an open transaction is based on. -/
theorem Inv.bases {s : Coordinator} (h : s.Inv) {t : ℕ} (ht : t ∈ s.transactions) :
    s.bases t <:+ s.storages.reverse ∧ s.bases t ≠ [] ∧
      (s.versions t).previous = (s.bases t).head? := by
  obtain ⟨l, hl, hne, hprevious⟩ := h.based t ht
  have hbases : s.bases t = l := by rw [Coordinator.bases, hprevious, h.chain hl]
  exact hbases ▸ ⟨hl, hne, hprevious⟩

/-- No version is based on another one twice. -/
theorem Inv.bases_nodup {s : Coordinator} (h : s.Inv) {t : ℕ} (ht : t ∈ s.transactions) :
    (s.bases t).Nodup :=
  (List.nodup_reverse.mpr h.nodup).sublist (h.bases ht).1.sublist

/-- A writing transaction is based on all committed versions. -/
theorem Inv.bases_writer {s : Coordinator} (h : s.Inv) {t : ℕ} (ht : t ∈ s.writers) :
    s.bases t = s.storages.reverse := by
  rw [Coordinator.bases, h.writer_based t ht, List.getLast?_eq_head?_reverse,
    h.chain (List.suffix_refl _)]

/-- What a transaction is based on is stored. -/
theorem mem_storages_of_mem_bases {s : Coordinator} (h : s.Inv) {t v : ℕ}
    (ht : t ∈ s.transactions) (hv : v ∈ s.bases t) : v ∈ s.storages :=
  List.mem_reverse.mp ((h.bases ht).1.subset hv)

/-- An open transaction is not the newest of the committed versions. -/
theorem ne_newest {s : Coordinator} {t last : ℕ} (ht : t ∈ s.transactions)
    (hlast : s.storages.getLast? = some last) : t ≠ last :=
  fun he ↦ (mem_transactions.mp ht).2.2 (he ▸ List.mem_of_getLast? hlast)

/-- The committed versions below the newest one. -/
theorem exists_lower {s : Coordinator} {last : ℕ} (hlast : s.storages.getLast? = some last) :
    ∃ lower, s.storages.reverse = last :: lower := by
  rw [List.getLast?_eq_head?_reverse] at hlast
  exact List.head?_eq_some_iff.mp hlast

/-- A version below an open transaction is in use. -/
theorem Inv.readers_pos {s : Coordinator} (h : s.Inv) {t v : ℕ} (ht : t ∈ s.transactions)
    (hv : v ∈ s.bases t) : 0 < (s.versions v).readers := by
  rw [h.readers v]
  exact Finset.card_pos.mpr ⟨t, Finset.mem_filter.mpr ⟨ht, hv⟩⟩

namespace SameShape

variable {s s' : Coordinator}

/-- The same shape has the same versions. -/
theorem version (h : SameShape s s') (v : ℕ) :
    (s'.versions v).version = (s.versions v).version := congrArg Prod.fst (congrFun h.shape v)

/-- It has the same readers. -/
theorem readers (h : SameShape s s') (v : ℕ) :
    (s'.versions v).readers = (s.versions v).readers :=
  congrArg (fun x ↦ x.2.1) (congrFun h.shape v)

/-- The same of its versions are only read. -/
theorem readOnly (h : SameShape s s') (v : ℕ) :
    (s'.versions v).readOnly = (s.versions v).readOnly :=
  congrArg (fun x ↦ x.2.2.1) (congrFun h.shape v)

private theorem previous (h : SameShape s s') (v : ℕ) :
    (s'.versions v).previous = (s.versions v).previous :=
  congrArg (fun x ↦ x.2.2.2) (congrFun h.shape v)

/-- A state has its own shape. -/
@[refl] theorem refl (s : Coordinator) : SameShape s s := ⟨rfl, rfl, rfl, rfl, rfl, rfl, rfl⟩

/-- The relation is transitive. -/
theorem trans {s'' : Coordinator} (h : SameShape s s') (h' : SameShape s' s'') :
    SameShape s s'' where
  shape := h'.shape.trans h.shape
  size := h'.size.trans h.size
  storages := h'.storages.trans h.storages
  storageVersions := h'.storageVersions.trans h.storageVersions
  recycler := h'.recycler.trans h.recycler
  activeTransactions := h'.activeTransactions.trans h.activeTransactions
  writingTransactions := h'.writingTransactions.trans h.writingTransactions

/-- A version object whose blocks change. -/
theorem setVersion (s : Coordinator) (v : ℕ) (x : VersionStorage)
    (hx : (x.version, x.readers, x.readOnly, x.previous) = s.shape v) :
    SameShape s (s.setVersion v x) := by
  refine ⟨?_, rfl, rfl, rfl, rfl, rfl, rfl⟩
  ext u : 1
  by_cases hu : u = v
  · rw [hu, ← hx]
    simp [Coordinator.shape, Coordinator.setVersion]
  · simp [Coordinator.shape, Coordinator.setVersion, hu]

/-- It has the same transactions. -/
theorem transactions (h : SameShape s s') : s'.transactions = s.transactions := by
  ext t
  rw [mem_transactions, mem_transactions, h.size, h.storageVersions, h.version, h.storages]

/-- It has the same writers. -/
theorem writers (h : SameShape s s') : s'.writers = s.writers := by
  ext t
  rw [mem_writers, mem_writers, h.transactions, h.readOnly]

/-- Its versions are based on the same ones. -/
theorem bases (h : SameShape s s') (t : ℕ) : s'.bases t = s.bases t :=
  bases_congr h.size h.previous t

/-- The same versions are fresh. -/
theorem isFresh (h : SameShape s s') {version : ℕ} (hfresh : s.IsFresh version) :
    s'.IsFresh version := by
  intro v hv
  rw [h.version]
  exact hfresh v (h.size ▸ hv)

/-- The invariant does not speak of blocks. -/
theorem inv (h : SameShape s s') (hs : s.Inv) : s'.Inv where
  storages_lt := h.storages ▸ h.size ▸ hs.storages_lt
  nodup := h.storages ▸ hs.nodup
  nonempty := h.storages ▸ hs.nonempty
  linked := by
    rw [h.storages]
    exact hs.linked.congr fun v _ ↦ h.previous v
  injective := by
    intro u hu v hv he
    rw [h.size] at hu hv
    rw [h.version, h.version] at he
    exact hs.injective u hu v hv he
  based := by
    intro t ht
    rw [h.storages, h.previous]
    exact hs.based t (h.transactions ▸ ht)
  writer_based := by
    intro t ht
    rw [h.storages, h.previous]
    exact hs.writer_based t (h.writers ▸ ht)
  recycled := by
    intro v hv
    rw [h.size, h.storages, h.storageVersions, h.version]
    exact hs.recycled v (h.recycler ▸ hv)
  recycler_nodup := h.recycler ▸ hs.recycler_nodup
  single := h.writers ▸ hs.single
  readers := by
    intro v
    simp only [h.readers, h.transactions, h.bases]
    exact hs.readers v
  active := by rw [h.activeTransactions, h.transactions, hs.active]
  writing := by rw [h.writingTransactions, h.writers, hs.writing]

end SameShape

end Coordinator

end LibSpaces.Transactions
