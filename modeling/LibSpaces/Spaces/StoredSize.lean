import Mathlib.Algebra.Order.BigOperators.Group.List
import LibSpaces.Spaces.Codec

/-!
# The size of stored keys and records

`src/src/storage/spaces/key.h:391–396,534–542,657–665`, `src/src/stx/btree.h:1634–1652`. A page
buffer gets the sum of what `stored` says. `unsigned_size` takes the low 32 bits of a context or
an identity while all 64 are written, and sizes are numbers of 32 bits.
-/

namespace LibSpaces.Spaces

open LibSpaces.Base LibSpaces.Stx

/-- As many bytes are stored as the size says; `none` is a read past the end of a sequence. -/
def Exact (bytes : Option Bytes) (stored : UInt32) : Prop :=
  ∃ b, bytes = some b ∧ b.length = stored.toNat

/-- What is stored in a page. -/
inductive Entry
  | key (k : Key)
  | record (r : Record)

namespace Entry

/-- `store` of the entry. -/
def store : Entry → Option Bytes
  | key k => k.store
  | record r => r.store

/-- `stored` of the entry. -/
def stored : Entry → UInt32
  | key k => k.stored
  | record r => r.stored

/-- The name of a key or the value of a record. -/
def data : Entry → Data
  | key k => k.name
  | record r => r.value

/-- The context of a key or the identity of a record. -/
def number : Entry → UInt64
  | key k => k.context
  | record r => r.identity

/-- The value is a text or has its eight bytes. -/
def Readable (e : Entry) : Prop := e.data.isText = true ∨ e.data.getInteger.isSome

/-- The low 32 bits of the context or the identity take as many bytes as all bits. -/
def Narrow (e : Entry) : Prop :=
  e.number.toNat < 2 ^ 32 ∨ e.number.toNat < 2 ^ 35 ∧ 2 ^ 28 ≤ e.number.toNat % 2 ^ 32

end Entry

/-- The bytes of the type, of the length and of a text, or of the word. -/
def Data.extent (d : Data) : ℕ := 16 + if d.isText then d.sequence.size else 0

/-- The bytes an entry takes, the low bits of its number counted with `count`. -/
def Entry.extent (count : UInt64 → ℕ) : Entry → ℕ
  | .key k => count k.context + k.name.extent
  | .record r => groups r.flags.toNat + count r.identity + r.value.extent

/-- What `unsigned_size` makes of a number of 64 bits. -/
def lowGroups (data : UInt64) : ℕ := groups (data.toNat % 2 ^ 32)

/-- The groups of a number of 64 bits. -/
def allGroups (data : UInt64) : ℕ := groups data.toNat

/-- The buffer of a page with these entries. -/
def storageUse (entries : List Entry) : UInt32 := (entries.map Entry.stored).sum

/-- The bytes of these entries, one behind the other. -/
def storeAll : List Entry → Option Bytes
  | [] => some []
  | e :: entries => do
    let b ← e.store
    let rest ← storeAll entries
    return b ++ rest

variable {e : Entry} {entries : List Entry}

private theorem Data.length_store {d : Data} {b : Bytes} (h : d.store = some b) :
    b.length = d.extent := by
  rw [Data.store] at h
  rw [Data.extent]
  split at h
  next ht =>
    rw [if_pos ht, ← Option.some.inj h]
    simp only [List.length_append, length_storeWord, AString.length_stdStr]
    omega
  next ht =>
    obtain ⟨v, -, rfl⟩ := Option.map_eq_some_iff.1 h
    rw [if_neg ht, List.length_append, length_storeWord, length_storeWord]

private theorem Data.stored_eq (d : Data) : d.stored = UInt32.ofNat d.extent := by
  apply UInt32.toNat_inj.1
  rw [Data.stored, Data.extent]
  split
  · simp only [UInt32.toNat_add, UInt32.toNat_ofNat', UInt32.reduceToNat]
    omega
  · rfl

private theorem Data.isSome_store (d : Data) :
    d.store.isSome ↔ d.isText = true ∨ d.getInteger.isSome := by
  rw [Data.store]
  split
  next ht => simp [ht]
  next ht => simp [ht]

private theorem unsignedSize_low (data : UInt64) : unsignedSize data.toUInt32 = lowGroups data := by
  rw [unsignedSize_eq, UInt64.toNat_toUInt32, lowGroups]

/-- `store` writes every group of the number. -/
theorem Entry.length_store {b : Bytes} (h : e.store = some b) : b.length = e.extent allGroups := by
  cases e with
  | key k =>
    obtain ⟨name, hname, rfl⟩ := Option.map_eq_some_iff.1 h
    rw [List.length_append, length_writeUnsigned, Data.length_store hname]
    rfl
  | record r =>
    obtain ⟨value, hvalue, rfl⟩ := Option.map_eq_some_iff.1 h
    rw [List.length_append, List.length_append, length_writeUnsigned, length_writeUnsigned,
      Data.length_store hvalue, UInt32.toNat_toUInt64, ← Nat.add_assoc]
    rfl

/-- `stored` counts the groups of the low 32 bits. -/
theorem Entry.stored_eq (e : Entry) : e.stored = UInt32.ofNat (e.extent lowGroups) := by
  cases e with
  | key k =>
    rw [Entry.stored, Key.stored, unsignedSize_low, Data.stored_eq, ← UInt32.ofNat_add]
    rfl
  | record r =>
    rw [Entry.stored, Record.stored, unsignedSize_low, unsignedSize_eq, Data.stored_eq,
      ← UInt32.ofNat_add, ← UInt32.ofNat_add]
    rfl

private theorem Entry.isSome_store (e : Entry) : e.store.isSome ↔ e.Readable := by
  cases e with
  | key k => rw [Entry.store, Key.store, Option.isSome_map, Data.isSome_store]; rfl
  | record r => rw [Entry.store, Record.store, Option.isSome_map, Data.isSome_store]; rfl

private theorem Entry.extent_le (e : Entry) : e.extent lowGroups ≤ e.extent allGroups := by
  have hle (data : UInt64) : lowGroups data ≤ allGroups data := groups_le_of_le (Nat.mod_le _ _)
  cases e with
  | key k => exact Nat.add_le_add_right (hle _) _
  | record r => exact Nat.add_le_add_right (Nat.add_le_add_left (hle _) _) _

/-- The readers of 32 bits find the end of an entry exactly where it is narrow. -/
theorem Entry.extent_eq_iff (e : Entry) : e.extent lowGroups = e.extent allGroups ↔ e.Narrow := by
  have heq : lowGroups e.number = allGroups e.number ↔ e.Narrow := groups_mod_eq_iff
  rw [← heq]
  cases e with
  | key k => exact Nat.add_right_cancel_iff
  | record r =>
    show groups r.flags.toNat + lowGroups r.identity + r.value.extent =
      groups r.flags.toNat + allGroups r.identity + r.value.extent ↔ _
    rw [Nat.add_right_cancel_iff, Nat.add_left_cancel_iff]
    rfl

/-! ### Pages -/

private theorem isSome_storeAll : (storeAll entries).isSome ↔ ∀ e ∈ entries, e.Readable := by
  induction entries with
  | nil => simp [storeAll]
  | cons e entries ih =>
    rw [List.forall_mem_cons, ← ih, ← Entry.isSome_store, storeAll]
    cases e.store <;> cases storeAll entries <;> simp

private theorem length_storeAll {b : Bytes} (h : storeAll entries = some b) :
    b.length = (entries.map (Entry.extent allGroups)).sum := by
  induction entries generalizing b with
  | nil =>
    cases h
    rfl
  | cons e entries ih =>
    obtain ⟨b₁, h₁, h⟩ := Option.bind_eq_some_iff.1 h
    obtain ⟨b₂, h₂, h⟩ := Option.bind_eq_some_iff.1 h
    cases h
    rw [List.length_append, Entry.length_store h₁, ih h₂, List.map_cons, List.sum_cons]

private theorem storageUse_eq (entries : List Entry) :
    storageUse entries = UInt32.ofNat (entries.map (Entry.extent lowGroups)).sum := by
  induction entries with
  | nil => rfl
  | cons e entries ih =>
    rw [storageUse] at ih ⊢
    rw [List.map_cons, List.sum_cons, ih, Entry.stored_eq, ← UInt32.ofNat_add, List.map_cons,
      List.sum_cons]

private theorem sum_extent_le (entries : List Entry) :
    (entries.map (Entry.extent lowGroups)).sum ≤ (entries.map (Entry.extent allGroups)).sum :=
  List.sum_le_sum fun e _ ↦ e.extent_le

private theorem sum_extent_eq_iff :
    (entries.map (Entry.extent lowGroups)).sum = (entries.map (Entry.extent allGroups)).sum ↔
      ∀ e ∈ entries, e.Narrow := by
  induction entries with
  | nil => simp
  | cons e entries ih =>
    have hle := e.extent_le
    have hsum := sum_extent_le entries
    rw [List.forall_mem_cons, ← ih, ← e.extent_eq_iff, List.map_cons, List.map_cons,
      List.sum_cons, List.sum_cons]
    omega

/-- The buffer of a page fits its entries exactly. -/
theorem exact_storeAll_iff : Exact (storeAll entries) (storageUse entries) ↔
    (∀ e ∈ entries, e.Readable ∧ e.Narrow) ∧
      (entries.map (Entry.extent allGroups)).sum < 2 ^ 32 := by
  have hle := sum_extent_le entries
  have hmod (m n : ℕ) (hmn : m ≤ n) : n = m % 2 ^ 32 ↔ m = n ∧ n < 2 ^ 32 := by omega
  have hfits := hmod _ _ hle
  rw [sum_extent_eq_iff] at hfits
  rw [forall₂_and, ← isSome_storeAll, and_assoc, ← hfits]
  constructor
  · rintro ⟨b, hb, hlen⟩
    rw [length_storeAll hb, storageUse_eq, UInt32.toNat_ofNat'] at hlen
    exact ⟨by rw [hb]; rfl, hlen⟩
  · rintro ⟨hsome, hlen⟩
    obtain ⟨b, hb⟩ := Option.isSome_iff_exists.1 hsome
    refine ⟨b, hb, ?_⟩
    rw [length_storeAll hb, storageUse_eq, UInt32.toNat_ofNat']
    exact hlen

private theorem storeAll_singleton (e : Entry) : storeAll [e] = e.store := by
  rw [storeAll]
  cases e.store with
  | none => rfl
  | some b => simp [storeAll]

/-- The entries of which as many bytes are written as `stored` says, and the pages whose buffer is
that of their entries. -/
theorem exact_iff_narrow (e : Entry) (entries : List Entry) :
    (Exact e.store e.stored ↔ e.Readable ∧ e.Narrow ∧ e.extent allGroups < 2 ^ 32) ∧
    (Exact (storeAll entries) (storageUse entries) ↔
      (∀ e ∈ entries, e.Readable ∧ e.Narrow) ∧
        (entries.map (Entry.extent allGroups)).sum < 2 ^ 32) := by
  refine ⟨?_, exact_storeAll_iff⟩
  have h : Exact (storeAll [e]) (storageUse [e]) ↔ _ := exact_storeAll_iff
  have hsum : storageUse [e] = e.stored := by simp [storageUse]
  rw [storeAll_singleton, hsum] at h
  simpa [and_assoc] using h

/-- Of the first context that 32 bits do not hold five bytes are written and one is counted. -/
theorem not_exact_context :
    (Key.mk (2 ^ 32) ((Data.init (Vector.replicate _ 0)).setText [97])).stored = 18 ∧
      ((Key.mk (2 ^ 32) ((Data.init (Vector.replicate _ 0)).setText [97])).store.map List.length) =
        some 22 ∧
      ¬ ∀ k : Key, Exact k.store k.stored := by
  refine ⟨by decide +kernel, by decide +kernel, fun h ↦ ?_⟩
  obtain ⟨b, hb, hlen⟩ := h (Key.mk (2 ^ 32) ((Data.init (Vector.replicate _ 0)).setText [97]))
  have hsize := Entry.length_store (e := .key _) hb
  rw [hlen] at hsize
  exact absurd hsize (by decide +kernel)

end LibSpaces.Spaces
