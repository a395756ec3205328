import Mathlib.Data.List.Basic

/-!
# Places in a sequence that is kept in blocks

A sequence is cut into blocks. Its items are counted from the first block on, and a place is a block
with a slot in it. The place behind all items is in the last block.
-/

namespace LibSpaces.Base

variable {α β : Type} {items : α → List β} {L A B : List α} {a : α} {k l slot : ℕ} {p q : α × ℕ}

/-- `p` is the place of index `k`. -/
def Locates (items : α → List β) (L : List α) (k : ℕ) (p : α × ℕ) : Prop :=
  ∃ A B, L = A ++ p.1 :: B ∧ k = (A.flatMap items).length + p.2 ∧
    (p.2 < (items p.1).length ∨ B = [] ∧ p.2 = (items p.1).length)

/-- The place behind all items. -/
theorem locates_end :
    Locates items (A ++ [a]) ((A ++ [a]).flatMap items).length (a, (items a).length) :=
  ⟨A, [], rfl, by simp, .inr ⟨rfl, rfl⟩⟩

/-- The number of items, counted before, in and behind one member. -/
theorem length_flatMap_mid :
    ((A ++ a :: B).flatMap items).length =
      (A.flatMap items).length + ((items a).length + (B.flatMap items).length) := by
  rw [List.flatMap_append, List.flatMap_cons, List.length_append, List.length_append]

/-- A slot that is not behind the one of a place. -/
theorem slot_of_le {n : ℕ} (h : l < n ∨ B = [] ∧ l = n) (hle : slot ≤ l) :
    slot < n ∨ B = [] ∧ slot = n := by
  rcases h with h | ⟨hB, rfl⟩
  · exact .inl (Nat.lt_of_le_of_lt hle h)
  · exact (Nat.lt_or_eq_of_le hle).imp_right fun h ↦ ⟨hB, h⟩

namespace Locates

/-- A place is at most behind the last item. -/
theorem le (h : Locates items L k p) : k ≤ (L.flatMap items).length := by
  obtain ⟨A, B, rfl, rfl, hslot⟩ := h
  rw [length_flatMap_mid]
  rcases hslot with hslot | ⟨-, hslot⟩ <;> omega

/-- The place of an item is a slot of its member. -/
theorem slot_lt (h : Locates items L k p) (hk : k < (L.flatMap items).length) :
    p.2 < (items p.1).length := by
  obtain ⟨A, B, rfl, rfl, hslot | ⟨rfl, hslot⟩⟩ := h
  · exact hslot
  · rw [length_flatMap_mid, hslot] at hk
    simp at hk

/-- The item of an index is the one at its place. -/
theorem getElem? (h : Locates items L k p) : (L.flatMap items)[k]? = (items p.1)[p.2]? := by
  obtain ⟨A, B, rfl, rfl, hslot⟩ := h
  rw [List.flatMap_append, List.getElem?_append_right (Nat.le_add_right _ _),
    Nat.add_sub_cancel_left, List.flatMap_cons]
  rcases hslot with hslot | ⟨rfl, hslot⟩
  · rw [List.getElem?_append_left hslot]
  · rw [List.flatMap_nil, List.append_nil]

/-- Two places of one index are in the same block. -/
theorem eq_of_append {C D : List α} {a b : α} {m n : ℕ}
    (ha : m < (items a).length ∨ B = [] ∧ m = (items a).length)
    (hB : a :: B = C ++ b :: D) (hindex : m = (C.flatMap items).length + n) : (a, m) = (b, n) := by
  cases C with
  | nil =>
    obtain ⟨rfl, -⟩ := List.cons.inj hB
    rw [hindex, List.flatMap_nil, List.length_nil, Nat.zero_add]
  | cons c C =>
    obtain ⟨rfl, hrest⟩ := List.cons.inj hB
    rw [List.flatMap_cons, List.length_append] at hindex
    rcases ha with ha | ⟨hnil, -⟩
    · omega
    · rw [hnil] at hrest
      exact absurd hrest.symm (by simp)

/-- An index has one place. -/
theorem unique (hp : Locates items L k p) (hq : Locates items L k q) : p = q := by
  obtain ⟨A, B, hL, hk, hslot⟩ := hp
  obtain ⟨A', B', hL', hk', hslot'⟩ := hq
  rcases List.append_eq_append_iff.1 (hL.symm.trans hL') with ⟨C, rfl, hC⟩ | ⟨C, rfl, hC⟩
  · refine eq_of_append hslot hC ?_
    rw [List.flatMap_append, List.length_append] at hk'
    omega
  · refine (eq_of_append hslot' hC ?_).symm
    rw [List.flatMap_append, List.length_append] at hk
    omega

/-- A place has one index where no block occurs twice. -/
theorem index_unique (hL : L.Nodup) (hk : Locates items L k p) (hl : Locates items L l p) :
    k = l := by
  obtain ⟨A, B, rfl, rfl, -⟩ := hk
  obtain ⟨A', B', hL', rfl, -⟩ := hl
  obtain ⟨-, hB, hdisjoint⟩ := List.nodup_append.1 hL
  have hA : p.1 ∉ A := fun hmem ↦ hdisjoint _ hmem _ List.mem_cons_self rfl
  obtain ⟨rfl, -⟩ := (List.append_cons_inj_of_notMem hA (List.nodup_cons.1 hB).1).1 hL'
  rfl

/-- The blocks from one place to a later one. -/
theorem exists_between (hp : Locates items L k p) (hq : Locates items L l q) (hkl : k ≤ l) :
    ∃ A B C D, L = A ++ p.1 :: B ∧ p.1 :: B = C ++ q.1 :: D ∧
      k = (A.flatMap items).length + p.2 ∧ l = ((A ++ C).flatMap items).length + q.2 ∧
      (p.2 < (items p.1).length ∨ B = [] ∧ p.2 = (items p.1).length) ∧
      (q.2 < (items q.1).length ∨ D = [] ∧ q.2 = (items q.1).length) := by
  obtain ⟨A, B, hL, hk, hslot⟩ := hp
  obtain ⟨A', B', hL', hl, hslot'⟩ := hq
  rcases List.append_eq_append_iff.1 (hL.symm.trans hL') with ⟨C, rfl, hC⟩ | ⟨C, rfl, hC⟩
  · exact ⟨A, B, C, B', hL, hC, hk, hl, hslot, hslot'⟩
  · cases C with
    | nil =>
      rw [List.append_nil] at hL hk
      exact ⟨A', B, [], B', hL, hC.symm, hk, by rwa [List.append_nil], hslot, hslot'⟩
    | cons c C =>
      -- the later place would be in an earlier block
      obtain ⟨hc, hB'⟩ := List.cons.inj hC
      have hlt := hslot'.resolve_right fun hor ↦ by
        rw [hor.1] at hB'
        exact absurd hB'.symm (by simp)
      rw [List.flatMap_append, List.length_append, List.flatMap_cons, List.length_append, ← hc]
        at hk
      omega

end Locates

end LibSpaces.Base
