import Mathlib.Data.List.InsertIdx
import Mathlib.Data.List.GetD

/-!
# Lists around a slot

The edits of a slot array, at the end of a known prefix.
-/

namespace LibSpaces.Base

variable {α : Type} (A B : List α) (x y : α)

/-- Insertion between two lists. -/
theorem insertIdx_length_append : (A ++ B).insertIdx A.length x = A ++ x :: B := by
  induction A with
  | nil => simp
  | cons a A ih => rw [List.cons_append, List.length_cons, List.insertIdx_succ_cons, ih,
      List.cons_append]

/-- Erasure between two lists. -/
theorem eraseIdx_length_append : (A ++ x :: B).eraseIdx A.length = A ++ B := by
  rw [List.eraseIdx_append_of_length_le (Nat.le_refl _), Nat.sub_self, List.eraseIdx_zero,
    List.tail_cons]

/-- Assignment between two lists. -/
theorem set_length_append : (A ++ x :: B).set A.length y = A ++ y :: B := by
  rw [List.set_append_right _ _ (Nat.le_refl _), Nat.sub_self, List.set_cons_zero]

/-- The item between two lists, with a default. -/
theorem getD_length_append (d : α) : (A ++ x :: B).getD A.length d = x := by
  rw [List.getD_append_right _ _ _ _ (Nat.le_refl _), Nat.sub_self, List.getD_cons_zero]

/-- The item between two lists. -/
theorem getElem?_length_append : (A ++ x :: B)[A.length]? = some x := by
  rw [List.getElem?_append_right (Nat.le_refl _), Nat.sub_self, List.getElem?_cons_zero]

/-- A list splits where it is cut. -/
theorem exists_split {l : List α} {i : ℕ} (hi : i ≤ l.length) :
    ∃ A B, l = A ++ B ∧ A.length = i :=
  ⟨l.take i, l.drop i, (List.take_append_drop i l).symm,
    by rw [List.length_take, Nat.min_eq_left hi]⟩

/-- The items up to a slot, the slot itself taken apart. -/
theorem take_append_getD {l : List α} {i : ℕ} (hi : i < l.length) (d : α) :
    l.take i ++ [l.getD i d] = l.take (i + 1) := by
  rw [List.getD_eq_getElem _ _ hi, List.take_append_getElem]

/-- The items from a slot on, the slot itself taken apart. -/
theorem drop_eq_getD_cons {l : List α} {i : ℕ} (hi : i < l.length) (d : α) :
    l.drop i = l.getD i d :: l.drop (i + 1) := by
  rw [List.getD_eq_getElem _ _ hi, ← List.drop_eq_getElem_cons]

/-! ### An insertion beside a cut -/

section Cut

variable {l : List α} {i m : ℕ}

/-- Insertion leaves the slots in front as they are. -/
theorem take_insertIdx_of_le (hi : i ≤ l.length) (hm : m ≤ i) :
    (l.insertIdx i x).take m = l.take m := by
  obtain ⟨A, B, rfl, rfl⟩ := exists_split hi
  rw [insertIdx_length_append, List.take_append_of_le_length hm, List.take_append_of_le_length hm]

/-- Insertion behind a slot, seen from that slot on. -/
theorem drop_insertIdx_of_le (hi : i ≤ l.length) (hm : m ≤ i) :
    (l.insertIdx i x).drop m = (l.drop m).insertIdx (i - m) x := by
  obtain ⟨A, B, rfl, rfl⟩ := exists_split hi
  rw [insertIdx_length_append, List.drop_append_of_le_length hm, List.drop_append_of_le_length hm,
    ← List.length_drop, insertIdx_length_append]

/-- Insertion in front of a slot, seen up to it. -/
theorem take_insertIdx_succ (hi : i ≤ l.length) (hm : i ≤ m) :
    (l.insertIdx i x).take (m + 1) = (l.take m).insertIdx i x := by
  obtain ⟨A, B, rfl, rfl⟩ := exists_split hi
  rw [insertIdx_length_append, List.take_append, List.take_append, List.take_of_length_le hm,
    List.take_of_length_le (Nat.le_succ_of_le hm), insertIdx_length_append, Nat.sub_add_comm hm,
    List.take_succ_cons]

/-- Insertion moves the slots behind it by one. -/
theorem drop_insertIdx_succ (hi : i ≤ l.length) (hm : i ≤ m) :
    (l.insertIdx i x).drop (m + 1) = l.drop m := by
  obtain ⟨A, B, rfl, rfl⟩ := exists_split hi
  rw [insertIdx_length_append, List.drop_append, List.drop_append, List.drop_of_length_le hm,
    List.drop_of_length_le (Nat.le_succ_of_le hm), Nat.sub_add_comm hm, List.drop_succ_cons]

/-- The slot of the insertion has the new item. -/
theorem getD_insertIdx_self (hi : i ≤ l.length) (d : α) : (l.insertIdx i x).getD i d = x := by
  obtain ⟨A, B, rfl, rfl⟩ := exists_split hi
  rw [insertIdx_length_append, getD_length_append]

/-- The slots in front of the insertion keep their items. -/
theorem getD_insertIdx_of_lt (hi : i ≤ l.length) (hm : m < i) (d : α) :
    (l.insertIdx i x).getD m d = l.getD m d := by
  obtain ⟨A, B, rfl, rfl⟩ := exists_split hi
  rw [insertIdx_length_append, List.getD_append _ _ _ _ hm, List.getD_append _ _ _ _ hm]

/-- The slots behind the insertion have the item of the slot before. -/
theorem getD_insertIdx_succ (hi : i ≤ l.length) (hm : i ≤ m) (d : α) :
    (l.insertIdx i x).getD (m + 1) d = l.getD m d := by
  obtain ⟨A, B, rfl, rfl⟩ := exists_split hi
  rw [insertIdx_length_append, List.getD_append_right _ _ _ _ hm,
    List.getD_append_right _ _ _ _ (Nat.le_succ_of_le hm), Nat.succ_sub hm,
    List.getD_cons_succ]

end Cut

end LibSpaces.Base
