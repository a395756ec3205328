import Mathlib.Data.List.Basic

/-!
# Doubly linked chains

A chain is a list of cells that know the cell before and the cell after them. What a cell
knows is a relation `R cell preceding next`, so a chain can be read out of any memory.
-/

namespace LibSpaces.Base

variable {α : Type} {R R' : α → α → α → Prop} {p n a b : α} {A B L : List α}

/-- The cells of `L` are linked both ways, the first one to `p` before it and the last one to
`n` after it. -/
def Linked (R : α → α → α → Prop) : α → List α → α → Prop
  | _, [], _ => True
  | p, a :: L, n => R a p (L.headD n) ∧ Linked R a L n

@[simp] private theorem linked_nil : Linked R p [] n := trivial

/-- A chain is linked where its first member is linked to the head of the rest. -/
@[simp] theorem linked_cons :
    Linked R p (a :: L) n ↔ R a p (L.headD n) ∧ Linked R a L n := Iff.rfl

/-- A chain may be cut anywhere. -/
theorem linked_append :
    Linked R p (A ++ B) n ↔ Linked R p A (B.headD n) ∧ Linked R (A.getLastD p) B n := by
  induction A generalizing p with
  | nil => simp
  | cons a A ih =>
    rw [List.cons_append, linked_cons, linked_cons, ih, and_assoc, List.getLastD_cons]
    cases A with
    | nil => rfl
    | cons c A => rfl

/-- A chain depends only on what its own cells know. -/
theorem Linked.mono (h : Linked R p L n) (hR : ∀ c ∈ L, ∀ x y, R c x y → R' c x y) :
    Linked R' p L n := by
  induction L generalizing p with
  | nil => trivial
  | cons c L ih =>
    exact ⟨hR c List.mem_cons_self _ _ h.1,
      ih h.2 fun d hd ↦ hR d (List.mem_cons_of_mem _ hd)⟩

/-- What a cell in the middle knows. -/
theorem Linked.cell (h : Linked R p (A ++ a :: B) n) : R a (A.getLastD p) (B.headD n) :=
  (linked_append.1 h).2.1

/-- Every cell of a chain knows something. -/
theorem Linked.exists_cell (h : Linked R p L n) (ha : a ∈ L) : ∃ x y, R a x y := by
  obtain ⟨A, B, rfl⟩ := List.append_of_mem ha
  exact ⟨_, _, h.cell⟩

/-- The first cell may get another predecessor. -/
theorem Linked.relink (h : Linked R p B n)
    (hhead : ∀ b ∈ B.head?, ∀ y, R b p y → R' b a y)
    (htail : ∀ c ∈ B.tail, ∀ x y, R c x y → R' c x y) : Linked R' a B n := by
  cases B with
  | nil => trivial
  | cons b B => exact ⟨hhead b rfl _ h.1, h.2.mono htail⟩

/-- A cell `b` is put after `a`: only `a`, `b` and the cell behind them change. -/
theorem Linked.insertAfter (h : Linked R p (A ++ a :: B) n)
    (hA : ∀ c ∈ A, ∀ x y, R c x y → R' c x y)
    (ha : ∀ x, R a x (B.headD n) → R' a x b)
    (hb : R' b a (B.headD n))
    (hhead : ∀ c ∈ B.head?, ∀ y, R c a y → R' c b y)
    (htail : ∀ c ∈ B.tail, ∀ x y, R c x y → R' c x y) :
    Linked R' p (A ++ a :: b :: B) n := by
  obtain ⟨hbefore, hcell, hafter⟩ := linked_append.1 h
  refine linked_append.2 ⟨hbefore.mono hA, ha _ hcell, hb, ?_⟩
  exact hafter.relink hhead htail

/-- The cell `b` behind `a` is taken out: only `a` and the cell behind `b` change. -/
theorem Linked.removeAfter (h : Linked R p (A ++ a :: b :: B) n)
    (hA : ∀ c ∈ A, ∀ x y, R c x y → R' c x y)
    (ha : ∀ x, R a x b → R' a x (B.headD n))
    (hhead : ∀ c ∈ B.head?, ∀ y, R c b y → R' c a y)
    (htail : ∀ c ∈ B.tail, ∀ x y, R c x y → R' c x y) :
    Linked R' p (A ++ a :: B) n := by
  obtain ⟨hbefore, hcell, -, hafter⟩ := linked_append.1 h
  refine linked_append.2 ⟨hbefore.mono hA, ha _ hcell, ?_⟩
  exact hafter.relink hhead htail

end LibSpaces.Base
