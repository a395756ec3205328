import Mathlib.Data.Set.Function
import Mathlib.Data.Finset.Card
import Mathlib.Data.Finset.Range
import Mathlib.Order.Interval.Set.Basic
import Mathlib.Logic.Function.Basic
import Mathlib.Logic.Equiv.Defs
import Mathlib.Data.Nat.Find

/-!
# Positions and slots

A map sends the positions below a bound to the slots of an array, which are handed out in order. The
bound itself stands for no slot.
-/

namespace LibSpaces.Base

/-- The positions that have a slot. -/
def Assigned (bound : ℕ) (f : ℕ → ℕ) : Set ℕ := {p | f p ≠ bound}

/-- The slots handed out are those of the positions that have one, each of a single position. -/
structure SlotMap (bound : ℕ) (f : ℕ → ℕ) (allocated : ℕ) : Prop where
  bijOn : Set.BijOn f (Assigned bound f) (Set.Iio allocated)
  lt : ∀ p ∈ Assigned bound f, p < bound

namespace SlotMap

variable {bound allocated : ℕ} {f : ℕ → ℕ}

/-- No position has a slot. -/
theorem empty (bound : ℕ) : SlotMap bound (fun _ ↦ bound) 0 where
  bijOn := by
    have hnone : Assigned bound (fun _ ↦ bound) = ∅ := Set.eq_empty_of_forall_notMem fun _ h ↦ h rfl
    have hnil : Set.Iio 0 = (∅ : Set ℕ) :=
      Set.eq_empty_of_forall_notMem fun p hp ↦ Nat.not_lt_zero p hp
    rw [hnone, hnil]
    exact Set.bijOn_empty _
  lt := fun _ h ↦ absurd rfl h

/-- As many slots are handed out as positions have one. -/
theorem card_assigned (h : SlotMap bound f allocated) :
    ((Finset.range bound).filter fun p ↦ f p ≠ bound).card = allocated := by
  have himage : ((Finset.range bound).filter fun p ↦ f p ≠ bound).image f =
      Finset.range allocated := by
    ext s
    rw [Finset.mem_image, Finset.mem_range]
    constructor
    · rintro ⟨p, hp, rfl⟩
      exact h.bijOn.mapsTo (Finset.mem_filter.1 hp).2
    · intro hs
      obtain ⟨p, hp, rfl⟩ := h.bijOn.surjOn hs
      exact ⟨p, Finset.mem_filter.2 ⟨Finset.mem_range.2 (h.lt p hp), hp⟩, rfl⟩
  have hinj : Set.InjOn f ((Finset.range bound).filter fun p ↦ f p ≠ bound) :=
    h.bijOn.injOn.mono fun p hp ↦ (Finset.mem_filter.1 hp).2
  rw [← Finset.card_image_of_injOn hinj, himage, Finset.card_range]

/-- There are no more slots allocated than there are. -/
theorem allocated_le (h : SlotMap bound f allocated) : allocated ≤ bound := by
  rw [← h.card_assigned]
  exact (Finset.card_filter_le _ _).trans_eq (Finset.card_range bound)

/-- While a position has no slot there is one to hand out. -/
theorem allocated_lt (h : SlotMap bound f allocated) {p : ℕ} (hp : p < bound)
    (hfree : f p = bound) :
    allocated < bound := by
  refine lt_of_le_of_ne h.allocated_le fun heq ↦ ?_
  have hall : (Finset.range bound).filter (fun p ↦ f p ≠ bound) = Finset.range bound := by
    refine Finset.eq_of_subset_of_card_le (Finset.filter_subset _ _) ?_
    rw [h.card_assigned, Finset.card_range, heq]
  have hmem : p ∈ (Finset.range bound).filter fun p ↦ f p ≠ bound := by
    rw [hall]
    exact Finset.mem_range.2 hp
  exact (Finset.mem_filter.1 hmem).2 hfree

/-- The positions with a slot are all those below a number: it is that of the slots. -/
theorem allocated_eq (h : SlotMap bound f allocated) {m : ℕ}
    (hbelow : ∀ p, p ∈ Assigned bound f ↔ p < m) : allocated = m := by
  have hm : m ≤ bound := by
    by_contra hlt
    exact absurd (h.lt bound ((hbelow bound).2 (Nat.lt_of_not_le hlt))) (lt_irrefl _)
  have hfilter : (Finset.range bound).filter (fun p ↦ f p ≠ bound) = Finset.range m := by
    ext p
    rw [Finset.mem_filter, Finset.mem_range, Finset.mem_range]
    exact ⟨fun hp ↦ (hbelow p).1 hp.2, fun hp ↦ ⟨hp.trans_le hm, (hbelow p).2 hp⟩⟩
  rw [← h.card_assigned, hfilter, Finset.card_range]

/-- Every position before one with a slot has a slot: they are as many as the slots. -/
theorem mem_assigned_iff (h : SlotMap bound f allocated)
    (hlower : ∀ p q, p ≤ q → q ∈ Assigned bound f → p ∈ Assigned bound f) {p : ℕ} :
    p ∈ Assigned bound f ↔ p < allocated := by
  have hfree : ∃ p, p ∉ Assigned bound f := ⟨bound, fun hb ↦ lt_irrefl _ (h.lt bound hb)⟩
  classical
  have hbelow : ∀ p, p ∈ Assigned bound f ↔ p < Nat.find hfree := by
    intro p
    constructor
    · intro hp
      by_contra hle
      exact Nat.find_spec hfree (hlower _ p (Nat.le_of_not_lt hle) hp)
    · intro hp
      exact not_not.1 (Nat.find_min hfree hp)
  rw [h.allocated_eq hbelow]
  exact hbelow p

private theorem assigned_update {p s : ℕ} (hs : s ≠ bound) :
    Assigned bound (Function.update f p s) = insert p (Assigned bound f) := by
  ext q
  by_cases hq : q = p
  · simp [Assigned, hq, hs]
  · simp [Assigned, hq]

/-- A position without a slot gets the next one. -/
theorem allocate (h : SlotMap bound f allocated) {p : ℕ} (hp : p < bound) (hfree : f p = bound) :
    SlotMap bound (Function.update f p allocated) (allocated + 1) where
  bijOn := by
    have hsame : Set.EqOn f (Function.update f p allocated) (Assigned bound f) := by
      intro q hq
      have hne : q ≠ p := fun heq ↦ hq (heq ▸ hfree)
      rw [Function.update_of_ne hne]
    have hnew : Function.update f p allocated p ∉ Set.Iio allocated := by
      rw [Function.update_self]
      exact lt_irrefl allocated
    have hinsert := (h.bijOn.congr hsame).insert hnew
    rw [Function.update_self] at hinsert
    rw [assigned_update (h.allocated_lt hp hfree).ne]
    convert hinsert using 1
    ext s
    simp only [Set.mem_Iio, Set.mem_insert_iff]
    omega
  lt := by
    rw [assigned_update (h.allocated_lt hp hfree).ne]
    rintro q (rfl | hq)
    · exact hp
    · exact h.lt q hq

/-- Positions change places within the bound. -/
theorem permute (h : SlotMap bound f allocated) (σ : Equiv.Perm ℕ)
    (hlt : ∀ p, σ p < bound → p < bound) : SlotMap bound (f ∘ σ) allocated where
  bijOn := by
    refine h.bijOn.comp (Set.BijOn.mk (fun p hp ↦ hp) σ.injective.injOn ?_)
    intro p hp
    refine ⟨σ.symm p, ?_, σ.apply_symm_apply p⟩
    change f (σ (σ.symm p)) ≠ bound
    rwa [σ.apply_symm_apply]
  lt := fun p hp ↦ hlt p (h.lt (σ p) hp)

end SlotMap

/-- The positions from `a` to `b` each go to the next one, the last to the first. -/
def cycle {a b : ℕ} (h : a ≤ b) : Equiv.Perm ℕ where
  toFun p := if a ≤ p ∧ p < b then p + 1 else if p = b then a else p
  invFun p := if a < p ∧ p ≤ b then p - 1 else if p = a then b else p
  left_inv p := by grind
  right_inv p := by grind

/-- The cycle moves the places from `a` on up by one and puts the last of them at `a`. -/
theorem cycle_apply {a b : ℕ} (h : a ≤ b) (p : ℕ) :
    cycle h p = if a ≤ p ∧ p < b then p + 1 else if p = b then a else p := rfl

/-- Its inverse moves the places behind `a` down by one and puts `a` at the end. -/
theorem cycle_symm_apply {a b : ℕ} (h : a ≤ b) (p : ℕ) :
    (cycle h).symm p = if a < p ∧ p ≤ b then p - 1 else if p = a then b else p := rfl

/-- The cycle takes no place outside the bound into it. -/
theorem lt_of_cycle_lt {a b bound p : ℕ} {h : a ≤ b} (hb : b < bound) (hp : cycle h p < bound) :
    p < bound := by
  rw [cycle_apply] at hp
  grind

/-- Neither does its inverse. -/
theorem lt_of_cycle_symm_lt {a b bound p : ℕ} {h : a ≤ b} (hb : b < bound)
    (hp : (cycle h).symm p < bound) : p < bound := by
  rw [cycle_symm_apply] at hp
  grind

section Contents

variable {α : Type*}

/-- The entries of a list stand one behind the other from `start` on. -/
def Reads (g : ℕ → Option α) (start : ℕ) (l : List α) : Prop :=
  ∀ i, i < l.length → g (start + i) = l[i]?

/-- Every position before a filled one is filled. -/
def Gapless (g : ℕ → Option α) : Prop := ∀ p q, p ≤ q → (g q).isSome → (g p).isSome

/-- The entries of a list, from `start` on, over what was there. -/
def splice (g : ℕ → Option α) (start : ℕ) (l : List α) (p : ℕ) : Option α :=
  if start ≤ p ∧ p < start + l.length then l[p - start]? else g p

variable {g : ℕ → Option α} {start : ℕ} {l r : List α} {x : α}

/-- Splicing nothing in changes nothing. -/
theorem splice_nil (g : ℕ → Option α) (start : ℕ) : splice g start [] = g := by
  funext p
  rw [splice, if_neg]
  simp

/-- The first entry, then those behind it. -/
theorem splice_cons (g : ℕ → Option α) (start : ℕ) (x : α) (l : List α) :
    splice (Function.update g start (some x)) (start + 1) l = splice g start (x :: l) := by
  funext p
  simp only [splice, List.length_cons]
  by_cases hp : p = start
  · subst hp
    simp
  · rw [Function.update_of_ne hp]
    by_cases hin : start + 1 ≤ p ∧ p < start + 1 + l.length
    · have hsub : p - start = p - (start + 1) + 1 := by omega
      rw [if_pos hin, if_pos (by omega), hsub, List.getElem?_cons_succ]
    · rw [if_neg hin, if_neg (by omega)]

/-- The last entry, then those before it. -/
theorem splice_concat (g : ℕ → Option α) (start : ℕ) (l : List α) (x : α) :
    splice (Function.update g (start + l.length) (some x)) start l = splice g start (l ++ [x]) := by
  funext p
  simp only [splice, List.length_append, List.length_singleton]
  by_cases hin : start ≤ p ∧ p < start + l.length
  · rw [if_pos hin, if_pos (by omega), List.getElem?_append_left (by omega)]
  · rw [if_neg hin]
    by_cases hp : p = start + l.length
    · subst hp
      simp
    · rw [Function.update_of_ne hp, if_neg (by omega)]

/-- What is behind the spliced part stays. -/
theorem splice_of_le {p : ℕ} (h : start + l.length ≤ p) : splice g start l p = g p := by
  rw [splice, if_neg]
  omega

private theorem splice_of_lt {p : ℕ} (h : p < start) : splice g start l p = g p := by
  rw [splice, if_neg]
  omega

namespace Reads

/-- The places hold the items of the list. -/
theorem getElem? (h : Reads g 0 l) {p : ℕ} (hp : p < l.length) : g p = l[p]? := by
  rw [← h p hp, Nat.zero_add]

/-- The places of the items are occupied. -/
theorem isSome (h : Reads g 0 l) {p : ℕ} (hp : p < l.length) : (g p).isSome := by
  rw [h.getElem? hp, List.getElem?_eq_getElem hp]
  rfl

/-- The first place holds the first item, and the rest is read from the next place on. -/
theorem of_cons (h : Reads g start (x :: l)) : g start = some x ∧ Reads g (start + 1) l := by
  constructor
  · rw [← Nat.add_zero start, h 0 (Nat.succ_pos _)]
    rfl
  · intro i hi
    rw [Nat.add_assoc, Nat.add_comm 1 i, h (i + 1) (Nat.succ_lt_succ hi),
      List.getElem?_cons_succ]

/-- What is read in front. -/
theorem take (h : Reads g start l) (k : ℕ) : Reads g start (l.take k) := by
  intro i hi
  rw [List.length_take] at hi
  rw [h i (by omega), List.getElem?_take_of_lt (by omega)]

/-- What is read from a later place on. -/
theorem drop (h : Reads g start l) (k : ℕ) : Reads g (start + k) (l.drop k) := by
  intro i hi
  rw [List.length_drop] at hi
  rw [Nat.add_assoc, h (k + i) (by omega), List.getElem?_drop]

/-- What is read in two parts is read as one. -/
theorem append (hl : Reads g start l) (hr : Reads g (start + l.length) r) :
    Reads g start (l ++ r) := by
  intro i hi
  rw [List.length_append] at hi
  by_cases hlt : i < l.length
  · rw [List.getElem?_append_left hlt, hl i hlt]
  · have hsum : start + i = start + l.length + (i - l.length) := by omega
    rw [List.getElem?_append_right (by omega), hsum, hr _ (by omega)]

/-- Only the places in the range count. -/
theorem congr {g' : ℕ → Option α} (h : Reads g start l)
    (heq : ∀ p, start ≤ p → p < start + l.length → g' p = g p) : Reads g' start l := by
  intro i hi
  rw [heq _ (by omega) (by omega), h i hi]

/-- What is spliced in is read back. -/
theorem splice_self (g : ℕ → Option α) (start : ℕ) (l : List α) :
    Reads (splice g start l) start l := by
  intro i hi
  rw [splice, if_pos (by omega), Nat.add_sub_cancel_left]

/-- The entries at and behind a position make room for a new one. -/
theorem insertIdx (h : Reads g 0 l) {pos : ℕ} (hpos : pos ≤ l.length) (x : α) :
    Reads (Function.update (g ∘ (cycle hpos).symm) pos (some x)) 0 (l.insertIdx pos x) := by
  intro i hi
  rw [List.length_insertIdx_of_le_length hpos] at hi
  rw [Nat.zero_add]
  obtain hlt | rfl | hgt := lt_trichotomy i pos
  · rw [Function.update_of_ne hlt.ne, Function.comp_apply, cycle_symm_apply, if_neg (by omega),
      if_neg hlt.ne, h.getElem? (by omega), List.getElem?_insertIdx_of_lt hlt]
  · rw [Function.update_self, List.getElem?_insertIdx_self, if_pos hpos]
  · rw [Function.update_of_ne hgt.ne', Function.comp_apply, cycle_symm_apply, if_pos (by omega),
      h.getElem? (by omega), List.getElem?_insertIdx_of_gt hgt]

/-- The entries behind a position close up. -/
theorem eraseIdx (h : Reads g 0 l) {pos e : ℕ} (hpos : pos ≤ e) (he : l.length = e + 1) :
    Reads (g ∘ cycle hpos) 0 (l.eraseIdx pos) := by
  intro i hi
  rw [List.length_eraseIdx_of_lt (by omega)] at hi
  rw [Nat.zero_add, Function.comp_apply, cycle_apply]
  obtain hlt | hge := Nat.lt_or_ge i pos
  · rw [if_neg (by omega), if_neg (by omega), h.getElem? (by omega),
      List.getElem?_eraseIdx_of_lt hlt]
  · rw [if_pos (by omega), h.getElem? (by omega), List.getElem?_eraseIdx_of_ge hge]

/-- An entry is replaced, or one behind the list. -/
theorem set (h : Reads g 0 l) (pos : ℕ) (x : α) :
    Reads (Function.update g pos (some x)) 0 (l.set pos x) := by
  intro i hi
  rw [List.length_set] at hi
  rw [Nat.zero_add]
  by_cases heq : i = pos
  · subst heq
    rw [Function.update_self, List.getElem?_set_self hi]
  · rw [Function.update_of_ne heq, List.getElem?_set_ne (Ne.symm heq), h.getElem? hi]

/-- A list behind another one. -/
theorem append_splice (h : Reads g 0 l) (r : List α) : Reads (splice g l.length r) 0 (l ++ r) := by
  have hfront : Reads (splice g l.length r) 0 l :=
    h.congr fun p _ hp ↦ splice_of_lt (by omega)
  refine hfront.append ?_
  rw [Nat.zero_add]
  exact splice_self g l.length r

end Reads

/-- Without items there are no gaps. -/
theorem gapless_none : Gapless fun _ ↦ (none : Option α) := by
  intro p q _ hq
  cases hq

/-- Filling the positions up to one and leaving those behind leaves no gap. -/
theorem Gapless.of_front (h : Gapless g) {g' : ℕ → Option α} {m : ℕ}
    (hfront : ∀ p, p < m → (g' p).isSome) (hbehind : ∀ p, m ≤ p → g' p = g p) : Gapless g' := by
  intro p q hpq hq
  by_cases hp : p < m
  · exact hfront p hp
  · rw [hbehind p (by omega)]
    rw [hbehind q (by omega)] at hq
    exact h p q hpq hq

/-- A list behind another one leaves no gap between them. -/
theorem Gapless.splice_append (h : Gapless g) (hread : Reads g 0 l) (r : List α) :
    Gapless (splice g l.length r) := by
  refine h.of_front (fun p hp ↦ (hread.append_splice r).isSome hp) fun p hp ↦ splice_of_le ?_
  rwa [List.length_append] at hp

/-- Items spliced in at the front leave no gap. -/
theorem Gapless.splice_front (h : Gapless g) (l : List α) : Gapless (splice g 0 l) :=
  h.splice_append (l := []) (fun _ hi ↦ absurd hi (Nat.not_lt_zero _)) l

end Contents

end LibSpaces.Base
