import Mathlib.Algebra.Order.Ring.Int
import LibSpaces.Base.Bytes

/-!
# Byte memory

A memory has a byte at every integer address. `slice` is what a range of it holds, `copy` moves
a block that is read before it is written, and a copy over a short distance repeats a pattern.
-/

namespace LibSpaces.Base

/-- A byte at every address. -/
abbrev Memory := ℤ → UInt8

namespace Memory

variable {mem mem' source : Memory} {p q s : ℤ} {n m : ℕ} {bs cs : Bytes} {b : UInt8}

/-- The bytes of a string from address 0 on. -/
def ofBytes (bs : Bytes) : Memory := fun i ↦ bs.getD i.toNat 0

/-- `n` bytes from an address on. -/
def slice (mem : Memory) (p : ℤ) : ℕ → Bytes
  | 0 => []
  | n + 1 => mem p :: slice mem (p + 1) n

/-- One byte is written. -/
def write (mem : Memory) (p : ℤ) (b : UInt8) : Memory := Function.update mem p b

/-- `n` bytes are read at `s` and then written at `p`. -/
def copy (mem source : Memory) (p s : ℤ) (n : ℕ) : Memory := fun i ↦
  if p ≤ i ∧ i < p + n then source (s + (i - p)) else mem i

/-- A string stands at an address. -/
def Stands (mem : Memory) (p : ℤ) (bs : Bytes) : Prop := slice mem p bs.length = bs

/-- The memories differ in a range at most. -/
def AgreeOutside (mem mem' : Memory) (p q : ℤ) : Prop := ∀ i, i < p ∨ q ≤ i → mem' i = mem i

/-! ### Slices -/

/-- A slice has as many bytes as are asked for. -/
@[simp] theorem length_slice : (slice mem p n).length = n := by
  induction n generalizing p with
  | zero => rfl
  | succ n ih => rw [slice, List.length_cons, ih]

/-- A slice in two parts, one behind the other. -/
theorem slice_add : slice mem p (m + n) = slice mem p m ++ slice mem (p + m) n := by
  induction m generalizing p with
  | zero => simp [slice]
  | succ m ih =>
    rw [Nat.add_right_comm, slice, ih, slice, List.cons_append, Nat.cast_succ]
    congr 3
    omega

private theorem slice_congr (h : ∀ i, p ≤ i → i < p + n → mem' i = mem i) :
    slice mem' p n = slice mem p n := by
  induction n generalizing p with
  | zero => rfl
  | succ n ih =>
    rw [slice, slice, h p (by omega) (by omega), ih fun i hlow hhigh ↦ h i (by omega) (by omega)]

private theorem getElem?_slice {i : ℕ} (h : i < n) : (slice mem p n)[i]? = some (mem (p + i)) := by
  induction n generalizing p i with
  | zero => omega
  | succ n ih =>
    cases i with
    | zero => simp [slice]
    | succ i =>
      rw [slice, List.getElem?_cons_succ, ih (by omega), Nat.cast_succ]
      congr 2
      omega

@[simp] private theorem getElem_slice {i : ℕ} (h : i < (slice mem p n).length) :
    (slice mem p n)[i] = mem (p + i) := by
  apply Option.some.inj
  rw [← List.getElem?_eq_getElem h, getElem?_slice (by simpa using h)]

/-- Slices are equal where all their bytes are. -/
theorem slice_eq_iff : slice mem p n = slice mem' q n ↔ ∀ i < n, mem (p + i) = mem' (q + i) := by
  constructor
  · intro h i hi
    have hget : (slice mem p n)[i]? = (slice mem' q n)[i]? := by rw [h]
    rw [getElem?_slice hi, getElem?_slice hi, Option.some.injEq] at hget
    exact hget
  · intro h
    apply List.ext_getElem (by simp)
    intro i hi _
    simp [h i (by simpa using hi)]

/-- The string at address 0 is read back. -/
theorem slice_ofBytes : slice (ofBytes bs) 0 bs.length = bs := by
  apply List.ext_getElem (by simp)
  intro i _ hi
  simp [ofBytes, List.getElem?_eq_getElem hi]

/-! ### What stands where -/

/-- The empty string stands everywhere. -/
@[simp] theorem stands_nil : Stands mem p [] := rfl

/-- What is read at an address stands there. -/
@[simp] theorem stands_slice : Stands mem p (slice mem p n) := by rw [Stands, length_slice]

/-- Two strings stand behind each other where their concatenation stands. -/
theorem stands_append :
    Stands mem p (bs ++ cs) ↔ Stands mem p bs ∧ Stands mem (p + bs.length) cs := by
  rw [Stands, List.length_append, slice_add]
  constructor
  · intro h
    exact List.append_inj h length_slice
  · rintro ⟨hbs, hcs⟩
    rw [hbs, hcs]

/-- A string stands where its first byte does and the rest stands behind it. -/
@[simp] theorem stands_cons : Stands mem p (b :: bs) ↔ mem p = b ∧ Stands mem (p + 1) bs := by
  rw [Stands, List.length_cons, slice, List.cons.injEq, Stands]

/-- A string stands in every memory with the same bytes in its range. -/
theorem Stands.congr (h : Stands mem p bs)
    (hsame : ∀ i, p ≤ i → i < p + bs.length → mem' i = mem i) : Stands mem' p bs :=
  (slice_congr hsame).trans h

/-- The bytes of a string that stands at an address. -/
theorem Stands.get (h : Stands mem p bs) {i : ℕ} (hi : i < bs.length) : mem (p + i) = bs[i] := by
  have hget : (slice mem p bs.length)[i]? = bs[i]? := by rw [h]
  rw [getElem?_slice hi, List.getElem?_eq_getElem hi, Option.some.injEq] at hget
  exact hget

/-! ### Writes -/

/-- The byte that has been written. -/
@[simp] theorem write_self : mem.write p b p = b := Function.update_self ..

/-- A write leaves the other bytes as they are. -/
theorem write_of_ne (h : q ≠ p) : mem.write p b q = mem q := Function.update_of_ne h ..

/-- A byte in the range of a copy comes from the source. -/
theorem copy_of_mem {i : ℤ} (hlow : p ≤ i) (hhigh : i < p + n) :
    mem.copy source p s n i = source (s + (i - p)) := if_pos ⟨hlow, hhigh⟩

/-- A copy changes nothing outside its range. -/
theorem agreeOutside_copy : AgreeOutside mem (mem.copy source p s n) p (p + n) :=
  fun _ h ↦ if_neg fun hi ↦ by omega

/-- A write changes nothing but its byte. -/
theorem agreeOutside_write : AgreeOutside mem (mem.write p b) p (p + 1) :=
  fun _ h ↦ write_of_ne (by omega)

/-- After a copy the slice of the source stands in the range. -/
theorem stands_copy : Stands (mem.copy source p s n) p (slice source s n) := by
  rw [Stands, length_slice, slice_eq_iff]
  intro i hi
  rw [copy_of_mem (by omega) (by omega), add_sub_cancel_left]

namespace AgreeOutside

variable {mem'' : Memory} {p' q' : ℤ}

/-- A memory agrees with itself outside every range. -/
@[simp] theorem refl (mem : Memory) (p q : ℤ) : AgreeOutside mem mem p q := fun _ _ ↦ rfl

/-- Agreement outside a range is agreement outside a larger one. -/
theorem mono (h : AgreeOutside mem mem' p q) (hp : p' ≤ p) (hq : q ≤ q') :
    AgreeOutside mem mem' p' q' := fun i hi ↦ h i (by omega)

/-- Agreement outside a range is transitive. -/
theorem trans (h : AgreeOutside mem mem' p q) (h' : AgreeOutside mem' mem'' p q) :
    AgreeOutside mem mem'' p q := fun i hi ↦ (h' i hi).trans (h i hi)

/-- A string that stands outside the range stays. -/
theorem stands (h : AgreeOutside mem mem' p q) {r : ℤ} (hs : Stands mem r bs)
    (hr : r + bs.length ≤ p ∨ q ≤ r) : Stands mem' r bs :=
  hs.congr fun i _ _ ↦ h i (by omega)

end AgreeOutside

/-! ### Repeated patterns -/

/-- Each byte of a range repeats one that stands a multiple of the period before it and not before
the first period. -/
def Repeats (mem : Memory) (period p q : ℤ) : Prop := ∀ i, p ≤ i → i < q →
  ∃ distance, 0 < distance ∧ period ∣ distance ∧ p - period ≤ i - distance ∧
    mem i = mem (i - distance)

/-- The bytes of a repeated range are those of the period before it. -/
theorem Repeats.eq_base {period : ℤ} (h : Repeats mem period p q) {i : ℤ}
    (hlow : p - period ≤ i) (hhigh : i < q) : mem i = mem (p - period + (i - p) % period) := by
  -- the induction is on how far the byte is behind the first period
  generalize hk : (i - (p - period)).toNat = k
  induction k using Nat.strong_induction_on generalizing i with
  | _ k ih =>
    by_cases hi : i < p
    · have hmod : (i - p) % period = i - (p - period) := by
        rw [← Int.add_emod_right, Int.emod_eq_of_lt] <;> omega
      rw [hmod]
      congr 1
      omega
    · obtain ⟨distance, hpos, ⟨c, hc⟩, hback, heq⟩ := h i (by omega) hhigh
      rw [heq, ih (i - distance - (p - period)).toNat (by omega) hback (by omega) rfl]
      have hmod : (i - distance - p) % period = (i - p) % period := by
        rw [show i - distance - p = i - p - period * c by omega, Int.sub_mul_emod_self_left]
      rw [hmod]

/-- Such a range repeats itself at the period. -/
theorem Repeats.period {period : ℤ} (h : Repeats mem period p q) (hperiod : 0 < period) {i : ℤ}
    (hlow : p ≤ i) (hhigh : i < q) : mem i = mem (i - period) := by
  rw [h.eq_base (by omega) hhigh, h.eq_base (i := i - period) (by omega) (by omega)]
  have hmod : (i - period - p) % period = (i - p) % period := by
    rw [show i - period - p = i - p - period by omega, Int.sub_emod_right]
  rw [hmod]

end Memory

end LibSpaces.Base
