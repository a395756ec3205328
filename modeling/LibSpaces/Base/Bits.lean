import Mathlib.Data.BitVec
import Mathlib.Logic.Function.Basic

/-!
# Bits kept in words

A word has 64 bits. A series of words holds a bit for every position.
-/

namespace LibSpaces.Base

/-- 64 bits. -/
abbrev Word := BitVec 64

/-- A bit takes a value, by masks. -/
def setBit (w : Word) (index : ℕ) (f : Bool) : Word :=
  w ^^^ (((if f then BitVec.allOnes 64 else 0#64) ^^^ w) &&& (1#64 <<< index))

/-- A bit takes its other value. -/
def toggleBit (w : Word) (index : ℕ) : Word := w ^^^ (1#64 <<< index)

/-- A bit is shifted out and masked. -/
def testBit (w : Word) (index : ℕ) : Bool := (w >>> index) &&& 1#64 ≠ 0#64

/-- A bit is masked where it is. -/
def maskBit (w : Word) (index : ℕ) : Bool := w &&& (1#64 <<< index) ≠ 0#64

private theorem getLsbD_one_shiftLeft {index i : ℕ} (hi : i < 64) :
    (1#64 <<< index).getLsbD i = decide (i = index) := by
  rw [BitVec.getLsbD_shiftLeft, BitVec.getLsbD_one]
  simp only [hi, decide_true, Bool.true_and]
  by_cases h : i = index
  · simp [h]
  · have hsub : i < index ∨ i - index ≠ 0 := by omega
    rcases hsub with hlt | hne <;> simp [*]

/-- Only the bit that is set changes. -/
theorem getLsbD_setBit (w : Word) {index i : ℕ} (f : Bool) (hi : i < 64) :
    (setBit w index f).getLsbD i = if i = index then f else w.getLsbD i := by
  have hfill : (if f then BitVec.allOnes 64 else 0#64).getLsbD i = f := by
    cases f
    · simp
    · rw [if_pos rfl, BitVec.getLsbD_allOnes, decide_eq_true hi]
  rw [setBit, BitVec.getLsbD_xor, BitVec.getLsbD_and, BitVec.getLsbD_xor, hfill,
    getLsbD_one_shiftLeft hi]
  by_cases h : i = index
  · simp only [h, decide_true, Bool.and_true, if_true]
    cases f <;> cases w.getLsbD index <;> rfl
  · simp [h]

/-- Only the bit that is toggled changes. -/
theorem getLsbD_toggleBit (w : Word) {index i : ℕ} (hi : i < 64) :
    (toggleBit w index).getLsbD i = if i = index then !w.getLsbD i else w.getLsbD i := by
  rw [toggleBit, BitVec.getLsbD_xor, getLsbD_one_shiftLeft hi]
  by_cases h : i = index <;> simp [h]

/-- The test of a word by its shift reads the bit. -/
theorem testBit_eq (w : Word) (index : ℕ) : testBit w index = w.getLsbD index := by
  have hmask : ∀ i, ((w >>> index) &&& 1#64).getLsbD i = (decide (i = 0) && w.getLsbD index) := by
    intro i
    rw [BitVec.getLsbD_and, BitVec.getLsbD_ushiftRight, BitVec.getLsbD_one]
    by_cases h : i = 0 <;> simp [h]
  cases hbit : w.getLsbD index with
  | false =>
    refine decide_eq_false (not_not.2 (BitVec.eq_of_getLsbD_eq fun i _ ↦ ?_))
    rw [hmask, hbit, Bool.and_false, BitVec.getLsbD_zero]
  | true =>
    refine decide_eq_true fun hzero ↦ ?_
    have h := hmask 0
    rw [hzero, hbit, BitVec.getLsbD_zero] at h
    cases h

/-- So does the test by a mask. -/
theorem maskBit_eq (w : Word) {index : ℕ} (hi : index < 64) :
    maskBit w index = w.getLsbD index := by
  have hmask : ∀ i < 64, (w &&& (1#64 <<< index)).getLsbD i =
      (w.getLsbD i && decide (i = index)) := by
    intro i h
    rw [BitVec.getLsbD_and, getLsbD_one_shiftLeft h]
  cases hbit : w.getLsbD index with
  | false =>
    refine decide_eq_false (not_not.2 (BitVec.eq_of_getLsbD_eq fun i h ↦ ?_))
    rw [hmask i h, BitVec.getLsbD_zero]
    by_cases heq : i = index
    · rw [heq, hbit, Bool.false_and]
    · rw [decide_eq_false heq, Bool.and_false]
  | true =>
    refine decide_eq_true fun hzero ↦ ?_
    have h := hmask index hi
    rw [hzero, hbit, BitVec.getLsbD_zero, decide_eq_true rfl] at h
    cases h

end LibSpaces.Base
