import Mathlib.Data.BitVec
import Mathlib.Tactic.Ring
import LibSpaces.Base.Bytes

/-!
# Numbers in groups of seven bits

A number is written with its low group first, one group in each byte, of which the high bit says
that more follow. The bytes are read into a word by or-ing each group in at its place, where
nothing is yet: or is a sum there.
-/

namespace LibSpaces.Base

/-- The bytes end with the first one that says that none follow. -/
inductive Coded : Bytes → Prop
  | last {b : UInt8} (hb : b &&& 0x80 = 0) : Coded [b]
  | more {b : UInt8} {p : Bytes} (hb : b &&& 0x80 ≠ 0) (hp : Coded p) : Coded (b :: p)

/-- The payload of a byte. -/
def group (b : UInt8) : ℕ := (b &&& 0x7f).toNat

/-- The number that the groups denote. -/
def unsignedValue : Bytes → ℕ
  | [] => 0
  | b :: p => group b + 128 * unsignedValue p

/-- The number that the groups denote in two's complement: the high bit of the last group is the
sign. -/
def signedValue : Bytes → ℤ
  | [] => 0
  | [b] => if b &&& 0x40 = 0 then group b else group b - 128
  | b :: p => group b + 128 * signedValue p

/-- The first byte of a signed number has its lowest seven bits. -/
theorem signedValue_cons (b : UInt8) {p : Bytes} (hp : p ≠ []) :
    signedValue (b :: p) = group b + 128 * signedValue p := by
  cases p with
  | nil => exact absurd rfl hp
  | cons c p => rfl

private theorem group_lt (b : UInt8) : group b < 128 := by
  rw [group, UInt8.toNat_and]
  exact Nat.lt_of_le_of_lt Nat.and_le_right (by decide)

/-- The bits of a byte, told from its value. -/
theorem byte_bits (b : UInt8) :
    (b &&& 0x80 = 0 ↔ b ≤ 0x7f) ∧ (b ≤ 0x7f → b &&& 0x7f = b) ∧
      (b &&& 0x40 = 0 ↔ group b < 64) := by
  have hall : ∀ n < 256, let b := UInt8.ofNat n
      (b &&& 0x80 = 0 ↔ b ≤ 0x7f) ∧ (b ≤ 0x7f → b &&& 0x7f = b) ∧
        (b &&& 0x40 = 0 ↔ (b &&& 0x7f).toNat < 64) := by decide +kernel
  have := hall b.toNat b.toNat_lt
  rwa [UInt8.ofNat_toNat] at this

/-- The value of two parts, the second one shifted by the length of the first. -/
theorem unsignedValue_append (q p : Bytes) :
    unsignedValue (q ++ p) = unsignedValue q + 128 ^ q.length * unsignedValue p := by
  induction q with
  | nil => simp [unsignedValue]
  | cons b q ih =>
    rw [List.cons_append, unsignedValue, unsignedValue, ih, List.length_cons, pow_succ]
    ring

/-- Each byte has seven bits of the value. -/
theorem unsignedValue_lt (q : Bytes) : unsignedValue q < 128 ^ q.length := by
  induction q with
  | nil => decide
  | cons b q ih =>
    have hlt := group_lt b
    rw [unsignedValue, List.length_cons, pow_succ]
    omega

/-- The groups before the last one have no sign. -/
theorem signedValue_append (q : Bytes) {p : Bytes} (hp : p ≠ []) :
    signedValue (q ++ p) = unsignedValue q + 128 ^ q.length * signedValue p := by
  induction q with
  | nil => simp [unsignedValue]
  | cons b q ih =>
    have hne : q ++ p ≠ [] := List.append_ne_nil_of_right_ne_nil q hp
    rw [List.cons_append, signedValue_cons b hne, ih, unsignedValue, List.length_cons, pow_succ]
    push_cast
    ring

/-- A number has at least one byte. -/
theorem Coded.ne_nil {p : Bytes} (hp : Coded p) : p ≠ [] := by
  cases hp <;> exact List.cons_ne_nil _ _

/-- As many groups hold the two's complement of a number and the number. -/
theorem exists_unsignedValue_eq {p : Bytes} (hp : Coded p) :
    ∃ c : ℤ, (unsignedValue p : ℤ) = signedValue p + c * 128 ^ p.length := by
  induction hp with
  | @last b hb =>
    by_cases hs : b &&& 0x40 = 0
    · exact ⟨0, by simp [unsignedValue, signedValue, hs]⟩
    · exact ⟨1, by simp [unsignedValue, signedValue, hs]⟩
  | @more b p hb hp ih =>
    obtain ⟨c, hc⟩ := ih
    refine ⟨c, ?_⟩
    rw [signedValue_cons b hp.ne_nil, unsignedValue, Nat.cast_add, Nat.cast_mul, hc,
      List.length_cons,
      pow_succ]
    push_cast
    ring

/-- What fits in the groups. -/
theorem signedValue_bounds {p : Bytes} (hp : Coded p) :
    -128 ^ p.length ≤ 2 * signedValue p ∧ 2 * signedValue p + 2 ≤ 128 ^ p.length := by
  induction hp with
  | @last b hb =>
    have hlt := group_lt b
    have hsign := (byte_bits b).2.2
    rw [signedValue, List.length_singleton, pow_one]
    split
    next hs =>
      have := hsign.1 hs
      omega
    next hs =>
      have := mt hsign.2 hs
      omega
  | @more b p hb hp ih =>
    have hlt := group_lt b
    rw [signedValue_cons b hp.ne_nil, List.length_cons, pow_succ]
    omega

/-! ### Words -/

variable {w : ℕ}

/-- Above the bits of a word or is a sum. -/
theorem or_shiftLeft_eq_add {x y : BitVec w} {k : ℕ} (hx : x.toNat < 2 ^ k) :
    x ||| y <<< k = x + y <<< k := by
  refine (BitVec.add_eq_or_of_and_eq_zero x (y <<< k) ?_).symm
  ext i hi
  by_cases hik : i < k
  · simp [hik]
  · have hbit : x.getLsbD i = false := by
      rw [BitVec.getLsbD, Nat.testBit_lt_two_pow]
      exact hx.trans_le (Nat.pow_le_pow_right (by decide) (by omega))
    simp [← BitVec.getLsbD_eq_getElem, hbit]

/-- Multiples of the power that the word cannot hold do not show. -/
theorem ofInt_add_mul_two_pow (i c : ℤ) {k : ℕ} (hk : w ≤ k) :
    BitVec.ofInt w (i + c * 2 ^ k) = BitVec.ofInt w i := by
  obtain ⟨j, rfl⟩ := Nat.exists_eq_add_of_le hk
  apply BitVec.eq_of_toInt_eq
  have hmul : c * 2 ^ (w + j) = ((2 ^ w : ℕ) : ℤ) * (c * 2 ^ j) := by
    push_cast
    ring
  rw [BitVec.toInt_ofInt, BitVec.toInt_ofInt, hmul, Int.add_mul_bmod_self_left]

/-- A shift of the bits of an integer is a multiplication. -/
theorem ofInt_shiftLeft (i : ℤ) (k : ℕ) : BitVec.ofInt w i <<< k = BitVec.ofInt w (i * 2 ^ k) := by
  rw [BitVec.shiftLeft_eq_mul_twoPow, BitVec.ofInt_mul]
  congr 1
  apply BitVec.eq_of_toNat_eq
  rw [BitVec.toNat_twoPow, BitVec.toNat_ofInt]
  norm_cast

end LibSpaces.Base
