import Mathlib.Algebra.Order.Ring.Int
import Mathlib.Data.UInt
import Mathlib.Order.Nat

/-!
# Byte strings and the bounded memory comparison

`memcmp` scans two byte strings of the C library kind: it stops at the first
differing byte and is undefined when it has to read past an end. Its sign is
compared with the lexicographic order of byte lists, in which a proper prefix
comes first.
-/

namespace LibSpaces.Base

/-- A finite string of bytes. -/
abbrev Bytes := List UInt8

/-- The C library comparison of the first `n` bytes. `none` is a read past the
end of one of the two strings; the sign of the value is all that callers use. -/
def memcmp : ℕ → Bytes → Bytes → Option Int
  | 0, _, _ => some 0
  | n + 1, x :: xs, y :: ys =>
    if x = y then memcmp n xs ys else some ((x.toNat : Int) - y.toNat)
  | _ + 1, [], _ => none
  | _ + 1, _ :: _, [] => none

/-- The three-way result that the sign of a C comparison value stands for. -/
def signOrder (r : Int) : Ordering := Ord.compare r 0

/-- A negative value is the only one read as `<`. -/
@[simp] theorem signOrder_eq_lt (r : Int) : signOrder r = .lt ↔ r < 0 :=
  Int.compare_eq_lt

/-- Zero is the only value read as equality. -/
@[simp] theorem signOrder_eq_eq (r : Int) : signOrder r = .eq ↔ r = 0 :=
  Int.compare_eq_eq

/-- The difference of two byte values has the sign of their order. -/
theorem signOrder_toNat_sub (x y : UInt8) :
    signOrder ((x.toNat : Int) - y.toNat) = Ord.compare x y := by
  rcases lt_trichotomy x.toNat y.toNat with h | h | h
  · have hs : signOrder ((x.toNat : Int) - y.toNat) = .lt := by
      rw [signOrder_eq_lt]
      omega
    have hc : Ord.compare x y = .lt := Std.compare_eq_lt.mpr (UInt8.lt_iff_toNat_lt.mpr h)
    rw [hs, hc]
  · have he : x = y := UInt8.toNat_inj.mp h
    subst he
    simp
  · have hs : signOrder ((x.toNat : Int) - y.toNat) = .gt := Int.compare_eq_gt.mpr (by omega)
    have hc : Ord.compare x y = .gt := Std.compare_eq_gt.mpr (UInt8.lt_iff_toNat_lt.mpr h)
    rw [hs, hc]

/-- Equal bytes are skipped. -/
@[simp] theorem memcmp_cons_self (n : ℕ) (x : UInt8) (xs ys : Bytes) :
    memcmp (n + 1) (x :: xs) (x :: ys) = memcmp n xs ys := by
  simp [memcmp]

/-- A string never differs from itself, so an over-long bound runs past its end. -/
theorem memcmp_self_past_end (a : Bytes) (n : ℕ) (h : a.length < n) : memcmp n a a = none := by
  induction a generalizing n with
  | nil =>
    obtain ⟨m, rfl⟩ : ∃ m, n = m + 1 := ⟨n - 1, by simp at h; omega⟩
    rfl
  | cons x xs ih =>
    obtain ⟨m, rfl⟩ : ∃ m, n = m + 1 := ⟨n - 1, by simp at h; omega⟩
    rw [memcmp_cons_self]
    exact ih m (by simpa using h)

/-- Within the length of a prefix nothing differs. -/
theorem memcmp_of_isPrefix (a b : Bytes) (h : a <+: b) : memcmp a.length a b = some 0 := by
  obtain ⟨t, rfl⟩ := h
  induction a with
  | nil => rfl
  | cons x xs ih => simpa using ih

/-- When nothing differs on the shared length, one string is a prefix of the other. -/
theorem isPrefix_of_memcmp_min_zero (a b : Bytes)
    (h : memcmp (min a.length b.length) a b = some 0) : a <+: b ∨ b <+: a := by
  induction a generalizing b with
  | nil => exact .inl List.nil_prefix
  | cons x xs ih =>
    cases b with
    | nil => exact .inr List.nil_prefix
    | cons y ys =>
      rw [List.length_cons, List.length_cons, Nat.succ_min_succ] at h
      by_cases hxy : x = y
      · subst hxy
        rw [memcmp_cons_self] at h
        simpa only [List.prefix_cons_inj] using ih ys h
      · have hd : (x.toNat : Int) - y.toNat = 0 := by simpa [memcmp, hxy] using h
        exact absurd (UInt8.toNat_inj.mp (by omega)) hxy

/-- The C idiom that breaks a tie on the shared length by the lengths themselves
is the lexicographic order. -/
theorem memcmp_then_length (a b : Bytes) :
    (memcmp (min a.length b.length) a b).map
      (fun r ↦ signOrder (if r = 0 then (a.length : Int) - b.length else r)) =
        some (Ord.compare a b) := by
  induction a generalizing b with
  | nil =>
    cases b with
    | nil => rfl
    | cons y ys =>
      have hs : signOrder ((([] : Bytes).length : Int) - (y :: ys).length) = .lt := by
        rw [signOrder_eq_lt, List.length_nil, List.length_cons]
        omega
      rw [List.compare_nil_cons, ← hs]
      rfl
  | cons x xs ih =>
    cases b with
    | nil =>
      have hs : signOrder (((x :: xs).length : Int) - ([] : Bytes).length) = .gt := by
        rw [List.length_nil, List.length_cons]
        exact Int.compare_eq_gt.mpr (by omega)
      rw [List.compare_cons_nil, ← hs]
      rfl
    | cons y ys =>
      by_cases h : x = y
      · subst h
        have hl : ((x :: xs).length : Int) - (x :: ys).length = xs.length - ys.length := by
          simp only [List.length_cons]
          omega
        have hc : Ord.compare (x :: xs) (x :: ys) = Ord.compare xs ys := by
          simp [List.compare_cons_cons]
        rw [hl, hc, List.length_cons, List.length_cons, Nat.succ_min_succ, memcmp_cons_self]
        exact ih ys
      · have hne : (x.toNat : Int) - y.toNat ≠ 0 := by
          intro he
          exact h (UInt8.toNat_inj.mp (by omega))
        have hc : Ord.compare x y ≠ .eq := by simpa using h
        rw [List.length_cons, List.length_cons, Nat.succ_min_succ, List.compare_cons_cons]
        simp only [memcmp, h, if_false, Option.map_some, hne, signOrder_toNat_sub]
        cases hxy : Ord.compare x y <;> simp_all

/-- On the shared length the scan decides the order of any two strings of which
neither is a proper prefix of the other. -/
theorem memcmp_min_of_not_isPrefix (a b : Bytes) (hab : a <+: b → a = b) (hba : b <+: a → a = b) :
    (memcmp (min a.length b.length) a b).map signOrder = some (Ord.compare a b) := by
  have hlen := memcmp_then_length a b
  cases hm : memcmp (min a.length b.length) a b with
  | none => simp [hm] at hlen
  | some r =>
    rw [hm] at hlen
    by_cases hr : r = 0
    · subst hr
      have he : a = b := (isPrefix_of_memcmp_min_zero a b hm).elim hab hba
      subst he
      simp
    · simpa [hr] using hlen

/-- Only the bytes below the bound matter. -/
theorem memcmp_take (n m k : ℕ) (a b : Bytes) (hm : n ≤ m) (hk : n ≤ k) :
    memcmp n (a.take m) (b.take k) = memcmp n a b := by
  induction n generalizing m k a b with
  | zero => rfl
  | succ n ih =>
    obtain ⟨m, rfl⟩ : ∃ i, m = i + 1 := ⟨m - 1, by omega⟩
    obtain ⟨k, rfl⟩ : ∃ i, k = i + 1 := ⟨k - 1, by omega⟩
    cases a with
    | nil => rfl
    | cons x xs =>
      cases b with
      | nil => rfl
      | cons y ys =>
        simp only [List.take_succ_cons, memcmp, ih m k xs ys (by omega) (by omega)]

/-- The little-endian bytes of the low `width` bytes of a number. -/
def leBytes : ℕ → ℕ → Bytes
  | 0, _ => []
  | width + 1, v => UInt8.ofNat (v % 256) :: leBytes width (v / 256)

/-- The number that a little-endian byte string denotes. -/
def ofLeBytes : Bytes → ℕ
  | [] => 0
  | b :: bs => b.toNat + 256 * ofLeBytes bs

/-- A number is written in as many bytes as are asked for. -/
@[simp] theorem length_leBytes (width v : ℕ) : (leBytes width v).length = width := by
  induction width generalizing v with
  | zero => rfl
  | succ width ih => simp [leBytes, ih]

/-- Reading the first `count` bytes of a word back keeps its low `count` bytes. -/
theorem ofLeBytes_take_leBytes (width count v : ℕ) (h : count ≤ width) :
    ofLeBytes ((leBytes width v).take count) = v % 256 ^ count := by
  induction count generalizing width v with
  | zero => simp [ofLeBytes, Nat.mod_one]
  | succ count ih =>
    obtain ⟨width, rfl⟩ : ∃ i, width = i + 1 := ⟨width - 1, by omega⟩
    have hb : (UInt8.ofNat (v % 256)).toNat = v % 256 := by
      rw [UInt8.toNat_ofNat']
      omega
    rw [leBytes, List.take_succ_cons, ofLeBytes, hb, ih width (v / 256) (by omega),
      Nat.pow_succ', Nat.mod_mul]

/-- A word is read back from its bytes. -/
theorem ofLeBytes_leBytes (width v : ℕ) : ofLeBytes (leBytes width v) = v % 256 ^ width := by
  have h := ofLeBytes_take_leBytes width width v (Nat.le_refl _)
  rwa [List.take_of_length_le (by simp)] at h

/-- Bytes are those of the word they denote. -/
theorem leBytes_ofLeBytes (a : Bytes) : leBytes a.length (ofLeBytes a) = a := by
  induction a with
  | nil => rfl
  | cons b bs ih =>
    have hb := b.toNat_lt
    have hmod : (b.toNat + 256 * ofLeBytes bs) % 256 = b.toNat := by omega
    have hdiv : (b.toNat + 256 * ofLeBytes bs) / 256 = ofLeBytes bs := by omega
    rw [List.length_cons, ofLeBytes, leBytes, hmod, hdiv, ih, UInt8.ofNat_toNat]

/-- The value of a string of bytes is below the power of 256 of its length. -/
theorem ofLeBytes_lt (a : Bytes) : ofLeBytes a < 256 ^ a.length := by
  rw [← leBytes_ofLeBytes a, ofLeBytes_leBytes, length_leBytes]
  exact Nat.mod_lt _ (Nat.pow_pos (by decide))

/-- Missing high bytes read as zeros. -/
@[simp] theorem ofLeBytes_append_zeros (a : Bytes) (n : ℕ) :
    ofLeBytes (a ++ List.replicate n 0) = ofLeBytes a := by
  induction a with
  | nil =>
    induction n with
    | zero => rfl
    | succ n ih =>
      have hz : ofLeBytes (List.replicate n 0) = 0 := by simpa [ofLeBytes] using ih
      simp [List.replicate_succ, ofLeBytes, hz]
  | cons x xs ih =>
    rw [List.cons_append, ofLeBytes, ofLeBytes, ih]

/-- The destination of a short copy: the bytes that arrived, then the zeros it held. -/
def zeroed (size : ℕ) (src : Bytes) : Bytes := src ++ List.replicate (size - src.length) 0

/-- A word read from a partly filled destination is the word of the bytes that arrived. -/
theorem ofLeBytes_zeroed (size offset width : ℕ) (src : Bytes) :
    ofLeBytes (((zeroed size src).drop offset).take width) =
      ofLeBytes ((src.drop offset).take width) := by
  rw [zeroed, List.drop_append, List.take_append, List.drop_replicate, List.take_replicate]
  exact ofLeBytes_append_zeros _ _

end LibSpaces.Base
