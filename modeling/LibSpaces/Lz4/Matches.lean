import Mathlib.Tactic.Ring
import LibSpaces.Base.ByteMemory
import LibSpaces.Lz4.Format

/-!
# Finding and counting matches

`src/src/repo/lz4-r101/lz4.c:277–305,334–370,420–485` in 64-bit little-endian mode. Positions are
offsets into the source, which is a memory of its own. The table holds for a hash of four bytes
where they stood last; what it gives is compared before it is used.

Words of eight bytes are compared by the trailing zeros of their difference, and four, two and
one byte at the end: the count is the longest one inside the limit.
-/

namespace LibSpaces.Lz4

open LibSpaces.Base LibSpaces.Base.Memory

/-! ### The hash table -/

/-- `tableType_t` without pointers. -/
inductive TableType
  | byU32
  | byU16

/-- `LZ4_HASHLOG`. -/
def hashLog : ℕ := 12

/-- `LZ4_hashSequence`. -/
def hashSequence (sequence : UInt32) (tableType : TableType) : ℕ :=
  match tableType with
  | .byU16 => ((sequence * 2654435761) >>> (UInt32.ofNat (minMatch * 8 - (hashLog + 1)))).toNat
  | .byU32 => ((sequence * 2654435761) >>> (UInt32.ofNat (minMatch * 8 - hashLog))).toNat

/-- `A32`, `A64` and their kind. -/
def word (src : Memory) (p : ℤ) (width : ℕ) : ℕ := ofLeBytes (slice src p width)

/-- `LZ4_hashPosition`. -/
def hashPosition (src : Memory) (p : ℤ) (tableType : TableType) : ℕ :=
  hashSequence (UInt32.ofNat (word src p 4)) tableType

/-- The last position with each hash. -/
abbrev HashTable := ℕ → ℕ

/-- `LZ4_putPositionOnHash`. -/
def HashTable.putPositionOnHash (table : HashTable) (p : ℤ) (h : ℕ) (tableType : TableType) :
    HashTable :=
  match tableType with
  | .byU16 => Function.update table h (p.toNat % 2 ^ 16)
  | .byU32 => Function.update table h (p.toNat % 2 ^ 32)

/-- `LZ4_putPosition`. -/
def HashTable.putPosition (table : HashTable) (src : Memory) (p : ℤ) (tableType : TableType) :
    HashTable :=
  table.putPositionOnHash p (hashPosition src p tableType) tableType

/-- `LZ4_getPosition`. -/
def HashTable.getPosition (table : HashTable) (src : Memory) (p : ℤ) (tableType : TableType) : ℤ :=
  table (hashPosition src p tableType)

/-- The condition that a found position is too far away or holds other bytes. -/
def isFar (src : Memory) (ref ip : ℤ) : Bool :=
  ref + maxDistance < ip || word src ref 4 != word src ip 4

/-- The loop that finds a match; `attempts` counts its rounds, and what is far is passed over with
growing steps. `none` goes to the last literals. -/
def findMatch (src : Memory) (tableType : TableType) (mflimit : ℤ) (table : HashTable)
    (forwardIp : ℤ) (forwardH attempts : ℕ) : Option (ℤ × ℤ × HashTable) :=
  if mflimit < forwardIp + ((2 ^ 6 + 3 + attempts) >>> 6 : ℕ) then none
  else if isFar src (table forwardH) forwardIp then
    findMatch src tableType mflimit (table.putPositionOnHash forwardIp forwardH tableType)
      (forwardIp + ((2 ^ 6 + 3 + attempts) >>> 6 : ℕ))
      (hashPosition src (forwardIp + ((2 ^ 6 + 3 + attempts) >>> 6 : ℕ)) tableType) (attempts + 1)
  else
    some (forwardIp, table forwardH, table.putPositionOnHash forwardIp forwardH tableType)
termination_by (mflimit - forwardIp).toNat
decreasing_by
  rw [Nat.shiftRight_eq_div_pow] at *
  omega

/-- The loop that moves a match back over equal bytes. -/
def catchUp (src : Memory) (anchor ip ref : ℤ) : ℤ × ℤ :=
  if anchor < ip ∧ 0 < ref ∧ src (ip - 1) = src (ref - 1) then
    catchUp src anchor (ip - 1) (ref - 1)
  else (ip, ref)
termination_by (ip - anchor).toNat

/-! ### Counting -/

/-- `__builtin_ctzll`, of a number that is not zero, with the number of bits. -/
def ctz : ℕ → ℕ → ℕ
  | 0, _ => 0
  | n + 1, val => if val % 2 = 1 then 0 else ctz n (val / 2) + 1

/-- `LZ4_NbCommonBytes`. -/
def nbCommonBytes (val : ℕ) : ℕ := ctz 64 val >>> 3

/-- The comparison of the last byte. -/
def countByte (src : Memory) (ip ref matchlimit : ℤ) : ℤ :=
  if ip < matchlimit ∧ src ref = src ip then ip + 1 else ip

/-- The comparisons of two bytes and of one. -/
def countHalf (src : Memory) (ip ref matchlimit : ℤ) : ℤ :=
  if ip < matchlimit - 1 ∧ word src ref 2 = word src ip 2 then
    countByte src (ip + 2) (ref + 2) matchlimit
  else countByte src ip ref matchlimit

/-- The comparisons of four, two and one byte behind the loop of words. -/
def countTail (src : Memory) (ip ref matchlimit : ℤ) : ℤ :=
  if ip < matchlimit - 3 ∧ word src ref 4 = word src ip 4 then
    countHalf src (ip + 4) (ref + 4) matchlimit
  else countHalf src ip ref matchlimit

/-- The counting of a match: where it ends. -/
def countMatch (src : Memory) (ip ref matchlimit : ℤ) : ℤ :=
  if ip < matchlimit - 7 then
    let diff := word src ref 8 ^^^ word src ip 8
    if diff = 0 then countMatch src (ip + 8) (ref + 8) matchlimit
    else ip + nbCommonBytes diff
  else countTail src ip ref matchlimit
termination_by (matchlimit - ip).toNat

/-! ### Words -/

variable {src : Memory} {ip ref anchor matchlimit : ℤ}

private theorem ofLeBytes_append {xs ys : Bytes} :
    ofLeBytes (xs ++ ys) = ofLeBytes xs + 256 ^ xs.length * ofLeBytes ys := by
  induction xs with
  | nil => simp [ofLeBytes]
  | cons x xs ih =>
    rw [List.cons_append, ofLeBytes, ih, ofLeBytes, List.length_cons, pow_succ]
    ring

private theorem ofLeBytes_inj {xs ys : Bytes} (hlength : xs.length = ys.length) :
    ofLeBytes xs = ofLeBytes ys ↔ xs = ys := by
  constructor
  · intro h
    rw [← leBytes_ofLeBytes xs, h, hlength, leBytes_ofLeBytes]
  · rintro rfl
    rfl

/-- Equal words are equal bytes. -/
theorem word_eq_iff {width : ℕ} :
    word src ref width = word src ip width ↔ ∀ i < width, src (ref + i) = src (ip + i) := by
  rw [word, word, ofLeBytes_inj (by simp), slice_eq_iff]

private theorem word_mod {p : ℤ} {width count : ℕ} (h : count ≤ width) :
    word src p width % 2 ^ (8 * count) = word src p count := by
  obtain ⟨rest, rfl⟩ := Nat.exists_eq_add_of_le h
  have hlt := ofLeBytes_lt (slice src p count)
  rw [length_slice] at hlt
  have hpow : 2 ^ (8 * count) = 256 ^ count := pow_mul 2 8 count
  rw [word, slice_add, ofLeBytes_append, length_slice, hpow, Nat.add_mul_mod_self_left]
  exact Nat.mod_eq_of_lt hlt

private theorem dvd_ctz_iff {n j val : ℕ} (h : j ≤ n) : 2 ^ j ∣ val ↔ j ≤ ctz n val := by
  induction n generalizing j val with
  | zero =>
    obtain rfl : j = 0 := by omega
    simp
  | succ n ih =>
    rw [ctz]
    cases j with
    | zero => simp
    | succ j =>
      rw [pow_succ']
      split
      · next hodd =>
        constructor
        · rintro ⟨k, rfl⟩
          rw [mul_assoc, Nat.mul_mod_right] at hodd
          exact absurd hodd (by decide)
        · intro hj
          exact absurd hj (by omega)
      · next heven =>
        obtain ⟨k, rfl⟩ : ∃ k, val = 2 * k := ⟨val / 2, by omega⟩
        rw [Nat.mul_dvd_mul_iff_left (by decide), Nat.mul_div_cancel_left _ (by decide),
          ih (by omega)]
        omega

private theorem ctz_le {n val : ℕ} : ctz n val ≤ n := by
  induction n generalizing val with
  | zero => exact le_rfl
  | succ n ih =>
    rw [ctz]
    split
    · exact Nat.zero_le _
    · exact Nat.succ_le_succ ih

private theorem nbCommonBytes_le {val : ℕ} : nbCommonBytes val ≤ 8 := by
  have h : ctz 64 val ≤ 64 := ctz_le
  rw [nbCommonBytes, Nat.shiftRight_eq_div_pow]
  omega

private theorem xor_eq_zero_iff {a b : ℕ} : a ^^^ b = 0 ↔ a = b := by
  constructor
  · intro h
    rw [← Nat.xor_zero a, ← Nat.xor_self b, ← Nat.xor_assoc, h, Nat.zero_xor]
  · rintro rfl
    exact Nat.xor_self a

/-- The count of a difference is the number of common bytes. -/
theorem nbCommonBytes_spec {k : ℕ} (h : k ≤ 8) :
    k ≤ nbCommonBytes (word src ref 8 ^^^ word src ip 8) ↔
      ∀ i < k, src (ref + i) = src (ip + i) := by
  have hdvd : 8 * k ≤ ctz 64 (word src ref 8 ^^^ word src ip 8) ↔
      ∀ i < k, src (ref + i) = src (ip + i) := by
    rw [← dvd_ctz_iff (by omega), Nat.dvd_iff_mod_eq_zero, Nat.xor_mod_two_pow, xor_eq_zero_iff,
      word_mod h, word_mod h, word_eq_iff]
  rw [← hdvd, nbCommonBytes, Nat.shiftRight_eq_div_pow]
  omega

/-! ### The longest match -/

/-- The first `k` bytes at two positions are the same. -/
def Common (src : Memory) (ref ip : ℤ) (k : ℕ) : Prop := ∀ i < k, src (ref + i) = src (ip + i)

/-- No more than `n` bytes inside the limit are common. -/
def CommonLe (src : Memory) (ref ip limit : ℤ) (n : ℕ) : Prop :=
  ∀ k : ℕ, ip + k ≤ limit → Common src ref ip k → k ≤ n

/-- `k` is the greatest number of common bytes inside the limit. -/
structure Longest (src : Memory) (ref ip limit : ℤ) (k : ℕ) : Prop where
  common : Common src ref ip k
  inside : ip + k ≤ limit
  greatest : CommonLe src ref ip limit k

private theorem Common.mono {k l : ℕ} (h : Common src ref ip k) (hl : l ≤ k) :
    Common src ref ip l :=
  fun i hi ↦ h i (hi.trans_le hl)

/-- Common bytes in two parts, one behind the other. -/
theorem common_add {k l : ℕ} :
    Common src ref ip (k + l) ↔ Common src ref ip k ∧ Common src (ref + k) (ip + k) l := by
  constructor
  · intro h
    refine ⟨h.mono (Nat.le_add_right _ _), fun i hi ↦ ?_⟩
    have := h (k + i) (by omega)
    rwa [Nat.cast_add, ← add_assoc, ← add_assoc] at this
  · rintro ⟨hk, hl⟩ i hi
    by_cases h : i < k
    · exact hk i h
    · obtain ⟨j, rfl⟩ := Nat.exists_eq_add_of_le (Nat.le_of_not_lt h)
      have := hl j (by omega)
      rwa [Nat.cast_add, ← add_assoc, ← add_assoc]

private theorem Longest.add {k l : ℕ} (hk : Common src ref ip k)
    (hl : Longest src (ref + k) (ip + k) matchlimit l) : Longest src ref ip matchlimit (k + l) where
  common := common_add.2 ⟨hk, hl.common⟩
  inside := by
    have := hl.inside
    omega
  greatest j hj hcommon := by
    by_cases h : j < k
    · omega
    · obtain ⟨m, rfl⟩ := Nat.exists_eq_add_of_le (Nat.le_of_not_lt h)
      have := hl.greatest m (by omega) (common_add.1 hcommon).2
      omega

private theorem CommonLe.shift {k n : ℕ} (h : CommonLe src ref ip matchlimit (k + n))
    (hk : Common src ref ip k) : CommonLe src (ref + k) (ip + k) matchlimit n := by
  intro j hj hcommon
  have := h (k + j) (by omega) (common_add.2 ⟨hk, hcommon⟩)
  omega

private theorem CommonLe.cut {k : ℕ} (h : ¬(ip < matchlimit - k ∧ Common src ref ip (k + 1))) :
    CommonLe src ref ip matchlimit k := by
  intro j hj hcommon
  by_contra hlt
  exact h ⟨by omega, hcommon.mono (by omega)⟩

/-- What a counting function gives when no more than `n` bytes are common. -/
def Counts (src : Memory) (matchlimit : ℤ) (n : ℕ) (count : ℤ → ℤ → ℤ) : Prop :=
  ∀ ip ref, ip ≤ matchlimit → CommonLe src ref ip matchlimit n →
    ∃ k : ℕ, count ip ref = ip + k ∧ Longest src ref ip matchlimit k

/-- A comparison of `n + 1` bytes before a count of at most `n` bytes. -/
theorem Counts.compare {count : ℤ → ℤ → ℤ} {n : ℕ} (h : Counts src matchlimit n count) :
    Counts src matchlimit (n + 1 + n) fun ip ref ↦
      if ip < matchlimit - n ∧ word src ref (n + 1) = word src ip (n + 1) then
        count (ip + (n + 1 : ℕ)) (ref + (n + 1 : ℕ))
      else count ip ref := by
  intro ip ref hlow hle
  dsimp only
  split
  · next hsame =>
    have hcommon : Common src ref ip (n + 1) := word_eq_iff.1 hsame.2
    obtain ⟨k, hk, hlongest⟩ := h _ _ (by omega) (hle.shift hcommon)
    refine ⟨n + 1 + k, ?_, hlongest.add hcommon⟩
    rw [hk]
    omega
  · next hsame =>
    exact h ip ref hlow (.cut fun hcommon ↦ hsame ⟨hcommon.1, word_eq_iff.2 hcommon.2⟩)

private theorem counts_byte :
    Counts src matchlimit 1 fun ip ref ↦ countByte src ip ref matchlimit := by
  have hnone : Counts src matchlimit 0 fun ip _ ↦ ip := fun ip ref hlow hle ↦
    ⟨0, by simp, fun i hi ↦ absurd hi (by omega), by omega, hle⟩
  intro ip ref hlow hle
  obtain ⟨k, hk, hlongest⟩ := hnone.compare ip ref hlow hle
  refine ⟨k, ?_, hlongest⟩
  simpa [countByte, word_eq_iff] using hk

private theorem counts_half :
    Counts src matchlimit 3 fun ip ref ↦ countHalf src ip ref matchlimit :=
  counts_byte.compare

private theorem counts_tail :
    Counts src matchlimit 7 fun ip ref ↦ countTail src ip ref matchlimit :=
  counts_half.compare

/-- The counted match is the longest one inside the limit. -/
theorem countMatch_spec (src : Memory) (ref : ℤ) (hlow : ip ≤ matchlimit) :
    ∃ k : ℕ, countMatch src ip ref matchlimit = ip + k ∧ Longest src ref ip matchlimit k := by
  fun_induction countMatch src ip ref matchlimit with
  | case1 ip ref hlt diff hdiff ih =>
    have hword : Common src ref ip 8 := word_eq_iff.1 (xor_eq_zero_iff.1 hdiff)
    obtain ⟨k, hk, hlongest⟩ := ih (by omega)
    refine ⟨8 + k, ?_, Longest.add hword hlongest⟩
    rw [hk]
    omega
  | case2 ip ref hlt diff hdiff =>
    have hle : nbCommonBytes diff ≤ 8 := nbCommonBytes_le
    refine ⟨nbCommonBytes diff, rfl, (nbCommonBytes_spec hle).1 le_rfl, by omega, ?_⟩
    intro k hk hcommon
    by_cases h : k ≤ 8
    · exact (nbCommonBytes_spec h).2 hcommon
    · exact absurd (xor_eq_zero_iff.2 (word_eq_iff.2 (hcommon.mono (by omega)))) hdiff
  | case3 ip ref hge =>
    exact counts_tail ip ref hlow fun k hk _ ↦ by omega

/-! ### What is found -/

/-- All positions in the table are before `p`. -/
def TableBelow (table : HashTable) (p : ℤ) : Prop := ∀ h, (table h : ℤ) < p

/-- The positions in the table are below every later one. -/
theorem TableBelow.mono {table : HashTable} {p q : ℤ} (h : TableBelow table p) (hle : p ≤ q) :
    TableBelow table q := fun i ↦ (h i).trans_le hle

/-- A position below the bound may be put into the table. -/
theorem TableBelow.putPositionOnHash {table : HashTable} {p q : ℤ} (h : TableBelow table q)
    (hlt : p < q) (i : ℕ) (tableType : TableType) :
    TableBelow (table.putPositionOnHash p i tableType) q := by
  have hq : 0 < q := (Int.natCast_nonneg _).trans_lt (h i)
  intro j
  -- a position is stored modulo the width of the table's entries
  have hmod (width : ℕ) : ((p.toNat % width : ℕ) : ℤ) < q := by
    have := Nat.mod_le p.toNat width
    omega
  cases tableType with
  | byU32 =>
    rw [HashTable.putPositionOnHash, Function.update_apply]
    split
    · exact hmod _
    · exact h j
  | byU16 =>
    rw [HashTable.putPositionOnHash, Function.update_apply]
    split
    · exact hmod _
    · exact h j

/-- A reference is used where it is in reach and its first four bytes are common. -/
theorem not_isFar_iff :
    isFar src ref ip = false ↔ ip ≤ ref + maxDistance ∧ Common src ref ip 4 := by
  rw [isFar, Bool.or_eq_false_iff, decide_eq_false_iff_not, bne_eq_false_iff_eq, word_eq_iff,
    not_lt]
  rfl

/-- A found match has four common bytes at an earlier position that is close enough. -/
theorem findMatch_spec {tableType : TableType} {mflimit forwardIp : ℤ} {table table' : HashTable}
    {forwardH attempts : ℕ}
    (h : findMatch src tableType mflimit table forwardIp forwardH attempts = some (ip, ref, table'))
    (hbelow : TableBelow table forwardIp) :
    forwardIp ≤ ip ∧ ip < mflimit ∧ 0 ≤ ref ∧ ref < ip ∧ ip ≤ ref + maxDistance ∧
      Common src ref ip 4 ∧ TableBelow table' (ip + 1) := by
  fun_induction findMatch src tableType mflimit table forwardIp forwardH attempts with
  | case1 => cases h
  | case2 table forwardIp forwardH attempts hlimit hfar ih =>
    have hstep : 1 ≤ (2 ^ 6 + 3 + attempts) >>> 6 := by
      rw [Nat.shiftRight_eq_div_pow]
      omega
    obtain ⟨hle, hrest⟩ :=
      ih h ((hbelow.mono (by omega)).putPositionOnHash (by omega) forwardH tableType)
    exact ⟨by omega, hrest⟩
  | case3 table forwardIp forwardH attempts hlimit hfar =>
    cases h
    have hstep : 1 ≤ (2 ^ 6 + 3 + attempts) >>> 6 := by
      rw [Nat.shiftRight_eq_div_pow]
      omega
    obtain ⟨hclose, hcommon⟩ := not_isFar_iff.1 (Bool.not_eq_true _ ▸ hfar)
    exact ⟨le_rfl, by omega, Int.natCast_nonneg _, hbelow _, hclose, hcommon,
      (hbelow.mono (by omega)).putPositionOnHash (by omega) forwardH tableType⟩

/-- Moved back, a match has as many more common bytes. -/
theorem catchUp_spec (src : Memory) (hanchor : anchor ≤ ip) (href : 0 ≤ ref) :
    ∃ k : ℕ, catchUp src anchor ip ref = (ip - k, ref - k) ∧ anchor ≤ ip - k ∧ 0 ≤ ref - k ∧
      Common src (ref - k) (ip - k) k := by
  fun_induction catchUp src anchor ip ref with
  | case1 ip ref hback ih =>
    obtain ⟨k, hk, hle, hpos, hcommon⟩ := ih (by omega) (by omega)
    have hip : ip - 1 - k = ip - (k + 1 : ℕ) := by omega
    have href : ref - 1 - k = ref - (k + 1 : ℕ) := by omega
    rw [hip, href] at hk hcommon
    rw [hip] at hle
    rw [href] at hpos
    refine ⟨k + 1, hk, hle, hpos, common_add.2 ⟨hcommon, fun i hi ↦ ?_⟩⟩
    obtain rfl : i = 0 := by omega
    convert hback.2.2.symm using 2 <;> omega
  | case2 ip ref hback =>
    exact ⟨0, by simp, by simpa using hanchor, by simpa using href,
      fun i hi ↦ absurd hi (by omega)⟩

end LibSpaces.Lz4
