import Mathlib.Data.Nat.Size
import LibSpaces.Stx.Leb128

/-!
# Unsigned LEB128

`src/src/stx/storage/leb128.h:33–63,130–148,191–201,257–277`. The writer takes values of 64 bits,
one reader has 64 and one 32, and the function that says how many bytes are written takes 32.
-/

namespace LibSpaces.Stx

open LibSpaces.Base

/-- The loop of `write_unsigned`; `fuel` bounds its rounds. -/
def writeUnsignedLoop : ℕ → ℕ → Bytes
  | 0, _ => []
  | fuel + 1, data =>
    let out := UInt8.ofNat (data % 128)
    if out.toNat ≠ data then (out ||| 0x80) :: writeUnsignedLoop fuel (data / 128)
    else [out]

/-- `write_unsigned`, `leb128.h:130–148`. -/
def writeUnsigned (data : UInt64) : Bytes := writeUnsignedLoop 10 data.toNat

/-- The loop of `unsigned_size`. -/
def unsignedSizeLoop : ℕ → ℕ → ℕ
  | 0, _ => 0
  | fuel + 1, data =>
    let data := data / 128
    if data ≠ 0 then unsignedSizeLoop fuel data + 1 else 1

/-- `unsigned_size`, `leb128.h:191–201`. -/
def unsignedSize (data : UInt32) : ℕ := unsignedSizeLoop 5 data.toNat

/-- `read_unsigned`, `leb128.h:33–63`: at most five bytes are read, the last one as it is. -/
def readUnsigned : Bytes → Option (BitVec 32 × Bytes)
  | [] => none
  | b₀ :: p =>
    if b₀ ≤ 0x7f then some (widen 32 b₀, p)
    else match p with
      | [] => none
      | b₁ :: p =>
        let result := widen 32 (b₀ &&& 0x7f) ||| widen 32 (b₁ &&& 0x7f) <<< 7
        if b₁ ≤ 0x7f then some (result, p)
        else match p with
          | [] => none
          | b₂ :: p =>
            let result := result ||| widen 32 (b₂ &&& 0x7f) <<< 14
            if b₂ ≤ 0x7f then some (result, p)
            else match p with
              | [] => none
              | b₃ :: p =>
                let result := result ||| widen 32 (b₃ &&& 0x7f) <<< 21
                if b₃ ≤ 0x7f then some (result, p)
                else match p with
                  | [] => none
                  | b₄ :: p => some (result ||| widen 32 b₄ <<< 28, p)

/-- The loop of `read_unsigned64`. -/
def readUnsigned64Loop : Bytes → ℕ → BitVec 64 → Option (BitVec 64 × Bytes)
  | [], _, _ => none
  | byte :: p, shift, result =>
    let result := result ||| widen 64 (byte &&& 0x7f) <<< shift
    if byte &&& 0x80 = 0 then some (result, p)
    else readUnsigned64Loop p (shift + 7) result

/-- `read_unsigned64`, `leb128.h:257–277`: at the end of the buffer it is `0` and nothing is
read. -/
def readUnsigned64 (start : Bytes) : UInt64 × Bytes :=
  ((readUnsigned64Loop start 0 0).map fun r ↦ (UInt64.ofBitVec r.1, r.2)).getD (0, start)

/-! ### What is written -/

private theorem writeUnsignedLoop_last {data : ℕ} (h : data < 128) (fuel : ℕ) :
    writeUnsignedLoop (fuel + 1) data = [UInt8.ofNat data] := by
  have hmod : data % 128 = data := Nat.mod_eq_of_lt h
  simp only [writeUnsignedLoop, hmod, (byte_facts data h).1, ne_eq, not_true_eq_false, if_false]

private theorem writeUnsignedLoop_next {data : ℕ} (h : 128 ≤ data) (fuel : ℕ) :
    writeUnsignedLoop (fuel + 1) data =
      (UInt8.ofNat (data % 128) ||| 0x80) :: writeUnsignedLoop fuel (data / 128) := by
  have hlt : data % 128 < 128 := Nat.mod_lt _ (by decide)
  have hne : (UInt8.ofNat (data % 128)).toNat ≠ data := by
    rw [(byte_facts _ hlt).1]
    omega
  simp only [writeUnsignedLoop, if_pos hne]

/-- The number of groups of seven bits in a number. -/
def groups (data : ℕ) : ℕ := max 1 ((data.size + 6) / 7)

/-- A number takes at most `k` bytes exactly where it has seven bits for each of them. -/
theorem groups_le_iff {data k : ℕ} (hk : 0 < k) : groups data ≤ k ↔ data < 2 ^ (7 * k) := by
  rw [← Nat.size_le, groups]
  omega

private theorem groups_of_lt {data : ℕ} (h : data < 128) : groups data = 1 := by
  have hle : groups data ≤ 1 := (groups_le_iff Nat.one_pos).2 h
  have hge : 1 ≤ groups data := le_max_left _ _
  omega

private theorem groups_div {data : ℕ} (h : 128 ≤ data) : groups (data / 128) + 1 = groups data := by
  have hle (k : ℕ) (hk : 0 < k) : groups (data / 128) ≤ k ↔ groups data ≤ k + 1 := by
    rw [groups_le_iff hk, groups_le_iff (Nat.succ_pos k), Nat.div_lt_iff_lt_mul (by decide),
      ← Nat.pow_add 2 _ 7]
    rfl
  have hpos : 1 ≤ groups (data / 128) := le_max_left _ _
  have hgt : ¬ groups data ≤ 1 := by
    rw [groups_le_iff Nat.one_pos]
    omega
  have hup := (hle (groups (data / 128)) hpos).1 le_rfl
  have hdown := (hle (groups data - 1) (by omega)).2 (by omega)
  omega

private theorem length_writeUnsignedLoop {fuel data : ℕ} (hfuel : data < 2 ^ (7 * (fuel + 1))) :
    (writeUnsignedLoop (fuel + 1) data).length = groups data := by
  induction fuel generalizing data with
  | zero => rw [writeUnsignedLoop_last hfuel, groups_of_lt hfuel, List.length_singleton]
  | succ fuel ih =>
    by_cases h : data < 128
    · rw [writeUnsignedLoop_last h, groups_of_lt h, List.length_singleton]
    · have hge : 128 ≤ data := Nat.le_of_not_lt h
      have hdiv : data / 128 < 2 ^ (7 * (fuel + 1)) := by
        rw [Nat.div_lt_iff_lt_mul (by decide), ← Nat.pow_add 2 _ 7]
        exact hfuel
      rw [writeUnsignedLoop_next hge, List.length_cons, ih hdiv, groups_div hge]

/-- One byte is written for each group. -/
theorem length_writeUnsigned (data : UInt64) :
    (writeUnsigned data).length = groups data.toNat := by
  have hlt := data.toNat_lt
  exact length_writeUnsignedLoop (by omega)

private theorem unsignedSizeLoop_eq {fuel data : ℕ} (hfuel : data < 2 ^ (7 * (fuel + 1))) :
    unsignedSizeLoop (fuel + 1) data = groups data := by
  induction fuel generalizing data with
  | zero =>
    have hdiv : data / 128 = 0 := Nat.div_eq_of_lt hfuel
    simp [unsignedSizeLoop, hdiv, groups_of_lt hfuel]
  | succ fuel ih =>
    rw [unsignedSizeLoop]
    by_cases h : data < 128
    · have hdiv : data / 128 = 0 := Nat.div_eq_of_lt h
      simp [hdiv, groups_of_lt h]
    · have hge : 128 ≤ data := Nat.le_of_not_lt h
      have hdiv : data / 128 < 2 ^ (7 * (fuel + 1)) := by
        rw [Nat.div_lt_iff_lt_mul (by decide), ← Nat.pow_add 2 _ 7]
        exact hfuel
      rw [if_pos (by omega), ih hdiv, groups_div hge]

/-- Only the groups of the low 32 bits are counted. -/
theorem unsignedSize_eq (data : UInt32) : unsignedSize data = groups data.toNat := by
  have hlt := data.toNat_lt
  exact unsignedSizeLoop_eq (by omega)

/-- A smaller number takes no more bytes. -/
theorem groups_le_of_le {m n : ℕ} (h : m ≤ n) : groups m ≤ groups n := by
  have hpos : 0 < groups n := Nat.lt_of_lt_of_le Nat.one_pos (le_max_left _ _)
  exact (groups_le_iff hpos).2 (h.trans_lt ((groups_le_iff hpos).1 le_rfl))

/-- The values of which the low 32 bits have as many groups as all bits. -/
theorem groups_mod_eq_iff {data : ℕ} :
    groups (data % 2 ^ 32) = groups data ↔
      data < 2 ^ 32 ∨ (data < 2 ^ 35 ∧ 2 ^ 28 ≤ data % 2 ^ 32) := by
  have hlow : groups (data % 2 ^ 32) ≤ 5 := (groups_le_iff (by decide)).2 (by omega)
  by_cases hlt : data < 2 ^ 32
  · rw [Nat.mod_eq_of_lt hlt]
    exact ⟨fun _ ↦ .inl hlt, fun _ ↦ rfl⟩
  · have hfour : ¬ groups data ≤ 4 := by
      rw [groups_le_iff (by decide)]
      omega
    have hfive : groups data ≤ 5 ↔ data < 2 ^ 35 := groups_le_iff (by decide)
    have hlow' : groups (data % 2 ^ 32) ≤ 4 ↔ data % 2 ^ 32 < 2 ^ 28 := groups_le_iff (by decide)
    omega

/-- With enough rounds the bytes are complete and denote the value. -/
theorem coded_writeUnsignedLoop {fuel data : ℕ} (hfuel : data < 2 ^ (7 * (fuel + 1))) :
    Coded (writeUnsignedLoop (fuel + 1) data) ∧
      unsignedValue (writeUnsignedLoop (fuel + 1) data) = data := by
  have hlast {data : ℕ} (h : data < 128) (fuel : ℕ) :
      Coded (writeUnsignedLoop (fuel + 1) data) ∧
        unsignedValue (writeUnsignedLoop (fuel + 1) data) = data := by
    obtain ⟨-, -, hend, hgroup, -⟩ := byte_facts data h
    rw [writeUnsignedLoop_last h]
    exact ⟨.last hend, by simp [unsignedValue, hgroup]⟩
  induction fuel generalizing data with
  | zero => exact hlast hfuel 0
  | succ fuel ih =>
    by_cases h : data < 128
    · exact hlast h (fuel + 1)
    have hdiv : data / 128 < 2 ^ (7 * (fuel + 1)) := by
      rw [Nat.div_lt_iff_lt_mul (by decide), ← Nat.pow_add 2 _ 7]
      exact hfuel
    obtain ⟨-, -, -, -, hmore, hgroup⟩ := byte_facts (data % 128) (Nat.mod_lt _ (by decide))
    obtain ⟨hcoded, hvalue⟩ := ih hdiv
    rw [writeUnsignedLoop_next (Nat.le_of_not_lt h), unsignedValue, hvalue, hgroup]
    exact ⟨.more hmore hcoded, Nat.mod_add_div data 128⟩

/-- Every value of 64 bits is written in complete bytes. -/
theorem coded_writeUnsigned (data : UInt64) :
    Coded (writeUnsigned data) ∧ unsignedValue (writeUnsigned data) = data.toNat := by
  have hlt := data.toNat_lt
  exact coded_writeUnsignedLoop (by omega)

/-! ### What is read -/

/-- The 64-bit reader reads what complete bytes denote, behind the groups `q`. -/
theorem readUnsigned64Loop_append {p : Bytes} (hp : Coded p) (rest q : Bytes) {shift : ℕ}
    (hshift : shift = 7 * q.length) :
    readUnsigned64Loop (p ++ rest) shift (BitVec.ofNat 64 (unsignedValue q)) =
      some (BitVec.ofNat 64 (unsignedValue (q ++ p)), rest) := by
  induction hp generalizing q shift with
  | @last b hb =>
    simp only [List.singleton_append, readUnsigned64Loop, or_group q b hshift, if_pos hb]
  | @more b p hb hp ih =>
    have hlen : shift + 7 = 7 * (q ++ [b]).length := by
      rw [List.length_append, List.length_singleton]
      omega
    rw [List.cons_append, readUnsigned64Loop, or_group q b hshift, if_neg hb, ih _ hlen,
      List.append_assoc, List.singleton_append]

/-- `read_unsigned64` returns what complete bytes denote and stops behind them. -/
theorem readUnsigned64_append {p : Bytes} (hp : Coded p) (rest : Bytes) :
    readUnsigned64 (p ++ rest) = (UInt64.ofNat (unsignedValue p), rest) := by
  have h : readUnsigned64Loop (p ++ rest) 0 0 = some (BitVec.ofNat 64 (unsignedValue p), rest) :=
    readUnsigned64Loop_append hp rest [] rfl
  rw [readUnsigned64, h, Option.map_some, Option.getD_some]
  rfl

/-- Before the last byte nothing is read. -/
theorem readUnsigned64Loop_unfinished {p : Bytes} (hp : ∀ b ∈ p, b &&& 0x80 ≠ 0) (shift : ℕ)
    (result : BitVec 64) : readUnsigned64Loop p shift result = none := by
  induction p generalizing shift result with
  | nil => rfl
  | cons b p ih =>
    rw [readUnsigned64Loop, if_neg (hp b List.mem_cons_self)]
    exact ih (fun c hc ↦ hp c (List.mem_cons_of_mem b hc)) _ _

private theorem readUnsigned64_unfinished {p : Bytes} (hp : ∀ b ∈ p, b &&& 0x80 ≠ 0) :
    readUnsigned64 p = (0, p) := by
  rw [readUnsigned64, readUnsigned64Loop_unfinished hp, Option.map_none, Option.getD_none]

/-- `read_unsigned` returns what at most five complete bytes denote and stops behind them. -/
theorem readUnsigned_append {p : Bytes} (hp : Coded p) (hlen : p.length ≤ 5) (rest : Bytes) :
    readUnsigned (p ++ rest) = some (BitVec.ofNat 32 (unsignedValue p), rest) := by
  rcases hp with @⟨b₀, h₀⟩ | @⟨b₀, _, m₀, @⟨b₁, h₁⟩ | @⟨b₁, _, m₁, @⟨b₂, h₂⟩ |
    @⟨b₂, _, m₂, @⟨b₃, h₃⟩ | @⟨b₃, _, m₃, @⟨b₄, h₄⟩ | ⟨_, hp⟩⟩⟩⟩⟩
  · simp only [List.cons_append, List.nil_append, readUnsigned, if_pos (le_of_last h₀),
      widen_last h₀]
  · simp only [List.cons_append, List.nil_append, readUnsigned, if_neg (not_le_of_more m₀),
      if_pos (le_of_last h₁), two_groups]
  · simp only [List.cons_append, List.nil_append, readUnsigned, if_neg (not_le_of_more m₀),
      if_neg (not_le_of_more m₁), if_pos (le_of_last h₂), two_groups, three_groups]
  · simp only [List.cons_append, List.nil_append, readUnsigned, if_neg (not_le_of_more m₀),
      if_neg (not_le_of_more m₁), if_neg (not_le_of_more m₂), if_pos (le_of_last h₃), two_groups,
      three_groups, four_groups]
  · simp only [List.cons_append, List.nil_append, readUnsigned, if_neg (not_le_of_more m₀),
      if_neg (not_le_of_more m₁), if_neg (not_le_of_more m₂), if_neg (not_le_of_more m₃),
      two_groups, three_groups, four_groups, five_groups _ _ _ _ h₄]
  · have hpos := List.length_pos_iff.2 hp.ne_nil
    simp only [List.length_cons] at hlen
    omega

/-! ### What was written is read -/

/-- Every value of 64 bits is read back. -/
theorem readUnsigned64_write (data : UInt64) (rest : Bytes) :
    readUnsigned64 (writeUnsigned data ++ rest) = (data, rest) := by
  obtain ⟨hcoded, hvalue⟩ := coded_writeUnsigned data
  rw [readUnsigned64_append hcoded, hvalue, UInt64.ofNat_toNat]

/-- Both readers agree on what is written of an unsigned value of 32 bits. -/
theorem readUnsigned_readUnsigned64_writeUnsigned (v : UInt32) (rest : Bytes) :
    readUnsigned (writeUnsigned v.toUInt64 ++ rest) = some (v.toBitVec, rest) ∧
      readUnsigned64 (writeUnsigned v.toUInt64 ++ rest) = (v.toUInt64, rest) := by
  obtain ⟨hcoded, hvalue⟩ := coded_writeUnsigned v.toUInt64
  have hlt := v.toNat_lt
  have hlen : (writeUnsigned v.toUInt64).length ≤ 5 := by
    rw [length_writeUnsigned, groups_le_iff (by decide), UInt32.toNat_toUInt64]
    omega
  refine ⟨?_, readUnsigned64_write _ _⟩
  rw [readUnsigned_append hcoded hlen, hvalue, UInt32.toNat_toUInt64, ← UInt32.toNat_toBitVec,
    BitVec.ofNat_toNat, BitVec.setWidth_eq]

/-- The integers are read back: what is written of a signed and of an unsigned value of 64 bits,
with its size; what is written of a value of 32 bits, by both readers; and of a buffer without a
last byte nothing is read. -/
theorem leb128_read_back :
    (∀ (v : BitVec 64) (rest : Bytes),
      (writeSigned v.toInt).length = signedSize v.toInt ∧
        readSigned64 (writeSigned v.toInt ++ rest) = (v, rest)) ∧
    (∀ (v : UInt64) (rest : Bytes),
      (writeUnsigned v).length = groups v.toNat ∧
        readUnsigned64 (writeUnsigned v ++ rest) = (v, rest)) ∧
    (∀ v : UInt32, (writeUnsigned v.toUInt64).length = unsignedSize v) ∧
    (∀ (v : BitVec 32) (rest : Bytes),
      readSigned (writeSigned v.toInt ++ rest) = some (v, rest) ∧
        readSigned64 (writeSigned v.toInt ++ rest) = (v.signExtend 64, rest)) ∧
    (∀ (v : UInt32) (rest : Bytes),
      readUnsigned (writeUnsigned v.toUInt64 ++ rest) = some (v.toBitVec, rest) ∧
        readUnsigned64 (writeUnsigned v.toUInt64 ++ rest) = (v.toUInt64, rest)) ∧
    ∀ start : Bytes, (∀ b ∈ start, b &&& 0x80 ≠ 0) →
      readSigned64 start = (0, start) ∧ readUnsigned64 start = (0, start) := by
  refine ⟨fun v rest ↦ ⟨length_writeSigned _, readSigned64_writeSigned v rest⟩,
    fun v rest ↦ ⟨length_writeUnsigned v, readUnsigned64_write v rest⟩, fun v ↦ ?_,
    readSigned_readSigned64_writeSigned, readUnsigned_readUnsigned64_writeUnsigned,
    fun start hstart ↦ ⟨readSigned64_unfinished hstart, readUnsigned64_unfinished hstart⟩⟩
  rw [length_writeUnsigned, unsignedSize_eq, UInt32.toNat_toUInt64]

end LibSpaces.Stx
