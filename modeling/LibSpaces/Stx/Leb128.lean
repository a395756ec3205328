import Mathlib.Tactic.Positivity
import Mathlib.Tactic.Linarith
import LibSpaces.Base.Varint

/-!
# Signed LEB128

`src/src/stx/storage/leb128.h:70–107,149–186,282–306`. One writer serves two readers, one of
32 and one of 64 bits. Values are of 64 bits, so the writer ends after ten bytes at the most;
a read past the end of the buffer is `none` where the reader does not look for it. A shift past
the word, which a buffer of more than ten bytes asks for, is zero here.
-/

namespace LibSpaces.Stx

open LibSpaces.Base

/-- The loop of `write_signed`; `fuel` bounds its rounds. -/
def writeSignedLoop : ℕ → Int → Bytes
  | 0, _ => []
  | fuel + 1, value =>
    let byte := UInt8.ofNat (value % 128).toNat
    let value := value / 128
    let sbit := byte &&& 0x40
    if (value = 0 ∧ sbit = 0) ∨ (value = -1 ∧ sbit ≠ 0) then [byte]
    else (byte ||| 0x80) :: writeSignedLoop fuel value

/-- `write_signed`, `leb128.h:149–166`. -/
def writeSigned (value : Int) : Bytes := writeSignedLoop 10 value

/-- The loop of `signed_size`. -/
def signedSizeLoop : ℕ → Int → ℕ
  | 0, _ => 0
  | fuel + 1, value =>
    let byte := UInt8.ofNat (value % 128).toNat
    let value := value / 128
    let sbit := byte &&& 0x40
    if (value = 0 ∧ sbit = 0) ∨ (value = -1 ∧ sbit ≠ 0) then 1
    else signedSizeLoop fuel value + 1

/-- `signed_size`, `leb128.h:170–186`. -/
def signedSize (value : Int) : ℕ := signedSizeLoop 10 value

/-- A byte as an integer of the reader. -/
def widen (w : ℕ) (byte : UInt8) : BitVec w := byte.toBitVec.setWidth w

/-- `(result << s) >> s` on a signed integer. -/
def extend {w : ℕ} (s : ℕ) (result : BitVec w) : BitVec w := (result <<< s).sshiftRight s

/-- `read_signed`, `leb128.h:70–107`: at most five bytes are read, the last one as it is. -/
def readSigned : Bytes → Option (BitVec 32 × Bytes)
  | [] => none
  | b₀ :: p =>
    if b₀ ≤ 0x7f then some (extend 25 (widen 32 b₀), p)
    else match p with
      | [] => none
      | b₁ :: p =>
        let result := widen 32 (b₀ &&& 0x7f) ||| widen 32 (b₁ &&& 0x7f) <<< 7
        if b₁ ≤ 0x7f then some (extend 18 result, p)
        else match p with
          | [] => none
          | b₂ :: p =>
            let result := result ||| widen 32 (b₂ &&& 0x7f) <<< 14
            if b₂ ≤ 0x7f then some (extend 11 result, p)
            else match p with
              | [] => none
              | b₃ :: p =>
                let result := result ||| widen 32 (b₃ &&& 0x7f) <<< 21
                if b₃ ≤ 0x7f then some (extend 4 result, p)
                else match p with
                  | [] => none
                  | b₄ :: p => some (result ||| widen 32 b₄ <<< 28, p)

/-- The loop of `read_signed64`. -/
def readSigned64Loop : Bytes → ℕ → BitVec 64 → Option (BitVec 64 × Bytes)
  | [], _, _ => none
  | byte :: p, shift, result =>
    let result := result ||| widen 64 (byte &&& 0x7f) <<< shift
    let shift := shift + 7
    if byte &&& 0x80 = 0 then
      some (if shift < 64 ∧ byte &&& 0x40 ≠ 0 then result ||| -(1 <<< shift) else result, p)
    else readSigned64Loop p shift result

/-- `read_signed64`, `leb128.h:282–306`: at the end of the buffer it is `0` and nothing is
read. -/
def readSigned64 (start : Bytes) : BitVec 64 × Bytes := (readSigned64Loop start 0 0).getD (0, start)

/-- The size is that of what is written. -/
theorem length_writeSignedLoop (fuel : ℕ) (value : Int) :
    (writeSignedLoop fuel value).length = signedSizeLoop fuel value := by
  induction fuel generalizing value with
  | zero => rfl
  | succ fuel ih =>
    simp only [writeSignedLoop, signedSizeLoop]
    split
    · rfl
    · rw [List.length_cons, ih]

/-- The bytes that are written are as many as `signed_size` says. -/
theorem length_writeSigned (value : Int) : (writeSigned value).length = signedSize value :=
  length_writeSignedLoop 10 value

/-! ### What is written -/

/-- The bits of a byte of seven payload bits, alone and with the bit that says that more follow. -/
theorem byte_facts : ∀ m < 128,
    (UInt8.ofNat m).toNat = m ∧ (UInt8.ofNat m &&& 0x40 = 0 ↔ m < 64) ∧
      UInt8.ofNat m &&& 0x80 = 0 ∧ group (UInt8.ofNat m) = m ∧
      (UInt8.ofNat m ||| 0x80) &&& 0x80 ≠ 0 ∧ group (UInt8.ofNat m ||| 0x80) = m := by
  decide +kernel

/-- The last byte is that of a value of seven bits. -/
theorem writeSignedLoop_last {value : ℤ} (hlow : -64 ≤ value) (hhigh : value < 64) (fuel : ℕ) :
    writeSignedLoop (fuel + 1) value = [UInt8.ofNat (value % 128).toNat] := by
  obtain ⟨-, hsbit, -⟩ := byte_facts (value % 128).toNat (by omega)
  rw [writeSignedLoop, if_pos]
  by_cases hneg : value < 0
  · exact .inr ⟨by omega, mt hsbit.1 (by omega)⟩
  · exact .inl ⟨by omega, hsbit.2 (by omega)⟩

/-- Seven bits of any other are written and the others follow. -/
theorem writeSignedLoop_next {value : ℤ} (h : ¬ (-64 ≤ value ∧ value < 64)) (fuel : ℕ) :
    writeSignedLoop (fuel + 1) value =
      (UInt8.ofNat (value % 128).toNat ||| 0x80) :: writeSignedLoop fuel (value / 128) := by
  obtain ⟨-, hsbit, -⟩ := byte_facts (value % 128).toNat (by omega)
  rw [writeSignedLoop, if_neg]
  rintro (⟨hv, hs⟩ | ⟨hv, hs⟩)
  · have := hsbit.1 hs
    omega
  · have := mt hsbit.2 hs
    omega

private theorem coded_last {value : ℤ} (hlow : -64 ≤ value) (hhigh : value < 64) (fuel : ℕ) :
    Coded (writeSignedLoop (fuel + 1) value) ∧
      signedValue (writeSignedLoop (fuel + 1) value) = value := by
  obtain ⟨-, hsbit, hend, hgroup, -⟩ := byte_facts (value % 128).toNat (by omega)
  rw [writeSignedLoop_last hlow hhigh, signedValue, hgroup]
  refine ⟨.last hend, ?_⟩
  split
  next hs =>
    have := hsbit.1 hs
    omega
  next hs =>
    have := mt hsbit.2 hs
    omega

/-- With enough rounds the bytes are complete and denote the value. -/
theorem coded_writeSignedLoop (fuel : ℕ) (value : ℤ) (hlow : -2 ^ (7 * fuel + 6) ≤ value)
    (hhigh : value < 2 ^ (7 * fuel + 6)) :
    Coded (writeSignedLoop (fuel + 1) value) ∧
      signedValue (writeSignedLoop (fuel + 1) value) = value := by
  induction fuel generalizing value with
  | zero => exact coded_last hlow hhigh 0
  | succ fuel ih =>
    by_cases h : -64 ≤ value ∧ value < 64
    · exact coded_last h.1 h.2 (fuel + 1)
    have hpow : (2 : ℤ) ^ (7 * (fuel + 1) + 6) = 128 * 2 ^ (7 * fuel + 6) := by ring
    obtain ⟨-, -, -, -, hmore, hgroup⟩ := byte_facts (value % 128).toNat (by omega)
    obtain ⟨hcoded, hvalue⟩ := ih (value / 128) (by omega) (by omega)
    rw [writeSignedLoop_next h, signedValue_cons _ hcoded.ne_nil, hvalue, hgroup]
    exact ⟨.more hmore hcoded, by omega⟩

/-- Every value of 64 bits is written in complete bytes. -/
theorem coded_writeSigned (v : BitVec 64) :
    Coded (writeSigned v.toInt) ∧ signedValue (writeSigned v.toInt) = v.toInt := by
  have hlow := BitVec.le_toInt v
  have hhigh := BitVec.toInt_lt (x := v)
  exact coded_writeSignedLoop 9 v.toInt (by omega) (by omega)

/-- No more bytes are written than the value has groups. -/
theorem length_writeSignedLoop_le (k fuel : ℕ) (value : ℤ) (hlow : -2 ^ (7 * k + 6) ≤ value)
    (hhigh : value < 2 ^ (7 * k + 6)) : (writeSignedLoop fuel value).length ≤ k + 1 := by
  induction k generalizing fuel value with
  | zero =>
    cases fuel with
    | zero => exact Nat.zero_le _
    | succ fuel => rw [writeSignedLoop_last hlow hhigh, List.length_singleton]
  | succ k ih =>
    have hpow : (2 : ℤ) ^ (7 * (k + 1) + 6) = 128 * 2 ^ (7 * k + 6) := by ring
    cases fuel with
    | zero => exact Nat.zero_le _
    | succ fuel =>
      by_cases h : -64 ≤ value ∧ value < 64
      · rw [writeSignedLoop_last h.1 h.2, List.length_singleton]
        omega
      · rw [writeSignedLoop_next h, List.length_cons]
        exact Nat.succ_le_succ (ih fuel (value / 128) (by omega) (by omega))

/-! ### What is read -/

variable {w : ℕ}

private theorem widen_group (b : UInt8) : widen w (b &&& 0x7f) = BitVec.ofNat w (group b) := by
  apply BitVec.eq_of_toNat_eq
  rw [widen, BitVec.toNat_setWidth, UInt8.toNat_toBitVec, BitVec.toNat_ofNat, group]

private theorem toNat_unsignedValue_lt {q : Bytes} {shift : ℕ} (hshift : shift = 7 * q.length) :
    (BitVec.ofNat w (unsignedValue q)).toNat < 2 ^ shift := by
  rw [BitVec.toNat_ofNat, hshift, pow_mul]
  exact (Nat.mod_le _ _).trans_lt (unsignedValue_lt q)

/-- A group is read into the word above those read before. -/
theorem or_group (q : Bytes) (b : UInt8) {shift : ℕ} (hshift : shift = 7 * q.length) :
    BitVec.ofNat w (unsignedValue q) ||| widen w (b &&& 0x7f) <<< shift =
      BitVec.ofNat w (unsignedValue (q ++ [b])) := by
  rw [or_shiftLeft_eq_add (toNat_unsignedValue_lt hshift), widen_group,
    ← BitVec.ofInt_natCast w (group b), ofInt_shiftLeft, ← BitVec.ofInt_natCast,
    ← BitVec.ofInt_add, ← BitVec.ofInt_natCast, unsignedValue_append, hshift, pow_mul]
  congr 1
  simp only [unsignedValue]
  push_cast
  ring

/-- The sign is set above the groups that were read. -/
theorem or_sign (q : Bytes) {shift : ℕ} (hshift : shift = 7 * q.length) :
    BitVec.ofNat w (unsignedValue q) ||| -(1 <<< shift) =
      BitVec.ofInt w (unsignedValue q - 128 ^ q.length) := by
  have hneg : (-(1 <<< shift) : BitVec w) = BitVec.ofInt w (-1) <<< shift := by
    rw [ofInt_shiftLeft, neg_one_mul, BitVec.ofInt_neg, Nat.one_shiftLeft,
      BitVec.natCast_eq_ofNat, ← BitVec.ofInt_natCast]
    push_cast
    rfl
  rw [hneg, or_shiftLeft_eq_add (toNat_unsignedValue_lt hshift), ofInt_shiftLeft,
    ← BitVec.ofInt_natCast, ← BitVec.ofInt_add, hshift, pow_mul, neg_one_mul, ← sub_eq_add_neg]
  norm_num

/-- The 64-bit reader reads what complete bytes denote, behind the groups `q`. -/
theorem readSigned64Loop_append {p : Bytes} (hp : Coded p) (rest q : Bytes) {shift : ℕ}
    (hshift : shift = 7 * q.length) :
    readSigned64Loop (p ++ rest) shift (BitVec.ofNat 64 (unsignedValue q)) =
      some (BitVec.ofInt 64 (signedValue (q ++ p)), rest) := by
  induction hp generalizing q shift with
  | @last b hb =>
    have hlen : shift + 7 = 7 * (q ++ [b]).length := by
      rw [List.length_append, List.length_singleton]
      omega
    simp only [List.singleton_append, readSigned64Loop, or_group q b hshift, if_pos hb]
    rw [signedValue_append q (List.cons_ne_nil b []), signedValue]
    by_cases hs : b &&& 0x40 = 0
    · rw [if_neg (fun h ↦ h.2 hs), if_pos hs, unsignedValue_append, ← BitVec.ofInt_natCast]
      simp [unsignedValue]
    have hsum : (unsignedValue q + 128 ^ q.length * (group b - 128) : ℤ) =
        unsignedValue (q ++ [b]) - 128 ^ (q ++ [b]).length := by
      rw [unsignedValue_append, List.length_append, List.length_singleton, pow_succ]
      simp only [unsignedValue]
      push_cast
      ring
    rw [if_neg hs, hsum]
    split
    next h => rw [or_sign _ hlen]
    next h =>
      have hbig : 64 ≤ 7 * (q ++ [b]).length := by
        by_contra hlt
        exact h ⟨by omega, hs⟩
      have hpow : (128 : ℤ) ^ (q ++ [b]).length = 2 ^ (7 * (q ++ [b]).length) := by
        rw [pow_mul]
        norm_num
      rw [hpow, sub_eq_add_neg, ← neg_one_mul, ofInt_add_mul_two_pow _ _ hbig,
        BitVec.ofInt_natCast]
  | @more b p hb hp ih =>
    have hlen : shift + 7 = 7 * (q ++ [b]).length := by
      rw [List.length_append, List.length_singleton]
      omega
    rw [List.cons_append, readSigned64Loop, or_group q b hshift, if_neg hb, ih _ hlen,
      List.append_assoc, List.singleton_append]

/-- `read_signed64` returns what complete bytes denote and stops behind them. -/
theorem readSigned64_append {p : Bytes} (hp : Coded p) (rest : Bytes) :
    readSigned64 (p ++ rest) = (BitVec.ofInt 64 (signedValue p), rest) := by
  have h : readSigned64Loop (p ++ rest) 0 0 = some (BitVec.ofInt 64 (signedValue p), rest) :=
    readSigned64Loop_append hp rest [] rfl
  rw [readSigned64, h, Option.getD_some]

/-- Before the last byte nothing is read. -/
theorem readSigned64Loop_unfinished {p : Bytes} (hp : ∀ b ∈ p, b &&& 0x80 ≠ 0) (shift : ℕ)
    (result : BitVec 64) : readSigned64Loop p shift result = none := by
  induction p generalizing shift result with
  | nil => rfl
  | cons b p ih =>
    rw [readSigned64Loop, if_neg (hp b List.mem_cons_self)]
    exact ih (fun c hc ↦ hp c (List.mem_cons_of_mem b hc)) _ _

/-- Where no byte is the last one, zero is read and nothing is consumed. -/
theorem readSigned64_unfinished {p : Bytes} (hp : ∀ b ∈ p, b &&& 0x80 ≠ 0) :
    readSigned64 p = (0, p) := by
  rw [readSigned64, readSigned64Loop_unfinished hp, Option.getD_none]

/-- The sign of `p` is extended from its last group over the word. -/
theorem extend_unsignedValue {p : Bytes} (hp : Coded p) {s : ℕ} (hs : s + 7 * p.length = w) :
    extend s (BitVec.ofNat w (unsignedValue p)) = BitVec.ofInt w (signedValue p) := by
  obtain ⟨c, hc⟩ := exists_unsignedValue_eq hp
  obtain ⟨hlow, hhigh⟩ := signedValue_bounds hp
  have hpow : (2 : ℤ) ^ w = 128 ^ p.length * 2 ^ s := by
    rw [← hs, pow_add, pow_mul, mul_comm]
    norm_num
  have hs0 : (0 : ℤ) < 2 ^ s := by positivity
  have hshift : BitVec.ofNat w (unsignedValue p) <<< s =
      BitVec.ofInt w (signedValue p * 2 ^ s) := by
    rw [← BitVec.ofInt_natCast, ofInt_shiftLeft, hc, add_mul, mul_assoc, ← hpow,
      ofInt_add_mul_two_pow _ _ le_rfl]
  have hbmod {i : ℤ} (hi : -2 ^ w ≤ 2 * i) (hi' : 2 * i < 2 ^ w) :
      (BitVec.ofInt w i).toInt = i := by
    rw [BitVec.toInt_ofInt]
    refine Int.bmod_eq_of_le_mul_two ?_ ?_ <;> push_cast <;> omega
  apply BitVec.eq_of_toInt_eq
  rw [extend, BitVec.toInt_sshiftRight, hshift, hbmod, hbmod, Int.shiftRight_eq_div_pow]
  · push_cast
    exact Int.mul_ediv_cancel _ hs0.ne'
  all_goals nlinarith

/-- A word of 32 bits has no place for a sign above five groups. -/
theorem ofNat_unsignedValue_of_five {p : Bytes} (hp : Coded p) (hlen : p.length = 5) :
    BitVec.ofNat 32 (unsignedValue p) = BitVec.ofInt 32 (signedValue p) := by
  obtain ⟨c, hc⟩ := exists_unsignedValue_eq hp
  have hpow : (128 : ℤ) ^ 5 = 2 ^ 35 := by norm_num
  rw [← BitVec.ofInt_natCast, hc, hlen, hpow, ofInt_add_mul_two_pow _ _ (by decide)]

/-! ### The readers of at most five bytes -/

/-- A last byte has seven bits. -/
theorem le_of_last {b : UInt8} (hb : b &&& 0x80 = 0) : b ≤ 0x7f := (byte_bits b).1.1 hb

/-- A byte that is not the last one has the eighth bit. -/
theorem not_le_of_more {b : UInt8} (hb : b &&& 0x80 ≠ 0) : ¬ b ≤ 0x7f := mt (byte_bits b).1.2 hb

/-- A last byte is its value. -/
theorem widen_last {b : UInt8} (hb : b &&& 0x80 = 0) :
    widen 32 b = BitVec.ofNat 32 (unsignedValue [b]) := by
  have h := widen_group (w := 32) b
  rwa [(byte_bits b).2.1 (le_of_last hb)] at h

/-- The bits of two bytes are their value. -/
theorem two_groups (b₀ b₁ : UInt8) :
    widen 32 (b₀ &&& 0x7f) ||| widen 32 (b₁ &&& 0x7f) <<< 7 =
      BitVec.ofNat 32 (unsignedValue [b₀, b₁]) := by
  rw [widen_group b₀]
  exact or_group [b₀] b₁ rfl

/-- The bits of three bytes are their value. -/
theorem three_groups (b₀ b₁ b₂ : UInt8) :
    BitVec.ofNat 32 (unsignedValue [b₀, b₁]) ||| widen 32 (b₂ &&& 0x7f) <<< 14 =
      BitVec.ofNat 32 (unsignedValue [b₀, b₁, b₂]) := or_group [b₀, b₁] b₂ rfl

/-- The bits of four bytes are their value. -/
theorem four_groups (b₀ b₁ b₂ b₃ : UInt8) :
    BitVec.ofNat 32 (unsignedValue [b₀, b₁, b₂]) ||| widen 32 (b₃ &&& 0x7f) <<< 21 =
      BitVec.ofNat 32 (unsignedValue [b₀, b₁, b₂, b₃]) := or_group [b₀, b₁, b₂] b₃ rfl

/-- The fifth byte is read as it is, also the bits that do not fit. -/
theorem five_groups (b₀ b₁ b₂ b₃ : UInt8) {b₄ : UInt8} (h₄ : b₄ &&& 0x80 = 0) :
    BitVec.ofNat 32 (unsignedValue [b₀, b₁, b₂, b₃]) ||| widen 32 b₄ <<< 28 =
      BitVec.ofNat 32 (unsignedValue [b₀, b₁, b₂, b₃, b₄]) := by
  have h := or_group (w := 32) [b₀, b₁, b₂, b₃] b₄ (rfl : 28 = _)
  rwa [(byte_bits b₄).2.1 (le_of_last h₄)] at h

/-- `read_signed` returns what at most five complete bytes denote and stops behind them. -/
theorem readSigned_append {p : Bytes} (hp : Coded p) (hlen : p.length ≤ 5) (rest : Bytes) :
    readSigned (p ++ rest) = some (BitVec.ofInt 32 (signedValue p), rest) := by
  -- the number of bytes says which bits the reader extends
  rcases hp with @⟨b₀, h₀⟩ | @⟨b₀, _, m₀, @⟨b₁, h₁⟩ | @⟨b₁, _, m₁, @⟨b₂, h₂⟩ |
    @⟨b₂, _, m₂, @⟨b₃, h₃⟩ | @⟨b₃, _, m₃, @⟨b₄, h₄⟩ | ⟨_, hp⟩⟩⟩⟩⟩
  · simp only [List.cons_append, List.nil_append, readSigned, if_pos (le_of_last h₀),
      widen_last h₀]
    rw [extend_unsignedValue (w := 32) (s := 25) (.last h₀) rfl]
  · simp only [List.cons_append, List.nil_append, readSigned, if_neg (not_le_of_more m₀),
      if_pos (le_of_last h₁), two_groups]
    rw [extend_unsignedValue (w := 32) (s := 18) (.more m₀ (.last h₁)) rfl]
  · simp only [List.cons_append, List.nil_append, readSigned, if_neg (not_le_of_more m₀),
      if_neg (not_le_of_more m₁), if_pos (le_of_last h₂), two_groups, three_groups]
    rw [extend_unsignedValue (w := 32) (s := 11) (.more m₀ (.more m₁ (.last h₂))) rfl]
  · simp only [List.cons_append, List.nil_append, readSigned, if_neg (not_le_of_more m₀),
      if_neg (not_le_of_more m₁), if_neg (not_le_of_more m₂), if_pos (le_of_last h₃), two_groups,
      three_groups, four_groups]
    rw [extend_unsignedValue (w := 32) (s := 4) (.more m₀ (.more m₁ (.more m₂ (.last h₃)))) rfl]
  · simp only [List.cons_append, List.nil_append, readSigned, if_neg (not_le_of_more m₀),
      if_neg (not_le_of_more m₁), if_neg (not_le_of_more m₂), if_neg (not_le_of_more m₃),
      two_groups, three_groups, four_groups, five_groups _ _ _ _ h₄]
    rw [ofNat_unsignedValue_of_five (.more m₀ (.more m₁ (.more m₂ (.more m₃ (.last h₄))))) rfl]
  · have hpos := List.length_pos_iff.2 hp.ne_nil
    simp only [List.length_cons] at hlen
    omega

/-! ### What was written is read -/

/-- What is written of an address is read by the 64-bit reader. -/
theorem readSigned64_write {value : ℕ} (hvalue : value < 2 ^ 63) (rest : Bytes) :
    readSigned64 (writeSigned value ++ rest) = (BitVec.ofNat 64 value, rest) := by
  obtain ⟨hcoded, hdenotes⟩ := coded_writeSignedLoop 9 value (by omega) (by omega)
  rw [writeSigned, readSigned64_append hcoded, hdenotes, BitVec.ofInt_natCast]

/-- What is written of a value that 32 bits hold is read by the 32-bit reader. -/
theorem readSigned_write {value : ℕ} (hvalue : value < 2 ^ 31) (rest : Bytes) :
    readSigned (writeSigned value ++ rest) = some (BitVec.ofNat 32 value, rest) := by
  obtain ⟨hcoded, hdenotes⟩ := coded_writeSignedLoop 9 value (by omega) (by omega)
  have hlen := length_writeSignedLoop_le 4 10 value (by omega) (by omega)
  rw [writeSigned, readSigned_append hcoded hlen, hdenotes, BitVec.ofInt_natCast]

/-- Every signed value of 64 bits is read back. -/
theorem readSigned64_writeSigned (v : BitVec 64) (rest : Bytes) :
    readSigned64 (writeSigned v.toInt ++ rest) = (v, rest) := by
  obtain ⟨hcoded, hvalue⟩ := coded_writeSigned v
  rw [readSigned64_append hcoded, hvalue, BitVec.ofInt_toInt]

/-- Both readers agree on what is written of a signed value of 32 bits. -/
theorem readSigned_readSigned64_writeSigned (v : BitVec 32) (rest : Bytes) :
    readSigned (writeSigned v.toInt ++ rest) = some (v, rest) ∧
      readSigned64 (writeSigned v.toInt ++ rest) = (v.signExtend 64, rest) := by
  have hlow := BitVec.le_toInt v
  have hhigh := BitVec.toInt_lt (x := v)
  obtain ⟨hcoded, hvalue⟩ := coded_writeSignedLoop 9 v.toInt (by omega) (by omega)
  have hlen := length_writeSignedLoop_le 4 10 v.toInt (by omega) (by omega)
  constructor
  · rw [writeSigned, readSigned_append hcoded hlen, hvalue, BitVec.ofInt_toInt]
  · rw [writeSigned, readSigned64_append hcoded, hvalue]
    rfl

end LibSpaces.Stx
