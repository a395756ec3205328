import Mathlib.Algebra.Order.BigOperators.Group.List
import LibSpaces.Base.ByteMemory

/-!
# The LZ4 block format

`src/src/repo/lz4-r101/lz4_format_description.txt`. A block is a list of sequences, each of
literals and a match copied from what is decoded already, and last literals without a match.
A block carries the rules of the format: an offset of 16 bits that stays inside the decoded
bytes, matches of at least four bytes, the last five bytes literals and the last match twelve
bytes before the end.
-/

namespace LibSpaces.Lz4

open LibSpaces.Base LibSpaces.Base.Memory

/-- `MINMATCH`. -/
def minMatch : ℕ := 4

/-- `MAX_DISTANCE`. -/
def maxDistance : ℕ := 2 ^ 16 - 1

/-- `RUN_MASK` and `ML_MASK`. -/
def runMask : ℕ := 15

/-- `LASTLITERALS`. -/
def lastLiterals : ℕ := 5

/-- `COPYLENGTH`. -/
def copyLength : ℕ := 8

/-- `MFLIMIT`. -/
def mfLimit : ℕ := copyLength + minMatch

/-- The shortest match as an integer, for positions in memory. -/
theorem minMatch_cast : (minMatch : ℤ) = 4 := rfl

/-- The literals at the end of a block as an integer. -/
theorem lastLiterals_cast : (lastLiterals : ℤ) = 5 := rfl

/-- The width of a copy as an integer. -/
theorem copyLength_cast : (copyLength : ℤ) = 8 := rfl

/-- The end of the search as an integer. -/
theorem mfLimit_cast : (mfLimit : ℤ) = 12 := rfl

/-- A suite of literals followed by a match copy. -/
structure Sequence where
  literals : Bytes
  offset : ℕ
  matchLength : ℕ

/-! ### The decoded bytes -/

/-- `n` bytes are repeated, each from `offset` bytes before the end. -/
def copyMatch (decoded : Bytes) (offset : ℕ) : ℕ → Bytes
  | 0 => decoded
  | n + 1 => copyMatch (decoded ++ [decoded.getD (decoded.length - offset) 0]) offset n

namespace Sequence

/-- The literals of a sequence, then its match. -/
def decode (decoded : Bytes) (s : Sequence) : Bytes :=
  copyMatch (decoded ++ s.literals) s.offset s.matchLength

/-- The number of decoded bytes. -/
def size (s : Sequence) : ℕ := s.literals.length + s.matchLength

/-- The match is long enough and its offset points into `decoded` bytes and the literals. -/
structure Valid (s : Sequence) (decoded : ℕ) : Prop where
  offset_pos : 0 < s.offset
  offset_le : s.offset ≤ maxDistance
  offset_le_decoded : s.offset ≤ decoded + s.literals.length
  matchLength : minMatch ≤ s.matchLength

end Sequence

/-- Every sequence is valid behind those before it. -/
def ValidFrom (decoded : ℕ) : List Sequence → Prop
  | [] => True
  | s :: sequences => s.Valid decoded ∧ ValidFrom (decoded + s.size) sequences

/-- A block that keeps to the format and to its parsing restrictions. -/
structure Block where
  sequences : List Sequence
  last : Bytes
  valid : ValidFrom 0 sequences
  lastLiterals_le : sequences ≠ [] → lastLiterals ≤ last.length
  mfLimit_le : ∀ s ∈ sequences.getLast?, mfLimit ≤ s.matchLength + last.length

/-- Sequences are decoded one after the other. -/
def decodeSequences : Bytes → List Sequence → Bytes := List.foldl Sequence.decode

namespace Block

/-- The sequences, then the last literals. -/
def decode (b : Block) : Bytes := decodeSequences [] b.sequences ++ b.last

end Block

/-! ### The encoded bytes -/

/-- A length in bytes that are added up, the last one below 255. -/
def extension (length : ℕ) : Bytes :=
  List.replicate (length / 255) 255 ++ [UInt8.ofNat (length % 255)]

/-- The bytes behind the token for a length that its field cannot hold. -/
def lengthBytes (length : ℕ) : Bytes :=
  if length < runMask then [] else extension (length - runMask)

/-- The two lengths as far as the fields of the token hold them. -/
def token (literals matchLength : ℕ) : UInt8 :=
  UInt8.ofNat (min literals runMask * 16 + min matchLength runMask)

/-- The token, the length of the literals and the literals. -/
def literalBytes (literals : Bytes) (matchLength : ℕ) : Bytes :=
  token literals.length matchLength :: (lengthBytes literals.length ++ literals)

namespace Sequence

/-- The offset and the length of the match. -/
def matchBytes (s : Sequence) : Bytes :=
  leBytes 2 s.offset ++ lengthBytes (s.matchLength - minMatch)

/-- The bytes of a sequence. -/
def encode (s : Sequence) : Bytes :=
  literalBytes s.literals (s.matchLength - minMatch) ++ s.matchBytes

end Sequence

/-- The bytes of sequences, one behind the other. -/
def encodeSequences (sequences : List Sequence) : Bytes := sequences.flatMap Sequence.encode

namespace Block

/-- The bytes of a block. -/
def encode (b : Block) : Bytes := encodeSequences b.sequences ++ literalBytes b.last 0

end Block

/-- A value as an `int`. -/
def toInt (x : ℤ) : ℤ := x.bmod (2 ^ 32)

/-- `LZ4_compressBound`, `src/src/repo/lz4-r101/lz4.h:78`. -/
def compressBound (isize : ℤ) : ℤ := toInt (isize + isize.tdiv 255 + 16)

/-- The sizes below it have a `compressBound` that does not overflow an `int`. -/
def sizeLimit : ℕ := 2139095025

/-! ### Sizes -/

/-- A value in the range of an `int` is itself. -/
theorem toInt_eq {x : ℤ} (hlow : -2 ^ 31 ≤ x) (hhigh : x < 2 ^ 31) : toInt x = x :=
  Int.bmod_eq_of_le (by omega) (by omega)

/-- Below the limit the bound is the one of the format. -/
theorem compressBound_eq {n : ℕ} (h : n < sizeLimit) :
    compressBound n = (n + n / 255 + 16 : ℕ) := by
  have hdiv : (n : ℤ).tdiv 255 = (n / 255 : ℕ) := by
    rw [Int.tdiv_eq_ediv_of_nonneg (by omega), Int.natCast_ediv, Nat.cast_ofNat]
  rw [sizeLimit] at h
  rw [compressBound, hdiv, toInt_eq] <;> omega

/-- A match adds its length. -/
@[simp] theorem length_copyMatch {decoded : Bytes} {offset n : ℕ} :
    (copyMatch decoded offset n).length = decoded.length + n := by
  induction n generalizing decoded with
  | zero => rfl
  | succ n ih =>
    rw [copyMatch, ih, List.length_append, List.length_singleton]
    omega

/-- A sequence adds its size. -/
@[simp] theorem Sequence.length_decode {decoded : Bytes} {s : Sequence} :
    (s.decode decoded).length = decoded.length + s.size := by
  rw [Sequence.decode, length_copyMatch, List.length_append, Sequence.size]
  omega

/-- The sequences add their sizes. -/
theorem length_decodeSequences {decoded : Bytes} {sequences : List Sequence} :
    (decodeSequences decoded sequences).length =
      decoded.length + (sequences.map Sequence.size).sum := by
  induction sequences generalizing decoded with
  | nil => rfl
  | cons s sequences ih =>
    have hstep : decodeSequences decoded (s :: sequences) =
        decodeSequences (s.decode decoded) sequences := rfl
    rw [hstep, ih, Sequence.length_decode, List.map_cons, List.sum_cons]
    omega

/-- Sequences are decoded one after the other. -/
theorem decodeSequences_append {decoded : Bytes} {xs ys : List Sequence} :
    decodeSequences decoded (xs ++ ys) = decodeSequences (decodeSequences decoded xs) ys :=
  List.foldl_append

/-- The second part of a list is valid behind what the first part decodes to. -/
theorem validFrom_append {decoded : ℕ} {xs ys : List Sequence} :
    ValidFrom decoded (xs ++ ys) ↔
      ValidFrom decoded xs ∧ ValidFrom (decoded + (xs.map Sequence.size).sum) ys := by
  induction xs generalizing decoded with
  | nil => simp [ValidFrom]
  | cons s xs ih =>
    rw [List.cons_append, ValidFrom, ih, ValidFrom, List.map_cons, List.sum_cons, and_assoc,
      Nat.add_assoc]

/-- A memory that repeats its bytes at an offset holds the match. -/
theorem stands_copyMatch {mem : Memory} {decoded : Bytes} {offset n : ℕ}
    (h : Stands mem 0 decoded) (hpos : 0 < offset) (hle : offset ≤ decoded.length)
    (hrepeats : ∀ i : ℤ, decoded.length ≤ i → i < decoded.length + n → mem i = mem (i - offset)) :
    Stands mem 0 (copyMatch decoded offset n) := by
  induction n generalizing decoded with
  | zero => exact h
  | succ n ih =>
    have hbyte : mem decoded.length = decoded.getD (decoded.length - offset) 0 := by
      have hlt : decoded.length - offset < decoded.length := by omega
      rw [hrepeats _ le_rfl (by omega), List.getD_eq_getElem?_getD, List.getElem?_eq_getElem hlt,
        Option.getD_some, ← h.get hlt]
      congr 1
      omega
    apply ih
    · rw [stands_append, zero_add]
      exact ⟨h, by simp [hbyte]⟩
    · rw [List.length_append]
      omega
    · intro i hlow hhigh
      rw [List.length_append, List.length_singleton] at hlow hhigh
      exact hrepeats i (by omega) (by omega)

/-- A length from 255 on takes a byte more. -/
theorem extension_add (length : ℕ) : extension (length + 255) = 255 :: extension length := by
  rw [extension, Nat.add_div_right _ (by decide), Nat.add_mod_right, List.replicate_succ,
    List.cons_append, extension]

/-- A length below 255 takes one byte. -/
theorem extension_of_lt {length : ℕ} (h : length < 255) :
    extension length = [UInt8.ofNat length] := by
  rw [extension, Nat.div_eq_of_lt h, Nat.mod_eq_of_lt h]
  rfl

private theorem length_lengthBytes_le (length : ℕ) :
    (lengthBytes length).length ≤ (length + 240) / 255 := by
  rw [lengthBytes]
  split
  · exact Nat.zero_le _
  · next h =>
    rw [extension, List.length_append, List.length_replicate, List.length_singleton]
    rw [runMask] at h ⊢
    omega

/-- The number of bytes of token, length and literals. -/
@[simp] theorem length_literalBytes {literals : Bytes} {matchLength : ℕ} :
    (literalBytes literals matchLength).length =
      1 + (lengthBytes literals.length).length + literals.length := by
  rw [literalBytes, List.length_cons, List.length_append]
  omega

/-- The number of bytes of offset and length of a match. -/
theorem Sequence.length_matchBytes {s : Sequence} :
    s.matchBytes.length = 2 + (lengthBytes (s.matchLength - minMatch)).length := by
  rw [matchBytes, List.length_append, length_leBytes]

/-- A sequence takes no more bytes than it stands for, but for one byte in 255 of its literals. -/
theorem Sequence.length_encode_le {s : Sequence} {decoded : ℕ} (h : s.Valid decoded) :
    s.encode.length ≤ s.size + s.size / 255 := by
  have hliterals := length_lengthBytes_le s.literals.length
  have hmatch := length_lengthBytes_le (s.matchLength - minMatch)
  have hmin := h.matchLength
  rw [encode, List.length_append, length_literalBytes, length_matchBytes, size]
  rw [minMatch] at hmin hmatch ⊢
  omega

private theorem length_encodeSequences_le {decoded : ℕ} {sequences : List Sequence}
    (h : ValidFrom decoded sequences) :
    (encodeSequences sequences).length ≤
      (sequences.map Sequence.size).sum + (sequences.map Sequence.size).sum / 255 := by
  induction sequences generalizing decoded with
  | nil => exact le_rfl
  | cons s sequences ih =>
    have hs := Sequence.length_encode_le h.1
    have hrest := ih h.2
    have happend : (encodeSequences (s :: sequences)).length =
        s.encode.length + (encodeSequences sequences).length := List.length_append
    rw [happend, List.map_cons, List.sum_cons]
    omega

/-- The bound that buffers for compressed bytes are made with. -/
theorem Block.length_encode_le (b : Block) :
    b.encode.length ≤ b.decode.length + b.decode.length / 255 + 16 := by
  have hsequences := length_encodeSequences_le b.valid
  have hlast := length_lengthBytes_le b.last.length
  rw [encode, decode, List.length_append, List.length_append, length_decodeSequences,
    length_literalBytes, List.length_nil]
  omega

/-- The bytes of a block are no more than the bound says, and are counted in an `int`. -/
theorem Block.length_encode_of_lt {b : Block} (h : b.decode.length < sizeLimit) :
    toInt b.encode.length = b.encode.length ∧
      (b.encode.length : ℤ) ≤ compressBound b.decode.length := by
  have hbound := b.length_encode_le
  rw [compressBound_eq h]
  rw [sizeLimit] at h
  exact ⟨toInt_eq (by omega) (by omega), by omega⟩

end LibSpaces.Lz4
