import LibSpaces.Lz4.Decompress
import LibSpaces.Lz4.Matches

/-!
# Compression

`src/src/repo/lz4-r101/lz4.c:374–531`, `LZ4_compress_generic` as `LZ4_compress` makes it, without
a limit of the output. The output starts at address 0 of a memory that may hold anything; literals
are copied in words and overshoot what is written next.

The output is the bytes of a block that decodes to the source, and nothing behind it is touched;
so it is decompressed to the source.
-/

namespace LibSpaces.Lz4

open LibSpaces.Base LibSpaces.Base.Memory

/-! ### The source -/

/-- `dest`, `op`, `anchor`, `ip` and the hash table. -/
structure Compressor where
  dest : Memory
  op : ℤ
  anchor : ℤ
  ip : ℤ
  forwardH : ℕ
  table : HashTable

/-- `for(; len >= 255 ; len-=255) *op++ = 255; *op++ = (BYTE)len;` -/
def putLength (dest : Memory) (op : ℤ) (len : ℕ) : Memory × ℤ :=
  if 255 ≤ len then putLength (dest.write op 255) (op + 1) (len - 255)
  else (dest.write op (UInt8.ofNat len), op + 1)
termination_by len

/-- The same in steps of two bytes. -/
def putMatchLength (dest : Memory) (op : ℤ) (length : ℕ) : Memory × ℤ :=
  if 509 < length then
    putMatchLength ((dest.write op 255).write (op + 1) 255) (op + 2) (length - 510)
  else if 255 ≤ length then
    ((dest.write op 255).write (op + 1) (UInt8.ofNat (length - 255)), op + 2)
  else (dest.write op (UInt8.ofNat length), op + 1)
termination_by length

/-- The token at `op` and the length of literals. -/
def putToken (dest : Memory) (op : ℤ) (length : ℕ) : Memory × ℤ :=
  if runMask ≤ length then
    putLength (dest.write op (UInt8.ofNat (runMask <<< 4))) (op + 1) (length - runMask)
  else (dest.write op (UInt8.ofNat (length <<< 4)), op + 1)

/-- The literals from `anchor` to `ip` are encoded. -/
def putLiterals (src dest : Memory) (op anchor ip : ℤ) : Memory × ℤ :=
  match putToken dest op (ip - anchor).toNat with
  | (dest, op) =>
    ((wildCopy (fun _ ↦ src) dest op anchor (op + (ip - anchor).toNat)).1,
      op + (ip - anchor).toNat)

/-- A match of `length` bytes more than the shortest is encoded at `op`, with its part of
the token. -/
def putMatch (dest : Memory) (op token offset : ℤ) (length : ℕ) : Memory × ℤ :=
  let dest := dest.copy (ofBytes (leBytes 2 (offset.toNat % 2 ^ 16))) op 0 2
  if runMask ≤ length then
    putMatchLength (dest.write token (dest token + UInt8.ofNat runMask)) (op + 2)
      (length - runMask)
  else (dest.write token (dest token + UInt8.ofNat length), op + 2)

/-- Where the compression goes on. -/
inductive Step
  | lastLiterals (c : Compressor)
  | mainLoop (c : Compressor)
  | nextMatch (c : Compressor) (ref token : ℤ)

/-- The main loop up to `_next_match`. -/
def mainLoop (src : Memory) (tableType : TableType) (iend : ℤ) (c : Compressor) : Step :=
  match findMatch src tableType (iend - mfLimit) c.table c.ip c.forwardH 0 with
  | none => .lastLiterals c
  | some (ip, ref, table) =>
    match catchUp src c.anchor ip ref with
    | (ip, ref) =>
      match putLiterals src c.dest c.op c.anchor ip with
      | (dest, op) =>
        .nextMatch { c with dest := dest, op := op, ip := ip, table := table } ref c.op

/-- From `_next_match` on. -/
def nextMatch (src : Memory) (tableType : TableType) (iend : ℤ) (c : Compressor)
    (ref token : ℤ) : Step :=
  let ip := countMatch src (c.ip + minMatch) (ref + minMatch) (iend - lastLiterals)
  match putMatch c.dest c.op token (c.ip - ref) (ip - (c.ip + minMatch)).toNat with
  | (dest, op) =>
    if iend - mfLimit < ip then
      .lastLiterals { c with dest := dest, op := op, anchor := ip, ip := ip }
    else
      let table := c.table.putPosition src (ip - 2) tableType
      let ref := table.getPosition src ip tableType
      let table := table.putPosition src ip tableType
      if isFar src ref ip then
        .mainLoop ⟨dest, op, ip, ip + 1, hashPosition src (ip + 1) tableType, table⟩
      else
        .nextMatch { c with dest := dest.write op 0, op := op + 1, anchor := ip, ip := ip,
                            table := table } ref op

/-- The steps up to `_last_literals`. -/
def compressLoop (src : Memory) (tableType : TableType) (iend : ℤ) :
    ℕ → Step → Option Compressor
  | _, .lastLiterals c => some c
  | 0, _ => none
  | n + 1, .mainLoop c => compressLoop src tableType iend n (mainLoop src tableType iend c)
  | n + 1, .nextMatch c ref token =>
    compressLoop src tableType iend n (nextMatch src tableType iend c ref token)

/-- From `_last_literals` to the end of the output. -/
def putLastLiterals (src : Memory) (iend : ℤ) (c : Compressor) : ℤ × Memory :=
  match putToken c.dest c.op (iend - c.anchor).toNat with
  | (dest, op) =>
    (op + (iend - c.anchor), dest.copy src op c.anchor (iend - c.anchor).toNat)

/-- `LZ4_64KLIMIT`. -/
def limit64K : ℕ := 2 ^ 16 + (mfLimit - 1)

/-- The end of the output as the number of bytes written, an `int`. -/
def written (r : ℤ × Memory) : ℤ × Memory := (toInt r.1, r.2)

/-- `LZ4_compress_generic` of an `inputSize` that is not negative: the number of bytes written and
the memory. -/
def compressGeneric (src dest : Memory) (inputSize : ℕ) (tableType : TableType) :
    Option (ℤ × Memory) :=
  if inputSize < mfLimit + 1 then
    some (written (putLastLiterals src inputSize ⟨dest, 0, 0, 0, 0, fun _ ↦ 0⟩))
  else if tableType matches .byU16 ∧ limit64K ≤ inputSize then some (0, dest)
  else
    let table := HashTable.putPosition (fun _ ↦ 0) src 0 tableType
    (compressLoop src tableType inputSize (inputSize + 1)
      (.mainLoop ⟨dest, 0, 0, 1, hashPosition src 1 tableType, table⟩)).map
      fun c ↦ written (putLastLiterals src inputSize c)

/-- `LZ4_compress`. -/
def compress (src dest : Memory) (inputSize : ℕ) : Option (ℤ × Memory) :=
  if inputSize < limit64K then compressGeneric src dest inputSize .byU16
  else compressGeneric src dest inputSize .byU32

/-! ### What is written -/

/-- Bytes are written at `op` and nothing else changes. -/
structure Puts (dest : Memory) (op : ℤ) (bs : Bytes) (r : Memory × ℤ) : Prop where
  moved : r.2 = op + bs.length
  stands : Stands r.1 op bs
  agree : AgreeOutside dest r.1 op (op + bs.length)

section Writing

variable {src dest : Memory} {op p : ℤ} {xs ys : Bytes} {b : UInt8} {n length : ℕ}
  {r r' : Memory × ℤ}

private theorem puts_write : Puts dest op [b] (dest.write op b, op + 1) :=
  ⟨rfl, by simp, agreeOutside_write⟩

private theorem puts_copy : Puts dest op (slice src p n) (dest.copy src op p n, op + n) :=
  ⟨by simp, stands_copy, by rw [length_slice]; exact agreeOutside_copy⟩

private theorem Puts.append (h : Puts dest op xs r) (h' : Puts r.1 r.2 ys r') :
    Puts dest op (xs ++ ys) r' where
  moved := by
    rw [h'.moved, h.moved, List.length_append]
    omega
  stands := by
    rw [stands_append, ← h.moved]
    exact ⟨h'.agree.stands h.stands (.inl h.moved.ge), h'.stands⟩
  agree := by
    have hxs := h.agree
    have hys := h'.agree
    rw [h.moved] at hys
    rw [List.length_append, Nat.cast_add]
    exact (hxs.mono le_rfl (by omega)).trans (hys.mono (by omega) (by omega))

private theorem puts_write_two {c : UInt8} :
    Puts dest op [b, c] ((dest.write op b).write (op + 1) c, op + 2) := by
  have h : Puts dest op ([b] ++ [c]) ((dest.write op b).write (op + 1) c, op + 1 + 1) :=
    puts_write.append puts_write
  rwa [show op + 1 + 1 = op + 2 by omega] at h

private theorem putLength_puts : Puts dest op (extension length) (putLength dest op length) := by
  fun_induction putLength dest op length with
  | case1 dest op length hle ih =>
    obtain ⟨k, rfl⟩ := Nat.exists_eq_add_of_le' hle
    rw [Nat.add_sub_cancel] at ih ⊢
    rw [extension_add, ← List.singleton_append]
    exact puts_write.append ih
  | case2 dest op length hlt =>
    rw [extension_of_lt (by omega)]
    exact puts_write

private theorem putMatchLength_puts :
    Puts dest op (extension length) (putMatchLength dest op length) := by
  fun_induction putMatchLength dest op length with
  | case1 dest op length hlt ih =>
    have hlength : length - 510 + 255 + 255 = length := by omega
    have hextension := extension_add (length - 510 + 255)
    rw [hlength, extension_add] at hextension
    rw [hextension]
    exact puts_write_two.append ih
  | case2 dest op length hlt hle =>
    obtain ⟨k, rfl⟩ := Nat.exists_eq_add_of_le' hle
    rw [extension_add, extension_of_lt (by omega), Nat.add_sub_cancel]
    exact puts_write_two
  | case3 dest op length hlt hle =>
    rw [extension_of_lt (by omega)]
    exact puts_write

private theorem putToken_puts :
    Puts dest op (token length 0 :: lengthBytes length) (putToken dest op length) := by
  rw [putToken, lengthBytes, token, ← List.singleton_append]
  by_cases hlt : length < runMask
  · rw [if_neg (Nat.not_le.2 hlt), if_pos hlt, Nat.min_eq_left hlt.le, List.append_nil,
      Nat.shiftLeft_eq]
    exact puts_write
  · rw [if_pos (Nat.le_of_not_lt hlt), if_neg hlt, Nat.min_eq_right (Nat.le_of_not_lt hlt)]
    exact puts_write.append putLength_puts

/-- Literals are written with a token that has no match yet; up to eight bytes behind them are
touched. -/
theorem putLiterals_spec (src dest : Memory) (op anchor ip : ℤ) :
    (putLiterals src dest op anchor ip).2 =
        op + (literalBytes (slice src anchor (ip - anchor).toNat) 0).length ∧
      Stands (putLiterals src dest op anchor ip).1 op
        (literalBytes (slice src anchor (ip - anchor).toNat) 0) ∧
      AgreeOutside dest (putLiterals src dest op anchor ip).1 op
        ((putLiterals src dest op anchor ip).2 + 8) := by
  have htoken : Puts dest op (token (ip - anchor).toNat 0 :: lengthBytes (ip - anchor).toNat)
      (putToken dest op (ip - anchor).toNat) := putToken_puts
  unfold putLiterals
  generalize putToken dest op (ip - anchor).toNat = written at htoken
  obtain ⟨mid, op'⟩ := written
  obtain ⟨hop, hstands, hagree⟩ := htoken
  dsimp only at hop hstands hagree ⊢
  generalize hcopy : wildCopy (fun _ ↦ src) mid op' anchor (op' + (ip - anchor).toNat) = copied
  obtain ⟨mem, d', s'⟩ := copied
  have hstops := wildCopy_stops hcopy
  have hframe := wildCopy_agreeOutside hcopy
  rw [literalBytes, length_slice, ← List.cons_append]
  refine ⟨?_, ?_, ?_⟩
  · rw [hop, List.length_append, length_slice]
    omega
  · rw [stands_append, ← hop]
    refine ⟨hframe.stands hstands (.inl hop.ge), ?_⟩
    rw [Stands, length_slice, slice_eq_iff]
    intro i hi
    refine (wildCopy_from hcopy _ (by omega) (by omega)).trans ?_
    congr 1
    omega
  · exact (hagree.mono le_rfl (by omega)).trans (hframe.mono (by omega) (by omega))

private theorem token_add (literals matchLength : ℕ) :
    token literals 0 + UInt8.ofNat (min matchLength runMask) = token literals matchLength := by
  rw [token, token, ← UInt8.ofNat_add]
  congr 1

/-- The length of a match goes into the token and behind the offset. -/
theorem putMatch_puts {start : ℤ} {literals : ℕ} (offset : ℤ) (matchLength : ℕ)
    (hstart : start < op) (htoken : dest start = token literals 0) :
    Puts ((dest.copy (ofBytes (leBytes 2 (offset.toNat % 2 ^ 16))) op 0 2).write start
      (token literals matchLength)) (op + 2) (lengthBytes matchLength)
      (putMatch dest op start offset matchLength) := by
  have hsame : dest.copy (ofBytes (leBytes 2 (offset.toNat % 2 ^ 16))) op 0 2 start =
      token literals 0 := (agreeOutside_copy start (.inl hstart)).trans htoken
  rw [putMatch, lengthBytes, hsame]
  by_cases hlt : matchLength < runMask
  · have hadd := token_add literals matchLength
    rw [Nat.min_eq_left hlt.le] at hadd
    rw [if_pos hlt, if_neg (Nat.not_le.2 hlt), hadd]
    exact ⟨by simp, stands_nil, .refl _ _ _⟩
  · have hadd := token_add literals matchLength
    rw [Nat.min_eq_right (Nat.le_of_not_lt hlt)] at hadd
    rw [if_neg hlt, if_pos (Nat.le_of_not_lt hlt), hadd]
    exact putMatchLength_puts

/-- A sequence is completed: its token gets the length of the match. -/
theorem putMatch_spec {start : ℤ} {sequences : List Sequence} {s : Sequence}
    (hoffset : s.offset ≤ maxDistance)
    (hstart : start = (encodeSequences sequences).length)
    (hop : op = start + (literalBytes s.literals 0).length)
    (hstands : Stands dest 0 (encodeSequences sequences ++ literalBytes s.literals 0)) :
    (putMatch dest op start s.offset (s.matchLength - minMatch)).2 =
        (encodeSequences (sequences ++ [s])).length ∧
      Stands (putMatch dest op start s.offset (s.matchLength - minMatch)).1 0
        (encodeSequences (sequences ++ [s])) ∧
      AgreeOutside dest (putMatch dest op start s.offset (s.matchLength - minMatch)).1 0
        (putMatch dest op start s.offset (s.matchLength - minMatch)).2 := by
  rw [stands_append, literalBytes, zero_add, ← hstart, stands_cons] at hstands
  obtain ⟨hsequences, htoken, hliterals⟩ := hstands
  rw [literalBytes, List.length_cons] at hop
  obtain ⟨hmoved, hbytes, hagree⟩ :=
    putMatch_puts s.offset (s.matchLength - minMatch) (by omega : start < op) htoken
  generalize putMatch dest op start s.offset (s.matchLength - minMatch) = r at *
  have hencode : encodeSequences (sequences ++ [s]) = encodeSequences sequences ++
      (token s.literals.length (s.matchLength - minMatch) ::
        ((lengthBytes s.literals.length ++ s.literals) ++
          (leBytes 2 s.offset ++ lengthBytes (s.matchLength - minMatch)))) := by
    rw [encodeSequences, List.flatMap_append, List.flatMap_singleton, Sequence.encode,
      literalBytes, Sequence.matchBytes, List.cons_append]
    rfl
  have hlow : (s.offset : ℤ).toNat % 2 ^ 16 = s.offset := by
    rw [maxDistance] at hoffset
    rw [Int.toNat_natCast, Nat.mod_eq_of_lt (by omega)]
  rw [hlow] at hagree
  have hwritten : Stands (dest.copy (ofBytes (leBytes 2 s.offset)) op 0 2) op
      (slice (ofBytes (leBytes 2 s.offset)) 0 2) := stands_copy
  have hbytes2 : slice (ofBytes (leBytes 2 s.offset)) 0 2 = leBytes 2 s.offset := slice_ofBytes
  rw [hbytes2] at hwritten
  -- what is before the output of this match and not its token stays
  have hdest : ∀ i, i ≠ start → (i < op ∨ r.2 ≤ i) → r.1 i = dest i := by
    intro i hne hi
    rw [hagree i (by omega), write_of_ne hne, agreeOutside_copy i (by omega)]
  refine ⟨?_, ?_, fun i hi ↦ hdest i (by omega) (by omega)⟩
  · rw [hencode, hmoved, hop, hstart]
    simp only [List.length_append, List.length_cons, length_leBytes]
    omega
  · rw [hencode, stands_append, stands_cons, stands_append, zero_add, ← hstart]
    have hop' : start + 1 + (lengthBytes s.literals.length ++ s.literals).length = op := by omega
    rw [hop']
    refine ⟨hsequences.congr fun i _ _ ↦ hdest i (by omega) (by omega), ?_,
      hliterals.congr fun i _ _ ↦ hdest i (by omega) (by omega), stands_append.2 ⟨?_, hbytes⟩⟩
    · rw [hagree start (by omega), write_self]
    · apply hwritten.congr
      intro i hlow hhigh
      rw [length_leBytes] at hhigh
      rw [hagree i (by omega), write_of_ne (by omega)]

end Writing

/-! ### The invariant of the loop -/

section Runs

variable {src dest₀ : Memory} {n : ℕ} {tableType : TableType}

/-- The source up to `p` is encoded in `op` bytes of the output. -/
structure Encoded (src dest₀ : Memory) (n : ℕ) (dest : Memory) (op : ℤ) (p : ℕ)
    (sequences : List Sequence) : Prop where
  inside : p ≤ n
  valid : ValidFrom 0 sequences
  decoded : decodeSequences [] sequences = slice src 0 p
  stands : Stands dest 0 (encodeSequences sequences)
  moved : op = (encodeSequences sequences).length
  /-- Literals of an earlier sequence overshoot by six bytes at most. -/
  agree : AgreeOutside dest₀ dest 0 (op + if sequences = [] then 0 else 6)
  lastLiterals_le : sequences ≠ [] → p + lastLiterals ≤ n
  mfLimit_le : ∀ s ∈ sequences.getLast?, p + mfLimit ≤ n + s.matchLength

/-- A match at `ip` is known, and nothing behind its known bytes is in the table. -/
structure Matches (src : Memory) (n : ℕ) (table : HashTable) (ip ref : ℤ) : Prop where
  ref_nonneg : 0 ≤ ref
  ref_lt : ref < ip
  close : ip ≤ ref + maxDistance
  limit : ip + mfLimit ≤ n
  known : ∃ k : ℕ, minMatch ≤ k ∧ ip + k + lastLiterals ≤ n ∧ Common src ref ip k ∧
    TableBelow table (ip + k)

/-- The invariant at each label of the source. -/
def Step.Inv (src dest₀ : Memory) (n : ℕ) : Step → Prop
  | .lastLiterals c => ∃ (p : ℕ) (sequences : List Sequence), c.anchor = p ∧
      Encoded src dest₀ n c.dest c.op p sequences
  | .mainLoop c => ∃ (p : ℕ) (sequences : List Sequence), c.anchor = p ∧ c.ip = p + 1 ∧
      Encoded src dest₀ n c.dest c.op p sequences ∧ TableBelow c.table c.ip
  | .nextMatch c ref token => ∃ (p : ℕ) (dest : Memory) (sequences : List Sequence) (length : ℕ),
      c.ip = p + length ∧ Encoded src dest₀ n dest token p sequences ∧
      c.op = token + (literalBytes (slice src p length) 0).length ∧
      Stands c.dest 0 (encodeSequences sequences ++ literalBytes (slice src p length) 0) ∧
      AgreeOutside dest₀ c.dest 0 (c.op + 8) ∧ Matches src n c.table c.ip ref

/-- What is left of the source at a label. -/
def Step.rank (n : ℕ) : Step → ℤ
  | .lastLiterals _ => 0
  | .mainLoop c => n - c.anchor + 1
  | .nextMatch c _ _ => n - c.ip

private theorem mainLoop_inv (tableType : TableType) {c : Compressor}
    (h : (Step.mainLoop c).Inv src dest₀ n) :
    (mainLoop src tableType n c).Inv src dest₀ n ∧
      (mainLoop src tableType n c).rank n < (Step.mainLoop c).rank n := by
  obtain ⟨p, sequences, hanchor, hip, hencoded, htable⟩ := h
  have hinside := hencoded.inside
  unfold mainLoop
  split
  · refine ⟨⟨p, sequences, hanchor, hencoded⟩, ?_⟩
    simp only [Step.rank, hanchor]
    omega
  · next ip ref table hfound =>
    obtain ⟨hle, hlimit, href, hlt, hclose, hcommon, hbelow⟩ := findMatch_spec hfound htable
    have hanchored : c.anchor ≤ ip := by omega
    obtain ⟨k, hback, hlow, hnonneg, hmore⟩ := catchUp_spec src hanchored href
    obtain ⟨length, hlength⟩ := Int.eq_ofNat_of_zero_le (sub_nonneg.2 hlow)
    have hputs := putLiterals_spec src c.dest c.op c.anchor (ip - k)
    rw [hback]
    dsimp only
    generalize putLiterals src c.dest c.op c.anchor (ip - k) = written at hputs
    obtain ⟨dest', op'⟩ := written
    rw [hlength, Int.toNat_natCast, hanchor] at hputs
    obtain ⟨hop, hstands, hagree⟩ := hputs
    dsimp only at hop hstands hagree ⊢
    have hfresh := hencoded.agree
    have hpos : 0 < (literalBytes (slice src p length) 0).length := Nat.succ_pos _
    have hmoved := hencoded.moved
    have hmatches : Matches src n table (ip - k) (ref - k) := by
      refine ⟨hnonneg, by omega, by omega, by omega, k + 4, Nat.le_add_left _ _, ?_,
        common_add.2 ⟨hmore, ?_⟩, hbelow.mono (by omega)⟩
      · rw [mfLimit_cast] at hlimit
        rw [lastLiterals_cast]
        omega
      · rwa [sub_add_cancel, sub_add_cancel]
    refine ⟨⟨p, c.dest, sequences, length, by dsimp only; omega, hencoded, hop, ?_, ?_, hmatches⟩,
      by simp only [Step.rank]; omega⟩
    · rw [stands_append, zero_add, ← hmoved]
      exact ⟨hagree.stands hencoded.stands (.inl (by omega)), hstands⟩
    · apply AgreeOutside.trans (hfresh.mono le_rfl _) (hagree.mono (by omega) le_rfl)
      split <;> omega

private theorem Encoded.sum_size {dest : Memory} {op : ℤ} {p : ℕ} {sequences : List Sequence}
    (h : Encoded src dest₀ n dest op p sequences) : (sequences.map Sequence.size).sum = p := by
  have hlength := congrArg List.length h.decoded
  rwa [length_decodeSequences, length_slice, List.length_nil, zero_add] at hlength

/-- The bytes that a match copies are those of the source. -/
theorem decode_match {p length offset count : ℕ} {ref : ℤ} (hpos : 0 < offset)
    (hoffset : (p : ℤ) + length = ref + offset) (href : 0 ≤ ref)
    (hcommon : Common src ref (p + length) count) :
    (⟨slice src p length, offset, count⟩ : Sequence).decode (slice src 0 p) =
      slice src 0 (p + length + count) := by
  have hslice : slice src 0 (p + length) = slice src 0 p ++ slice src (0 + p) length := slice_add
  rw [zero_add] at hslice
  have hstands : Stands src 0 (copyMatch (slice src 0 (p + length)) offset count) := by
    apply stands_copyMatch stands_slice hpos
    · rw [length_slice]
      omega
    · intro i hlow hhigh
      rw [length_slice, Nat.cast_add] at hlow hhigh
      have h := hcommon (i - p - length).toNat (by omega)
      rw [Int.toNat_of_nonneg (by omega)] at h
      convert h.symm using 2 <;> omega
  rw [Stands, length_copyMatch, length_slice] at hstands
  rw [Sequence.decode, ← hslice, hstands]

/-- A completed sequence extends what is encoded. -/
theorem Encoded.snoc {dest dest' : Memory} {op token ip ref : ℤ} {p length count : ℕ}
    {sequences : List Sequence} (h : Encoded src dest₀ n dest token p sequences)
    (hip : ip = p + length) (href : 0 ≤ ref) (hlt : ref < ip) (hclose : ip ≤ ref + maxDistance)
    (hlimit : ip + mfLimit ≤ n) (hcommon : Common src ref ip (minMatch + count))
    (hinside : ip + (minMatch + count : ℕ) + lastLiterals ≤ n)
    (hop : op = token + (literalBytes (slice src p length) 0).length)
    (hstands : Stands dest' 0 (encodeSequences sequences ++ literalBytes (slice src p length) 0))
    (hagree : AgreeOutside dest₀ dest' 0 (op + 8)) :
    Encoded src dest₀ n (putMatch dest' op token (ip - ref) count).1
      (putMatch dest' op token (ip - ref) count).2 (p + length + (minMatch + count))
      (sequences ++ [⟨slice src p length, (ip - ref).toNat, minMatch + count⟩]) := by
  have hoffset : ((ip - ref).toNat : ℤ) = ip - ref := Int.toNat_of_nonneg (by omega)
  have hvalid : Sequence.Valid ⟨slice src p length, (ip - ref).toNat, minMatch + count⟩ p :=
    ⟨by dsimp only; omega, by dsimp only; omega, by dsimp only; rw [length_slice]; omega,
      Nat.le_add_right _ _⟩
  obtain ⟨hmoved, hencoded, hframe⟩ := putMatch_spec hvalid.offset_le h.moved hop hstands
  dsimp only at hmoved hencoded hframe
  rw [hoffset, Nat.add_sub_cancel_left] at hmoved hencoded hframe
  generalize putMatch dest' op token (ip - ref) count = r at *
  have hlength : op + 2 ≤ r.2 := by
    rw [hmoved, hop, h.moved, encodeSequences, encodeSequences, List.flatMap_append,
      List.flatMap_singleton, List.length_append, Sequence.encode, List.length_append,
      length_literalBytes, length_literalBytes, Sequence.length_matchBytes]
    push_cast
    omega
  refine ⟨by omega, ?_, ?_, hencoded, hmoved, ?_, fun _ ↦ by omega, ?_⟩
  · rw [validFrom_append, h.sum_size, zero_add]
    exact ⟨h.valid, hvalid, trivial⟩
  · rw [decodeSequences_append, h.decoded]
    subst hip
    exact decode_match (by omega) (by omega) href hcommon
  · rw [if_neg (by simp)]
    exact (hagree.mono le_rfl (by omega)).trans (hframe.mono le_rfl (by omega))
  · intro s hs
    rw [List.getLast?_append, List.getLast?_singleton, Option.some_or, Option.mem_some_iff] at hs
    subst hs
    dsimp only
    omega

private theorem nextMatch_inv (tableType : TableType) {c : Compressor} {ref token : ℤ}
    (h : (Step.nextMatch c ref token).Inv src dest₀ n) :
    (nextMatch src tableType n c ref token).Inv src dest₀ n ∧
      (nextMatch src tableType n c ref token).rank n < (Step.nextMatch c ref token).rank n := by
  obtain ⟨p, dest, sequences, length, hip, hencoded, hop, hstands, hagree,
    href, hlt, hclose, hlimit, k, hk, hknown, hcommon, hbelow⟩ := h
  obtain ⟨more, rfl⟩ := Nat.exists_eq_add_of_le hk
  have hend : c.ip + minMatch ≤ n - lastLiterals := by omega
  obtain ⟨count, hcount, hlongest⟩ := countMatch_spec src (ref + minMatch) hend
  have hinside := hlongest.inside
  obtain ⟨hfour, hmore⟩ := common_add.1 hcommon
  -- the bytes that are known to be common are counted
  have hle : more ≤ count := hlongest.greatest more (by omega) hmore
  have hsnoc := hencoded.snoc hip href hlt hclose hlimit (common_add.2 ⟨hfour, hlongest.common⟩)
    (by omega) hop hstands hagree
  have hip' : c.ip + minMatch + count = (p + length + (minMatch + count) : ℕ) := by omega
  unfold nextMatch
  rw [hcount]
  dsimp only
  rw [show (c.ip + minMatch + count - (c.ip + minMatch)).toNat = count by omega]
  generalize putMatch c.dest c.op token (c.ip - ref) count = written at hsnoc
  obtain ⟨dest', op'⟩ := written
  dsimp only at hsnoc ⊢
  have hmoved := hsnoc.moved
  have hframe := hsnoc.agree
  rw [if_neg (by simp)] at hframe
  have hmin := minMatch_cast
  have hbelow' : TableBelow c.table (c.ip + minMatch + count) := hbelow.mono (by omega)
  split
  · refine ⟨⟨_, _, hip', hsnoc⟩, ?_⟩
    rw [mfLimit_cast] at hlimit
    simp only [Step.rank]
    omega
  · next hroom =>
    have hfilled : TableBelow
        (c.table.putPosition src (c.ip + minMatch + count - 2) tableType)
        (c.ip + minMatch + count) := hbelow'.putPositionOnHash (by omega) _ _
    generalize c.table.putPosition src (c.ip + minMatch + count - 2) tableType = filled at hfilled ⊢
    have htable : TableBelow (filled.putPosition src (c.ip + minMatch + count) tableType)
        (c.ip + minMatch + count + 1) :=
      (hfilled.mono (by omega)).putPositionOnHash (by omega) _ _
    generalize filled.putPosition src (c.ip + minMatch + count) tableType = table at htable ⊢
    split
    · refine ⟨⟨_, _, hip', by rw [hip'], hsnoc, htable⟩, ?_⟩
      simp only [Step.rank]
      omega
    · next hnear =>
      obtain ⟨hclose', hcommon'⟩ := not_isFar_iff.1 (Bool.not_eq_true _ ▸ hnear)
      have hput : Puts dest' op' [0] (dest'.write op' 0, op' + 1) := puts_write
      have hmatches : Matches src n table (c.ip + minMatch + count)
          (filled.getPosition src (c.ip + minMatch + count) tableType) := by
        rw [mfLimit_cast] at hroom
        exact ⟨Int.natCast_nonneg _, hfilled _, hclose', by rw [mfLimit_cast]; omega, minMatch,
          le_rfl, by rw [lastLiterals_cast]; omega, hcommon', htable.mono (by omega)⟩
      have hnone : c.ip + minMatch + count = (p + length + (minMatch + count) : ℕ) + (0 : ℕ) := by
        rw [Nat.cast_zero, add_zero, hip']
      refine ⟨⟨_, dest', _, 0, hnone, hsnoc, rfl, ?_, ?_, hmatches⟩, ?_⟩
      · rw [stands_append, zero_add, ← hmoved]
        exact ⟨hput.agree.stands hsnoc.stands (.inl (by omega)), hput.stands⟩
      · exact (hframe.mono le_rfl (by dsimp only; omega)).trans
          (hput.agree.mono (by omega) (by simp))
      · simp only [Step.rank]
        omega

private theorem Step.Inv.rank_pos {s : Step} (h : s.Inv src dest₀ n)
    (hs : ∀ c, s ≠ .lastLiterals c) :
    0 < s.rank n := by
  cases s with
  | lastLiterals c => exact absurd rfl (hs c)
  | mainLoop c =>
    obtain ⟨p, sequences, hanchor, hip, hencoded, hbelow⟩ := h
    have := hencoded.inside
    simp only [rank, hanchor]
    omega
  | nextMatch c ref token =>
    obtain ⟨p, dest, sequences, length, hip, hencoded, hop, hstands, hagree, hmatches⟩ := h
    have := hmatches.limit
    rw [mfLimit_cast] at this
    simp only [rank]
    omega

/-- The loop ends within its rank. -/
theorem compressLoop_inv (tableType : TableType) {fuel : ℕ} {s : Step}
    (h : s.Inv src dest₀ n) (hfuel : s.rank n ≤ fuel) :
    ∃ c, compressLoop src tableType n fuel s = some c ∧ (Step.lastLiterals c).Inv src dest₀ n := by
  induction fuel generalizing s with
  | zero =>
    cases s with
    | lastLiterals c => exact ⟨c, rfl, h⟩
    | mainLoop c =>
      have := h.rank_pos (by simp)
      omega
    | nextMatch c ref token =>
      have := h.rank_pos (by simp)
      omega
  | succ fuel ih =>
    cases s with
    | lastLiterals c => exact ⟨c, rfl, h⟩
    | mainLoop c =>
      obtain ⟨hinv, hrank⟩ := mainLoop_inv tableType h
      exact ih hinv (by omega)
    | nextMatch c ref token =>
      obtain ⟨hinv, hrank⟩ := nextMatch_inv tableType h
      exact ih hinv (by omega)

/-- The last literals complete the block. -/
theorem putLastLiterals_spec {c : Compressor} (h : (Step.lastLiterals c).Inv src dest₀ n) :
    ∃ (b : Block) (dest : Memory), putLastLiterals src n c = ((b.encode.length : ℤ), dest) ∧
      b.decode = slice src 0 n ∧ Stands dest 0 b.encode ∧
      AgreeOutside dest₀ dest 0 b.encode.length := by
  obtain ⟨p, sequences, hanchor, hencoded⟩ := h
  obtain ⟨rest, rfl⟩ := Nat.exists_eq_add_of_le hencoded.inside
  have hlast := hencoded.lastLiterals_le
  have hlimit := hencoded.mfLimit_le
  refine ⟨⟨sequences, slice src p rest, hencoded.valid, fun hne ↦ ?_, fun s hs ↦ ?_⟩, ?_⟩
  · rw [length_slice]
    have := hlast hne
    omega
  · rw [length_slice]
    have := hlimit s hs
    omega
  have hlength : ((p + rest : ℕ) : ℤ) - c.anchor = rest := by
    rw [hanchor]
    omega
  have htoken : Puts c.dest c.op (token rest 0 :: lengthBytes rest) (putToken c.dest c.op rest) :=
    putToken_puts
  unfold putLastLiterals
  rw [hlength, Int.toNat_natCast, hanchor]
  generalize putToken c.dest c.op rest = written at htoken
  obtain ⟨mid, op'⟩ := written
  have hput : Puts c.dest c.op (literalBytes (slice src p rest) 0)
      (mid.copy src op' p rest, op' + rest) := by
    rw [literalBytes, length_slice]
    exact htoken.append puts_copy
  have hmoved := hput.moved
  have hpos := hencoded.moved
  have hend : op' + rest =
      (encodeSequences sequences ++ literalBytes (slice src p rest) 0).length := by
    rw [List.length_append]
    dsimp only at hmoved
    omega
  refine ⟨_, Prod.ext hend rfl, ?_, ?_, ?_⟩
  · have hslice : slice src 0 (p + rest) = slice src 0 p ++ slice src (0 + p) rest := slice_add
    rw [Block.decode, hencoded.decoded, hslice, zero_add]
  · rw [Block.encode, stands_append, zero_add, ← hpos]
    exact ⟨hput.agree.stands hencoded.stands (.inl (by rw [zero_add]; exact hpos.ge)), hput.stands⟩
  · have hlen : (literalBytes (slice src p rest) 0).length = 1 + (lengthBytes rest).length + rest :=
      by rw [length_literalBytes, length_slice]
    have hsize : c.op + (literalBytes (slice src p rest) 0).length =
        (encodeSequences sequences ++ literalBytes (slice src p rest) 0).length := by
      rw [List.length_append, hpos, Nat.cast_add]
    have hshort : (if sequences = [] then (0 : ℤ) else 6) ≤
        (literalBytes (slice src p rest) 0).length := by
      split
      · omega
      · next hne =>
        have := hlast hne
        rw [lastLiterals] at this
        omega
    rw [Block.encode, ← hsize]
    exact (hencoded.agree.mono le_rfl (by omega)).trans (hput.agree.mono (by omega) le_rfl)

/-- Nothing is encoded at the start. -/
theorem encoded_start : Encoded src dest₀ n dest₀ 0 0 [] :=
  ⟨Nat.zero_le _, trivial, rfl, stands_nil, rfl, .refl _ _ _, fun h ↦ absurd rfl h, by simp⟩

private theorem compressGeneric_spec (hsize : tableType = .byU16 → n < limit64K) :
    ∃ (b : Block) (dest : Memory),
      compressGeneric src dest₀ n tableType = some (toInt b.encode.length, dest) ∧
      b.decode = slice src 0 n ∧ Stands dest 0 b.encode ∧
      AgreeOutside dest₀ dest 0 b.encode.length := by
  unfold compressGeneric
  split
  · have hstart : (Step.lastLiterals ⟨dest₀, 0, 0, 0, 0, fun _ ↦ 0⟩).Inv src dest₀ n :=
      ⟨0, [], rfl, encoded_start⟩
    obtain ⟨b, dest, hput, hb⟩ := putLastLiterals_spec hstart
    refine ⟨b, dest, ?_, hb⟩
    rw [hput, written]
  · rw [if_neg (by rintro ⟨htype, hlarge⟩; cases tableType <;> simp_all; omega)]
    have htable : TableBelow (HashTable.putPosition (fun _ ↦ 0) src 0 tableType) 1 :=
      TableBelow.putPositionOnHash (fun _ ↦ by simp) (by decide) _ _
    have hstart : (Step.mainLoop ⟨dest₀, 0, 0, 1, hashPosition src 1 tableType,
        HashTable.putPosition (fun _ ↦ 0) src 0 tableType⟩).Inv src dest₀ n :=
      ⟨0, [], rfl, rfl, encoded_start, htable⟩
    have hfuel : (Step.mainLoop ⟨dest₀, 0, 0, 1, hashPosition src 1 tableType,
        HashTable.putPosition (fun _ ↦ 0) src 0 tableType⟩).rank n ≤ (n + 1 : ℕ) := by
      simp [Step.rank]
    obtain ⟨c, hloop, hinv⟩ := compressLoop_inv tableType hstart hfuel
    obtain ⟨b, dest, hput, hb⟩ := putLastLiterals_spec hinv
    refine ⟨b, dest, ?_, hb⟩
    dsimp only
    rw [hloop, Option.map_some, hput, written]

/-- The output is the bytes of a block that decodes to the source, and nothing behind it is
written. -/
theorem compress_spec (src dest : Memory) (n : ℕ) :
    ∃ (b : Block) (dest' : Memory), compress src dest n = some (toInt b.encode.length, dest') ∧
      b.decode = slice src 0 n ∧ Stands dest' 0 b.encode ∧
      AgreeOutside dest dest' 0 b.encode.length := by
  unfold compress
  split
  · next h => exact compressGeneric_spec fun _ ↦ h
  · exact compressGeneric_spec fun h ↦ by cases h

end Runs

/-- What is compressed keeps to its bound and is decompressed to the source, with any bytes behind
it and whatever the two outputs held; nothing outside them is written. -/
theorem compress_decompress (src dest out : Memory) (n : ℕ) (hn : n < sizeLimit) (tail : Bytes) :
    ∃ (size : ℕ) (dest' out' : Memory), compress src dest n = some ((size : ℤ), dest') ∧
      (size : ℤ) ≤ compressBound n ∧ AgreeOutside dest dest' 0 size ∧
      decompressFast (slice dest' 0 size ++ tail) out n = some ((size : ℤ), out') ∧
      slice out' 0 n = slice src 0 n ∧ AgreeOutside out out' 0 n := by
  obtain ⟨b, dest', hcompress, hdecode, hstands, hagree⟩ := compress_spec src dest n
  obtain ⟨out', hfast, hrestored, hagree'⟩ := decompressFast_encode b tail out
  obtain ⟨hcount, hbound⟩ := b.length_encode_of_lt (by rwa [hdecode, length_slice])
  rw [hcount] at hcompress hfast
  rw [hdecode, length_slice] at hfast hagree' hbound
  rw [hdecode, Stands, length_slice] at hrestored
  refine ⟨b.encode.length, dest', out', hcompress, hbound, hagree, ?_, hrestored, hagree'⟩
  rw [hstands, hfast]

/-- Twenty equal bytes are compressed to nine, and restored. -/
theorem compress_decompress_equal :
    ∃ (size : ℕ) (dest' out' : Memory), compress (fun _ ↦ 7) (fun _ ↦ 0) 20 =
        some ((size : ℤ), dest') ∧
      (size : ℤ) ≤ compressBound 20 ∧ AgreeOutside (fun _ ↦ 0) dest' 0 size ∧
      decompressFast (slice dest' 0 size ++ []) (fun _ ↦ 9) 20 = some ((size : ℤ), out') ∧
      slice out' 0 20 = slice (fun _ ↦ 7) 0 20 ∧ AgreeOutside (fun _ ↦ 9) out' 0 20 :=
  compress_decompress _ _ _ 20 (by decide) []

end LibSpaces.Lz4
