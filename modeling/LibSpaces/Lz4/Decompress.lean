import LibSpaces.Lz4.Copies
import LibSpaces.Lz4.Format

/-!
# Decompression to a known size

`src/src/repo/lz4-r101/lz4.c:575–722`, `LZ4_decompress_generic` as `LZ4_decompress_fast` makes it:
with `endOnOutputSize`, `withPrefix` and `full`, in 64-bit little-endian mode. The output starts
at address 0 of a memory that may hold anything; a read behind the input is `none`.

Nothing outside the output is written, whatever the input. The bytes of a block give what the
block decodes to, and the input is read to its end and not beyond.
-/

namespace LibSpaces.Lz4

open LibSpaces.Base LibSpaces.Base.Memory

/-! ### The source -/

/-- `dest`, `op` and what is left of the source behind `ip`. -/
structure Decoder where
  dest : Memory
  op : ℤ
  ip : Bytes

/-- How a round of the main loop ends. -/
inductive Round
  | outputError (d : Decoder)
  | finished (d : Decoder)
  | next (d : Decoder)

/-- Bytes are added to a length up to the first that is not 255. -/
def readLength (length : ℕ) : Bytes → Option (ℕ × Bytes)
  | [] => none
  | s :: ip =>
    if s = 255 then readLength (length + s.toNat) ip else some (length + s.toNat, ip)

/-- A length from its field of the token. -/
def getLength (field : ℕ) (ip : Bytes) : Option (ℕ × Bytes) :=
  if field = runMask then readLength field ip else some (field, ip)

/-- `dec32table`, by the distance of a match. -/
def dec32table : List ℤ := [0, 3, 2, 3, 0, 0, 0, 0]

/-- `dec64table`, by the distance of a match. -/
def dec64table : List ℤ := [0, 0, 0, -1, 0, 1, 2, 3]

/-- `op[0] = ref[0];` up to `op[3] = ref[3];`. -/
def copyFour (dest : Memory) (op ref : ℤ) : Memory :=
  let dest := dest.write op (dest ref)
  let dest := dest.write (op + 1) (dest (ref + 1))
  let dest := dest.write (op + 2) (dest (ref + 2))
  dest.write (op + 3) (dest (ref + 3))

/-- The first eight bytes of a match; the second value is the advanced `ref`. -/
def copyFirst (dest : Memory) (op ref : ℤ) : Memory × ℤ :=
  if op - ref < 8 then
    let offset := (op - ref).toNat
    let dest := copyFour dest op ref
    let ref := ref + 4 - dec32table.getD offset 0
    (dest.copy dest (op + 4) ref 4, ref - dec64table.getD offset 0)
  else (dest.copy dest op ref 8, ref + 8)

/-- The end of a match close to the end of the output. -/
def copyTail (dest : Memory) (op ref cpy oend : ℤ) : Memory :=
  match secureCopy id dest op ref (oend - copyLength) with
  | (dest, op, ref) => copyBytes dest op ref cpy

/-- The rest of a match that ends at `cpy`; `none` is an error in the block. -/
def copyRest (dest : Memory) (op ref cpy oend : ℤ) : Option Memory :=
  if oend - copyLength - 4 < cpy then
    if oend - lastLiterals < cpy then none
    else some (copyTail dest op ref cpy oend)
  else some (wildCopy id dest op ref cpy).1

/-- The offset, the length and the copy of a match. -/
def matchRound (token : UInt8) (oend : ℤ) (d : Decoder) : Option Round :=
  match d.ip with
  | low :: high :: ip => do
    let ref := d.op - ofLeBytes [low, high]
    let (length, ip) ← getLength (token.toNat % 16) ip
    let (dest, ref) := copyFirst d.dest d.op ref
    let cpy := d.op + 8 + length - 4
    match copyRest dest (d.op + 8) ref cpy oend with
    | none => some (.outputError ⟨dest, d.op + 8, ip⟩)
    | some dest => some (.next ⟨dest, cpy, ip⟩)
  | _ => none

/-- The last literals, which must end where the output does. -/
def lastRound (length : ℕ) (oend : ℤ) (d : Decoder) : Option Round :=
  if d.op + length ≠ oend then some (.outputError d)
  else if d.ip.length < length then none
  else some (.finished
    ⟨d.dest.copy (ofBytes d.ip) d.op 0 length, d.op + length, d.ip.drop length⟩)

/-- One round of the main loop. -/
def round (oend : ℤ) (d : Decoder) : Option Round :=
  match d.ip with
  | [] => none
  | token :: ip => do
    let (length, ip) ← getLength (token.toNat / 16) ip
    if oend - copyLength < d.op + length then lastRound length oend { d with ip := ip }
    else
      match wildCopy (fun _ ↦ ofBytes ip) d.dest d.op 0 (d.op + length) with
      | (dest, _, read) =>
        if ip.length < read then none
        else matchRound token oend ⟨dest, d.op + length, ip.drop length⟩

private theorem readLength_shorter {length total : ℕ} {ip rest : Bytes}
    (h : readLength length ip = some (total, rest)) : rest.length < ip.length := by
  induction ip generalizing length with
  | nil => cases h
  | cons s ip ih =>
    rw [readLength] at h
    split at h
    · exact (ih h).trans (Nat.lt_succ_self _)
    · cases h
      exact Nat.lt_succ_self _

private theorem getLength_le {field total : ℕ} {ip rest : Bytes}
    (h : getLength field ip = some (total, rest)) : rest.length ≤ ip.length := by
  rw [getLength] at h
  split at h
  · exact (readLength_shorter h).le
  · cases h
    exact le_rfl

/-- The decoder that a round ends with. -/
def Round.decoder : Round → Decoder
  | outputError d | finished d | next d => d

private theorem matchRound_reads {token : UInt8} {oend : ℤ} {d : Decoder} {r : Round}
    (h : matchRound token oend d = some r) : r.decoder.ip.length < d.ip.length := by
  unfold matchRound at h
  split at h
  · next low high ip hip =>
    obtain ⟨⟨length, rest⟩, hlength, h⟩ := Option.bind_eq_some_iff.1 h
    have hle := getLength_le hlength
    have hlt : rest.length < d.ip.length := by
      rw [hip, List.length_cons, List.length_cons]
      omega
    dsimp only at h
    split at h
    · cases h
      exact hlt
    · cases h
      exact hlt
  · cases h

private theorem lastRound_reads {length : ℕ} {oend : ℤ} {d : Decoder} {r : Round}
    (h : lastRound length oend d = some r) : r.decoder.ip.length ≤ d.ip.length := by
  unfold lastRound at h
  split at h
  · cases h
    exact le_rfl
  · split at h
    · cases h
    · cases h
      rw [Round.decoder, List.length_drop]
      exact Nat.sub_le _ _

/-- Each round reads at least its token. -/
theorem round_reads {oend : ℤ} {d : Decoder} {r : Round} (h : round oend d = some r) :
    r.decoder.ip.length < d.ip.length := by
  unfold round at h
  split at h
  · cases h
  · next token ip hip =>
    obtain ⟨⟨length, rest⟩, hlength, h⟩ := Option.bind_eq_some_iff.1 h
    have hle := getLength_le hlength
    rw [hip, List.length_cons]
    dsimp only at h
    split at h
    · have hlast := lastRound_reads h
      dsimp only at hlast
      omega
    · split at h
      · cases h
      · have hlt := matchRound_reads h
        rw [List.length_drop] at hlt
        omega

/-- The main loop; each round reads at least a token. The result is the final state, with
`true` where the block was decoded to its end. -/
def decodeLoop (oend : ℤ) (d : Decoder) : Option (Bool × Decoder) :=
  match _h : round oend d with
  | none => none
  | some (.outputError d) => some (false, d)
  | some (.finished d) => some (true, d)
  | some (.next d) => decodeLoop oend d
termination_by d.ip.length
decreasing_by exact round_reads ‹_›

/-- `LZ4_decompress_fast`: the number of bytes read, or a negative number, and the memory. The
difference of the pointers is cast to an `int`. -/
def decompressFast (source : Bytes) (dest : Memory) (outputSize : ℤ) : Option (ℤ × Memory) :=
  if outputSize = 0 then
    source.head?.map fun token ↦ (if token = 0 then 1 else -1, dest)
  else
    (decodeLoop outputSize ⟨dest, 0, source⟩).map fun
      | (true, d) => (toInt (source.length - d.ip.length), d.dest)
      | (false, d) => (toInt (toInt (-(source.length - d.ip.length)) - 1), d.dest)

/-! ### Nothing outside the output is written -/

section Safety

variable {dest dest' : Memory} {op ref cpy oend : ℤ} {token : UInt8} {d d' : Decoder}
  {r : Round}

private theorem copyFour_eq : copyFour dest op ref = copyBytes dest op ref (op + 4) := by
  rw [copyBytes, if_pos (by omega), copyBytes, if_pos (by omega), copyBytes, if_pos (by omega),
    copyBytes, if_pos (by omega), copyBytes, if_neg (by omega)]
  simp only [add_assoc]
  rfl

private theorem copyFirst_agreeOutside :
    AgreeOutside dest (copyFirst dest op ref).1 op (op + 8) := by
  unfold copyFirst
  split
  · dsimp only
    rw [copyFour_eq]
    have hfour : AgreeOutside dest (copyBytes dest op ref (op + 4)) op (op + 4) :=
      copyBytes_agreeOutside
    exact (hfour.mono le_rfl (by omega)).trans (agreeOutside_copy.mono (by omega) (by omega))
  · exact agreeOutside_copy

private theorem copyTail_agreeOutside (hop : op ≤ oend) (hcpy : cpy ≤ oend) :
    AgreeOutside dest (copyTail dest op ref cpy oend) op oend := by
  unfold copyTail
  generalize hcopy : secureCopy id dest op ref (oend - copyLength) = copied
  obtain ⟨mid, op', ref'⟩ := copied
  have hstops := secureCopy_stops hcopy
  rw [copyLength_cast] at hstops
  exact ((secureCopy_agreeOutside hcopy).mono le_rfl (by omega)).trans
    (copyBytes_agreeOutside.mono (by omega) (by omega))

private theorem copyRest_agreeOutside (h : copyRest dest op ref cpy oend = some dest')
    (hop : op ≤ oend) (hcpy : op ≤ cpy + 4) : AgreeOutside dest dest' op oend := by
  unfold copyRest at h
  rw [copyLength_cast, lastLiterals_cast] at h
  split at h
  · split at h
    · cases h
    · cases h
      exact copyTail_agreeOutside hop (by omega)
  · generalize hcopy : wildCopy id dest op ref cpy = copied at h
    obtain ⟨mid, op', ref'⟩ := copied
    cases h
    have hstops := wildCopy_stops hcopy
    exact (wildCopy_agreeOutside hcopy).mono le_rfl (by omega)

private theorem matchRound_agreeOutside (h : matchRound token oend d = some r)
    (hop : d.op + 8 ≤ oend) :
    AgreeOutside d.dest r.decoder.dest d.op oend ∧ d.op ≤ r.decoder.op := by
  unfold matchRound at h
  split at h
  · next low high ip hip =>
    obtain ⟨⟨length, rest⟩, hlength, h⟩ := Option.bind_eq_some_iff.1 h
    dsimp only at h
    have hfirst : AgreeOutside d.dest (copyFirst d.dest d.op (d.op - ofLeBytes [low, high])).1
        d.op oend := copyFirst_agreeOutside.mono le_rfl hop
    split at h
    · cases h
      exact ⟨hfirst, by simp [Round.decoder]⟩
    · next hrest =>
      cases h
      have hagree := copyRest_agreeOutside hrest (by omega) (by omega)
      exact ⟨hfirst.trans (hagree.mono (by omega) le_rfl), by simp [Round.decoder]; omega⟩
  · cases h

private theorem lastRound_agreeOutside {length : ℕ} (h : lastRound length oend d = some r) :
    AgreeOutside d.dest r.decoder.dest d.op oend ∧ d.op ≤ r.decoder.op := by
  unfold lastRound at h
  split at h
  · cases h
    exact ⟨.refl _ _ _, le_rfl⟩
  · split at h
    · cases h
    · cases h
      exact ⟨agreeOutside_copy.mono le_rfl (by omega), by simp [Round.decoder]⟩

private theorem round_agreeOutside (h : round oend d = some r) :
    AgreeOutside d.dest r.decoder.dest d.op oend ∧ d.op ≤ r.decoder.op := by
  unfold round at h
  split at h
  · cases h
  · next token ip hip =>
    obtain ⟨⟨length, rest⟩, hlength, h⟩ := Option.bind_eq_some_iff.1 h
    dsimp only at h
    split at h
    · exact lastRound_agreeOutside (d := { d with ip := rest }) h
    · next hend =>
      rw [copyLength_cast] at hend
      generalize hcopy : wildCopy (fun _ ↦ ofBytes rest) d.dest d.op 0 (d.op + length) = copied at h
      obtain ⟨dest, op', read⟩ := copied
      dsimp only at h
      split at h
      · cases h
      · have hstops := wildCopy_stops hcopy
        obtain ⟨hagree, hle⟩ := matchRound_agreeOutside h (by dsimp only; omega)
        dsimp only at hagree hle
        exact ⟨((wildCopy_agreeOutside hcopy).mono le_rfl (by omega)).trans
          (hagree.mono (by omega) le_rfl), by omega⟩

private theorem decodeLoop_agreeOutside {ok : Bool} (h : decodeLoop oend d = some (ok, d')) :
    AgreeOutside d.dest d'.dest d.op oend := by
  fun_induction decodeLoop oend d with
  | case1 d hround => cases h
  | case2 d e hround =>
    cases h
    exact (round_agreeOutside hround).1
  | case3 d e hround =>
    cases h
    exact (round_agreeOutside hround).1
  | case4 d e hround ih =>
    obtain ⟨hagree, hle⟩ := round_agreeOutside hround
    exact hagree.trans ((ih h).mono hle le_rfl)

private theorem decodeLoop_reads {ok : Bool} (h : decodeLoop oend d = some (ok, d')) :
    d'.ip.length < d.ip.length := by
  fun_induction decodeLoop oend d with
  | case1 d hround => cases h
  | case2 d e hround =>
    cases h
    exact round_reads hround
  | case3 d e hround =>
    cases h
    exact round_reads hround
  | case4 d e hround ih => exact (ih h).trans (round_reads hround)

private theorem decompressFast_agreeOutside {source : Bytes} {outputSize result : ℤ}
    (h : decompressFast source dest outputSize = some (result, dest')) :
    AgreeOutside dest dest' 0 outputSize := by
  unfold decompressFast at h
  split at h
  · obtain ⟨token, -, h⟩ := Option.map_eq_some_iff.1 h
    cases h
    exact .refl _ _ _
  · obtain ⟨⟨ok, d⟩, hloop, h⟩ := Option.map_eq_some_iff.1 h
    have hagree := decodeLoop_agreeOutside hloop
    cases ok <;> cases h <;> exact hagree

end Safety

/-! ### Blocks are restored -/

section Blocks

variable {dest dest' : Memory} {decoded ip rest : Bytes} {op ref cpy oend : ℤ} {d : Decoder}

private theorem readLength_extension {field length : ℕ} :
    readLength field (extension length ++ rest) = some (field + length, rest) := by
  induction length using Nat.strong_induction_on generalizing field with
  | _ length ih =>
    by_cases hlt : length < 255
    · have hne : UInt8.ofNat length ≠ 255 := by
        rw [Ne, ← UInt8.toNat_inj, UInt8.toNat_ofNat']
        simp
        omega
      rw [extension_of_lt hlt, List.singleton_append, readLength, if_neg hne, UInt8.toNat_ofNat',
        Nat.mod_eq_of_lt (by omega)]
    · obtain ⟨k, rfl⟩ : ∃ k, length = k + 255 := ⟨length - 255, by omega⟩
      rw [extension_add, List.cons_append, readLength, if_pos rfl, ih k (by omega)]
      congr 2
      have : (255 : UInt8).toNat = 255 := rfl
      omega

/-- A length is read back from its field of the token and its bytes. -/
theorem getLength_lengthBytes {length : ℕ} :
    getLength (min length runMask) (lengthBytes length ++ rest) = some (length, rest) := by
  rw [getLength, lengthBytes]
  by_cases h : length < runMask
  · rw [if_pos h, Nat.min_eq_left h.le, if_neg h.ne, List.nil_append]
  · rw [if_neg h, Nat.min_eq_right (by omega), if_pos rfl, readLength_extension]
    congr 2
    omega

private theorem toNat_token {literals matchLength : ℕ} :
    (token literals matchLength).toNat = min literals runMask * 16 + min matchLength runMask := by
  rw [token, UInt8.toNat_ofNat', Nat.mod_eq_of_lt]
  rw [runMask]
  omega

private theorem token_div {literals matchLength : ℕ} :
    (token literals matchLength).toNat / 16 = min literals runMask := by
  rw [toNat_token, runMask]
  omega

private theorem token_mod {literals matchLength : ℕ} :
    (token literals matchLength).toNat % 16 = min matchLength runMask := by
  rw [toNat_token, runMask]
  omega

/-- A distance below eight is widened twice, by the two tables, to a multiple of itself. -/
theorem dec_tables {offset : ℤ} (hpos : 0 < offset) (hlt : offset < 8) :
    (offset ∣ offset + dec32table.getD offset.toNat 0 ∧
        4 ≤ offset + dec32table.getD offset.toNat 0 ∧ dec32table.getD offset.toNat 0 ≤ 4) ∧
      offset ∣ offset + 4 + dec32table.getD offset.toNat 0 + dec64table.getD offset.toNat 0 ∧
      8 ≤ offset + 4 + dec32table.getD offset.toNat 0 + dec64table.getD offset.toNat 0 ∧
      4 + dec32table.getD offset.toNat 0 + dec64table.getD offset.toNat 0 ≤ 8 := by
  obtain rfl | rfl | rfl | rfl | rfl | rfl | rfl : offset = 1 ∨ offset = 2 ∨ offset = 3 ∨
      offset = 4 ∨ offset = 5 ∨ offset = 6 ∨ offset = 7 := by omega
  all_goals decide

/-- The first eight bytes of a match repeat what stands at its offset, and `ref` goes on at a
multiple of the offset. -/
theorem copyFirst_repeats (dest : Memory) (hback : ref < op) :
    Repeats (copyFirst dest op ref).1 (op - ref) op (op + 8) ∧
      (op - ref) ∣ op + 8 - (copyFirst dest op ref).2 ∧
      (copyFirst dest op ref).2 ≤ op ∧ ref ≤ (copyFirst dest op ref).2 := by
  unfold copyFirst
  by_cases hshort : op - ref < 8
  · rw [if_pos hshort]
    obtain ⟨⟨hdvd, hfour, hle⟩, hdvd', height, hle'⟩ := dec_tables (by omega) hshort
    dsimp only
    refine ⟨fun i hlow hhigh ↦ ?_, ?_, by omega, by omega⟩
    · rw [copyFour_eq]
      by_cases hi : i < op + 4
      · refine ⟨op - ref, by omega, dvd_rfl, by omega, ?_⟩
        rw [agreeOutside_copy i (by omega), agreeOutside_copy (i - (op - ref)) (by omega)]
        exact copyBytes_within hback i hlow hi
      · refine ⟨_, by omega, hdvd, by omega, ?_⟩
        rw [copy_of_mem (by omega) (by omega),
          agreeOutside_copy (i - (op - ref + dec32table.getD (op - ref).toNat 0)) (by omega)]
        congr 1
        omega
    · convert hdvd' using 1
      omega
  · rw [if_neg hshort]
    refine ⟨fun i hlow hhigh ↦ ⟨op - ref, by omega, dvd_rfl, by omega, ?_⟩, ?_, ?_, ?_⟩
    all_goals dsimp only
    · rw [copy_of_mem hlow (by omega), agreeOutside_copy (i - (op - ref)) (by omega)]
      congr 1
      omega
    · rw [show op + 8 - (ref + 8) = op - ref by omega]
    · omega
    · omega

private theorem copyTail_within (hback : ref + 8 ≤ op) : ∀ i, op ≤ i → i < cpy →
    copyTail dest op ref cpy oend i = copyTail dest op ref cpy oend (i - (op - ref)) := by
  unfold copyTail
  generalize hcopy : secureCopy id dest op ref (oend - copyLength) = copied
  obtain ⟨mid, op', ref'⟩ := copied
  have hstops := secureCopy_stops hcopy
  have hframe : AgreeOutside mid (copyBytes mid op' ref' cpy) op' cpy := copyBytes_agreeOutside
  intro i hlow hhigh
  dsimp only
  by_cases hi : i < op'
  · rw [hframe i (.inl hi), hframe (i - (op - ref)) (by omega)]
    exact secureCopy_within hcopy hback i hlow hi
  · rw [copyBytes_within (by omega) i (by omega) hhigh]
    congr 1
    omega

private theorem copyRest_within (hback : ref + 8 ≤ op) (hcpy : cpy + lastLiterals ≤ oend) :
    ∃ dest', copyRest dest op ref cpy oend = some dest' ∧
      ∀ i, op ≤ i → i < cpy → dest' i = dest' (i - (op - ref)) := by
  unfold copyRest
  split
  · rw [if_neg (by omega)]
    exact ⟨_, rfl, copyTail_within hback⟩
  · generalize hcopy : wildCopy id dest op ref cpy = copied
    obtain ⟨mid, op', ref'⟩ := copied
    have hstops := wildCopy_stops hcopy
    exact ⟨mid, rfl, fun i hlow hhigh ↦ wildCopy_within hcopy hback i hlow (by omega)⟩

/-- A match is copied byte for byte. -/
theorem copyMatch_spec (hback : ref < op) (hcpy : cpy + lastLiterals ≤ oend)
    (hmin : op + minMatch ≤ cpy) :
    ∃ dest', copyRest (copyFirst dest op ref).1 (op + 8) (copyFirst dest op ref).2 cpy oend =
        some dest' ∧ AgreeOutside dest dest' op oend ∧
      ∀ i, op ≤ i → i < cpy → dest' i = dest' (i - (op - ref)) := by
  have hfirst : AgreeOutside dest (copyFirst dest op ref).1 op (op + 8) := copyFirst_agreeOutside
  obtain ⟨hrepeats, hdvd, hle, hge⟩ := copyFirst_repeats dest hback
  generalize copyFirst dest op ref = copied at hfirst hrepeats hdvd hle hge
  obtain ⟨mid, ref'⟩ := copied
  dsimp only at hfirst hrepeats hdvd hle hge ⊢
  obtain ⟨dest', hrest, hwithin⟩ :
      ∃ dest', copyRest mid (op + 8) ref' cpy oend = some dest' ∧
        ∀ i, op + 8 ≤ i → i < cpy → dest' i = dest' (i - (op + 8 - ref')) :=
    copyRest_within (by omega) hcpy
  have hmin' := minMatch_cast
  rw [lastLiterals_cast] at hcpy
  have hagree := copyRest_agreeOutside hrest (by omega) (by omega)
  refine ⟨dest', hrest,
    (hfirst.mono le_rfl (by omega)).trans (hagree.mono (by omega) le_rfl), ?_⟩
  have hall : Repeats dest' (op - ref) op cpy := by
    intro i hlow hhigh
    by_cases hi : i < op + 8
    · obtain ⟨distance, hpos, hdvd, hle, heq⟩ := hrepeats i hlow hi
      exact ⟨distance, hpos, hdvd, hle,
        by rw [hagree i (.inl hi), hagree (i - distance) (by omega), heq]⟩
    · exact ⟨op + 8 - ref', by omega, hdvd, by omega, hwithin i (by omega) hhigh⟩
  exact fun i hlow hhigh ↦ hall.period (by omega) hlow hhigh

/-- Literals are copied and nothing before them changes. -/
theorem wildCopy_literals {literals : Bytes} {mem : Memory} {op' read : ℤ}
    (hstands : Stands dest 0 decoded)
    (h : wildCopy (fun _ ↦ ofBytes (literals ++ rest)) dest decoded.length 0
      (decoded.length + literals.length) = (mem, op', read)) :
    Stands mem 0 (decoded ++ literals) := by
  have hstops := wildCopy_stops h
  rw [stands_append, zero_add]
  refine ⟨(wildCopy_agreeOutside h).stands hstands (.inl (by omega)), ?_⟩
  have hsource : Stands (ofBytes (literals ++ rest)) 0 literals :=
    (stands_append.1 slice_ofBytes).1
  rw [Stands, ← hsource, length_slice, slice_eq_iff]
  intro i hi
  rw [wildCopy_from h _ (by omega) (by omega)]
  congr 1
  omega

/-- A sequence of the block is one round. -/
theorem round_sequence {s : Sequence} (rest : Bytes) (hs : s.Valid decoded.length)
    (hstands : Stands dest 0 decoded) (hrest : 6 ≤ rest.length)
    (hend : (decoded.length : ℤ) + s.size + lastLiterals ≤ oend) :
    ∃ dest', round oend ⟨dest, decoded.length, s.encode ++ rest⟩ =
        some (.next ⟨dest', (s.decode decoded).length, rest⟩) ∧
      Stands dest' 0 (s.decode decoded) := by
  have hpos := hs.offset_pos
  have hle := hs.offset_le_decoded
  have hmin := hs.matchLength
  have hoffset : ofLeBytes (leBytes 2 s.offset) = s.offset := by
    rw [ofLeBytes_leBytes, Nat.mod_eq_of_lt]
    exact Nat.lt_succ_of_le hs.offset_le
  obtain ⟨low, high, hbytes⟩ : ∃ low high, leBytes 2 s.offset = [low, high] := ⟨_, _, rfl⟩
  have hmin' := minMatch_cast
  rw [Sequence.size, Nat.cast_add] at hend
  rw [Sequence.encode, literalBytes, Sequence.matchBytes, hbytes]
  simp only [List.cons_append, List.append_assoc, List.nil_append, round, token_div,
    getLength_lengthBytes, Option.bind_eq_bind, Option.bind_some]
  rw [if_neg (by rw [copyLength_cast]; rw [lastLiterals_cast] at hend; omega)]
  generalize hcopy : wildCopy (fun _ ↦ ofBytes (s.literals ++ low :: high ::
    (lengthBytes (s.matchLength - minMatch) ++ rest))) dest decoded.length 0
      (decoded.length + s.literals.length) = copied
  obtain ⟨mem, op', read⟩ := copied
  have hstops := wildCopy_stops hcopy
  have hliterals := wildCopy_literals hstands hcopy
  dsimp only
  rw [if_neg (by simp only [List.length_append, List.length_cons]; omega), List.drop_left]
  simp only [matchRound, token_mod, getLength_lengthBytes, Option.bind_eq_bind, Option.bind_some]
  rw [← hbytes, hoffset]
  obtain ⟨dest', hrest, hagree, hwithin⟩ :
      ∃ dest', copyRest (copyFirst mem (decoded.length + s.literals.length)
            (decoded.length + s.literals.length - s.offset)).1
          (decoded.length + s.literals.length + 8)
          (copyFirst mem (decoded.length + s.literals.length)
            (decoded.length + s.literals.length - s.offset)).2
          (decoded.length + s.literals.length + 8 + (s.matchLength - minMatch : ℕ) - 4) oend =
          some dest' ∧
        AgreeOutside mem dest' (decoded.length + s.literals.length) oend ∧ _ :=
    copyMatch_spec (by omega) (by omega) (by omega)
  rw [hrest]
  refine ⟨dest', ?_, ?_⟩
  · simp only [Option.some.injEq, Round.next.injEq, Decoder.mk.injEq, true_and, and_true]
    rw [Sequence.length_decode, Sequence.size]
    omega
  · apply stands_copyMatch _ hpos (by rw [List.length_append]; exact hle)
    · intro i hlow hhigh
      rw [List.length_append] at hlow hhigh
      rw [hwithin i (by omega) (by omega)]
      congr 1
      omega
    · exact hagree.stands hliterals (.inl (by rw [List.length_append]; omega))

/-- The last literals end the block. -/
theorem round_last (last rest : Bytes) (hstands : Stands dest 0 decoded) :
    ∃ dest', round (decoded.length + last.length)
        ⟨dest, decoded.length, literalBytes last 0 ++ rest⟩ =
        some (.finished ⟨dest', decoded.length + last.length, rest⟩) ∧
      Stands dest' 0 (decoded ++ last) := by
  rw [literalBytes]
  simp only [List.cons_append, List.append_assoc, round, token_div, getLength_lengthBytes,
    Option.bind_eq_bind, Option.bind_some]
  rw [if_pos (by rw [copyLength_cast]; omega), lastRound]
  simp only [ne_eq, not_true_eq_false, if_false]
  rw [if_neg (by rw [List.length_append]; omega), List.drop_left]
  refine ⟨_, rfl, ?_⟩
  rw [stands_append, zero_add]
  refine ⟨agreeOutside_copy.stands hstands (.inl (by omega)), ?_⟩
  have hsource : Stands (ofBytes (last ++ rest)) 0 last := (stands_append.1 slice_ofBytes).1
  rw [Stands] at hsource
  have hcopy : Stands (dest.copy (ofBytes (last ++ rest)) decoded.length 0 last.length)
    decoded.length (slice (ofBytes (last ++ rest)) 0 last.length) := stands_copy
  rwa [hsource] at hcopy

private theorem decodeLoop_of_finished (h : round oend d = some (.finished d')) :
    decodeLoop oend d = some (true, d') := by
  rw [decodeLoop]
  split <;> simp_all

private theorem decodeLoop_of_next (h : round oend d = some (.next d')) :
    decodeLoop oend d = decodeLoop oend d' := by
  rw [decodeLoop]
  split <;> simp_all

/-- The loop over the sequences that are left. -/
theorem decodeLoop_sequences {sequences : List Sequence} {last : Bytes} (tail : Bytes)
    (hvalid : ValidFrom decoded.length sequences) (hstands : Stands dest 0 decoded)
    (hlast : sequences ≠ [] → lastLiterals ≤ last.length)
    (hend : oend = decoded.length + (sequences.map Sequence.size).sum + last.length) :
    ∃ d, decodeLoop oend
        ⟨dest, decoded.length, encodeSequences sequences ++ (literalBytes last 0 ++ tail)⟩ =
        some (true, d) ∧
      d.ip = tail ∧ Stands d.dest 0 (decodeSequences decoded sequences ++ last) := by
  induction sequences generalizing dest decoded with
  | nil =>
    obtain rfl : oend = decoded.length + last.length := by simpa using hend
    obtain ⟨dest', hround, hstands'⟩ := round_last last tail hstands
    exact ⟨_, decodeLoop_of_finished hround, rfl, hstands'⟩
  | cons s sequences ih =>
    have hfive := hlast (List.cons_ne_nil _ _)
    rw [List.map_cons, List.sum_cons] at hend
    have hrest : 6 ≤ (encodeSequences sequences ++ (literalBytes last 0 ++ tail)).length := by
      rw [List.length_append, List.length_append, length_literalBytes]
      rw [lastLiterals] at hfive
      omega
    have hs : (decoded.length : ℤ) + s.size + lastLiterals ≤ oend := by omega
    obtain ⟨dest', hround, hstands'⟩ := round_sequence _ hvalid.1 hstands hrest hs
    have hencode : encodeSequences (s :: sequences) = s.encode ++ encodeSequences sequences := rfl
    rw [hencode, List.append_assoc, decodeLoop_of_next hround]
    apply ih _ hstands' (fun _ ↦ hfive)
    · rw [Sequence.length_decode]
      omega
    · rw [Sequence.length_decode]
      exact hvalid.2

private theorem Block.encode_of_decode_eq_nil {b : Block} (h : b.decode = []) : b.encode = [0] := by
  obtain ⟨sequences, last, hvalid, hlast, hlimit⟩ := b
  have hlength := congrArg List.length h
  rw [Block.decode, List.length_append, length_decodeSequences] at hlength
  cases sequences with
  | nil =>
    obtain rfl : last = [] := List.length_eq_zero_iff.1 (by simpa using hlength)
    rfl
  | cons s sequences =>
    have hfive := hlast (List.cons_ne_nil _ _)
    rw [lastLiterals] at hfive
    simp only [List.length_nil] at hlength
    omega

/-- The bytes of a block give what the block decodes to, with any bytes behind them and whatever
the output held; as many bytes are read as the block has. -/
theorem decompressFast_encode (b : Block) (tail : Bytes) (dest : Memory) :
    ∃ dest', decompressFast (b.encode ++ tail) dest b.decode.length =
        some (toInt b.encode.length, dest') ∧
      Stands dest' 0 b.decode ∧ AgreeOutside dest dest' 0 b.decode.length := by
  by_cases hempty : b.decode = []
  · rw [Block.encode_of_decode_eq_nil hempty, hempty]
    exact ⟨dest, rfl, stands_nil, .refl _ _ _⟩
  · have hend : (b.decode.length : ℤ) =
        ([] : Bytes).length + (b.sequences.map Sequence.size).sum + b.last.length := by
      rw [Block.decode, List.length_append, length_decodeSequences]
      omega
    have hvalid : ValidFrom ([] : Bytes).length b.sequences := b.valid
    have hnil : Stands dest 0 [] := stands_nil
    obtain ⟨d, hloop, hip, hstands⟩ :=
      decodeLoop_sequences tail hvalid hnil b.lastLiterals_le hend
    simp only [List.length_nil, Nat.cast_zero] at hloop
    have hne : (b.decode.length : ℤ) ≠ 0 := by
      simpa using hempty
    have hresult : decompressFast (b.encode ++ tail) dest b.decode.length =
        some (toInt b.encode.length, d.dest) := by
      rw [decompressFast, if_neg hne, Block.encode, List.append_assoc, hloop, Option.map_some]
      simp only [Option.some.injEq, Prod.mk.injEq, and_true, List.length_append, hip]
      congr 1
      omega
    exact ⟨d.dest, hresult, hstands, decompressFast_agreeOutside hresult⟩

end Blocks

/-- Whatever the input, nothing outside the output is written, and where the input is shorter than
an `int` can count the result is the number of bytes read or tells by its sign that they are not a
block. -/
theorem decompressFast_confined {source : Bytes} {dest dest' : Memory} {outputSize result : ℤ}
    (h : decompressFast source dest outputSize = some (result, dest')) :
    AgreeOutside dest dest' 0 outputSize ∧ (source.length < 2 ^ 31 →
      result ≠ 0 ∧ -(source.length : ℤ) - 1 ≤ result ∧ result ≤ source.length) := by
  refine ⟨decompressFast_agreeOutside h, fun hsource ↦ ?_⟩
  unfold decompressFast at h
  split at h
  · obtain ⟨token, htoken, h⟩ := Option.map_eq_some_iff.1 h
    have hpos : 0 < source.length := List.length_pos_of_mem (List.mem_of_mem_head? htoken)
    rw [Prod.mk.injEq] at h
    split at h <;> omega
  · obtain ⟨⟨ok, d⟩, hloop, h⟩ := Option.map_eq_some_iff.1 h
    have hreads := decodeLoop_reads hloop
    dsimp only at hreads
    cases ok
    · have hcount : toInt (-((source.length : ℤ) - d.ip.length)) =
          -((source.length : ℤ) - d.ip.length) := toInt_eq (by omega) (by omega)
      have hresult : toInt (-((source.length : ℤ) - d.ip.length) - 1) =
          -((source.length : ℤ) - d.ip.length) - 1 := toInt_eq (by omega) (by omega)
      dsimp only at h
      rw [hcount, hresult] at h
      cases h
      omega
    · have hcount : toInt ((source.length : ℤ) - d.ip.length) =
          (source.length : ℤ) - d.ip.length := toInt_eq (by omega) (by omega)
      dsimp only at h
      rw [hcount] at h
      cases h
      omega

/-- Three literals. -/
theorem decompressFast_confined_literals :
    ∃ dest', decompressFast [0x30, 1, 2, 3] (fun _ ↦ 9) 3 = some (4, dest') ∧
      AgreeOutside (fun _ ↦ 9) dest' 0 3 ∧ (4 : ℤ) ≠ 0 ∧ -(4 : ℤ) - 1 ≤ 4 ∧ (4 : ℤ) ≤ 4 := by
  obtain ⟨dest', h, -⟩ := decompressFast_encode
    ⟨[], [1, 2, 3], trivial, fun h ↦ absurd rfl h, by simp⟩ [] fun _ ↦ 9
  obtain ⟨hagree, hcount⟩ := decompressFast_confined h
  exact ⟨dest', h, hagree, hcount (by decide)⟩

end LibSpaces.Lz4
