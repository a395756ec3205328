import LibSpaces.Lz4.Compress
import LibSpaces.Lz4.Decompress
import LibSpaces.Stx.PageCodec

/-!
# Compressed pages

`src/src/stx/storage/basic_storage.h:384–484`, `src/src/stx/btree.h:2394–2471,2621–2662`. A page is
compressed when the tree saves it and decompressed into a buffer that the tree keeps, so that
both buffers hold what earlier pages left in them. What stands behind the page in the kept buffer
is not read by `load`.
-/

namespace LibSpaces.Stx

open LibSpaces.Base LibSpaces.Base.Memory

/-- The sizes below it leave room for an `i32` before what they are compressed to. -/
def pageLimit : ℕ := Lz4.sizeLimit - 4

/-- The size as an `i32` and the compressed bytes behind it; `t` is what the target holds. `none`
is a buffer with a size that is negative as an `i32` or whose target has one. -/
def compressBuffer (t : Memory) (buff : Bytes) : Option Bytes :=
  let origin := Lz4.toInt buff.length
  let tcl := Lz4.toInt (Lz4.compressBound origin + 4)
  if origin < 0 ∨ tcl < 0 then none
  else
    let compressed :=
      if buff = [] then some (0, t)
      else Lz4.compress (ofBytes buff) (fun i ↦ t (i + 4)) origin.toNat
    compressed.map fun r ↦ leBytes 4 buff.length ++ slice r.2 0 r.1.toNat

/-- `inplace_compress_lz4`. -/
def inplaceCompressLz4 (t : Memory) (buff : Bytes) : Option Bytes := compressBuffer t buff

/-- `compress_lz4_fast`, to an empty buffer by way of `to_ref`. -/
def compressLz4Fast (toRef : Memory) (source : Bytes) : Option Bytes := compressBuffer toRef source

/-- `r_decompress_lz4`: the size and what `decoded` holds. A read past the end of `buff` is
`none`. -/
def rDecompressLz4 (decoded : Memory) (buff : Bytes) : Option (ℤ × Memory) :=
  if buff = [] then some (0, decoded)
  else if buff.length < 4 then none
  else
    let d := (BitVec.ofNat 32 (ofLeBytes (buff.take 4))).toInt
    (Lz4.decompressFast (buff.drop 4) decoded d).map fun r ↦ (d, r.2)

variable {K V : Type}

/-- The bytes of a node; `none` is a page that outgrows its buffer. -/
def Node.save (tr : Traits) (keys : Codec K) (values : Codec V) (unencoded : ℕ) :
    Node K V → Except LoadError (Option Bytes)
  | .surface n => .ok (n.save keys values unencoded)
  | .interior n => n.save tr keys

/-- The block that `btree::save` stores for a node. -/
def savePage (tr : Traits) (keys : Codec K) (values : Codec V) (unencoded : ℕ) (t : Memory)
    (n : Node K V) : Except LoadError (Option Bytes) := do
  let buffer ← n.save tr keys values unencoded
  match n with
  | .surface _ => .ok (buffer.bind (compressLz4Fast t))
  | .interior _ => .ok (buffer.bind (inplaceCompressLz4 t))

/-- The node in a decompressed page: `load` looks at the level first. -/
def readPage (tr : Traits) (keys : Codec K) (values : Codec V) (order w : ℕ) (buffer : Bytes) :
    Except LoadError (Node K V) := do
  let (_, reader) ← read buffer
  let (level, _) ← read reader
  if level = 0 then
    let (n, _) ← Surface.load tr keys values order w buffer
    return .surface n
  else
    let (n, _) ← Interior.load tr keys order buffer
    return .interior n

/-- `btree::load` of a page that is not loaded yet. -/
def loadPage (tr : Traits) (keys : Codec K) (values : Codec V) (order w : ℕ) (loadBuffer : Memory)
    (danglingBuffer : Bytes) : Option (Except LoadError (Node K V)) :=
  if danglingBuffer = [] then some (.error .badTransaction)
  else (rDecompressLz4 loadBuffer danglingBuffer).map fun r ↦
    readPage tr keys values order w (slice r.2 0 r.1.toNat)

/-- A buffer is restored whatever the buffers held that it is compressed and decompressed with. -/
theorem decompress_compressBuffer {buff : Bytes} (hne : buff ≠ [])
    (hsize : buff.length < pageLimit) (t decoded : Memory) :
    ∃ block decoded', compressBuffer t buff = some block ∧ block ≠ [] ∧
      block.length ≤ Lz4.compressBound buff.length + 4 ∧
      rDecompressLz4 decoded block = some ((buff.length : ℤ), decoded') ∧
      Stands decoded' 0 buff ∧ AgreeOutside decoded decoded' 0 buff.length := by
  obtain ⟨b, dest, hcompress, hdecode, hstands, -⟩ :=
    Lz4.compress_spec (ofBytes buff) (fun i ↦ t (i + 4)) buff.length
  rw [slice_ofBytes] at hdecode
  obtain ⟨decoded', hfast, hrestored, hagree⟩ := Lz4.decompressFast_encode b [] decoded
  obtain ⟨hcount, hbound⟩ := b.length_encode_of_lt (by rw [hdecode]; exact hsize.trans (by decide))
  rw [List.append_nil, hdecode] at hfast
  rw [hdecode] at hrestored hagree hbound
  rw [pageLimit, Lz4.sizeLimit] at hsize
  have hboundEq : Lz4.compressBound buff.length = (buff.length + buff.length / 255 + 16 : ℕ) :=
    Lz4.compressBound_eq (by rw [Lz4.sizeLimit]; omega)
  have horigin : Lz4.toInt buff.length = buff.length := Lz4.toInt_eq (by omega) (by omega)
  have htcl : Lz4.toInt (Lz4.compressBound buff.length + 4) = Lz4.compressBound buff.length + 4 :=
    Lz4.toInt_eq (by omega) (by omega)
  have hblock : compressBuffer t buff = some (leBytes 4 buff.length ++ b.encode) := by
    rw [compressBuffer]
    dsimp only
    rw [horigin, htcl, if_neg (by omega), if_neg hne, Int.toNat_natCast, hcompress,
      Option.map_some, hcount, Int.toNat_natCast, hstands]
  have htake : (leBytes 4 buff.length ++ b.encode).take 4 = leBytes 4 buff.length :=
    List.take_left' (length_leBytes 4 _)
  have hdrop : (leBytes 4 buff.length ++ b.encode).drop 4 = b.encode :=
    List.drop_left' (length_leBytes 4 _)
  have hd : (BitVec.ofNat 32 (ofLeBytes (leBytes 4 buff.length))).toInt = buff.length := by
    rw [ofLeBytes_leBytes, Nat.mod_eq_of_lt (by omega), BitVec.toInt_eq_toNat_of_lt]
    · rw [BitVec.toNat_ofNat, Nat.mod_eq_of_lt (by omega)]
    · rw [BitVec.toNat_ofNat, Nat.mod_eq_of_lt (by omega)]
      omega
  have hlength : (leBytes 4 buff.length ++ b.encode).length = 4 + b.encode.length := by
    rw [List.length_append, length_leBytes]
  have hnil : leBytes 4 buff.length ++ b.encode ≠ [] := by
    intro h
    rw [h] at hlength
    simp at hlength
    omega
  refine ⟨_, decoded', hblock, hnil, by omega, ?_, hrestored, hagree⟩
  rw [rDecompressLz4, if_neg hnil, if_neg (by omega), htake, hdrop, hd]
  dsimp only
  rw [hfast, Option.map_some]

variable {tr : Traits} {keys : Codec K} {values : Codec V} {unencoded order address : ℕ}
  {n : Node K V} {buffer : Bytes}

private theorem surface_written_of_save {n : Surface K V}
    (h : n.save keys values unencoded = some buffer) :
    buffer = n.written keys values := by
  rw [Surface.save] at h
  split at h
  · exact (Option.some.inj h).symm
  · cases h

private theorem interior_written_of_save {n : Interior K} (h : n.save tr keys = .ok (some buffer)) :
    buffer = n.written keys ∧ 0 < n.level ∧ n.level ≤ 128 := by
  rw [Interior.save] at h
  split at h
  · cases h
  · split at h
    · cases h
    · next hlevel =>
      rw [Except.ok.injEq] at h
      split at h
      · exact ⟨(Option.some.inj h).symm, by omega, by omega⟩
      · cases h

/-- A saved page is not empty. -/
theorem save_ne_nil (h : n.save tr keys values unencoded = .ok (some buffer)) : buffer ≠ [] := by
  have hpos (v : ℤ) : 0 < (writeSigned v).length := by
    rw [length_writeSigned, signedSize, signedSizeLoop]
    split <;> omega
  intro hnil
  cases n with
  | surface n =>
    have hwritten := surface_written_of_save (Except.ok.inj h)
    have := hpos n.kvs.length
    rw [hnil, Surface.written] at hwritten
    have hlength := congrArg List.length hwritten
    rw [List.length_append] at hlength
    simp only [List.length_nil] at hlength
    omega
  | interior n =>
    have hwritten := (interior_written_of_save h).1
    have := hpos n.keys.length
    rw [hnil, Interior.written] at hwritten
    have hlength := congrArg List.length hwritten
    rw [List.length_append] at hlength
    simp only [List.length_nil] at hlength
    omega

/-- A zero is read back. -/
theorem read_zero (rest : Bytes) : read (writeSigned 0 ++ rest) = .ok (0, rest) :=
  read_writeSigned (by decide : 0 < 2 ^ 31) rest

/-- The level that a page begins with tells the kind of its node. -/
theorem readPage_of_save (hnarrow : n.Narrow keys)
    (hsave : n.save tr keys values unencoded = .ok (some buffer))
    (h : n.RoundTrips tr keys values unencoded order address) :
    readPage tr keys values order address buffer = .ok n := by
  cases n with
  | surface n =>
    obtain ⟨buffer', hsave', hload⟩ := h
    obtain rfl : buffer' = buffer := by
      rw [Node.save, hsave'] at hsave
      exact Option.some.inj (Except.ok.inj hsave)
    have hlt := hnarrow.1
    obtain rfl := surface_written_of_save hsave'
    rw [readPage, Surface.written, read_writeSigned (by omega) _, ok_bind]
    dsimp only
    rw [read_zero, ok_bind]
    dsimp only
    rw [if_pos rfl, ← Surface.written, hload]
    rfl
  | interior n =>
    obtain ⟨buffer', hsave', hload⟩ := h
    obtain rfl : buffer' = buffer := by
      rw [Node.save, hsave'] at hsave
      exact Option.some.inj (Except.ok.inj hsave)
    have hlt := hnarrow.2.1
    obtain ⟨rfl, hpos, hle⟩ := interior_written_of_save hsave'
    have hlevel : BitVec.ofNat 32 n.level ≠ 0 := by
      rw [Ne, ← BitVec.toNat_inj, BitVec.toNat_ofNat, Nat.mod_eq_of_lt (by omega)]
      simp
      omega
    rw [readPage, Interior.written, read_writeSigned (by omega) _, ok_bind]
    dsimp only
    rw [read_writeSigned (by omega) _, ok_bind]
    dsimp only
    rw [if_neg hlevel, ← Interior.written, hload]
    rfl

/-- Both ways of compressing give the same block. -/
theorem savePage_of_save {t : Memory} {block : Bytes}
    (hsave : n.save tr keys values unencoded = .ok (some buffer))
    (hblock : compressBuffer t buffer = some block) :
    savePage tr keys values unencoded t n = .ok (some block) := by
  have hfast : (some buffer).bind (compressLz4Fast t) = some block := by
    rw [Option.bind_some, compressLz4Fast, hblock]
  have hinplace : (some buffer).bind (inplaceCompressLz4 t) = some block := by
    rw [Option.bind_some, inplaceCompressLz4, hblock]
  rw [savePage, hsave, ok_bind]
  cases n with
  | surface n =>
    dsimp only
    rw [hfast]
  | interior n =>
    dsimp only
    rw [hinplace]

/-- A page that the tree saves is loaded as the node it was saved from, whatever the buffers hold
that it is compressed and decompressed with. -/
theorem loadPage_savePage (hk : keys.RoundTrips) (hv : values.RoundTrips) (horder : order ≠ 0)
    (h : n.WellFormed tr address) (hnarrow : n.Narrow keys)
    (hsize : ∀ buffer, n.save tr keys values unencoded = .ok (some buffer) →
      buffer.length < pageLimit)
    (t loadBuffer : Memory) :
    ∃ block, savePage tr keys values unencoded t n = .ok (some block) ∧
      loadPage tr keys values order address loadBuffer block = some (.ok n) := by
  have hround : n.RoundTrips tr keys values unencoded order address :=
    (Node.roundTrips_iff_narrow hk hv horder n h).2 hnarrow
  obtain ⟨buffer, hsave⟩ :
      ∃ buffer, n.save tr keys values unencoded = .ok (some buffer) := by
    cases n with
    | surface n =>
      obtain ⟨buffer, hsave, -⟩ := hround
      exact ⟨buffer, congrArg Except.ok hsave⟩
    | interior n =>
      obtain ⟨buffer, hsave, -⟩ := hround
      exact ⟨buffer, hsave⟩
  obtain ⟨block, decoded, hblock, hne, -, hrestore, hstands, -⟩ :=
    decompress_compressBuffer (save_ne_nil hsave) (hsize buffer hsave) t loadBuffer
  refine ⟨block, savePage_of_save hsave hblock, ?_⟩
  rw [loadPage, if_neg hne, hrestore, Option.map_some]
  dsimp only
  rw [Int.toNat_natCast, hstands, readPage_of_save hnarrow hsave hround]

/-- A leaf of two pairs of bytes. -/
theorem loadPage_savePage_byte :
    ∃ block, savePage Traits.perPage Node.byteCodec Node.byteCodec 0 (fun _ ↦ 7)
        (.surface ⟨[(1, 2), (3, 4)], 70000, 6⟩) = .ok (some block) ∧
      loadPage Traits.perPage Node.byteCodec Node.byteCodec 1 5 (fun _ ↦ 9) block =
        some (.ok (.surface ⟨[(1, 2), (3, 4)], 70000, 6⟩)) := by
  apply loadPage_savePage Node.byteCodec_roundTrips Node.byteCodec_roundTrips (by decide)
  · exact ⟨by decide, by decide, by decide, by decide, by decide⟩
  · exact ⟨by decide, by decide, by decide⟩
  · intro buffer h
    obtain rfl := surface_written_of_save (Except.ok.inj h)
    decide

end LibSpaces.Stx
