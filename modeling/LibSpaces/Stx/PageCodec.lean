import LibSpaces.Stx.Leb128
import LibSpaces.Stx.Node

/-!
# Pages

`src/src/stx/btree.h:1566–1656,2095–2234`. Keys and values are written and read by the storage.
A page that outgrows the space reserved for it and a read past the end of the buffer have no
result in the source; they are `none` and `pastEnd`.
-/

namespace LibSpaces.Stx

open LibSpaces.Base

/-- `store_size`, `store` and `retrieve` of a storage. -/
structure Codec (α : Type) where
  storeSize : α → ℕ
  store : α → Bytes
  retrieve : Bytes → Option (α × Bytes)

/-- What is stored takes the announced size and is retrieved. -/
structure Codec.RoundTrips {α : Type} (c : Codec α) : Prop where
  size : ∀ x, c.storeSize x = (c.store x).length
  retrieve : ∀ x rest, c.retrieve (c.store x ++ rest) = some (x, rest)

/-- Why a page is not loaded. -/
inductive LoadError
  | badFormat | badTransaction | pastEnd
  deriving DecidableEq

variable {K V : Type}

/-- A `stream_address` as the signed integer that is written. -/
def signed (a : ℕ) : Int := (BitVec.ofNat 64 a).toInt

/-- A signed integer of the 32-bit reader as a `stream_address`. -/
def unsigned (r : BitVec 32) : ℕ := (r.signExtend 64).toNat

/-- A check that throws. -/
def reject (c : Prop) [Decidable c] (e : LoadError) : Except LoadError Unit :=
  if c then .error e else .ok ()

/-- `read_signed` of a page. -/
def read (reader : Bytes) : Except LoadError (BitVec 32 × Bytes) :=
  match readSigned reader with
  | none => .error .pastEnd
  | some r => .ok r

/-- A loop of `retrieve`. -/
def retrieveAll {α : Type} (c : Codec α) : ℕ → Bytes → Except LoadError (List α × Bytes)
  | 0, reader => .ok ([], reader)
  | n + 1, reader =>
    match c.retrieve reader with
    | none => .error .pastEnd
    | some (x, reader) => do
      let (xs, reader) ← retrieveAll c n reader
      .ok (x :: xs, reader)

/-- A loop of `read_signed64`. -/
def readAddresses : ℕ → Bytes → List ℕ × Bytes
  | 0, reader => ([], reader)
  | n + 1, reader =>
    let r := readSigned64 reader
    let rest := readAddresses n r.2
    (r.1.toNat :: rest.1, rest.2)

namespace Surface

/-- What `surface_node::save` writes. -/
def written (keys : Codec K) (values : Codec V) (n : Surface K V) : Bytes :=
  writeSigned n.kvs.length ++ (writeSigned 0 ++ (writeSigned 0 ++ (writeSigned 0 ++
    (writeSigned (signed n.preceding) ++ (writeSigned (signed n.next) ++
      (n.kvs.flatMap (fun kv ↦ keys.store kv.1) ++ n.kvs.flatMap fun kv ↦ values.store kv.2))))))

/-- `storage_use` of `surface_node::save`; `unencoded` is the room for `allocated` keys and
values. -/
def storageUse (keys : Codec K) (values : Codec V) (unencoded : ℕ) (n : Surface K V) : ℕ :=
  signedSize n.kvs.length + signedSize 0 + signedSize 0 + signedSize 0 +
    signedSize (signed n.preceding) + signedSize (signed n.next) + unencoded +
    (n.kvs.map fun kv ↦ keys.storeSize kv.1).sum + (n.kvs.map fun kv ↦ values.storeSize kv.2).sum

/-- `surface_node::save`, `btree.h:2184–2233`. -/
def save (keys : Codec K) (values : Codec V) (unencoded : ℕ) (n : Surface K V) : Option Bytes :=
  if (n.written keys values).length ≤ n.storageUse keys values unencoded then
    some (n.written keys values)
  else none

/-- `surface_node::load`, `btree.h:2095–2177`, from a storage at an order. -/
def load (tr : Traits) (keys : Codec K) (values : Codec V) (order address : ℕ) (buffer : Bytes) :
    Except LoadError (Surface K V × Bytes) := do
  let (r, reader) ← read buffer
  let occupants := (r.setWidth 16).toInt
  reject (occupants < 0 ∨ (tr.surfaces : Int) < occupants) .badFormat
  let (level, reader) ← read reader
  reject (level.setWidth 16 ≠ 0) .badFormat
  let (encodedKeySize, reader) ← read reader
  let (encodedValueSize, reader) ← read reader
  let (preceding, reader) ← read reader
  let (next, reader) ← read reader
  reject (unsigned next = address) .badFormat
  reject (0 < encodedKeySize.toInt) .badFormat
  let (ks, reader) ← retrieveAll keys occupants.toNat reader
  reject (0 < encodedValueSize.toInt) .badFormat
  let (vs, reader) ← retrieveAll values occupants.toNat reader
  reject (reader ≠ []) .badFormat
  reject (order = 0) .badTransaction
  return (⟨ks.zip vs, unsigned next, unsigned preceding⟩, reader)

end Surface

namespace Interior

/-- What `interior_node::save` writes. -/
def written (keys : Codec K) (n : Interior K) : Bytes :=
  writeSigned n.keys.length ++ (writeSigned n.level ++ (n.keys.flatMap keys.store ++
    n.childid.flatMap fun c ↦ writeSigned (signed c)))

/-- `storage_use` of `interior_node::save`, of 32 bits. -/
def storageUse (keys : Codec K) (n : Interior K) : ℕ :=
  (signedSize n.keys.length + signedSize n.level + (n.keys.map keys.storeSize).sum +
    (n.childid.map fun c ↦ signedSize (signed c)).sum) % 2 ^ 32

/-- `interior_node::save`, `btree.h:1621–1656`. -/
def save (tr : Traits) (keys : Codec K) (n : Interior K) : Except LoadError (Option Bytes) :=
  if tr.interiorslots + 1 < n.keys.length then .error .badFormat
  else if n.level = 0 ∨ 128 < n.level then .error .badFormat
  else .ok (if (n.written keys).length ≤ n.storageUse keys then some (n.written keys) else none)

/-- `interior_node::load`, `btree.h:1566–1615`, from a storage at an order. -/
def load (tr : Traits) (keys : Codec K) (order : ℕ) (buffer : Bytes) :
    Except LoadError (Interior K × Bytes) := do
  let (r, reader) ← read buffer
  let occupants := (r.setWidth 16).toInt
  reject (occupants ≤ 0 ∨ (tr.interiorslots + 1 : Int) < occupants) .badFormat
  let (level, reader) ← read reader
  reject ((level.setWidth 16).toNat = 0 ∨ 128 < (level.setWidth 16).toNat) .badFormat
  let (ks, reader) ← retrieveAll keys occupants.toNat reader
  let (cs, reader) := readAddresses (occupants.toNat + 1) reader
  reject (order = 0) .badTransaction
  return (⟨(level.setWidth 16).toNat, ks, cs⟩, reader)

end Interior

/-! ### What was written is read -/

/-- A load succeeds where both of its parts do. -/
theorem bind_eq_ok {α β : Type} {x : Except LoadError α} {f : α → Except LoadError β} {b : β} :
    (x >>= f) = .ok b ↔ ∃ a, x = .ok a ∧ f a = .ok b := by
  cases x with
  | error e => exact ⟨nofun, nofun⟩
  | ok a => exact ⟨fun h ↦ ⟨a, rfl, h⟩, fun ⟨_, hx, h⟩ ↦ Except.ok.inj hx ▸ h⟩

/-- A computation goes on with what the first part returns. -/
theorem ok_bind {α β : Type} (a : α) (f : α → Except LoadError β) : (.ok a >>= f) = f a := rfl

/-- A check passes where its condition does not hold. -/
theorem reject_eq_ok {c : Prop} [Decidable c] {e : LoadError} : reject c e = .ok () ↔ ¬c := by
  unfold reject
  split
  · next hc => exact ⟨nofun, fun h ↦ absurd hc h⟩
  · next hc => exact ⟨fun _ ↦ hc, fun _ ↦ rfl⟩

/-- A number below 2^31 is read back. -/
theorem read_writeSigned {value : ℕ} (h : value < 2 ^ 31) (rest : Bytes) :
    read (writeSigned value ++ rest) = .ok (BitVec.ofNat 32 value, rest) := by
  rw [read, readSigned_write h]

private theorem retrieveAll_store {α β : Type} {c : Codec α} (hc : c.RoundTrips) (f : β → α)
    (xs : List β) (rest : Bytes) :
    retrieveAll c xs.length (xs.flatMap (fun x ↦ c.store (f x)) ++ rest) =
      .ok (xs.map f, rest) := by
  induction xs with
  | nil => rfl
  | cons x xs ih =>
    rw [List.length_cons, List.flatMap_cons, List.append_assoc, retrieveAll, hc.retrieve]
    show Except.bind (retrieveAll c xs.length _) _ = _
    rw [ih]
    rfl

/-- As many items are retrieved as are asked for. -/
theorem length_of_retrieveAll {α : Type} {c : Codec α} {m : ℕ} {reader rest : Bytes} {xs : List α}
    (h : retrieveAll c m reader = .ok (xs, rest)) : xs.length = m := by
  induction m generalizing reader rest xs with
  | zero =>
    cases h
    rfl
  | succ m ih =>
    rw [retrieveAll] at h
    split at h
    · cases h
    · obtain ⟨⟨ys, _⟩, hys, h⟩ := bind_eq_ok.1 h
      cases h
      rw [List.length_cons, ih hys]

private theorem signed_of_lt {a : ℕ} (h : a < 2 ^ 63) : signed a = a := by
  rw [signed, BitVec.toInt_eq_toNat_of_lt]
  · rw [BitVec.toNat_ofNat, Nat.mod_eq_of_lt (by omega)]
  · rw [BitVec.toNat_ofNat, Nat.mod_eq_of_lt (by omega)]
    omega

private theorem readAddresses_write (as : List ℕ) (h : ∀ a ∈ as, a < 2 ^ 63) (rest : Bytes) :
    readAddresses as.length (as.flatMap (fun c ↦ writeSigned (signed c)) ++ rest) = (as, rest) := by
  induction as with
  | nil => rfl
  | cons a as ih =>
    have ha := h a List.mem_cons_self
    rw [List.length_cons, List.flatMap_cons, List.append_assoc, signed_of_lt ha, readAddresses,
      readSigned64_write ha, ih fun b hb ↦ h b (List.mem_cons_of_mem _ hb)]
    rw [BitVec.toNat_ofNat, Nat.mod_eq_of_lt (by omega)]

/-! ### Pages that are read as they were written -/

/-- The 32-bit reader has no address from 2^31 up to 2^63. -/
theorem unsigned_lt_or (r : BitVec 32) : unsigned r < 2 ^ 31 ∨ 2 ^ 63 ≤ unsigned r := by
  have hr := r.isLt
  rw [unsigned, BitVec.toNat_signExtend, BitVec.toNat_setWidth]
  cases hmsb : r.msb with
  | true =>
    right
    simp only [if_true]
    omega
  | false =>
    have hlt := BitVec.msb_eq_false_iff_two_mul_lt.1 hmsb
    left
    simp only [Bool.false_eq_true, if_false]
    omega

namespace Surface

/-- A node that `save` takes: its occupants have a slot and it is not followed by itself. -/
structure WellFormed (tr : Traits) (address : ℕ) (n : Surface K V) : Prop where
  occupants : n.kvs.length ≤ tr.surfaces
  occupants_lt : n.kvs.length < 2 ^ 16
  next_ne : n.next ≠ address
  next_lt : n.next < 2 ^ 63
  preceding_lt : n.preceding < 2 ^ 63

/-- What is saved is loaded, to the last byte. -/
def RoundTrips (tr : Traits) (keys : Codec K) (values : Codec V) (unencoded order address : ℕ)
    (n : Surface K V) : Prop :=
  ∃ buffer, n.save keys values unencoded = some buffer ∧
    load tr keys values order address buffer = .ok (n, [])

/-- The addresses and the number of occupants have the width that `load` reads them with. -/
def Narrow (n : Surface K V) : Prop :=
  n.kvs.length < 2 ^ 15 ∧ n.next < 2 ^ 31 ∧ n.preceding < 2 ^ 31

variable {tr : Traits} {keys : Codec K} {values : Codec V} {unencoded order address : ℕ}
  {n : Surface K V}

/-- A node is saved as the bytes of its parts. -/
theorem save_eq (hk : keys.RoundTrips) (hv : values.RoundTrips) :
    n.save keys values unencoded = some (n.written keys values) := by
  have hkeys : (n.kvs.flatMap fun kv ↦ keys.store kv.1).length =
      (n.kvs.map fun kv ↦ keys.storeSize kv.1).sum := by
    simp only [List.length_flatMap, hk.size]
  have hvalues : (n.kvs.flatMap fun kv ↦ values.store kv.2).length =
      (n.kvs.map fun kv ↦ values.storeSize kv.2).sum := by
    simp only [List.length_flatMap, hv.size]
  rw [save, if_pos]
  simp only [written, storageUse, List.length_append, length_writeSigned, hkeys, hvalues]
  omega

/-- The addresses of a loaded node come from the 32-bit reader. -/
theorem load_addresses {buffer rest : Bytes}
    (h : load tr keys values order address buffer = .ok (n, rest)) :
    ∃ next preceding, n.next = unsigned next ∧ n.preceding = unsigned preceding := by
  simp only [load, bind_eq_ok] at h
  obtain ⟨_, _, _, _, _, _, _, _, _, _, _, _, preceding, _, next, _, _, _, _, _, _, _, _, _, _,
    _, _, _,
    _, _, h⟩ := h
  cases h
  exact ⟨next.1, preceding.1, rfl, rfl⟩

/-- A page that is loaded has no more pairs than a node. -/
theorem length_load_le {buffer rest : Bytes}
    (h : load tr keys values order address buffer = .ok (n, rest)) :
    n.kvs.length ≤ tr.surfaces := by
  simp only [load, bind_eq_ok] at h
  obtain ⟨r, _, _, hcount, _, _, _, _, _, _, _, _, _, _, _, _, _, _, _, _, ks, hks, _, _, _, _, _,
    _, _, _, h⟩ := h
  have hlen := length_of_retrieveAll hks
  have hle := reject_eq_ok.1 hcount
  cases h
  rw [List.length_zip]
  omega

private theorem unsigned_ofNat {a : ℕ} (h : a < 2 ^ 31) : unsigned (BitVec.ofNat 32 a) = a := by
  have hnat : (BitVec.ofNat 32 a).toNat = a := by
    rw [BitVec.toNat_ofNat, Nat.mod_eq_of_lt (by omega)]
  have hmsb : (BitVec.ofNat 32 a).msb = false := by
    rw [BitVec.msb_eq_false_iff_two_mul_lt, hnat]
    omega
  rw [unsigned, BitVec.toNat_signExtend, BitVec.toNat_setWidth, hmsb, hnat]
  simp only [Bool.false_eq_true, if_false]
  omega

/-- The number of occupants as a number of 16 bits with a sign. -/
theorem toInt_occupants {a : ℕ} (h : a < 2 ^ 16) :
    ((BitVec.ofNat 32 a).setWidth 16).toInt = if a < 2 ^ 15 then (a : Int) else a - 2 ^ 16 := by
  have hnat : ((BitVec.ofNat 32 a).setWidth 16).toNat = a := by
    rw [BitVec.toNat_setWidth, BitVec.toNat_ofNat]
    omega
  rw [BitVec.toInt_eq_toNat_cond, hnat]
  split <;> split <;> omega

/-- A page of a surface node is read as it was written if and only if its addresses have 31 bits
and its occupants 15. -/
theorem roundTrips_iff (hk : keys.RoundTrips) (hv : values.RoundTrips)
    (h : n.WellFormed tr address) (horder : order ≠ 0) :
    n.RoundTrips tr keys values unencoded order address ↔ n.Narrow := by
  have hoccupants := toInt_occupants h.occupants_lt
  have hlt := h.occupants_lt
  constructor
  · rintro ⟨buffer, hsave, hload⟩
    rw [save_eq hk hv, Option.some.injEq] at hsave
    subst hsave
    obtain ⟨next, preceding, hnext, hpreceding⟩ := load_addresses hload
    have hn := unsigned_lt_or next
    have hp := unsigned_lt_or preceding
    have := h.next_lt
    have := h.preceding_lt
    simp only [load, bind_eq_ok] at hload
    obtain ⟨r, hread, ⟨⟩, hrange, -⟩ := hload
    rw [written, read_writeSigned (by omega), Except.ok.injEq] at hread
    rw [reject_eq_ok, ← hread, hoccupants] at hrange
    refine ⟨?_, by omega, by omega⟩
    by_contra hwide
    rw [if_neg hwide] at hrange
    omega
  · rintro ⟨hwidth, hnext, hpreceding⟩
    rw [if_pos hwidth] at hoccupants
    have hnone : ¬0 < (0 : BitVec 32).toInt := by decide
    have hzero (rest : Bytes) : read (writeSigned 0 ++ rest) = .ok (0, rest) :=
      read_writeSigned (show 0 < 2 ^ 31 by omega) rest
    have hmax := h.occupants
    refine ⟨_, save_eq hk hv, ?_⟩
    rw [written, signed_of_lt h.preceding_lt, signed_of_lt h.next_lt]
    simp only [load, bind_eq_ok]
    refine ⟨_, read_writeSigned (by omega) _, (), reject_eq_ok.2 ?_, _, hzero _, (),
      reject_eq_ok.2 (not_not.2 rfl), _, hzero _, _, hzero _, _, read_writeSigned hpreceding _, _,
      read_writeSigned hnext _, (), reject_eq_ok.2 ?_, (), reject_eq_ok.2 hnone, ?_⟩
    · rw [hoccupants]
      omega
    · rw [unsigned_ofNat hnext]
      exact h.next_ne
    rw [hoccupants, Int.toNat_natCast]
    refine ⟨_, retrieveAll_store hk Prod.fst n.kvs _, (), reject_eq_ok.2 hnone,
      (n.kvs.map Prod.snd, []), ?_, (), reject_eq_ok.2 (not_not.2 rfl), (),
      reject_eq_ok.2 horder, ?_⟩
    · have hvalues := retrieveAll_store hv Prod.snd n.kvs []
      rwa [List.append_nil] at hvalues
    · rw [unsigned_ofNat hnext, unsigned_ofNat hpreceding, List.zip_map', List.map_id']
      rfl

end Surface

namespace Interior

/-- A node whose occupants have a slot, with a child more than keys. -/
structure WellFormed (tr : Traits) (n : Interior K) : Prop where
  occupants : n.keys.length ≤ tr.interiorslots
  occupants_lt : n.keys.length < 2 ^ 16
  children : n.childid.length = n.keys.length + 1
  level : 0 < n.level ∧ n.level ≤ 128
  child_lt : ∀ c ∈ n.childid, c < 2 ^ 63

/-- What is saved is loaded, to the last byte. -/
def RoundTrips (tr : Traits) (keys : Codec K) (order : ℕ) (n : Interior K) : Prop :=
  ∃ buffer, n.save tr keys = .ok (some buffer) ∧ load tr keys order buffer = .ok (n, [])

/-- There is an occupant, their number has the width that `load` reads it with, and the size of
the page that of `storage_use`. -/
def Narrow (keys : Codec K) (n : Interior K) : Prop :=
  0 < n.keys.length ∧ n.keys.length < 2 ^ 15 ∧ (n.written keys).length < 2 ^ 32

variable {tr : Traits} {keys : Codec K} {order : ℕ} {n : Interior K}

private theorem save_eq (hk : keys.RoundTrips) (h : n.WellFormed tr) :
    n.save tr keys =
      .ok (if (n.written keys).length < 2 ^ 32 then some (n.written keys) else none) := by
  have hkeys : (n.keys.flatMap keys.store).length = (n.keys.map keys.storeSize).sum := by
    rw [List.length_flatMap]
    exact congrArg List.sum (List.map_congr_left fun x _ ↦ (hk.size x).symm)
  have hchildren : (n.childid.flatMap fun c ↦ writeSigned (signed c)).length =
      (n.childid.map fun c ↦ signedSize (signed c)).sum := by
    simp only [List.length_flatMap, length_writeSigned]
  have hsize : n.storageUse keys = (n.written keys).length % 2 ^ 32 := by
    simp only [written, storageUse, List.length_append, length_writeSigned, hkeys, hchildren,
      Nat.add_assoc]
  have hmax := h.occupants
  have hlevel := h.level
  rw [save, if_neg (by omega), if_neg (by omega), hsize]
  congr 1
  split <;> split <;> first | rfl | omega

/-- A page of an interior node is read as it was written if and only if it has an occupant and
its size has 32 bits, the number of its occupants 15. -/
theorem roundTrips_iff (hk : keys.RoundTrips) (h : n.WellFormed tr) (horder : order ≠ 0) :
    n.RoundTrips tr keys order ↔ n.Narrow keys := by
  have hoccupants := Surface.toInt_occupants h.occupants_lt
  have hlt := h.occupants_lt
  constructor
  · rintro ⟨buffer, hsave, hload⟩
    rw [save_eq hk h, Except.ok.injEq] at hsave
    split at hsave
    · next hsize =>
      cases hsave
      simp only [load, bind_eq_ok] at hload
      obtain ⟨r, hread, ⟨⟩, hrange, -⟩ := hload
      rw [written, read_writeSigned (by omega), Except.ok.injEq] at hread
      rw [reject_eq_ok, ← hread, hoccupants] at hrange
      refine ⟨?_, ?_, hsize⟩
      · by_contra hempty
        rw [if_pos (by omega)] at hrange
        omega
      · by_contra hwide
        rw [if_neg hwide] at hrange
        omega
    · cases hsave
  · rintro ⟨hpos, hwidth, hsize⟩
    rw [if_pos hwidth] at hoccupants
    have hlevel := h.level
    have hmax := h.occupants
    have hlevelNat : ((BitVec.ofNat 32 n.level).setWidth 16).toNat = n.level := by
      rw [BitVec.toNat_setWidth, BitVec.toNat_ofNat]
      omega
    refine ⟨n.written keys, (save_eq hk h).trans (by rw [if_pos hsize]), ?_⟩
    rw [written]
    simp only [load, bind_eq_ok]
    refine ⟨_, read_writeSigned (by omega) _, (), reject_eq_ok.2 ?_, _,
      read_writeSigned (by omega) _, (), reject_eq_ok.2 ?_, ?_⟩
    · rw [hoccupants]
      omega
    · rw [hlevelNat]
      omega
    rw [hoccupants, Int.toNat_natCast]
    have hstored := retrieveAll_store hk id n.keys
      (n.childid.flatMap fun c ↦ writeSigned (signed c))
    rw [List.map_id] at hstored
    refine ⟨_, hstored, (), reject_eq_ok.2 horder, ?_⟩
    have hchildren := readAddresses_write n.childid h.child_lt []
    rw [List.append_nil, h.children] at hchildren
    rw [hchildren, hlevelNat]
    rfl

end Interior

namespace Node

/-- A node that the tree saves at an address. -/
def WellFormed (tr : Traits) (address : ℕ) : Node K V → Prop
  | .surface n => n.WellFormed tr address
  | .interior n => n.WellFormed tr

/-- What is saved of the node is loaded, to the last byte. -/
def RoundTrips (tr : Traits) (keys : Codec K) (values : Codec V) (unencoded order address : ℕ) :
    Node K V → Prop
  | .surface n => n.RoundTrips tr keys values unencoded order address
  | .interior n => n.RoundTrips tr keys order

/-- What the page holds has the width that `load` reads it with. -/
def Narrow (keys : Codec K) : Node K V → Prop
  | .surface n => n.Narrow
  | .interior n => n.Narrow keys

/-- A page is read as it was written if and only if what it holds has the width that it is read
with. -/
theorem roundTrips_iff_narrow {tr : Traits} {keys : Codec K} {values : Codec V}
    (hk : keys.RoundTrips) (hv : values.RoundTrips) {unencoded order address : ℕ}
    (horder : order ≠ 0) (n : Node K V) (h : n.WellFormed tr address) :
    n.RoundTrips tr keys values unencoded order address ↔ n.Narrow keys := by
  cases n with
  | surface n => exact Surface.roundTrips_iff hk hv h horder
  | interior n => exact Interior.roundTrips_iff hk h horder

/-- Bytes as keys and values. -/
def byteCodec : Codec UInt8 where
  storeSize _ := 1
  store x := [x]
  retrieve
    | [] => none
    | x :: rest => some (x, rest)

/-- A byte is read back. -/
theorem byteCodec_roundTrips : byteCodec.RoundTrips := ⟨fun _ ↦ rfl, fun _ _ ↦ rfl⟩

/-- A leaf of two pairs of bytes. -/
theorem roundTrips_iff_narrow_byte :
    (surface ⟨[(1, 2), (3, 4)], 70000, 6⟩).RoundTrips Traits.perPage byteCodec byteCodec 0 1 5 := by
  apply (roundTrips_iff_narrow byteCodec_roundTrips byteCodec_roundTrips (by decide) _ ?_).mpr
  · exact ⟨by decide, by decide, by decide⟩
  · exact ⟨by decide, by decide, by decide, by decide, by decide⟩

/-- The next address 2^31 is read with a sign. -/
theorem not_roundTrips_byte :
    let n : Surface UInt8 UInt8 := ⟨[(1, 2)], 2 ^ 31, 6⟩
    n.WellFormed Traits.perPage 5 ∧
      Surface.load Traits.perPage byteCodec byteCodec 1 5 (n.written byteCodec byteCodec) =
        .ok (⟨[(1, 2)], 2 ^ 64 - 2 ^ 31, 6⟩, []) ∧
      ¬(surface n).RoundTrips Traits.perPage byteCodec byteCodec 0 1 5 := by
  have hload : Surface.load Traits.perPage byteCodec byteCodec 1 5
      ((⟨[(1, 2)], 2 ^ 31, 6⟩ : Surface UInt8 UInt8).written byteCodec byteCodec) =
      .ok (⟨[(1, 2)], 2 ^ 64 - 2 ^ 31, 6⟩, []) := by
    decide +kernel
  refine ⟨⟨by decide, by decide, by decide, by decide, by decide⟩, hload, ?_⟩
  rintro ⟨buffer, hsave, hread⟩
  rw [Surface.save_eq byteCodec_roundTrips byteCodec_roundTrips, Option.some.injEq] at hsave
  rw [← hsave, hload] at hread
  revert hread
  decide

end Node

end LibSpaces.Stx
