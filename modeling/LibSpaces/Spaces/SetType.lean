import LibSpaces.Spaces.StoredSize
import LibSpaces.Stx.PageBlocks

/-!
# The type of the set of a database

`_Set`, `src/src/storage/spaces/dbms.h:26`, with the encoding and the order of
`src/src/storage/spaces/key.h`, for the keys and records that are restored and kept apart: contexts
and identities of 32 bits, names that are numbers or texts that stay inline, and values that are
numbers or texts. A number that is not a number and a negative zero are no names.
-/

namespace LibSpaces.Spaces

open LibSpaces.Base LibSpaces.Stx

/-- An inline buffer that was not written to. -/
def unwritten : Vector UInt8 sequenceSize := Vector.replicate _ 0

/-- A number, by its bits, or a text. -/
inductive Plain
  | numeric (bits : UInt64)
  | text (bytes : Bytes)
  deriving DecidableEq

namespace Plain

/-- The value that is set to a number or a text. -/
def toData : Plain → Data
  | numeric bits => (Data.init unwritten).setNumber unwritten bits
  | text bytes => (Data.init unwritten).setText bytes

/-- The number or the text of a value. -/
def ofData (d : Data) : Option Plain :=
  match d.type with
  | .numeric => d.getInteger.map numeric
  | .text => some (text d.sequence.stdStr)
  | _ => none

/-- The bytes of a text. -/
def size : Plain → ℕ
  | numeric _ => 0
  | text bytes => bytes.length

/-- A name that is in order with all others: a number other than a negative zero, or a text that
stays inline. -/
def Ordered : Plain → Prop
  | numeric bits => Double.isNaN bits = false ∧ bits ≠ 0x8000000000000000
  | text bytes => bytes.length < sequenceSize

instance : DecidablePred Ordered
  | numeric _ => inferInstanceAs (Decidable (_ ∧ _))
  | text _ => inferInstanceAs (Decidable (_ < _))

variable {p : Plain}

@[simp] private theorem type_numeric (bits : UInt64) : (numeric bits).toData.type = .numeric := rfl

@[simp] private theorem type_text (bytes : Bytes) : (text bytes).toData.type = .text := rfl

private theorem stdStr_text {bytes : Bytes} (h : bytes.length < 2 ^ 32) :
    (text bytes).toData.sequence.stdStr = bytes :=
  (AString.stdStr_setData (Data.init unwritten).sequence.clear bytes).trans (AString.cut_of_lt h)

private theorem getInteger_numeric (bits : UInt64) : (numeric bits).toData.getInteger = some bits :=
  Data.getInteger_setInteger bits

private theorem Ordered.size_lt (h : p.Ordered) : p.size < 2 ^ 31 := by
  cases p with
  | numeric bits => exact Nat.two_pow_pos 31
  | text bytes => exact Nat.lt_trans h (by decide)

/-! ### What is stored and read back -/

private theorem roundTrips_toData (p : Plain) : p.toData.RoundTrips := by
  cases p with
  | numeric bits =>
    apply Data.roundTrips_of_size
    · exact fun h ↦ DataType.noConfusion h
    · exact Data.setInteger_size bits
  | text bytes => exact Data.roundTrips_text rfl

private theorem extent_toData (h : p.size < 2 ^ 31) : p.toData.extent = 16 + p.size := by
  cases p with
  | numeric bits => rfl
  | text bytes =>
    have hlen := AString.length_stdStr (text bytes).toData.sequence
    rw [stdStr_text (Nat.lt_trans h (by decide))] at hlen
    exact congrArg (16 + ·) hlen.symm

/-- What is read back stands for the same number or text. -/
theorem ofData_of_same (h : p.size < 2 ^ 31) {d : Data} (hd : d.Same p.toData) :
    ofData d = some p := by
  obtain ⟨htype, hcontent⟩ := hd
  cases p with
  | numeric bits =>
    have hd : d.type = .numeric := htype
    have hword : d.getInteger.map storeWord = some (storeWord bits) := by
      have hbits : (numeric bits).toData.content = some (storeWord bits) :=
        Data.content_setInteger bits
      rw [hbits, Data.content, hd] at hcontent
      exact hcontent
    obtain ⟨v, hv, hstored⟩ := Option.map_eq_some_iff.1 hword
    have hsame : v = bits := by rw [← ofLeBytes_storeWord v, hstored, ofLeBytes_storeWord]
    rw [ofData, hd]
    dsimp only
    rw [hv, hsame]
    rfl
  | text bytes =>
    have hd : d.type = .text := htype
    have hbytes : d.sequence.stdStr = bytes := by
      have htext : (text bytes).toData.content = some bytes :=
        congrArg some (stdStr_text (Nat.lt_trans h (by decide)))
      rw [htext, Data.content, hd] at hcontent
      exact Option.some.inj hcontent
    rw [ofData, hd]
    dsimp only
    rw [hbytes]

/-! ### The order of names -/

/-- The number of the type, the place of the number and the bytes of the text, which decide in this
order. -/
def compare : Plain → Plain → Ordering
  | numeric bits, numeric bits' => Ord.compare (Double.rank bits) (Double.rank bits')
  | numeric _, text _ => .lt
  | text _, numeric _ => .gt
  | text bytes, text bytes' => Ord.compare bytes bytes'

instance : Std.TransCmp compare where
  eq_swap {a b} := by
    cases a <;> cases b
    · exact Std.OrientedOrd.eq_swap
    · rfl
    · rfl
    · exact Std.OrientedOrd.eq_swap
  isLE_trans {a b c} hab hbc := by
    cases a <;> cases b <;> cases c
    · exact Std.TransOrd.isLE_trans hab hbc
    · rfl
    · cases hbc
    · rfl
    · cases hab
    · cases hab
    · cases hbc
    · exact Std.TransOrd.isLE_trans hab hbc

private theorem rank_inj {a b : Double} (ha : a ≠ 0x8000000000000000) (hb : b ≠ 0x8000000000000000)
    (h : Double.rank a = Double.rank b) : a = b := by
  have hzero : ∀ d : Double, d ≠ 0x8000000000000000 → d.toNat ≠ 2 ^ 63 := by
    intro d hd hnat
    exact hd (UInt64.toNat_inj.1 (hnat.trans (by decide)))
  have ha := hzero a ha
  have hb := hzero b hb
  apply UInt64.toNat_inj.1
  unfold Double.rank at h
  split at h
  · split at h
    · omega
    · omega
  · split at h
    · omega
    · omega

private theorem compare_eq_eq {a b : Plain} (ha : a.Ordered) (hb : b.Ordered)
    (h : a.compare b = .eq) :
    a = b := by
  cases a with
  | numeric bits =>
    cases b with
    | numeric bits' => exact congrArg numeric (rank_inj ha.2 hb.2 (Std.LawfulEqOrd.eq_of_compare h))
    | text => cases h
  | text bytes =>
    cases b with
    | numeric => cases h
    | text bytes' => exact congrArg text (Std.LawfulEqOrd.eq_of_compare h)

private theorem isLong_text {bytes : Bytes} (h : bytes.length < sequenceSize) :
    (text bytes).toData.sequence.isLong = false := by
  have hcut : (AString.cut bytes).length < sequenceSize := by
    rwa [AString.cut_of_lt (Nat.lt_trans h (by decide))]
  have hset : (text bytes).toData.sequence = AString.inline (AString.cut bytes).length
      (overwrite (AString.cut bytes) (overwrite (storeWord 0) unwritten)) hcut := dif_pos hcut
  rw [hset]
  rfl

private theorem compare_numeric (bits bits' : UInt64) :
    (numeric bits).toData.compare (numeric bits').toData =
      if Double.lt bits bits' then some (-1) else if Double.lt bits' bits then some 1
      else some 0 := by
  have hl : (numeric bits).toData.getNumber = some bits := getInteger_numeric bits
  have hr : (numeric bits').toData.getNumber = some bits' := getInteger_numeric bits'
  rw [Data.compare, type_numeric, type_numeric, if_neg (not_not.2 rfl), Data.isText, type_numeric,
    if_neg (by decide), hl, hr]
  simp only [Option.bind_eq_bind, Option.bind_some]

/-- `data::compare` of names that are in order. -/
theorem compare_toData {a b : Plain} (ha : a.Ordered) (hb : b.Ordered) :
    (a.toData.compare b.toData).map signOrder = some (a.compare b) := by
  cases a with
  | numeric bits =>
    cases b with
    | text bytes =>
      rw [Data.compare, type_numeric, type_text, if_pos (by decide)]
      rfl
    | numeric bits' =>
      have hlt : Double.lt bits bits' = decide (Double.rank bits < Double.rank bits') := by
        rw [Double.lt, ha.1, hb.1, Bool.not_false, Bool.true_and, Bool.true_and]
      have hgt : Double.lt bits' bits = decide (Double.rank bits' < Double.rank bits) := by
        rw [Double.lt, ha.1, hb.1, Bool.not_false, Bool.true_and, Bool.true_and]
      rw [compare_numeric, hlt, hgt, compare]
      rcases Int.lt_trichotomy (Double.rank bits) (Double.rank bits') with h | h | h
      · rw [if_pos (decide_eq_true h), Std.compare_eq_lt.2 h]
        rfl
      · rw [h, Std.ReflOrd.compare_self]
        simp [signOrder]
      · rw [if_neg (by simpa using h.le), if_pos (decide_eq_true h), Std.compare_eq_gt.2 h]
        rfl
  | text bytes =>
    cases b with
    | numeric bits =>
      rw [Data.compare, type_numeric, type_text, if_pos (by decide)]
      rfl
    | text bytes' =>
      have hbytes := AString.compare_inline _ _ (isLong_text ha) (isLong_text hb)
      rw [stdStr_text (Nat.lt_trans ha (by decide)),
        stdStr_text (Nat.lt_trans hb (by decide))] at hbytes
      exact hbytes

end Plain

/-- A key that is restored, and in order with all others. -/
structure SetKey where
  context : UInt64
  name : Plain
  narrow : context.toNat < 2 ^ 32
  ordered : name.Ordered
  deriving DecidableEq

/-- A record that is restored. -/
structure SetRecord where
  flags : UInt32
  identity : UInt64
  value : Plain
  narrow : identity.toNat < 2 ^ 32
  short : value.size < 2 ^ 31
  deriving DecidableEq

/-- Zero has 32 bits. -/
theorem zero_narrow : (0 : UInt64).toNat < 2 ^ 32 := by decide

/-- The empty text stays inline. -/
theorem ordered_empty : (Plain.text []).Ordered := by decide

instance : Inhabited SetKey := ⟨⟨0, .text [], zero_narrow, ordered_empty⟩⟩

instance : Inhabited SetRecord := ⟨⟨0, 0, .text [], zero_narrow, by decide⟩⟩

namespace SetKey

/-- The key with its name as it is set. -/
def toKey (k : SetKey) : Key := ⟨k.context, k.name.toData⟩

/-- The key that was read. -/
def ofKey (k : Key) : Option SetKey := do
  let name ← Plain.ofData k.name
  if h : k.context.toNat < 2 ^ 32 ∧ name.Ordered then some ⟨k.context, name, h.1, h.2⟩ else none

/-- Keys are written and read as the set does it, into a new key. -/
def codec : Codec SetKey where
  storeSize k := k.toKey.stored.toNat
  store k := k.toKey.store.getD []
  retrieve r := (Key.read unwritten ⟨0, Data.init unwritten⟩ r).bind fun (k, r) ↦
    (ofKey k).map fun k ↦ (k, r)

/-- Contexts first, then names. -/
def compare : SetKey → SetKey → Ordering :=
  compareLex (compareOn SetKey.context) fun a b ↦ a.name.compare b.name

end SetKey

namespace SetRecord

/-- The record with its value as it is set. -/
def toRecord (r : SetRecord) : Record := ⟨r.flags, r.identity, r.value.toData⟩

/-- The record that was read. -/
def ofRecord (r : Record) : Option SetRecord := do
  let value ← Plain.ofData r.value
  if h : r.identity.toNat < 2 ^ 32 ∧ value.size < 2 ^ 31 then
    some ⟨r.flags, r.identity, value, h.1, h.2⟩
  else none

/-- Records are written and read as the set does it, into a new record. -/
def codec : Codec SetRecord where
  storeSize r := r.toRecord.stored.toNat
  store r := r.toRecord.store.getD []
  retrieve r := (Record.read unwritten ⟨0, 0, Data.init unwritten⟩ r).bind fun (x, r) ↦
    (ofRecord x).map fun x ↦ (x, r)

end SetRecord

/-! ### The encoding -/

/-- A number of 32 bits is written in at most five bytes. -/
theorem allGroups_le {data : UInt64} (h : data.toNat < 2 ^ 32) : allGroups data ≤ 5 :=
  (groups_le_iff (by decide)).2 (Nat.lt_trans h (by decide))

/-- As many bytes as announced are stored. -/
theorem Entry.storeSize_eq {e : Entry} {bytes : Bytes} (hstore : e.store = some bytes)
    (hnarrow : e.number.toNat < 2 ^ 32) (hextent : e.extent allGroups < 2 ^ 32) :
    e.stored.toNat = bytes.length := by
  rw [Entry.length_store hstore, e.stored_eq, UInt32.toNat_ofNat',
    e.extent_eq_iff.2 (.inl hnarrow), Nat.mod_eq_of_lt hextent]

private theorem SetKey.ofKey_of_same (k : SetKey) {k' : Key} (hcontext : k'.context = k.context)
    (hname : k'.name.Same k.name.toData) : ofKey k' = some k := by
  obtain ⟨context, name⟩ := k'
  change context = k.context at hcontext
  subst hcontext
  rw [ofKey, Plain.ofData_of_same k.ordered.size_lt hname]
  exact dif_pos ⟨k.narrow, k.ordered⟩

private theorem SetRecord.ofRecord_of_same (r : SetRecord) {r' : Record}
    (hflags : r'.flags = r.flags)
    (hidentity : r'.identity = r.identity) (hvalue : r'.value.Same r.value.toData) :
    ofRecord r' = some r := by
  obtain ⟨flags, identity, value⟩ := r'
  change flags = r.flags at hflags
  change identity = r.identity at hidentity
  subst hflags hidentity
  rw [ofRecord, Plain.ofData_of_same r.short hvalue]
  exact dif_pos ⟨r.narrow, r.short⟩

private theorem SetKey.codec_roundTrips : SetKey.codec.RoundTrips where
  size k := by
    obtain ⟨bytes, hstore, -⟩ := k.name.roundTrips_toData.key k.context
    have hsize := k.ordered.size_lt
    have hextent :
        (Entry.key k.toKey).extent allGroups = allGroups k.context + (16 + k.name.size) :=
      congrArg (allGroups k.context + ·) (Plain.extent_toData hsize)
    have hgroups := allGroups_le k.narrow
    have hlength := Entry.storeSize_eq (e := .key k.toKey) hstore k.narrow (by omega)
    show k.toKey.stored.toNat = (k.toKey.store.getD []).length
    rw [show k.toKey.store = some bytes from hstore]
    exact hlength
  retrieve k rest := by
    obtain ⟨bytes, hstore, hread⟩ := k.name.roundTrips_toData.key k.context
    obtain ⟨k', hread, hcontext, hname⟩ := hread unwritten ⟨0, Data.init unwritten⟩ rest
    show (Key.read unwritten ⟨0, Data.init unwritten⟩ (k.toKey.store.getD [] ++ rest)).bind _ = _
    rw [show k.toKey.store = some bytes from hstore, Option.getD_some, hread, Option.bind_some]
    dsimp only
    rw [k.ofKey_of_same hcontext hname]
    rfl

private theorem SetRecord.codec_roundTrips : SetRecord.codec.RoundTrips where
  size r := by
    obtain ⟨bytes, hstore, -⟩ := r.value.roundTrips_toData.record r.flags r.identity
    have hshort := r.short
    have hextent : (Entry.record r.toRecord).extent allGroups =
        groups r.flags.toNat + allGroups r.identity + (16 + r.value.size) :=
      congrArg (groups r.flags.toNat + allGroups r.identity + ·) (Plain.extent_toData hshort)
    have hgroups := allGroups_le r.narrow
    have hflags : groups r.flags.toNat ≤ 5 :=
      (groups_le_iff (by decide)).2 (Nat.lt_trans r.flags.toNat_lt (by decide))
    have hlength := Entry.storeSize_eq (e := .record r.toRecord) hstore r.narrow (by omega)
    show r.toRecord.stored.toNat = (r.toRecord.store.getD []).length
    rw [show r.toRecord.store = some bytes from hstore]
    exact hlength
  retrieve r rest := by
    obtain ⟨bytes, hstore, hread⟩ := r.value.roundTrips_toData.record r.flags r.identity
    obtain ⟨r', hread, hflags, hidentity, hvalue⟩ :=
      hread unwritten ⟨0, 0, Data.init unwritten⟩ rest
    show (Record.read unwritten ⟨0, 0, Data.init unwritten⟩
      (r.toRecord.store.getD [] ++ rest)).bind _ = _
    rw [show r.toRecord.store = some bytes from hstore, Option.getD_some, hread, Option.bind_some]
    dsimp only
    rw [r.ofRecord_of_same hflags hidentity hvalue]
    rfl

/-! ### The order -/

namespace SetKey

instance : Std.TransCmp fun a b : SetKey ↦ a.name.compare b.name where
  eq_swap {a b} :=
    have hswap : a.name.compare b.name = (b.name.compare a.name).swap := Std.OrientedCmp.eq_swap
    hswap
  isLE_trans {a _ c} hab hbc :=
    have hle : (a.name.compare c.name).isLE := Std.TransCmp.isLE_trans hab hbc
    hle

instance : Std.TransCmp compare := inferInstanceAs (Std.TransCmp (compareLex _ _))

private theorem eq_of_compare {a b : SetKey} (h : compare a b = .eq) : a = b := by
  rw [compare, compareLex, Ordering.then_eq_eq] at h
  obtain ⟨context, name, narrow, ordered⟩ := a
  obtain ⟨context', name', narrow', ordered'⟩ := b
  have hcontext : context = context' := Std.LawfulEqOrd.eq_of_compare h.1
  have hname : name = name' := Plain.compare_eq_eq ordered ordered' h.2
  subst hcontext hname
  rfl

instance : LinearOrder SetKey where
  le a b := (compare a b).isLE = true
  lt a b := compare a b = .lt
  le_refl a := Std.ReflCmp.isLE_rfl
  le_trans a b c := Std.TransCmp.isLE_trans
  lt_iff_le_not_ge a b := by
    have hswap : compare b a = (compare a b).swap := Std.OrientedCmp.eq_swap
    rw [hswap]
    cases compare a b <;> decide
  le_antisymm a b hab hba := by
    have hswap : compare b a = (compare a b).swap := Std.OrientedCmp.eq_swap
    rw [hswap] at hba
    apply eq_of_compare
    cases hcompare : compare a b with
    | eq => rfl
    | lt =>
      rw [hcompare] at hba
      cases hba
    | gt =>
      rw [hcompare] at hab
      cases hab
  le_total a b := by
    have hswap : compare b a = (compare a b).swap := Std.OrientedCmp.eq_swap
    rw [hswap]
    cases compare a b <;> decide
  toDecidableLE a b := inferInstanceAs (Decidable (_ = _))
  toDecidableLT a b := inferInstanceAs (Decidable (_ = _))
  toDecidableEq := inferInstance

private theorem compare_of_context_eq {a b : SetKey} (h : a.context = b.context) :
    ∃ r, a.toKey.name.compare b.toKey.name = some r ∧ signOrder r = compare a b := by
  obtain ⟨r, hr, hsign⟩ := Option.map_eq_some_iff.1 (Plain.compare_toData a.ordered b.ordered)
  refine ⟨r, hr, hsign.trans ?_⟩
  rw [compare, compareLex, compareOn, h, Std.ReflOrd.compare_self, Ordering.then]

private theorem compare_of_context_ne {a b : SetKey} (h : a.context ≠ b.context) :
    compare a b = Ord.compare a.context b.context := by
  have hne : Ord.compare a.context b.context ≠ .eq := by simpa using h
  rw [compare, compareLex, compareOn]
  cases hc : Ord.compare a.context b.context with
  | eq => exact absurd hc hne
  | lt => rfl
  | gt => rfl

/-- The order of the keys is `key::operator<`. -/
theorem lt_toKey (a b : SetKey) : a.toKey.lt b.toKey = some (decide (a < b)) := by
  have hlt : a < b ↔ compare a b = .lt := Iff.rfl
  by_cases hcontext : a.context = b.context
  · obtain ⟨r, hr, hsign⟩ := compare_of_context_eq hcontext
    have hsame : a.toKey.context = b.toKey.context := hcontext
    rw [Key.lt, if_neg (not_not.2 hsame), hr]
    simp [hlt, ← hsign, ← signOrder_eq_lt]
  · have hne : a.toKey.context ≠ b.toKey.context := hcontext
    rw [Key.lt, if_pos hne]
    refine congrArg some (decide_eq_decide.2 ?_)
    rw [hlt, compare_of_context_ne hcontext]
    exact Std.compare_eq_lt.symm

/-- Their equality is `key::operator==`. -/
theorem eq_toKey (a b : SetKey) : a.toKey.eq b.toKey = some (decide (a = b)) := by
  by_cases hcontext : a.context = b.context
  · obtain ⟨r, hr, hsign⟩ := compare_of_context_eq hcontext
    have heq : a = b ↔ r = 0 := by
      rw [← signOrder_eq_eq, hsign]
      exact ⟨fun h ↦ h ▸ Std.ReflCmp.compare_self, eq_of_compare⟩
    have hsame : a.toKey.context = b.toKey.context := hcontext
    rw [Key.eq, Key.ne, if_neg (not_not.2 hsame), Data.ne, hr]
    simp [heq]
  · have hne : a.toKey.context ≠ b.toKey.context := hcontext
    have hkeys : a ≠ b := fun h ↦ hcontext (congrArg SetKey.context h)
    rw [Key.eq, Key.ne, if_pos hne, decide_eq_false hkeys]
    rfl

end SetKey

/-- The set of a database. -/
def setType : TreeType SetKey SetRecord where
  traits := Traits.perPage
  keys := SetKey.codec
  values := SetRecord.codec
  unencoded := 0
  slots_lt := by decide
  keys_roundTrips := SetKey.codec_roundTrips
  values_roundTrips := SetRecord.codec_roundTrips

end LibSpaces.Spaces
