import LibSpaces.Spaces.Key
import LibSpaces.Stx.Uleb128

/-!
# The encoding of keys and records

`src/src/storage/spaces/key.h:36–300,391–444,516–561,580–685`,
`src/src/stx/storage/basic_storage.h:541–561`. A value is its type and eight bytes more, or a text
with its length before it. A reader keeps the form of the object it reads into where it can. `junk`
is what the inline buffer shows when a `tracked_buffer` was in its place, or before it was written
to. The messages of the debug log are left out.
-/

namespace LibSpaces.Spaces

open LibSpaces.Base LibSpaces.Stx

/-- `memcpy` to the front of a buffer. -/
def overwrite {n : ℕ} (bytes : Bytes) (buffer : Vector UInt8 n) : Vector UInt8 n :=
  Vector.ofFn fun i ↦ bytes.getD i buffer[i]

private theorem take_overwrite {n : ℕ} {bytes : Bytes} (buffer : Vector UInt8 n)
    (h : bytes.length ≤ n) :
    (overwrite bytes buffer).toList.take bytes.length = bytes := by
  apply List.ext_getElem
  · simpa using h
  · intro i hi hi'
    simp [overwrite, hi']

namespace AString

variable (junk : Vector UInt8 sequenceSize)

/-- The bytes of `sequence`. -/
def inlineBuffer : AString → Vector UInt8 sequenceSize
  | inline _ sequence _ => sequence
  | long .. => junk

/-- `clear`, `key.h:91–98`. -/
def clear : AString → AString
  | inline _ sequence _ => inline 0 sequence (by decide)
  | long .. => long [] (by decide)

/-- `vector::resize`. -/
def padded (l : ℕ) (str : Bytes) : Bytes := str.take l ++ List.replicate (l - str.length) 0

@[simp] private theorem length_padded (l : ℕ) (str : Bytes) : (padded l str).length = l := by
  simp only [padded, List.length_append, List.length_take, List.length_replicate]
  omega

/-- `resize(l)`, `key.h:106–112`: a long string of less than `sequenceSize` bytes is made inline,
its buffer stays where it is. -/
def resize (a : AString) (l : UInt32) : AString :=
  if h : l.toNat < sequenceSize then inline l.toNat (a.inlineBuffer junk) h
  else long (padded l.toNat (if a.isLong then a.data else [])) (by simpa using l.toNat_lt)

/-- `memcpy` to `writable`. -/
def fill : AString → Bytes → AString
  | inline l sequence hl, bytes => inline l (overwrite bytes sequence) hl
  | long str hs, bytes => long ((bytes ++ str.drop bytes.length).take str.length)
      (lt_of_le_of_lt (List.length_take_le _ _) hs)

/-- The bytes that are taken of a text: its length is passed as a `ui4`. -/
def cut (data : Bytes) : Bytes := data.take (data.length % 2 ^ 32)

/-- A length that is stored in 32 bits is cut to them. -/
theorem length_cut (data : Bytes) : (cut data).length < 2 ^ 32 :=
  lt_of_le_of_lt (List.length_take_le _ _) (Nat.mod_lt _ (by decide))

/-- Data of a length below 2^32 is not cut. -/
theorem cut_of_lt {data : Bytes} (h : data.length < 2 ^ 32) : cut data = data := by
  rw [cut, Nat.mod_eq_of_lt h, List.take_length]

/-- `set_data` and `resize(l, data)`, `key.h:47–61,113–119`. -/
def setData : AString → Bytes → AString
  | long .., data => long (cut data) (length_cut data)
  | inline _ sequence _, data =>
    if h : (cut data).length < sequenceSize then
      inline (cut data).length (overwrite (cut data) sequence) h
    else long (cut data) (length_cut data)

variable {junk} {a : AString} {bytes : Bytes}

/-- The data that is set is read back, cut to 32 bits of length. -/
theorem stdStr_setData (a : AString) (data : Bytes) : (a.setData data).stdStr = cut data := by
  cases a with
  | long str hs => simp [setData, stdStr, AString.data, size]
  | inline l sequence hl =>
    rw [setData]
    split
    next h => exact take_overwrite sequence h.le
    next => simp [stdStr, AString.data, size]

/-- A cleared string is empty. -/
@[simp] theorem size_clear (a : AString) : a.clear.size = 0 := by cases a <;> rfl

@[simp] private theorem size_resize (a : AString) (l : UInt32) :
    (a.resize junk l).size = l.toNat := by
  simp only [resize]
  split
  next => simp only [size]
  next => simp only [size, length_padded]

/-- Bytes that are copied over a whole string are its bytes. -/
theorem stdStr_fill (h : bytes.length = a.size) : (a.fill bytes).stdStr = bytes := by
  cases a with
  | inline l sequence hl =>
    obtain rfl : bytes.length = l := h
    exact take_overwrite sequence hl.le
  | long str hs =>
    have h' : bytes.length = str.length := h
    simp only [fill, stdStr, AString.data, size, ← h', List.take_left',
      List.take_length]

private theorem size_fill (a : AString) (bytes : Bytes) : (a.fill bytes).size = a.size := by
  cases a with
  | inline => simp only [fill, size]
  | long str hs =>
    simp only [fill, size, List.length_take, List.length_append, List.length_drop]
    omega

end AString

/-- `primitive::store` of a word. -/
def storeWord (p : UInt64) : Bytes := leBytes 8 p.toNat

/-- `primitive::read` of a word; `none` is a read past the end of the buffer. -/
def readWord (r : Bytes) : Option (UInt64 × Bytes) :=
  if 8 ≤ r.length then some (UInt64.ofNat (ofLeBytes (r.take 8)), r.drop 8) else none

/-- A word is stored in eight bytes. -/
@[simp] theorem length_storeWord (p : UInt64) : (storeWord p).length = 8 := length_leBytes 8 _

/-- A stored word is read back. -/
theorem ofLeBytes_storeWord (p : UInt64) : UInt64.ofNat (ofLeBytes (storeWord p)) = p := by
  have hlt : p.toNat < 256 ^ 8 := p.toNat_lt.trans_eq (by norm_num)
  rw [storeWord, ofLeBytes_leBytes, Nat.mod_eq_of_lt hlt, UInt64.ofNat_toNat]

private theorem readWord_store (p : UInt64) (rest : Bytes) :
    readWord (storeWord p ++ rest) = some (p, rest) := by
  have hlen := length_storeWord p
  rw [readWord, if_pos (by rw [List.length_append]; omega), List.take_left' hlen,
    List.drop_left' hlen, ofLeBytes_storeWord]

/-- The type that a number stands for. No setter and no stored value has another one. -/
def DataType.ofCode (t : UInt64) : Option DataType :=
  [DataType.none, .numeric, .boolean, .text, .function, .multi, .infinity][t.toNat]?

@[simp] private theorem DataType.ofCode_code (t : DataType) :
    DataType.ofCode (UInt64.ofNat t.code.toNat) = some t := by
  cases t <;> rfl

namespace Data

variable (junk : Vector UInt8 sequenceSize) (d : Data)

/-- `get_integer` to read: the bytes `get_number` reads. -/
def getInteger : Option UInt64 := d.getNumber

/-- A write to `get_integer`, `key.h:210–218,231–233`. -/
def setInteger (v : UInt64) : Data :=
  { d with sequence := (d.sequence.resize junk 8).fill (storeWord v) }

/-! ### The setters -/

/-- `data()`, `key.h:204–206`; `astring()` sets the first eight bytes. -/
def init : Data := ⟨.none, .inline 0 (overwrite (storeWord 0) junk) (by decide)⟩

/-- `clear`, `key.h:200–203`. -/
def clear : Data := ⟨.none, d.sequence.clear⟩

/-- `operator=` of a `double` or a `ui8`, by the bits that are written. -/
def setNumber (bits : UInt64) : Data := setInteger junk { d.clear with type := .numeric } bits

/-- `operator=` of a `bool`. -/
def setBoolean (r : Bool) : Data :=
  setInteger junk { d.clear with type := .boolean } (if r then 1 else 0)

/-- `set_text`, `set_string` and `operator=` of a string. -/
def setText (s : Bytes) : Data := ⟨.text, d.sequence.clear.setData s⟩

/-- `set_function`, `key.h:283–288`. -/
def setFunction (vt : Bytes) : Data := ⟨.function, d.sequence.clear.setData vt⟩

/-- `make_infinity`, `key.h:266–270`. -/
def makeInfinity : Data :=
  setInteger junk { d.clear with type := .infinity } 0x7ff0000000000000

/-- `operator=` of another value, `key.h:243–247`. -/
def assign (r : Data) : Data := ⟨r.type, d.sequence.setData r.sequence.stdStr⟩

/-- The values that the setters produce. -/
inductive Produced : Data → Prop
  | init (buffer : Vector UInt8 sequenceSize) : Produced (init buffer)
  | clear {a : Data} (ha : Produced a) : Produced a.clear
  | setNumber {a : Data} (buffer : Vector UInt8 sequenceSize) (ha : Produced a) (bits : UInt64) :
    Produced (a.setNumber buffer bits)
  | setBoolean {a : Data} (buffer : Vector UInt8 sequenceSize) (ha : Produced a) (r : Bool) :
    Produced (a.setBoolean buffer r)
  | setText {a : Data} (ha : Produced a) (s : Bytes) : Produced (a.setText s)
  | setFunction {a : Data} (ha : Produced a) (vt : Bytes) : Produced (a.setFunction vt)
  | makeInfinity {a : Data} (buffer : Vector UInt8 sequenceSize) (ha : Produced a) :
    Produced (a.makeInfinity buffer)
  | assign {a r : Data} (ha : Produced a) (hr : Produced r) : Produced (a.assign r)

/-! ### Storing and reading -/

/-- `stored`, `key.h:391–396`, in 32 bits. -/
def stored : UInt32 := 8 + if d.isText then UInt32.ofNat (d.sequence.size + 8) else 8

/-- `store`, `key.h:398–415`. -/
def store : Option Bytes :=
  if d.isText then
    some (storeWord (UInt64.ofNat d.type.code.toNat) ++
      (storeWord (UInt64.ofNat d.sequence.size) ++ d.sequence.stdStr))
  else d.getInteger.map fun v ↦ storeWord (UInt64.ofNat d.type.code.toNat) ++ storeWord v

/-- `read`, `key.h:417–444`, of the bytes up to the end of the buffer. -/
def read (r : Bytes) : Option (Data × Bytes) :=
  if r = [] then some (d, r)
  else do
    let (t, reader) ← readWord r
    let type ← DataType.ofCode t
    if type = .text then
      let (s, reader) ← readWord reader
      let sequence := d.sequence.resize junk s.toUInt32
      if sequence.size ≤ reader.length then
        some (⟨type, sequence.fill (reader.take sequence.size)⟩, reader.drop sequence.size)
      else none
    else
      let (v, reader) ← readWord reader
      some (setInteger junk ⟨type, d.sequence⟩ v, reader)

/-- The bytes that `size`, `key.h:368–383`, counts: those of the sequence, or a word. -/
def content : Option Bytes :=
  match d.type with
  | .text | .function | .multi => some d.sequence.stdStr
  | _ => d.getInteger.map storeWord

/-- Equal values: the same type and the same bytes. -/
def Same (d r : Data) : Prop := d.type = r.type ∧ d.content = r.content

/-- What is stored is read back, whatever is read into and follows. -/
def RoundTrips : Prop :=
  ∃ bytes, d.store = some bytes ∧ ∀ junk old rest,
    ∃ d', read junk old (bytes ++ rest) = some (d', rest) ∧ d'.Same d

/-- Not an empty value in the long form, and not a function of other than eight bytes. -/
def Whole : Prop :=
  (d.type = .none → d.sequence.isLong = false) ∧ (d.type = .function → d.sequence.size = 8)

variable {junk} {d}

/-! ### What the setters produce -/

/-- An integer takes eight bytes. -/
theorem setInteger_size (v : UInt64) : (d.setInteger junk v).sequence.size = 8 := by
  rw [setInteger, AString.size_fill, AString.size_resize]
  rfl

private theorem setInteger_stdStr (v : UInt64) :
    (d.setInteger junk v).sequence.stdStr = storeWord v := by
  rw [setInteger, AString.stdStr_fill]
  rw [AString.size_resize, length_storeWord]
  rfl

/-- The first eight bytes of a string that has as many. -/
theorem getInteger_of_size (h : 8 ≤ d.sequence.size) :
    d.getInteger = some (UInt64.ofNat (ofLeBytes (d.sequence.stdStr.take 8))) := by
  have hle := d.sequence.size_le_length_data
  rw [getInteger, getNumber, if_pos (h.trans hle), AString.stdStr, List.take_take, min_eq_left h]

/-- The integer that is set is read back. -/
theorem getInteger_setInteger (v : UInt64) : (d.setInteger junk v).getInteger = some v := by
  have hsize : (d.setInteger junk v).sequence.size = 8 := setInteger_size v
  rw [getInteger_of_size hsize.ge, setInteger_stdStr, List.take_of_length_le (by simp),
    ofLeBytes_storeWord]

/-- How many bytes the sequence of a value has by its type. -/
def Sized (d : Data) : Prop :=
  match d.type with
  | .none => d.sequence.size = 0
  | .numeric | .boolean | .infinity => d.sequence.size = 8
  | .text | .function => True
  | .multi => False

private theorem assign_size (r : Data) : (d.assign r).sequence.size = r.sequence.size := by
  have hlt : r.sequence.stdStr.length < 2 ^ 32 := by
    rw [AString.length_stdStr]
    cases r.sequence with
    | inline l sequence hl =>
      have hl' : l < 24 := hl
      show l < 2 ^ 32
      omega
    | long str hs => exact hs
  rw [← AString.length_stdStr, assign, AString.stdStr_setData, AString.cut_of_lt hlt,
    AString.length_stdStr]

/-- What the setters produce has a size of its type. -/
theorem Produced.sized (hd : Produced d) : d.Sized := by
  induction hd with
  | init buffer => rfl
  | clear ha ih => exact AString.size_clear _
  | setNumber buffer ha bits ih => exact setInteger_size bits
  | setBoolean buffer ha r ih => exact setInteger_size _
  | setText ha s ih => trivial
  | setFunction ha vt ih => trivial
  | makeInfinity buffer ha ih => exact setInteger_size _
  | @assign a r ha hr iha ihr =>
    have hsize := assign_size (d := a) r
    have htype : (a.assign r).type = r.type := rfl
    simpa only [Sized, htype, hsize] using ihr

/-! ### What is read -/

private theorem read_text {old : Data} {s rest : Bytes} (hs : s.length < 2 ^ 32) :
    ∃ d', read junk old (storeWord (UInt64.ofNat DataType.text.code.toNat) ++
        (storeWord (UInt64.ofNat s.length) ++ s) ++ rest) = some (d', rest) ∧
      d'.type = .text ∧ d'.sequence.stdStr = s := by
  have hlen : (UInt64.ofNat s.length).toUInt32.toNat = s.length := by
    rw [UInt64.toNat_toUInt32, UInt64.toNat_ofNat']
    omega
  have hsize : (old.sequence.resize junk (UInt64.ofNat s.length).toUInt32).size = s.length := by
    rw [AString.size_resize, hlen]
  refine ⟨⟨.text, (old.sequence.resize junk (UInt64.ofNat s.length).toUInt32).fill s⟩, ?_, rfl, ?_⟩
  · rw [read, if_neg (by simp [storeWord, leBytes]), List.append_assoc, readWord_store]
    simp only [Option.bind_eq_bind, Option.bind_some, DataType.ofCode_code, if_true,
      List.append_assoc, readWord_store, hsize, List.length_append]
    rw [if_pos (by omega), List.take_left, List.drop_left]
  · exact AString.stdStr_fill hsize.symm

private theorem read_word {old : Data} {t : DataType} {v : UInt64} {rest : Bytes} (ht : t ≠ .text) :
    read junk old (storeWord (UInt64.ofNat t.code.toNat) ++ storeWord v ++ rest) =
      some (setInteger junk ⟨t, old.sequence⟩ v, rest) := by
  rw [read, if_neg (by simp [storeWord, leBytes]), List.append_assoc, readWord_store]
  simp only [Option.bind_eq_bind, Option.bind_some, DataType.ofCode_code, if_neg ht,
    readWord_store]

/-! ### Round trips -/

/-- The size of a string has 32 bits. -/
theorem size_lt (a : AString) : a.size < 2 ^ 32 := by
  cases a with
  | inline l sequence hl =>
    have hl' : l < 24 := hl
    show l < 2 ^ 32
    omega
  | long str hs => exact hs

/-- The content of an integer is its word. -/
theorem content_setInteger (v : UInt64) : (d.setInteger junk v).content = some (storeWord v) := by
  have hstr : (d.setInteger junk v).sequence.stdStr = storeWord v := setInteger_stdStr v
  have hint : (d.setInteger junk v).getInteger = some v := getInteger_setInteger v
  rw [content, hstr, hint]
  split <;> rfl

/-- Every text is read back. -/
theorem roundTrips_text (ht : d.type = .text) : d.RoundTrips := by
  have hstore : d.store = some (storeWord (UInt64.ofNat DataType.text.code.toNat) ++
      (storeWord (UInt64.ofNat d.sequence.stdStr.length) ++ d.sequence.stdStr)) := by
    rw [store, if_pos (by simp [isText, ht]), ht, AString.length_stdStr]
  refine ⟨_, hstore, fun junk old rest ↦ ?_⟩
  obtain ⟨d', hread, htype, hstr⟩ := read_text
    (s := d.sequence.stdStr) (by rw [AString.length_stdStr]; exact size_lt _)
  exact ⟨d', hread, htype.trans ht.symm, by rw [content, content, htype, ht, hstr]⟩

/-- Of any other value the word is stored, so it has to be the whole value. -/
theorem roundTrips_word_iff (ht : d.type ≠ .text) :
    d.RoundTrips ↔ ∃ v, d.getInteger = some v ∧ d.content = some (storeWord v) := by
  have hstore : d.store = d.getInteger.map fun v ↦
      storeWord (UInt64.ofNat d.type.code.toNat) ++ storeWord v := by
    rw [store, if_neg (by simpa [isText] using ht)]
  constructor
  · rintro ⟨bytes, hbytes, hread⟩
    rw [hstore, Option.map_eq_some_iff] at hbytes
    obtain ⟨v, hv, rfl⟩ := hbytes
    obtain ⟨d', hd', hsame⟩ := hread (Vector.replicate _ 0) d []
    rw [read_word ht] at hd'
    cases hd'
    exact ⟨v, hv, hsame.2.symm.trans (content_setInteger v)⟩
  · rintro ⟨v, hv, hcontent⟩
    refine ⟨_, by rw [hstore, hv, Option.map_some], fun junk old rest ↦ ?_⟩
    exact ⟨_, read_word ht, rfl, (content_setInteger v).trans hcontent.symm⟩

/-- Every other value of eight bytes is read back. -/
theorem roundTrips_of_size (ht : d.type ≠ .text) (hsize : d.sequence.size = 8) : d.RoundTrips := by
  have hlen : d.sequence.stdStr.length = 8 := by rw [AString.length_stdStr, hsize]
  obtain ⟨v, hv⟩ : ∃ v, v = UInt64.ofNat (ofLeBytes d.sequence.stdStr) := ⟨_, rfl⟩
  have hint : d.getInteger = some v := by
    rw [getInteger_of_size hsize.ge, List.take_of_length_le hlen.le, hv]
  have hword : storeWord v = d.sequence.stdStr := by
    have hlt := ofLeBytes_lt d.sequence.stdStr
    rw [hlen] at hlt
    rw [storeWord, hv, UInt64.toNat_ofNat', Nat.mod_eq_of_lt (by omega), ← hlen,
      leBytes_ofLeBytes]
  refine (roundTrips_word_iff ht).2 ⟨v, hint, ?_⟩
  rw [content, hint, Option.map_some, hword]
  split <;> rfl

private theorem roundTrips_iff_whole (hd : d.Sized) : d.RoundTrips ↔ d.Whole := by
  obtain ⟨type, sequence⟩ := d
  cases type with
  | text => exact ⟨fun _ ↦ ⟨nofun, nofun⟩, fun _ ↦ roundTrips_text rfl⟩
  | numeric => exact ⟨fun _ ↦ ⟨nofun, nofun⟩, fun _ ↦ roundTrips_of_size nofun hd⟩
  | boolean => exact ⟨fun _ ↦ ⟨nofun, nofun⟩, fun _ ↦ roundTrips_of_size nofun hd⟩
  | infinity => exact ⟨fun _ ↦ ⟨nofun, nofun⟩, fun _ ↦ roundTrips_of_size nofun hd⟩
  | multi => exact hd.elim
  | function =>
    refine ⟨fun h ↦ ⟨nofun, fun _ ↦ ?_⟩, fun h ↦ roundTrips_of_size nofun (h.2 rfl)⟩
    obtain ⟨v, -, hcontent⟩ := (roundTrips_word_iff (d := ⟨.function, sequence⟩) nofun).1 h
    rw [← AString.length_stdStr, Option.some.inj hcontent, length_storeWord]
  | none =>
    rw [roundTrips_word_iff (d := ⟨.none, sequence⟩) nofun]
    constructor
    · rintro ⟨v, hv, -⟩
      refine ⟨fun _ ↦ ?_, nofun⟩
      cases sequence with
      | inline l sequence hl => rfl
      | long str hs =>
        obtain rfl : str = [] := List.eq_nil_of_length_eq_zero hd
        cases hv
    · intro h
      obtain ⟨v, hv⟩ := Option.isSome_iff_exists.1 (getNumber_isSome ⟨.none, sequence⟩ (h.1 rfl))
      exact ⟨v, hv, congrArg (Option.map storeWord) hv⟩

end Data

namespace Key

variable (junk : Vector UInt8 sequenceSize) (k : Key)

/-- `stored`, `key.h:534–542`. -/
def stored : UInt32 := UInt32.ofNat (unsignedSize k.context.toUInt32) + k.name.stored

/-- `store`, `key.h:543–561`. -/
def store : Option Bytes := k.name.store.map fun name ↦ writeUnsigned k.context ++ name

/-- `read`, `key.h:516–533`. -/
def read (r : Bytes) : Option (Key × Bytes) :=
  if r = [] then some (k, r)
  else
    let (context, reader) := readUnsigned64 r
    (k.name.read junk reader).map fun (name, reader) ↦ (⟨context, name⟩, reader)

/-- What is stored is read back. -/
def RoundTrips : Prop :=
  ∃ bytes, k.store = some bytes ∧ ∀ junk old rest,
    ∃ k', read junk old (bytes ++ rest) = some (k', rest) ∧ k'.context = k.context ∧
      k'.name.Same k.name

end Key

/-- `record`, `key.h:580–585`. -/
structure Record where
  flags : UInt32
  identity : UInt64
  value : Data

namespace Record

variable (junk : Vector UInt8 sequenceSize) (r : Record)

/-- `stored`, `key.h:657–665`. -/
def stored : UInt32 :=
  UInt32.ofNat (unsignedSize r.flags) + UInt32.ofNat (unsignedSize r.identity.toUInt32) +
    r.value.stored

/-- `store`, `key.h:666–685`. -/
def store : Option Bytes :=
  r.value.store.map fun value ↦
    writeUnsigned r.flags.toUInt64 ++ (writeUnsigned r.identity ++ value)

/-- `read`, `key.h:636–656`. -/
def read (reader : Bytes) : Option (Record × Bytes) :=
  if reader = [] then some (r, reader)
  else
    let (flags, reader) := readUnsigned64 reader
    let (identity, reader) := readUnsigned64 reader
    (r.value.read junk reader).map fun (value, reader) ↦
      (⟨flags.toUInt32, identity, value⟩, reader)

/-- What is stored is read back. -/
def RoundTrips : Prop :=
  ∃ bytes, r.store = some bytes ∧ ∀ junk old rest,
    ∃ r', read junk old (bytes ++ rest) = some (r', rest) ∧ r'.flags = r.flags ∧
      r'.identity = r.identity ∧ r'.value.Same r.value

end Record

private theorem writeUnsigned_ne_nil (data : UInt64) : writeUnsigned data ≠ [] := by
  refine List.ne_nil_of_length_pos ?_
  rw [length_writeUnsigned]
  exact Nat.lt_of_lt_of_le Nat.one_pos (le_max_left _ _)

/-- A key is read back where its name is. -/
theorem Data.RoundTrips.key {d : Data} (hd : d.RoundTrips) (context : UInt64) :
    Key.RoundTrips ⟨context, d⟩ := by
  obtain ⟨bytes, hstore, hread⟩ := hd
  refine ⟨writeUnsigned context ++ bytes, by simp [Key.store, hstore], fun junk old rest ↦ ?_⟩
  obtain ⟨d', hd', hsame⟩ := hread junk old.name rest
  refine ⟨⟨context, d'⟩, ?_, rfl, hsame⟩
  rw [Key.read, if_neg (by simp [writeUnsigned_ne_nil]), List.append_assoc, readUnsigned64_write]
  simp only [hd', Option.map_some]

/-- A record is read back where its value is. -/
theorem Data.RoundTrips.record {d : Data} (hd : d.RoundTrips) (flags : UInt32) (identity : UInt64) :
    Record.RoundTrips ⟨flags, identity, d⟩ := by
  obtain ⟨bytes, hstore, hread⟩ := hd
  refine ⟨writeUnsigned flags.toUInt64 ++ (writeUnsigned identity ++ bytes),
    by simp [Record.store, hstore], fun junk old rest ↦ ?_⟩
  obtain ⟨d', hd', hsame⟩ := hread junk old.value rest
  refine ⟨⟨flags, identity, d'⟩, ?_, rfl, rfl, hsame⟩
  rw [Record.read, if_neg (by simp [writeUnsigned_ne_nil]), List.append_assoc,
    readUnsigned64_write]
  simp only [List.append_assoc, readUnsigned64_write, hd', Option.map_some,
    UInt32.toUInt32_toUInt64]

/-- The values that are read back as they were stored, alone and in every key and record. -/
theorem Data.Produced.restored_iff_whole {d : Data} (hd : d.Produced) :
    (d.RoundTrips ∧ (∀ context, Key.RoundTrips ⟨context, d⟩) ∧
      ∀ flags identity, Record.RoundTrips ⟨flags, identity, d⟩) ↔ d.Whole := by
  rw [← Data.roundTrips_iff_whole hd.sized]
  exact ⟨And.left, fun h ↦ ⟨h, h.key, h.record⟩⟩

/-- A fresh value that is set to a text. -/
theorem Data.roundTrips_of_setText :
    Data.RoundTrips ((init (Vector.replicate _ 0)).setText [97]) :=
  (Produced.restored_iff_whole (.setText (.init (Vector.replicate _ 0)) [97])).2 ⟨nofun, nofun⟩ |>.1

/-- Of a function of nine bytes the first eight are stored. -/
theorem Data.not_roundTrips_function :
    Produced ((init (Vector.replicate _ 0)).setFunction [1, 2, 3, 4, 5, 6, 7, 8, 9]) ∧
      ((init (Vector.replicate _ 0)).setFunction [1, 2, 3, 4, 5, 6, 7, 8, 9]).store =
        some [4, 0, 0, 0, 0, 0, 0, 0, 1, 2, 3, 4, 5, 6, 7, 8] ∧
      ¬ Data.RoundTrips ((init (Vector.replicate _ 0)).setFunction
        [1, 2, 3, 4, 5, 6, 7, 8, 9]) := by
  refine ⟨.setFunction (.init _) _, by decide +kernel, fun h ↦ ?_⟩
  have hsize := ((roundTrips_iff_whole (Produced.setFunction (.init _) _).sized).1 h).2 rfl
  exact absurd hsize (by decide)

end LibSpaces.Spaces
