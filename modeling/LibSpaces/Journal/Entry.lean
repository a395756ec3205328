import LibSpaces.Base.Bytes
import Mathlib.Tactic.Common

/-!
# Journal entries on disk

`src/src/storage/transactions/journal.cpp:85–118,182–195`. An entry is a header of
five eight byte fields, then a name, then a buffer. The reader fills a zeroed
header with whatever bytes are left, sizes the name and the buffer by it and
reads on, whether or not the file had that many bytes.
-/

namespace LibSpaces.Journal

open LibSpaces.Base

/-- `JOURNAL_PAGE`, `src/src/storage/transactions/transactional_storage.h:300–305`. -/
def journalPage : UInt32 := 0

/-- `JOURNAL_COMMIT`, `transactional_storage.h:302`. -/
def journalCommit : UInt32 := 1

/-- `JOURNAL_ROLLBACK`, `transactional_storage.h:303`. -/
def journalRollback : UInt32 := 2

/-- `sizeof(log_entry)`: five fields of eight bytes on an LP64 machine. -/
def headerSize : ℕ := 40

/-- The largest size of a `std::string` or a buffer; `resize` throws from here on. -/
def sizeLimit : ℕ := 2 ^ 63

/-- What a caller hands to `add_entry`, `journal.cpp:92`: everything but the sequence
number. A name or a buffer longer than `sizeLimit` cannot exist. -/
structure Entry where
  command : UInt32
  name : Bytes
  address : UInt64
  buffer : Bytes
  name_lt : name.length < sizeLimit
  buffer_lt : buffer.length < sizeLimit

namespace Entry

/-- The entry that marks a commit boundary, `journal.cpp:337`: the name is "commit". -/
def commit : Entry where
  command := journalCommit
  name := [99, 111, 109, 109, 105, 116]
  address := 0
  buffer := []
  name_lt := by decide
  buffer_lt := by decide

/-- The values of the five header fields, in their order in `log_entry`. -/
def fields (e : Entry) (sequence : UInt64) : List ℕ :=
  [sequence.toNat, e.command.toNat, e.name.length, e.address.toNat, e.buffer.length]

/-- The header bytes of `add_entry`, `journal.cpp:95–104`. -/
def header (e : Entry) (sequence : UInt64) : Bytes := (e.fields sequence).flatMap (leBytes 8)

/-- The bytes that `add_entry` appends, `journal.cpp:102–111`. -/
def encode (e : Entry) (sequence : UInt64) : Bytes := e.header sequence ++ e.name ++ e.buffer

@[simp] private theorem length_header (e : Entry) (sequence : UInt64) :
    (e.header sequence).length = headerSize := by
  simp [header, fields, headerSize]

/-- The bytes an entry takes in the file. -/
def size (e : Entry) : ℕ := headerSize + e.name.length + e.buffer.length

/-- A record has as many bytes as its `size` says. -/
@[simp] theorem length_encode (e : Entry) (sequence : UInt64) :
    (e.encode sequence).length = e.size := by
  simp [encode, size]
  omega

/-- No record is shorter than its header. -/
theorem headerSize_le_size (e : Entry) : headerSize ≤ e.size := by
  simp only [size]
  omega

end Entry

/-- The input stream under `Poco::BinaryReader`: the unread bytes and `good()`. -/
structure Reader where
  rest : Bytes
  good : Bool

/-- `BinaryReader::readRaw`: a stream that is not good delivers nothing; otherwise the
bytes there are, and too few of them end the stream. -/
def Reader.readRaw (r : Reader) (count : ℕ) : Bytes × Reader :=
  if r.good then
    (r.rest.take count, ⟨r.rest.drop count, decide (count ≤ r.rest.length)⟩)
  else ([], r)

/-- The read of the buffer, `journal.cpp:192–193`, is left out when the buffer is empty. -/
def Reader.readBuffer (r : Reader) (count : ℕ) : Bytes × Reader :=
  if count ≠ 0 then r.readRaw count else ([], r)

/-- Bytes that are there are delivered and the stream stays good. -/
@[simp] theorem readRaw_append (a rest : Bytes) :
    Reader.readRaw ⟨a ++ rest, true⟩ a.length = (a, ⟨rest, true⟩) := by
  simp [Reader.readRaw]

/-- A stream that is good after a read was good before it and had the bytes. -/
theorem readRaw_good (r : Reader) (count : ℕ) (h : (r.readRaw count).2.good = true) :
    r.good = true ∧ (r.readRaw count).2.rest.length + count = r.rest.length := by
  unfold Reader.readRaw at h ⊢
  split at h
  · next hg =>
    have hle : count ≤ r.rest.length := by simpa using h
    rw [if_pos hg]
    exact ⟨hg, by rw [List.length_drop]; omega⟩
  · next hg => exact absurd h hg

@[simp] private theorem readBuffer_append (a rest : Bytes) :
    Reader.readBuffer ⟨a ++ rest, true⟩ a.length = (a, ⟨rest, true⟩) := by
  unfold Reader.readBuffer
  split
  · exact readRaw_append a rest
  · next hz =>
    have hnil : a = [] := by simpa using hz
    simp [hnil]

private theorem readBuffer_good (r : Reader) (count : ℕ) (h : (r.readBuffer count).2.good = true) :
    r.good = true ∧ (r.readBuffer count).2.rest.length + count = r.rest.length := by
  unfold Reader.readBuffer at h ⊢
  split at h
  · next hz =>
    rw [if_pos hz]
    exact readRaw_good r count h
  · next hz =>
    rw [if_neg hz]
    exact ⟨h, by dsimp only; omega⟩

/-- A loaded record, `_Command`, `journal.cpp:170–174`. -/
structure Command where
  sequence : UInt64
  command : UInt32
  name : Bytes
  address : UInt64
  buffer : Bytes
  deriving DecidableEq

/-- One eight byte field of the header in memory. -/
def headerField (header : Bytes) (index : ℕ) : ℕ := ofLeBytes ((header.drop (8 * index)).take 8)

/-- `_Command::load`, `journal.cpp:182–195`; `none` is the exception of a `resize`
beyond `sizeLimit`. -/
def Command.load (reader : Reader) : Option (Command × Reader) :=
  let raw := reader.readRaw headerSize
  let entry := zeroed headerSize raw.1
  let bufferSize := headerField entry 4
  let nameSize := headerField entry 2
  if sizeLimit ≤ bufferSize ∨ sizeLimit ≤ nameSize then none
  else
    let name := raw.2.readRaw nameSize
    let buffer := name.2.readBuffer bufferSize
    some (⟨UInt64.ofNat (headerField entry 0), UInt32.ofNat (headerField entry 1),
      zeroed nameSize name.1, UInt64.ofNat (headerField entry 3), zeroed bufferSize buffer.1⟩,
      buffer.2)

/-- The record that a whole entry loads to. -/
def Entry.toCommand (e : Entry) (sequence : UInt64) : Command :=
  ⟨sequence, e.command, e.name, e.address, e.buffer⟩

private theorem drop_take_flatMap_leBytes (values : List ℕ) (count index : ℕ)
    (h : index < values.length) :
    ofLeBytes ((((values.flatMap (leBytes 8)).take count).drop (8 * index)).take 8) =
      values[index] % 256 ^ min 8 (count - 8 * index) := by
  induction values generalizing count index with
  | nil => simp at h
  | cons v vs ih =>
    cases index with
    | zero =>
      have ht : (((v :: vs).flatMap (leBytes 8)).take count).take 8 =
          (leBytes 8 v).take (min 8 count) := by
        have hlength : min 8 count ≤ (leBytes 8 v).length := by
          rw [length_leBytes]
          exact Nat.min_le_left _ _
        rw [List.take_take, List.flatMap_cons, List.take_append_of_le_length hlength]
      simp only [Nat.mul_zero, List.drop_zero, Nat.sub_zero, List.getElem_cons_zero]
      rw [ht, ofLeBytes_take_leBytes 8 _ v (by omega)]
    | succ index =>
      have hd : (((v :: vs).flatMap (leBytes 8)).take count).drop (8 * (index + 1)) =
          ((vs.flatMap (leBytes 8)).take (count - 8)).drop (8 * index) := by
        rw [show 8 * (index + 1) = 8 + 8 * index by omega, ← List.drop_drop, List.drop_take,
          List.flatMap_cons, List.drop_left' (by simp)]
      rw [hd, ih (count - 8) index (by simpa using h), List.getElem_cons_succ]
      congr 3
      omega

/-- A field of a torn header keeps the low bytes that lie before the cut. -/
theorem headerField_zeroed_take (e : Entry) (sequence : UInt64) (count index : ℕ)
    (h : index < (e.fields sequence).length) :
    headerField (zeroed headerSize ((e.header sequence).take count)) index =
      (e.fields sequence)[index] % 256 ^ min 8 (count - 8 * index) := by
  rw [headerField, ofLeBytes_zeroed, Entry.header, drop_take_flatMap_leBytes _ _ _ h]

/-- A whole header field is read back. -/
theorem headerField_zeroed (e : Entry) (sequence : UInt64) (index : ℕ)
    (h : index < (e.fields sequence).length) (hv : (e.fields sequence)[index] < 2 ^ 64) :
    headerField (zeroed headerSize (e.header sequence)) index = (e.fields sequence)[index] := by
  have ht := headerField_zeroed_take e sequence headerSize index h
  have hi : index < 5 := h
  rw [List.take_of_length_le (by simp)] at ht
  rw [ht, show min 8 (headerSize - 8 * index) = 8 by simp only [headerSize]; omega]
  exact Nat.mod_eq_of_lt hv

private theorem mod_lt_sizeLimit (n k : ℕ) (h : n < sizeLimit) : n % k < sizeLimit :=
  Nat.lt_of_le_of_lt (Nat.mod_le _ _) h

private theorem fields_lt (e : Entry) (sequence : UInt64) (index : ℕ)
    (h : index < (e.fields sequence).length) : (e.fields sequence)[index] < 2 ^ 64 := by
  have hn := e.name_lt
  have hb := e.buffer_lt
  have hc := e.command.toNat_lt
  simp only [sizeLimit] at hn hb
  have hall : ∀ v ∈ e.fields sequence, v < 2 ^ 64 := by
    simp only [Entry.fields, List.forall_mem_cons, List.not_mem_nil, false_implies, implies_true,
      and_true]
    exact ⟨sequence.toNat_lt, by omega, by omega, e.address.toNat_lt, by omega⟩
  exact hall _ (List.getElem_mem h)

private theorem zeroed_of_length_eq (size : ℕ) (src : Bytes) (h : src.length = size) :
    zeroed size src = src := by
  simp [zeroed, h]

/-- A whole entry loads to its record and leaves the rest of the file. -/
theorem load_encode (e : Entry) (sequence : UInt64) (rest : Bytes) :
    Command.load ⟨e.encode sequence ++ rest, true⟩ =
      some (e.toCommand sequence, ⟨rest, true⟩) := by
  have hread : Reader.readRaw ⟨e.encode sequence ++ rest, true⟩ headerSize =
      (e.header sequence, ⟨e.name ++ (e.buffer ++ rest), true⟩) := by
    simp [Reader.readRaw, Entry.encode, List.append_assoc]
  have hfield : ∀ index (h : index < (e.fields sequence).length),
      headerField (zeroed headerSize (e.header sequence)) index = (e.fields sequence)[index] :=
    fun index h ↦ headerField_zeroed e sequence index h (fields_lt e sequence index h)
  have h0 := hfield 0 (by simp [Entry.fields])
  have h1 := hfield 1 (by simp [Entry.fields])
  have h2 := hfield 2 (by simp [Entry.fields])
  have h3 := hfield 3 (by simp [Entry.fields])
  have h4 := hfield 4 (by simp [Entry.fields])
  simp only [Entry.fields, List.getElem_cons_zero, List.getElem_cons_succ] at h0 h1 h2 h3 h4
  have hlimit : ¬(sizeLimit ≤ e.buffer.length ∨ sizeLimit ≤ e.name.length) := by
    simp [e.name_lt, e.buffer_lt]
  rw [Command.load, hread]
  simp only [h0, h1, h2, h3, h4, if_neg hlimit]
  simp only [readRaw_append, readBuffer_append, zeroed_of_length_eq, Entry.toCommand,
    UInt64.ofNat_toNat, UInt32.ofNat_toNat]

/-- A record that leaves the stream good has consumed a header, and the name and the
buffer that the header announces. -/
theorem load_good (reader : Reader) (record : Command) (reader' : Reader)
    (h : Command.load reader = some (record, reader')) (hg : reader'.good = true) :
    reader'.rest.length + headerField (zeroed headerSize (reader.rest.take headerSize)) 4 +
      headerField (zeroed headerSize (reader.rest.take headerSize)) 2 + headerSize =
        reader.rest.length := by
  simp only [Command.load] at h
  split at h
  · exact absurd h (by simp)
  · simp only [Option.some.injEq, Prod.mk.injEq] at h
    obtain ⟨-, rfl⟩ := h
    obtain ⟨hname, hbuffer⟩ := readBuffer_good _ _ hg
    obtain ⟨hraw, hnameLength⟩ := readRaw_good _ _ hname
    obtain ⟨hreader, hrawLength⟩ := readRaw_good _ _ hraw
    have htake : (reader.readRaw headerSize).1 = reader.rest.take headerSize := by
      simp [Reader.readRaw, hreader]
    rw [← htake]
    omega

/-- A torn entry still loads: the stream ends, and the sequence number and the command
keep the bytes that lie before the cut. -/
theorem load_torn (e : Entry) (sequence : UInt64) (count : ℕ) (h : count < e.size) :
    ∃ record reader, Command.load ⟨(e.encode sequence).take count, true⟩ = some (record, reader) ∧
      reader.good = false ∧
      record.sequence = UInt64.ofNat (sequence.toNat % 256 ^ min 8 count) ∧
      record.command = UInt32.ofNat (e.command.toNat % 256 ^ min 8 (count - 8)) := by
  have hraw : ((e.encode sequence).take count).take headerSize =
      (e.header sequence).take count := by
    rw [List.take_take, Nat.min_comm, ← List.take_take, Entry.encode, List.append_assoc,
      List.take_left' (by simp)]
  have hfield := headerField_zeroed_take e sequence count
  have h0 := hfield 0 (by simp [Entry.fields])
  have h1 := hfield 1 (by simp [Entry.fields])
  have h2 := hfield 2 (by simp [Entry.fields])
  have h4 := hfield 4 (by simp [Entry.fields])
  simp only [Entry.fields, List.getElem_cons_zero, List.getElem_cons_succ] at h0 h1 h2 h4
  have hlimit : ¬(sizeLimit ≤ e.buffer.length % 256 ^ min 8 (count - 8 * 4) ∨
      sizeLimit ≤ e.name.length % 256 ^ min 8 (count - 8 * 2)) := by
    simp [mod_lt_sizeLimit, e.name_lt, e.buffer_lt]
  cases hload : Command.load ⟨(e.encode sequence).take count, true⟩ with
  | none =>
    simp only [Command.load, Reader.readRaw, if_true, hraw, h2, h4, if_neg hlimit] at hload
    cases hload
  | some loaded =>
    obtain ⟨record, reader⟩ := loaded
    refine ⟨record, reader, rfl, ?_, ?_⟩
    · -- a good stream would have read the whole entry
      by_contra hgood
      have hlen := load_good _ _ _ hload (by simpa using hgood)
      simp only [hraw, h2, h4, List.length_take, Entry.length_encode] at hlen
      have hn := e.name_lt
      have hb := e.buffer_lt
      by_cases hc : headerSize ≤ count
      · rw [show min 8 (count - 8 * 4) = 8 by simp only [headerSize] at hc; omega,
          show min 8 (count - 8 * 2) = 8 by simp only [headerSize] at hc; omega,
          Nat.mod_eq_of_lt (by simp only [sizeLimit] at hb; omega),
          Nat.mod_eq_of_lt (by simp only [sizeLimit] at hn; omega)] at hlen
        simp only [Entry.size] at h hlen
        omega
      · omega
    · simp only [Command.load, Reader.readRaw, if_true, hraw, h2, h4, if_neg hlimit,
        Option.some.injEq, Prod.mk.injEq] at hload
      obtain ⟨rfl, -⟩ := hload
      exact ⟨congrArg UInt64.ofNat h0, congrArg UInt32.ofNat h1⟩

end LibSpaces.Journal
