import LibSpaces.Journal.Entry

/-!
# Recovery from the journal file

`src/src/storage/transactions/journal.cpp:213–329`. The loop reads records while the
stream is good, checks that sequence numbers count up, collects pages and hands them
to the recovery transactions of their storages at every commit boundary. One error
flag decides at the end whether all these transactions are committed or discarded.
-/

namespace LibSpaces.Journal

open LibSpaces.Base

/-- A page that recovery writes: the storage it names, the address and the contents. -/
structure Write where
  name : Bytes
  address : UInt64
  buffer : Bytes
  deriving DecidableEq

/-- The page that a record carries. -/
def Command.write (c : Command) : Write := ⟨c.name, c.address, c.buffer⟩

/-- `is_valid_storage_directory`, `journal.cpp:198–211`. `substr(2)` throws on a name of less
than two bytes, which counts as not valid. `inDirectory` is what the file system answers for
the rest of the name: whether the directory of this path, taken from the current directory,
is there (`Poco::Path`, `Poco::File::isDirectory`; an exception counts as no). -/
def isValidStorageDirectory (inDirectory : Bytes → Bool) (storageName : Bytes) : Bool :=
  if storageName.length < 2 then false else inDirectory (storageName.drop 2)

/-- The variables of the loop of `recover`, `journal.cpp:221–227`. `applied` lists what was
written through the transactions in `pending`, so a storage has one exactly when it is
named there. -/
structure Recovery where
  sequence : UInt64
  commands : List Command
  applied : List Write

namespace Recovery

/-- The state before the first record. -/
def start : Recovery := ⟨0, [], []⟩

/-- `pending[name] != nullptr`. -/
def hasPending (st : Recovery) (name : Bytes) : Bool := st.applied.any (fun w ↦ w.name = name)

/-- The handling of one record in sequence, `journal.cpp:242–290`, `valid` being the directory
check. A storage without a valid directory gets no transaction and its pages are passed over.
`none` is the discard of a null transaction on a rollback record, which nothing in the program
writes. -/
def accept (valid : Bytes → Bool) (st : Recovery) (record : Command) : Option Recovery :=
  let st := if record.command = journalPage then
    { st with commands := st.commands ++ [record] } else st
  if record.command = journalCommit then
    some { st with
      applied := st.applied ++ (st.commands.map Command.write).filter (fun w ↦ valid w.name)
      commands := [] }
  else if record.command = journalRollback then
    if st.hasPending record.name then some st else none
  else some st

end Recovery

/-- The loop of `recover`, `journal.cpp:231–291`, with its error flag; `none` when the
process exits. `fuel` bounds the number of records. -/
def recoverLoop (valid : Bytes → Bool) : ℕ → Reader → Recovery → Option (Recovery × Bool)
  | 0, _, st => some (st, false)
  | fuel + 1, reader, st =>
    if reader.good then
      match Command.load reader with
      | none => none
      | some (record, reader) =>
        if st.sequence = 0 then
          (({ st with sequence := record.sequence } : Recovery).accept valid record).bind
            (recoverLoop valid fuel reader)
        else if record.sequence ≠ st.sequence + 1 then
          some ({ st with sequence := st.sequence + 1 }, decide (record.sequence ≠ 0))
        else
          (({ st with sequence := st.sequence + 1 } : Recovery).accept valid record).bind
            (recoverLoop valid fuel reader)
    else some (st, false)

/-- The end of `recover`, `journal.cpp:298–313`: every open transaction is committed, or
every one discarded. -/
def finish (result : Option (Recovery × Bool)) : Option (List Write) :=
  result.map (fun r ↦ if r.2 then [] else r.1.applied)

/-- `journal_state::recover`, `journal.cpp:213–329`: the pages committed to the storages, in
order; `none` when the process exits. -/
def recover (inDirectory : Bytes → Bool) (file : Bytes) : Option (List Write) :=
  finish (recoverLoop (isValidStorageDirectory inDirectory) (file.length + 1) ⟨file, true⟩
    Recovery.start)

/-- A stream that is not good ends the loop, whatever the fuel. -/
@[simp] theorem recoverLoop_not_good (valid : Bytes → Bool) (fuel : ℕ) (reader : Reader)
    (st : Recovery) (h : reader.good = false) :
    recoverLoop valid fuel reader st = some (st, false) := by
  cases fuel with
  | zero => rfl
  | succ fuel => simp [recoverLoop, h]

/-- Every record but the last takes a header, so a fuel above the number of bytes left is
never used up. -/
theorem recoverLoop_fuel (valid : Bytes → Bool) (fuel extra : ℕ) (reader : Reader)
    (st : Recovery) (h : reader.rest.length < fuel) :
    recoverLoop valid (fuel + extra) reader st = recoverLoop valid fuel reader st := by
  induction fuel generalizing reader st with
  | zero => omega
  | succ fuel ih =>
    rw [Nat.succ_add_eq_add_succ, Nat.add_succ, recoverLoop, recoverLoop]
    split
    · cases hload : Command.load reader with
      | none => rfl
      | some loaded =>
        obtain ⟨record, reader'⟩ := loaded
        have hnext : recoverLoop valid (fuel + extra) reader' = recoverLoop valid fuel reader' := by
          funext st'
          by_cases hg : reader'.good = true
          · have hlen := load_good reader record reader' hload hg
            simp only [headerSize] at hlen
            exact ih reader' st' (by omega)
          · simp [hg]
        simp only [hnext]
    · rfl

/-- A page as callers journal it: name and contents fit in memory. -/
structure Page extends Write where
  name_lt : name.length < sizeLimit
  buffer_lt : buffer.length < sizeLimit
  deriving DecidableEq

/-- The path `./a` is below the limit for strings. -/
theorem pathA_lt : ([46, 47, 97] : Bytes).length < sizeLimit := by decide

/-- So is the path `./b`. -/
theorem pathB_lt : ([46, 47, 98] : Bytes).length < sizeLimit := by decide

/-- So is the name `a`. -/
theorem shortName_lt : ([97] : Bytes).length < sizeLimit := by decide

/-- So is a page of one byte. -/
theorem byte_lt : ([1] : Bytes).length < sizeLimit := by decide

/-- What the writers put into the journal: pages and commit boundaries. -/
inductive Item
  | page (p : Page)
  | commit

namespace Item

/-- The entry behind an item: `add_entry(JOURNAL_PAGE, ...)` in
`transactional_storage.h:1795`, `add_entry(JOURNAL_COMMIT, ...)` in `journal.cpp:337`. -/
def entry : Item → Entry
  | page p => ⟨journalPage, p.name, p.address, p.buffer, p.name_lt, p.buffer_lt⟩
  | commit => Entry.commit

/-- A commit boundary. -/
def isCommit : Item → Bool
  | page _ => false
  | commit => true

/-- The bytes of an item in the file. -/
def size (i : Item) : ℕ := i.entry.size

/-- No record of the file is shorter than its header. -/
theorem headerSize_le_size (i : Item) : headerSize ≤ i.size := i.entry.headerSize_le_size

private theorem size_pos (i : Item) : 0 < i.size :=
  Nat.lt_of_lt_of_le (by decide) i.headerSize_le_size

end Item

/-- The file after a run of `add_entry` calls, numbered from `sequence` on. -/
def journalBytes (sequence : UInt64) : List Item → Bytes
  | [] => []
  | i :: is => i.entry.encode sequence ++ journalBytes (sequence + 1) is

/-- The meaning of a journal: pages wait for the next commit boundary, which commits
those of storages that are there. -/
structure Replay where
  waiting : List Write
  committed : List Write

namespace Replay

/-- Nothing journalled yet. -/
def empty : Replay := ⟨[], []⟩

/-- The effect of one more item. -/
def step (valid : Bytes → Bool) (r : Replay) : Item → Replay
  | .page p => { r with waiting := r.waiting ++ [p.toWrite] }
  | .commit => ⟨[], r.committed ++ r.waiting.filter (fun w ↦ valid w.name)⟩

/-- The effect of a list of items. -/
def run (valid : Bytes → Bool) (r : Replay) (items : List Item) : Replay :=
  items.foldl (step valid) r

/-- No records leave the replay as it is. -/
@[simp] theorem run_nil (valid : Bytes → Bool) (r : Replay) : r.run valid [] = r := rfl

/-- The records are replayed one after the other. -/
@[simp] theorem run_cons (valid : Bytes → Bool) (r : Replay) (i : Item) (is : List Item) :
    r.run valid (i :: is) = (r.step valid i).run valid is := rfl

/-- Two parts of a file are replayed one after the other. -/
@[simp] theorem run_append (valid : Bytes → Bool) (r : Replay) (is js : List Item) :
    r.run valid (is ++ js) = (r.run valid is).run valid js := List.foldl_append

end Replay

/-- What a loop state means. -/
def Recovery.replay (st : Recovery) : Replay := ⟨st.commands.map Command.write, st.applied⟩

/-- An item in sequence is accepted and has its replay effect. -/
theorem accept_item (valid : Bytes → Bool) (st : Recovery) (i : Item) (sequence : UInt64) :
    ∃ st', st.accept valid (i.entry.toCommand sequence) = some st' ∧
      st'.sequence = st.sequence ∧ st'.replay = st.replay.step valid i := by
  cases i with
  | page p =>
    refine ⟨{ st with commands := st.commands ++ [(Item.page p).entry.toCommand sequence] }, ?_,
      rfl, ?_⟩
    · simp [Recovery.accept, Item.entry, Entry.toCommand, journalPage, journalCommit,
        journalRollback]
    · simp [Recovery.replay, Replay.step, Item.entry, Entry.toCommand, Command.write]
  | commit =>
    refine ⟨⟨st.sequence, [], st.applied ++
      (st.commands.map Command.write).filter (fun w ↦ valid w.name)⟩, ?_, rfl, rfl⟩
    simp [Recovery.accept, Item.entry, Entry.toCommand, Entry.commit, journalPage, journalCommit]

/-- The sequence number that the loop holds after `count` items numbered from `sequence`. -/
def lastSequence (previous sequence : UInt64) (count : ℕ) : UInt64 :=
  if count = 0 then previous else sequence + UInt64.ofNat (count - 1)

/-- One whole item in sequence takes one round of the loop. -/
theorem recoverLoop_item (valid : Bytes → Bool) (fuel : ℕ) (i : Item) (sequence : UInt64)
    (tail : Bytes) (st : Recovery) (h : st.sequence = 0 ∨ st.sequence + 1 = sequence) :
    ∃ st', recoverLoop valid (fuel + 1) ⟨i.entry.encode sequence ++ tail, true⟩ st =
        recoverLoop valid fuel ⟨tail, true⟩ st' ∧
      st'.sequence = sequence ∧ st'.replay = st.replay.step valid i := by
  obtain ⟨st', hacc, hs, hr⟩ :=
    accept_item valid { st with sequence := sequence } i sequence
  refine ⟨st', ?_, hs, hr⟩
  rw [recoverLoop, if_pos rfl, load_encode]
  dsimp only
  have hrec : (i.entry.toCommand sequence).sequence = sequence := rfl
  by_cases hz : st.sequence = 0
  · rw [if_pos hz, hrec, hacc, Option.bind_some]
  · have hnext : st.sequence + 1 = sequence := h.resolve_left hz
    rw [if_neg hz, hrec, hnext, if_neg (by simp), hacc, Option.bind_some]

/-- A run of whole items takes one round each. -/
theorem recoverLoop_items (valid : Bytes → Bool) (fuel : ℕ) (items : List Item)
    (sequence : UInt64) (tail : Bytes) (st : Recovery)
    (h : st.sequence = 0 ∨ st.sequence + 1 = sequence) :
    ∃ st', recoverLoop valid (fuel + items.length) ⟨journalBytes sequence items ++ tail, true⟩ st =
        recoverLoop valid fuel ⟨tail, true⟩ st' ∧
      st'.sequence = lastSequence st.sequence sequence items.length ∧
      st'.replay = st.replay.run valid items := by
  induction items generalizing sequence st with
  | nil => exact ⟨st, rfl, rfl, rfl⟩
  | cons i is ih =>
    obtain ⟨st₁, hloop, hs, hr⟩ := recoverLoop_item valid (fuel + is.length) i sequence
      (journalBytes (sequence + 1) is ++ tail) st h
    obtain ⟨st₂, hloop₂, hs₂, hr₂⟩ := ih (sequence + 1) st₁ (.inr (by rw [hs]))
    refine ⟨st₂, ?_, ?_, ?_⟩
    · rw [journalBytes, List.append_assoc, List.length_cons, ← Nat.add_assoc, hloop, hloop₂]
    · rw [hs₂, hs]
      cases is with
      | nil => simp [lastSequence]
      | cons j js =>
        simp only [lastSequence, List.length_cons, Nat.succ_ne_zero, if_false,
          Nat.add_sub_cancel]
        rw [UInt64.ofNat_add, UInt64.add_assoc, UInt64.add_comm 1]
        rfl
    · rw [hr₂, hr, Replay.run_cons]

/-- A journal is at least as long as it has items. -/
theorem length_le_length_journalBytes (sequence : UInt64) (items : List Item) :
    items.length ≤ (journalBytes sequence items).length := by
  induction items generalizing sequence with
  | nil => exact Nat.le_refl _
  | cons i is ih =>
    have hi := i.size_pos
    have hs := ih (sequence + 1)
    rw [journalBytes, List.length_append, Entry.length_encode, List.length_cons]
    simp only [Item.size] at hi
    omega

/-- The part of a sequence number that a torn header keeps. -/
def lowBytes (sequence : UInt64) (count : ℕ) : UInt64 :=
  UInt64.ofNat (sequence.toNat % 256 ^ min 8 count)

@[simp] private theorem lowBytes_zero (sequence : UInt64) : lowBytes sequence 0 = 0 := by
  simp [lowBytes, Nat.mod_one]

/-- From eight bytes on the number is whole. -/
theorem lowBytes_of_le (sequence : UInt64) (count : ℕ) (h : 8 ≤ count) :
    lowBytes sequence count = sequence := by
  have hlt : sequence.toNat < 256 ^ 8 := sequence.toNat_lt
  rw [lowBytes, Nat.min_eq_left h, Nat.mod_eq_of_lt hlt, UInt64.ofNat_toNat]

/-- The torn sequence number is taken for a foreign one: an entry came before, and some of
the bytes that were cut off, and some that were not, are not zero. -/
def TornSequence (previous sequence : UInt64) (count : ℕ) : Prop :=
  previous ≠ 0 ∧ lowBytes sequence count ≠ 0 ∧ lowBytes sequence count ≠ sequence

instance (previous sequence : UInt64) (count : ℕ) :
    Decidable (TornSequence previous sequence count) :=
  inferInstanceAs (Decidable (_ ∧ _ ∧ _))

private theorem torn_command (i : Item) (count : ℕ) :
    UInt32.ofNat (i.entry.command.toNat % 256 ^ min 8 (count - 8)) =
      if i.isCommit = true ∧ 9 ≤ count then journalCommit else journalPage := by
  cases i with
  | page p => simp [Item.entry, Item.isCommit, journalPage]
  | commit =>
    by_cases hc : 9 ≤ count
    · have hpos : 1 < 256 ^ min 8 (count - 8) :=
        Nat.one_lt_pow (by omega) (by decide)
      simp [Item.entry, Item.isCommit, Entry.commit, journalCommit, hc, Nat.mod_eq_of_lt hpos]
    · have hz : count - 8 = 0 := by omega
      simp [Item.isCommit, hc, hz, Nat.mod_one, journalPage]

private theorem finish_accept (valid : Bytes → Bool) (fuel : ℕ) (reader : Reader) (st : Recovery)
    (record : Command) (b : Bool) (hr : reader.good = false)
    (hc : record.command = if b = true then journalCommit else journalPage) :
    finish ((st.accept valid record).bind (recoverLoop valid fuel reader)) =
      some (st.replay.committed ++
        if b = true then st.replay.waiting.filter (fun w ↦ valid w.name) else []) := by
  cases b with
  | true =>
    rw [if_pos rfl] at hc
    simp [Recovery.accept, hc, journalCommit, journalPage, hr, finish, Recovery.replay]
  | false =>
    rw [if_neg (by decide)] at hc
    simp [Recovery.accept, hc, journalCommit, journalPage, journalRollback, hr, finish,
      Recovery.replay]

/-- A torn item: either the error flag is raised, or a commit boundary whose command byte
arrived is carried out, or nothing is committed. -/
theorem finish_torn (valid : Bytes → Bool) (fuel : ℕ) (i : Item) (sequence : UInt64)
    (count : ℕ) (st : Recovery) (hcount : count < i.size)
    (h : st.sequence = 0 ∨ st.sequence + 1 = sequence) :
    finish (recoverLoop valid (fuel + 1) ⟨(i.entry.encode sequence).take count, true⟩ st) =
      some (if TornSequence st.sequence sequence count then []
        else st.replay.committed ++
          if i.isCommit = true ∧ 9 ≤ count then
            st.replay.waiting.filter (fun w ↦ valid w.name) else []) := by
  obtain ⟨record, reader, hload, hgood, hsequence, hcommand⟩ :=
    load_torn i.entry sequence count hcount
  rw [torn_command] at hcommand
  have hlow : record.sequence = lowBytes sequence count := hsequence
  have haccept : ∀ next : UInt64,
      finish ((({ st with sequence := next } : Recovery).accept valid record).bind
        (recoverLoop valid fuel reader)) = some (st.replay.committed ++
          if i.isCommit = true ∧ 9 ≤ count then
            st.replay.waiting.filter (fun w ↦ valid w.name) else []) := by
    intro next
    have hf := finish_accept valid fuel reader { st with sequence := next } record
      (i.isCommit && decide (9 ≤ count)) hgood (by simpa using hcommand)
    simpa [Recovery.replay] using hf
  rw [recoverLoop, if_pos rfl, hload]
  dsimp only
  by_cases hz : st.sequence = 0
  · have hnot : ¬TornSequence st.sequence sequence count := fun ht ↦ ht.1 hz
    rw [if_pos hz, haccept, if_neg hnot]
  · have hnext : st.sequence + 1 = sequence := h.resolve_left hz
    rw [if_neg hz, hnext, hlow]
    by_cases hs : lowBytes sequence count = sequence
    · have hnot : ¬TornSequence st.sequence sequence count := fun ht ↦ ht.2.2 hs
      rw [if_neg (by simpa using hs), haccept, if_neg hnot]
    · rw [if_pos hs]
      by_cases hl : lowBytes sequence count = 0
      · -- a cut before the first non-zero byte ends the loop without an error
        have hshort : ¬(i.isCommit = true ∧ 9 ≤ count) := by
          rintro ⟨-, h9⟩
          exact hs (lowBytes_of_le sequence count (by omega))
        have hnot : ¬TornSequence st.sequence sequence count := fun ht ↦ ht.2.1 hl
        rw [if_neg hnot, if_neg hshort]
        simp [finish, hl, Recovery.replay]
      · have htorn : TornSequence st.sequence sequence count := ⟨hz, hl, hs⟩
        rw [if_pos htorn]
        simp [finish, hl]

/-- The items that lie wholly before the cut, and the item in which it falls with the
number of its bytes that are left. -/
def splitAtCut : ℕ → List Item → List Item × Option (Item × ℕ)
  | _, [] => ([], none)
  | cut, i :: is =>
    if i.size ≤ cut then
      let (whole, torn) := splitAtCut (cut - i.size) is
      (i :: whole, torn)
    else ([], some (i, cut))

/-- What is left of a journal after the cut: whole items, then a piece of the torn one. -/
theorem take_journalBytes (sequence : UInt64) (items : List Item) (cut : ℕ) :
    (journalBytes sequence items).take cut =
      journalBytes sequence (splitAtCut cut items).1 ++
        match (splitAtCut cut items).2 with
        | none => []
        | some (i, count) =>
          (i.entry.encode
            (sequence + UInt64.ofNat (splitAtCut cut items).1.length)).take count := by
  induction items generalizing sequence cut with
  | nil => simp [journalBytes, splitAtCut]
  | cons i is ih =>
    rw [journalBytes, splitAtCut]
    split
    · next hle =>
      have hle' : (i.entry.encode sequence).length ≤ cut := by simpa [Item.size] using hle
      have hseq : ∀ n : ℕ, sequence + UInt64.ofNat (n + 1) = sequence + 1 + UInt64.ofNat n := by
        intro n
        rw [UInt64.ofNat_add, UInt64.add_assoc, UInt64.add_comm 1]
        rfl
      rw [List.take_append, List.take_of_length_le hle', Entry.length_encode]
      simp only [List.length_cons, hseq, journalBytes, List.append_assoc]
      rw [← ih (sequence + 1) (cut - i.size)]
      rfl
    · next hlt =>
      have hlt' : cut ≤ (i.entry.encode sequence).length := by
        simp only [Item.size] at hlt
        rw [Entry.length_encode]
        omega
      simp [journalBytes, List.take_append_of_le_length hlt']

/-- The torn item is short of its size. -/
theorem lt_size_of_splitAtCut (items : List Item) (cut : ℕ) (i : Item) (count : ℕ)
    (h : (splitAtCut cut items).2 = some (i, count)) : count < i.size := by
  induction items generalizing cut with
  | nil => simp [splitAtCut] at h
  | cons j js ih =>
    rw [splitAtCut] at h
    split at h
    · exact ih _ h
    · next hlt =>
      simp only [Option.some.injEq, Prod.mk.injEq] at h
      obtain ⟨rfl, rfl⟩ := h
      omega

/-- The sequence numbers before and at the item after `count` items fit each other. -/
private theorem lastSequence_next (sequence : UInt64) (count : ℕ) :
    lastSequence 0 sequence count = 0 ∨
      lastSequence 0 sequence count + 1 = sequence + UInt64.ofNat count := by
  cases count with
  | zero => exact .inl rfl
  | succ n =>
    refine .inr ?_
    rw [lastSequence, if_neg (Nat.succ_ne_zero n), Nat.add_sub_cancel, UInt64.ofNat_add,
      UInt64.add_assoc]
    rfl

/-- Recovery of whole items followed by a piece of one more. -/
theorem recover_append_torn (inDirectory : Bytes → Bool) (sequence : UInt64)
    (items : List Item) (i : Item) (count : ℕ) (h : count < i.size) :
    recover inDirectory (journalBytes sequence items ++
      (i.entry.encode (sequence + UInt64.ofNat items.length)).take count) =
      some (if TornSequence (lastSequence 0 sequence items.length)
          (sequence + UInt64.ofNat items.length) count then []
        else (Replay.empty.run (isValidStorageDirectory inDirectory) items).committed ++
          if i.isCommit = true ∧ 9 ≤ count then
            (Replay.empty.run (isValidStorageDirectory inDirectory) items).waiting.filter
              (fun w ↦ isValidStorageDirectory inDirectory w.name) else []) := by
  have hlen := length_le_length_journalBytes sequence items
  obtain ⟨fuel, hfuel⟩ : ∃ fuel, (journalBytes sequence items ++
      (i.entry.encode (sequence + UInt64.ofNat items.length)).take count).length + 1 =
        fuel + 1 + items.length := by
    refine ⟨(journalBytes sequence items ++
      (i.entry.encode (sequence + UInt64.ofNat items.length)).take count).length -
        items.length, ?_⟩
    rw [List.length_append]
    omega
  obtain ⟨st, hloop, hseq, hreplay⟩ := recoverLoop_items (isValidStorageDirectory inDirectory)
    (fuel + 1) items sequence ((i.entry.encode (sequence + UInt64.ofNat items.length)).take count)
    Recovery.start (.inl rfl)
  have hlast : st.sequence = lastSequence 0 sequence items.length := hseq
  have hst : st.replay = Replay.empty.run (isValidStorageDirectory inDirectory) items := hreplay
  have hnext := lastSequence_next sequence items.length
  rw [← hlast] at hnext
  rw [recover, hfuel, hloop, finish_torn _ fuel i _ count st h hnext, hlast, hst]

/-- A journal that is whole commits what its last commit boundary committed. -/
theorem recover_journalBytes (inDirectory : Bytes → Bool) (sequence : UInt64)
    (items : List Item) :
    recover inDirectory (journalBytes sequence items) =
      some (Replay.empty.run (isValidStorageDirectory inDirectory) items).committed := by
  have h := recover_append_torn inDirectory sequence items .commit 0 Item.commit.size_pos
  simpa [TornSequence] using h

end LibSpaces.Journal
