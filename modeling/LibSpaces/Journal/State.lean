import LibSpaces.Journal.Recover

/-!
# The journal while it is written

`src/src/storage/transactions/journal.cpp:47–156,331–342`. Entries are numbered and
collected in a buffer, the buffer goes to the file when it gets large and at every commit
boundary. A compaction flushes the buffer once more, removes the file and starts counting
again.
-/

namespace LibSpaces.Journal

open LibSpaces.Base

/-- The parts of `journal_state`, `journal.cpp:57–69`, that decide what is in the file. -/
structure JournalState where
  sequence : UInt64
  lastSynch : UInt64
  journalBuffer : Bytes
  file : Bytes
  deriving DecidableEq

namespace JournalState

/-- A fresh journal: no entry yet and an empty file. -/
def start : JournalState := ⟨0, 0, [], []⟩

/-- `add_entry`, `journal.cpp:92–118`: the buffer goes to the file above 4000000 bytes. -/
def addEntry (j : JournalState) (e : Entry) : JournalState :=
  let sequence := j.sequence + 1
  let journalBuffer := j.journalBuffer ++ e.encode sequence
  if journalBuffer.length > 4000000 then
    { j with sequence := sequence, journalBuffer := [], file := j.file ++ journalBuffer }
  else { j with sequence := sequence, journalBuffer := journalBuffer }

/-- `flush_buffer`, `journal.cpp:148–156`. -/
def flushBuffer (j : JournalState) : JournalState :=
  { j with journalBuffer := [], file := j.file ++ j.journalBuffer }

/-- The commit boundary of `synch`, `journal.cpp:335–341`: it is left out when no entry was
added since the last compaction. -/
def markCommit (j : JournalState) : JournalState :=
  if j.lastSynch ≠ j.sequence then (j.addEntry Entry.commit).flushBuffer else j

/-- The end of a compaction in `synch`, `journal.cpp:391–396`: the file is removed and the
counters start again. -/
def restart (j : JournalState) : JournalState :=
  { j with file := [], sequence := 0, lastSynch := 0 }

/-- The journal holds these items: the first ones in the file, the others in the buffer. -/
structure Holds (j : JournalState) (inFile inBuffer : List Item) : Prop where
  file_eq : j.file = journalBytes 1 inFile
  buffer_eq : j.journalBuffer = journalBytes (1 + UInt64.ofNat inFile.length) inBuffer
  sequence_eq : j.sequence = UInt64.ofNat (inFile.length + inBuffer.length)

end JournalState

/-- A journal of two parts is numbered through. -/
theorem journalBytes_append (sequence : UInt64) (is js : List Item) :
    journalBytes sequence (is ++ js) =
      journalBytes sequence is ++ journalBytes (sequence + UInt64.ofNat is.length) js := by
  induction is generalizing sequence with
  | nil => simp [journalBytes]
  | cons i is ih =>
    rw [List.cons_append, journalBytes, journalBytes, ih, List.append_assoc, List.length_cons,
      UInt64.ofNat_add, UInt64.add_comm (UInt64.ofNat is.length), ← UInt64.add_assoc]
    rfl

namespace JournalState

/-- Nothing is in a fresh journal. -/
theorem holds_start : start.Holds [] [] := ⟨rfl, rfl, rfl⟩

/-- Flushing moves the buffered items to the file. -/
theorem Holds.flushBuffer {j : JournalState} {inFile inBuffer : List Item}
    (h : j.Holds inFile inBuffer) : j.flushBuffer.Holds (inFile ++ inBuffer) [] where
  file_eq := by
    rw [journalBytes_append, ← h.file_eq, ← h.buffer_eq]
    rfl
  buffer_eq := rfl
  sequence_eq := by
    rw [List.length_append]
    exact h.sequence_eq

/-- Adding an entry appends its item, and may flush the buffer with it. -/
theorem Holds.addEntry {j : JournalState} {inFile inBuffer : List Item}
    (h : j.Holds inFile inBuffer) (i : Item) :
    (j.addEntry i.entry).Holds inFile (inBuffer ++ [i]) ∨
      (j.addEntry i.entry).Holds (inFile ++ (inBuffer ++ [i])) [] := by
  have hsequence : j.sequence + 1 = UInt64.ofNat (inFile.length + (inBuffer ++ [i]).length) := by
    rw [h.sequence_eq, List.length_append, ← Nat.add_assoc, UInt64.ofNat_add _ [i].length]
    rfl
  have hbuffer : j.journalBuffer ++ i.entry.encode (j.sequence + 1) =
      journalBytes (1 + UInt64.ofNat inFile.length) (inBuffer ++ [i]) := by
    rw [journalBytes_append, ← h.buffer_eq, h.sequence_eq, UInt64.ofNat_add, UInt64.add_comm _ 1,
      ← UInt64.add_assoc]
    simp [journalBytes]
  unfold JournalState.addEntry
  dsimp only
  split
  · refine .inr ⟨?_, rfl, ?_⟩
    · dsimp only
      rw [hbuffer, h.file_eq, ← journalBytes_append]
    · simpa using hsequence
  · exact .inl ⟨h.file_eq, hbuffer, hsequence⟩

/-- A commit boundary ends the file, unless the counter stands at its last value. -/
theorem Holds.markCommit {j : JournalState} {inFile inBuffer : List Item}
    (h : j.Holds inFile inBuffer) (hs : j.lastSynch ≠ j.sequence) :
    j.markCommit.Holds (inFile ++ inBuffer ++ [.commit]) [] := by
  rw [JournalState.markCommit, if_pos hs, List.append_assoc]
  rcases h.addEntry .commit with ha | ha
  · exact ha.flushBuffer
  · have hf := ha.flushBuffer
    rw [List.append_nil] at hf
    exact hf

/-- Recovery reads the items of the file. -/
theorem Holds.recover {j : JournalState} {inFile inBuffer : List Item}
    (h : j.Holds inFile inBuffer) (inDirectory : Bytes → Bool) :
    Journal.recover inDirectory j.file =
      some (Replay.empty.run (isValidStorageDirectory inDirectory) inFile).committed := by
  rw [h.file_eq, recover_journalBytes]

end JournalState

/-- Items without a commit boundary commit nothing. -/
theorem committed_run_of_pages (valid : Bytes → Bool) (r : Replay) (is : List Item)
    (h : ∀ i ∈ is, i.isCommit = false) : (r.run valid is).committed = r.committed := by
  induction is generalizing r with
  | nil => rfl
  | cons i is ih =>
    rw [Replay.run_cons, ih _ (fun j hj ↦ h j (List.mem_cons_of_mem _ hj))]
    cases i with
    | page p => rfl
    | commit => exact absurd (h .commit List.mem_cons_self) (by decide)

/-- A committed page has a commit boundary after it. -/
theorem mem_committed_run (valid : Bytes → Bool) (r : Replay) (is : List Item) (w : Write)
    (h : w ∈ (r.run valid is).committed) :
    w ∈ r.committed ∨ (w ∈ r.waiting ∧ ∃ between after, is = between ++ .commit :: after) ∨
      ∃ p : Page, p.toWrite = w ∧ ∃ before between after,
        is = before ++ .page p :: (between ++ .commit :: after) := by
  induction is generalizing r with
  | nil => exact .inl h
  | cons i is ih =>
    rcases ih _ h with hw | ⟨hw, between, after, rfl⟩ | ⟨p, hp, before, between, after, rfl⟩
    · cases i with
      | page p => exact .inl hw
      | commit =>
        rcases List.mem_append.mp hw with hw | hw
        · exact .inl hw
        · exact .inr (.inl ⟨(List.mem_filter.mp hw).1, [], is, rfl⟩)
    · cases i with
      | page p =>
        rcases List.mem_append.mp hw with hw | hw
        · exact .inr (.inl ⟨hw, .page p :: between, after, rfl⟩)
        · exact .inr (.inr ⟨p, (List.mem_singleton.mp hw).symm, [], between, after, rfl⟩)
      | commit => simp [Replay.step] at hw
    · exact .inr (.inr ⟨p, hp, i :: before, between, after, rfl⟩)

/-- A page is determined by what it writes. -/
theorem Page.ext_toWrite {p q : Page} (h : p.toWrite = q.toWrite) : p = q := by
  cases p
  cases q
  simpa using h

/-- A journal with a record of who journalled what since it was last restarted: the pages
before and after the last commit boundary. The entries themselves carry no transaction. -/
structure OwnedJournal (T : Type) where
  journal : JournalState
  committed : List (T × Page)
  waiting : List (T × Page)

/-- The page belongs to a storage that recovery finds. -/
def recoverable {T : Type} (valid : Bytes → Bool) (p : T × Page) : Bool := valid p.2.name

namespace OwnedJournal

variable {T : Type}

/-- A fresh journal. -/
def start : OwnedJournal T := ⟨.start, [], []⟩

/-- `add_entry(JOURNAL_PAGE, ...)` of one owner, `transactional_storage.h:1795`. -/
def addPage (o : OwnedJournal T) (t : T) (p : Page) : OwnedJournal T :=
  { o with journal := o.journal.addEntry (Item.page p).entry, waiting := o.waiting ++ [(t, p)] }

/-- The commit boundary of `synch`, `journal.cpp:335–341`. -/
def markCommit (o : OwnedJournal T) : OwnedJournal T :=
  if o.journal.lastSynch ≠ o.journal.sequence then
    ⟨o.journal.markCommit, o.committed ++ o.waiting, []⟩
  else o

/-- `flush_buffer`, `journal.cpp:148–156`. -/
def flushBuffer (o : OwnedJournal T) : OwnedJournal T :=
  { o with journal := o.journal.flushBuffer }

/-- The end of a compaction, `journal.cpp:391–396`: what the file held is gone. -/
def restart (o : OwnedJournal T) : OwnedJournal T := ⟨o.journal.restart, [], []⟩

/-- A commit boundary either commits everything that waits or, with the counter at its
last value, is left out. -/
theorem markCommit_cases (o : OwnedJournal T) :
    (o.journal.lastSynch ≠ o.journal.sequence ∧
      o.markCommit.committed = o.committed ++ o.waiting ∧ o.markCommit.waiting = []) ∨
    (o.journal.lastSynch = o.journal.sequence ∧ o.markCommit = o) := by
  unfold markCommit
  split
  · next hs => exact .inl ⟨hs, rfl, rfl⟩
  · next hs => exact .inr ⟨not_not.mp hs, rfl⟩

/-- The record is true of the journal, and every commit boundary is in the file. -/
def Tracks (valid : Bytes → Bool) (o : OwnedJournal T) : Prop :=
  ∃ inFile inBuffer, o.journal.Holds inFile inBuffer ∧ (∀ i ∈ inBuffer, i.isCommit = false) ∧
    Replay.empty.run valid (inFile ++ inBuffer) =
      ⟨o.waiting.map (fun p ↦ p.2.toWrite),
        (o.committed.filter (recoverable valid)).map (fun p ↦ p.2.toWrite)⟩

variable {valid : Bytes → Bool} {o : OwnedJournal T}

/-- The empty journal tracks the empty file. -/
theorem tracks_start : (start : OwnedJournal T).Tracks valid :=
  ⟨[], [], JournalState.holds_start, by simp, rfl⟩

/-- Recovery from the file commits the pages before the last commit boundary. -/
theorem Tracks.recover {inDirectory : Bytes → Bool}
    (h : o.Tracks (isValidStorageDirectory inDirectory)) :
    Journal.recover inDirectory o.journal.file =
      some ((o.committed.filter (recoverable (isValidStorageDirectory inDirectory))).map
        (fun p ↦ p.2.toWrite)) := by
  obtain ⟨inFile, inBuffer, hholds, hpages, hrun⟩ := h
  have hcommitted := congrArg Replay.committed hrun
  rw [Replay.run_append, committed_run_of_pages _ _ inBuffer hpages] at hcommitted
  rw [hholds.recover inDirectory, hcommitted]

/-- A page joins those that wait. -/
theorem Tracks.addPage (h : o.Tracks valid) (t : T) (p : Page) : (o.addPage t p).Tracks valid := by
  obtain ⟨inFile, inBuffer, hholds, hpages, hrun⟩ := h
  have hrun' : Replay.empty.run valid (inFile ++ (inBuffer ++ [.page p])) =
      ⟨(o.waiting ++ [(t, p)]).map (fun p ↦ p.2.toWrite),
        (o.committed.filter (recoverable valid)).map (fun p ↦ p.2.toWrite)⟩ := by
    rw [← List.append_assoc, Replay.run_append, hrun]
    simp [Replay.step]
  simp only [OwnedJournal.addPage, Tracks]
  rcases hholds.addEntry (.page p) with hadd | hadd
  · refine ⟨inFile, inBuffer ++ [.page p], hadd, ?_, hrun'⟩
    simpa [or_imp, forall_and, Item.isCommit] using hpages
  · exact ⟨inFile ++ (inBuffer ++ [.page p]), [], hadd, by simp, by simpa using hrun'⟩

/-- A commit boundary commits every page that waits. -/
theorem Tracks.markCommit (h : o.Tracks valid) : o.markCommit.Tracks valid := by
  unfold OwnedJournal.markCommit
  split
  · next hs =>
    obtain ⟨inFile, inBuffer, hholds, -, hrun⟩ := h
    refine ⟨_, [], hholds.markCommit hs, by simp, ?_⟩
    rw [List.append_nil, Replay.run_append, hrun, List.filter_append, List.map_append]
    simp only [Replay.run_cons, Replay.run_nil, Replay.step, List.filter_map]
    rfl
  · exact h

/-- Flushing does not change what waits. -/
theorem Tracks.flushBuffer (h : o.Tracks valid) : o.flushBuffer.Tracks valid := by
  obtain ⟨inFile, inBuffer, hholds, -, hrun⟩ := h
  refine ⟨inFile ++ inBuffer, [], hholds.flushBuffer, by simp, ?_⟩
  rw [List.append_nil, hrun]
  rfl

/-- A committed page is in the file, with a commit boundary after it. -/
theorem Tracks.exists_of_mem_committed (h : o.Tracks (fun _ ↦ true)) (p : T × Page)
    (hp : p ∈ o.committed) : ∃ before between after, o.journal.file =
      journalBytes 1 (before ++ .page p.2 :: (between ++ .commit :: after)) := by
  obtain ⟨inFile, inBuffer, hholds, hpages, hrun⟩ := h
  have hcommitted := congrArg Replay.committed hrun
  rw [Replay.run_append, committed_run_of_pages _ _ inBuffer hpages] at hcommitted
  have hmem : p.2.toWrite ∈ (Replay.empty.run (fun _ ↦ true) inFile).committed := by
    rw [hcommitted]
    exact List.mem_map.mpr ⟨p, List.mem_filter.mpr ⟨hp, rfl⟩, rfl⟩
  rcases mem_committed_run _ _ inFile _ hmem with hw | ⟨hw, -⟩ |
    ⟨q, hq, before, between, after, hitems⟩
  · simp [Replay.empty] at hw
  · simp [Replay.empty] at hw
  · have he : q = p.2 := Page.ext_toWrite hq
    exact ⟨before, between, after, by rw [hholds.file_eq, hitems, he]⟩

/-- An empty journal has no pages. -/
theorem Tracks.eq_nil (h : o.Tracks (fun _ ↦ true)) (hfile : o.journal.file = [])
    (hbuffer : o.journal.journalBuffer = []) : o.committed = [] ∧ o.waiting = [] := by
  obtain ⟨inFile, inBuffer, hholds, -, hrun⟩ := h
  have hnil : ∀ sequence items, journalBytes sequence items = [] → items = [] := by
    intro sequence items hbytes
    have hlength := length_le_length_journalBytes sequence items
    rw [hbytes] at hlength
    exact List.eq_nil_of_length_eq_zero (Nat.le_zero.mp hlength)
  have hinFile : inFile = [] := hnil 1 inFile (hholds.file_eq ▸ hfile)
  have hinBuffer : inBuffer = [] := hnil _ inBuffer (hholds.buffer_eq ▸ hbuffer)
  subst hinFile hinBuffer
  have hcommitted := congrArg Replay.committed hrun
  have hwaiting := congrArg Replay.waiting hrun
  simp only [List.append_nil, Replay.run_nil, Replay.empty] at hcommitted hwaiting
  have hall : o.committed.filter (recoverable fun _ ↦ true) = o.committed :=
    List.filter_eq_self.mpr fun _ _ ↦ rfl
  rw [hall] at hcommitted
  exact ⟨List.map_eq_nil_iff.mp hcommitted.symm, List.map_eq_nil_iff.mp hwaiting.symm⟩

/-- A restart with an empty buffer leaves an empty journal. -/
theorem tracks_restart (h : o.journal.journalBuffer = []) : o.restart.Tracks valid :=
  ⟨[], [], ⟨rfl, h, rfl⟩, by simp, rfl⟩

end OwnedJournal

end LibSpaces.Journal
