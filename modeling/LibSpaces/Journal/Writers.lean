import LibSpaces.Base.Transition
import LibSpaces.Journal.State

/-!
# Several writers on one journal

Write transactions on any number of storages share the journal. Each journals its pages one
by one in `merge` (`src/src/storage/transactions/transactional_storage.h:2997–3021`), `merge`
then succeeds or throws, and the committing thread ends with `synch`
(`src/src/storage/spaces/dbms.h:133–140`), which writes the commit boundary. Entries carry
no transaction, so a boundary commits whatever pages came before it.
-/

namespace LibSpaces.Journal

open LibSpaces.Base

/-- Where a write transaction stands. After a `merge` that threw it may be committed again
or rolled back. -/
inductive Status
  | writing | failed | rolledBack | merged | synched
  deriving DecidableEq

/-- The transaction may still journal and merge. -/
def Status.isOpen : Status → Bool
  | writing | failed => true
  | rolledBack | merged | synched => false

/-- The journal and the write transactions. -/
structure Writers (T : Type) extends OwnedJournal T where
  status : T → Status

/-- The steps of the writers. -/
inductive WriterAction (T : Type)
  | journal (t : T) (p : Page)
  | merge (t : T)
  | mergeThrows (t : T)
  | rollback (t : T)
  | synch (t : T)

namespace Writers

variable {T : Type}

/-- No transaction has journalled anything. -/
def start : Writers T := ⟨.start, fun _ ↦ .writing⟩

/-- A transaction changes its status. -/
def setStatus [DecidableEq T] (s : Writers T) (t : T) (status : Status) : Writers T :=
  { s with status := Function.update s.status t status }

@[simp] private theorem status_setStatus_self [DecidableEq T] (s : Writers T) (t : T)
    (status : Status) :
    (s.setStatus t status).status t = status := by
  simp [setStatus]

@[simp] private theorem status_setStatus_of_ne [DecidableEq T] (s : Writers T) {t u : T}
    (status : Status) (h : u ≠ t) :
    (s.setStatus t status).status u = s.status u := by
  simp [setStatus, h]

/-- One step of one writer. `journal` is a round of the loop of `sqlite_allocator::journal`,
`transactional_storage.h:1784–1799`; `merge` and `mergeThrows` are the rest of
`mvcc_coordinator::merge`, which leaves the journal alone, and so does `rollback`,
`transactional_storage.h:3113–3123`; `synch` is `journal.cpp:331–342`. -/
def step [DecidableEq T] (storageOf : T → Bytes) (s : Writers T) :
    WriterAction T → Option (Writers T)
  | .journal t p =>
    if (s.status t).isOpen ∧ p.name = storageOf t then
      some { s with toOwnedJournal := s.addPage t p }
    else none
  | .merge t => if (s.status t).isOpen then some (s.setStatus t .merged) else none
  | .mergeThrows t => if (s.status t).isOpen then some (s.setStatus t .failed) else none
  | .rollback t => if (s.status t).isOpen then some (s.setStatus t .rolledBack) else none
  | .synch t =>
    if s.status t = .merged then
      some { s.setStatus t .synched with toOwnedJournal := s.markCommit }
    else none

/-- The pages of the transactions whose merge and synch have finished, in journal order. -/
def finished (s : Writers T) : List Write :=
  ((s.committed ++ s.waiting).filter (fun p ↦ s.status p.1 == .synched)).map
    (fun p ↦ p.2.toWrite)

/-- After a crash in this state recovery is atomic: it commits the pages of the finished
transactions and no others. -/
def RecoversFinished (inDirectory : Bytes → Bool) (s : Writers T) : Prop :=
  recover inDirectory s.journal.file = some s.finished

/-- A synch is clean when the directory check passes for every page that its transaction has
journalled, and the pages since the last boundary for which it passes are those of its
transaction; while the entry counter stands at zero, where no boundary is written, there must
be none of it. -/
def CleanSynch (inDirectory : Bytes → Bool) (s : Writers T) : WriterAction T → Prop
  | .synch t =>
    (∀ p ∈ s.committed ++ s.waiting, p.1 = t →
      isValidStorageDirectory inDirectory p.2.name = true) ∧
    ∀ p ∈ s.waiting, isValidStorageDirectory inDirectory p.2.name = true →
      (p.1 = t ↔ s.journal.lastSynch ≠ s.journal.sequence)
  | _ => True

/-- What the runs with clean synchs keep. -/
structure Inv (valid : Bytes → Bool) (s : Writers T) : Prop where
  tracks : s.Tracks valid
  committed_synched : ∀ p ∈ s.committed, recoverable valid p = true → s.status p.1 = .synched
  waiting_not_synched : ∀ p ∈ s.waiting, recoverable valid p = true → s.status p.1 ≠ .synched
  synched_recoverable : ∀ p ∈ s.committed ++ s.waiting, s.status p.1 = .synched →
    recoverable valid p = true

variable {storageOf : T → Bytes} {valid inDirectory : Bytes → Bool}

/-- Nothing is journalled at the start. -/
theorem inv_start : Inv valid (start : Writers T) where
  tracks := OwnedJournal.tracks_start
  committed_synched := by simp [start, OwnedJournal.start]
  waiting_not_synched := by simp [start, OwnedJournal.start]
  synched_recoverable := by simp [start, OwnedJournal.start]

/-- Under the invariant recovery is atomic. -/
theorem Inv.recoversFinished {s : Writers T} (h : Inv (isValidStorageDirectory inDirectory) s) :
    RecoversFinished inDirectory s := by
  have hwaiting : s.waiting.filter (fun p ↦ s.status p.1 == .synched) = [] := by
    refine List.filter_eq_nil_iff.mpr fun p hp hs ↦ ?_
    have hsynched : s.status p.1 = .synched := by simpa using hs
    have hv := h.synched_recoverable p (List.mem_append_right _ hp) hsynched
    exact h.waiting_not_synched p hp hv hsynched
  have hcommitted : s.committed.filter (fun p ↦ s.status p.1 == .synched) =
      s.committed.filter (recoverable (isValidStorageDirectory inDirectory)) := by
    refine List.filter_congr fun p hp ↦ ?_
    rw [Bool.eq_iff_iff, beq_iff_eq]
    exact ⟨h.synched_recoverable p (List.mem_append_left _ hp), h.committed_synched p hp⟩
  rw [RecoversFinished, h.tracks.recover, finished, List.filter_append, hwaiting, hcommitted,
    List.append_nil]

/-- Recovery never commits a page whose storage fails the directory check. -/
theorem recoverable_of_recoversFinished {s : Writers T}
    (htracks : s.Tracks (isValidStorageDirectory inDirectory))
    (h : RecoversFinished inDirectory s) :
    ∀ p ∈ s.committed ++ s.waiting, s.status p.1 = .synched →
      recoverable (isValidStorageDirectory inDirectory) p = true := by
  intro p hp hsynched
  rw [RecoversFinished, htracks.recover] at h
  have hmem : p.2.toWrite ∈ s.finished :=
    List.mem_map.mpr ⟨p, List.mem_filter.mpr ⟨hp, by simpa using hsynched⟩, rfl⟩
  rw [← Option.some.inj h] at hmem
  obtain ⟨q, hq, he⟩ := List.mem_map.mp hmem
  have hvalid := (List.mem_filter.mp hq).2
  rwa [recoverable, Page.ext_toWrite he] at hvalid

/-- Atomic recovery counts the finished pages on both sides of the last boundary. -/
private theorem length_of_recoversFinished {s : Writers T}
    (htracks : s.Tracks (isValidStorageDirectory inDirectory))
    (h : RecoversFinished inDirectory s) :
    (s.committed.filter (recoverable (isValidStorageDirectory inDirectory))).length =
      (s.committed.filter (fun p ↦ s.status p.1 == .synched)).length +
        (s.waiting.filter (fun p ↦ s.status p.1 == .synched)).length := by
  rw [RecoversFinished, htracks.recover] at h
  have hlength := congrArg List.length (Option.some.inj h)
  rwa [finished, List.filter_append, List.length_map, List.length_map, List.length_append]
    at hlength

/-- Atomic recovery commits no page of an unfinished transaction. -/
theorem synched_of_recoversFinished {s : Writers T}
    (htracks : s.Tracks (isValidStorageDirectory inDirectory))
    (h : RecoversFinished inDirectory s) :
    s.waiting = [] → ∀ p ∈ s.committed,
      recoverable (isValidStorageDirectory inDirectory) p = true → s.status p.1 = .synched := by
  intro hwaiting p hp hv
  by_contra hnot
  have hlength := length_of_recoversFinished htracks h
  have hsub : s.committed.filter (fun q ↦ s.status q.1 == .synched) =
      (s.committed.filter (recoverable (isValidStorageDirectory inDirectory))).filter
        (fun q ↦ s.status q.1 == .synched) := by
    rw [List.filter_filter]
    refine List.filter_congr fun q hq ↦ ?_
    by_cases hs : s.status q.1 = .synched
    · have hq' := recoverable_of_recoversFinished htracks h q (List.mem_append_left _ hq) hs
      simp [hs, hq']
    · simp [hs]
  have hlt : ((s.committed.filter (recoverable (isValidStorageDirectory inDirectory))).filter
      (fun q ↦ s.status q.1 == .synched)).length <
      (s.committed.filter (recoverable (isValidStorageDirectory inDirectory))).length :=
    List.length_filter_lt_length_iff_exists.mpr
      ⟨p, List.mem_filter.mpr ⟨hp, hv⟩, by simpa using hnot⟩
  rw [hwaiting, hsub] at hlength
  simp only [List.filter_nil, List.length_nil] at hlength
  omega

/-- Atomic recovery leaves no page of a finished transaction behind. -/
theorem not_synched_of_recoversFinished {s : Writers T}
    (htracks : s.Tracks (isValidStorageDirectory inDirectory))
    (h : RecoversFinished inDirectory s)
    (hcommitted : ∀ p ∈ s.committed,
      recoverable (isValidStorageDirectory inDirectory) p = true → s.status p.1 = .synched) :
    ∀ p ∈ s.waiting, s.status p.1 ≠ .synched := by
  intro p hp hsynched
  have hlength := length_of_recoversFinished htracks h
  have hpos : 0 < (s.waiting.filter (fun q ↦ s.status q.1 == .synched)).length :=
    List.length_pos_of_mem (List.mem_filter.mpr ⟨hp, by simpa using hsynched⟩)
  have heq : s.committed.filter (fun q ↦ s.status q.1 == .synched) =
      s.committed.filter (recoverable (isValidStorageDirectory inDirectory)) := by
    refine List.filter_congr fun q hq ↦ ?_
    rw [Bool.eq_iff_iff, beq_iff_eq]
    exact ⟨recoverable_of_recoversFinished htracks h q (List.mem_append_left _ hq),
      hcommitted q hq⟩
  rw [heq] at hlength
  omega

/-- A page of an open transaction joins those that wait. -/
theorem Inv.journal {s : Writers T} (h : Inv valid s) (t : T) (p : Page)
    (ht : s.status t ≠ .synched) : Inv valid { s with toOwnedJournal := s.addPage t p } where
  tracks := h.tracks.addPage t p
  committed_synched := h.committed_synched
  waiting_not_synched := by
    intro q hq hv
    rcases List.mem_append.mp hq with hq | hq
    · exact h.waiting_not_synched q hq hv
    · rw [List.mem_singleton.mp hq]
      exact ht
  synched_recoverable := by
    intro q hq hs
    rw [OwnedJournal.addPage, ← List.append_assoc] at hq
    rcases List.mem_append.mp hq with hq | hq
    · exact h.synched_recoverable q hq hs
    · rw [List.mem_singleton.mp hq] at hs
      exact absurd hs ht

variable [DecidableEq T]

/-- A status change of an open transaction to anything but `synched` keeps the invariant. -/
theorem Inv.setStatus {s : Writers T} (h : Inv valid s) (t : T) (status : Status)
    (ht : s.status t ≠ .synched) (hstatus : status ≠ .synched) :
    Inv valid (s.setStatus t status) where
  tracks := h.tracks
  committed_synched := by
    intro p hp hv
    have hs := h.committed_synched p hp hv
    have hne : p.1 ≠ t := fun he ↦ ht (he ▸ hs)
    simpa [hne] using hs
  waiting_not_synched := by
    intro p hp hv
    by_cases he : p.1 = t
    · simpa [he] using hstatus
    · simpa [he] using h.waiting_not_synched p hp hv
  synched_recoverable := by
    intro p hp hs
    by_cases he : p.1 = t
    · rw [he, status_setStatus_self] at hs
      exact absurd hs hstatus
    · exact h.synched_recoverable p hp (by simpa [he] using hs)

/-- The committed pages stay those of finished transactions when one more finishes. -/
theorem Inv.committed_setStatus {s : Writers T} (h : Inv valid s) (t : T) :
    ∀ p ∈ s.committed, recoverable valid p = true →
      (s.setStatus t .synched).status p.1 = .synched := by
  intro p hp hv
  by_cases he : p.1 = t
  · simp [he]
  · simpa [he] using h.committed_synched p hp hv

/-- What has been journalled by then of the finished transactions is recoverable. -/
theorem Inv.recoverable_setStatus {s : Writers T} (h : Inv valid s) (t : T)
    (ht : ∀ p ∈ s.committed ++ s.waiting, p.1 = t → recoverable valid p = true) :
    ∀ p ∈ s.committed ++ s.waiting, (s.setStatus t .synched).status p.1 = .synched →
      recoverable valid p = true := by
  intro p hp hs
  by_cases he : p.1 = t
  · exact ht p hp he
  · exact h.synched_recoverable p hp (by simpa [he] using hs)

/-- A clean synch keeps the invariant. -/
theorem Inv.synch {s : Writers T} (h : Inv (isValidStorageDirectory inDirectory) s) (t : T)
    (hC : CleanSynch inDirectory s (.synch t)) :
    Inv (isValidStorageDirectory inDirectory)
      { s.setStatus t .synched with toOwnedJournal := s.markCommit } := by
  obtain ⟨hdirectory, hclean⟩ := hC
  have hcommitted := h.committed_setStatus t
  have hrecoverable := h.recoverable_setStatus t hdirectory
  rcases s.markCommit_cases with ⟨hs, hc, hw⟩ | ⟨hs, hsame⟩
  · refine ⟨h.tracks.markCommit, ?_, by simp [hw], ?_⟩
    · intro p hp hv
      rcases List.mem_append.mp (hc ▸ hp) with hp | hp
      · exact hcommitted p hp hv
      · have he : p.1 = t := (hclean p hp hv).mpr hs
        simp [he]
    · intro p hp
      rw [hc, hw, List.append_nil] at hp
      exact hrecoverable p hp
  · rw [hsame]
    refine ⟨h.tracks, hcommitted, ?_, hrecoverable⟩
    intro p hp hv
    have he : p.1 ≠ t := fun he ↦ (hclean p hp hv).mp he hs
    simpa [he] using h.waiting_not_synched p hp hv

/-- Every step with clean synchs keeps the invariant. -/
theorem inv_step (s s' : Writers T) (a : WriterAction T)
    (h : Inv (isValidStorageDirectory inDirectory) s) (hstep : step storageOf s a = some s')
    (hC : CleanSynch inDirectory s a) : Inv (isValidStorageDirectory inDirectory) s' := by
  have hopen : ∀ t, (s.status t).isOpen = true → s.status t ≠ .synched := by
    intro t ht he
    rw [he] at ht
    exact absurd ht (by decide)
  cases a with
  | synch t =>
    rw [step] at hstep
    split at hstep
    · cases hstep
      exact h.synch t hC
    · cases hstep
  | journal t p =>
    rw [step] at hstep
    split at hstep
    · next ht =>
      cases hstep
      exact h.journal t p (hopen t ht.1)
    · cases hstep
  | merge t =>
    rw [step] at hstep
    split at hstep
    · next ht =>
      cases hstep
      exact h.setStatus t .merged (hopen t ht) (by decide)
    · cases hstep
  | mergeThrows t =>
    rw [step] at hstep
    split at hstep
    · next ht =>
      cases hstep
      exact h.setStatus t .failed (hopen t ht) (by decide)
    · cases hstep
  | rollback t =>
    rw [step] at hstep
    split at hstep
    · next ht =>
      cases hstep
      exact h.setStatus t .rolledBack (hopen t ht) (by decide)
    · cases hstep

/-- A synch that is not clean is the step at which atomicity is lost. -/
theorem not_recoversFinished_of_not_clean (s s' : Writers T) (a : WriterAction T)
    (h : Inv (isValidStorageDirectory inDirectory) s) (hstep : step storageOf s a = some s')
    (hC : ¬CleanSynch inDirectory s a) : ¬RecoversFinished inDirectory s' := by
  cases a with
  | journal t p => exact absurd trivial hC
  | merge t => exact absurd trivial hC
  | mergeThrows t => exact absurd trivial hC
  | rollback t => exact absurd trivial hC
  | synch t =>
    rw [step] at hstep
    split at hstep
    · cases hstep
      intro hfinished
      refine hC ⟨fun p hp he ↦ ?_, fun p hp hv ↦ ⟨fun he hs ↦ ?_, fun hs ↦ ?_⟩⟩
      · -- recovery passes over every page whose storage fails the directory check
        refine recoverable_of_recoversFinished h.tracks.markCommit hfinished p ?_ (by simp [he])
        rcases s.markCommit_cases with ⟨-, hc, hw⟩ | ⟨-, hsame⟩
        · rwa [hc, hw, List.append_nil]
        · rwa [hsame]
      · -- no boundary is written for the pages of the transaction
        have hsame : s.markCommit = s.toOwnedJournal := by
          rcases s.markCommit_cases with ⟨hne, -, -⟩ | ⟨-, hsame⟩
          · exact absurd hs hne
          · exact hsame
        rw [hsame] at hfinished
        refine not_synched_of_recoversFinished (s := s.setStatus t .synched) h.tracks hfinished
          (h.committed_setStatus t) p hp ?_
        simp [he]
      · -- the boundary commits every page that waits
        rcases s.markCommit_cases with ⟨-, hc, hw⟩ | ⟨hs', -⟩
        · have hmem : p ∈ s.markCommit.committed := by
            rw [hc]
            exact List.mem_append_right _ hp
          have hsynched := synched_of_recoversFinished h.tracks.markCommit hfinished hw p hmem hv
          by_contra hne
          rw [status_setStatus_of_ne s .synched hne] at hsynched
          exact h.waiting_not_synched p hp hv hsynched
        · exact absurd hs' hs
    · cases hstep

/-- After every prefix of a run of writers recovery is atomic if and only if every synch of
the run is clean. -/
theorem recoversFinished_always_iff (storageOf : T → Bytes) (inDirectory : Bytes → Bool)
    (actions : List (WriterAction T)) :
    Always (step storageOf) (RecoversFinished inDirectory) start actions ↔
      EachStep (step storageOf) (CleanSynch inDirectory) start actions :=
  always_iff_eachStep (fun _ h ↦ Inv.recoversFinished h) inv_step
    not_recoversFinished_of_not_clean actions start inv_start

/-- A page of one byte. -/
def pageOf (name : Bytes) (h : name.length < sizeLimit) : Page where
  name := name
  address := 7
  buffer := [1]
  name_lt := h
  buffer_lt := byte_lt

/-- The writers of storages "./a" and "./b": the second has journalled its page when the
first commits, and its merge fails afterwards. -/
def foreignPageRun : List (WriterAction Bool) :=
  [.journal false (pageOf [46, 47, 97] pathA_lt),
    .journal true (pageOf [46, 47, 98] pathB_lt),
    .merge false, .synch false, .mergeThrows true, .rollback true]

/-- The storages of the two writers. -/
def twoStorages (t : Bool) : Bytes := if t then [46, 47, 98] else [46, 47, 97]

/-- One writer on storage "a", a name too short for the directory check. -/
def shortNameRun : List (WriterAction Bool) :=
  [.journal true (pageOf [97] shortName_lt), .merge true, .synch true]

/-- Recovery after the first run commits the page of the transaction that was rolled back;
after the second it commits nothing, although every directory is there. -/
theorem foreignPageRun_not_atomic :
    ((run (step twoStorages) start foreignPageRun).map (fun s ↦
        (recover (fun _ ↦ true) s.journal.file, s.finished, s.status true)) =
      some (some [⟨[46, 47, 97], 7, [1]⟩, ⟨[46, 47, 98], 7, [1]⟩], [⟨[46, 47, 97], 7, [1]⟩],
        .rolledBack) ∧
    ¬Always (step twoStorages) (RecoversFinished fun _ ↦ true) start foreignPageRun) ∧
    ((run (step fun _ ↦ [97]) start shortNameRun).map (fun s ↦
        (recover (fun _ ↦ true) s.journal.file, s.finished, s.status true)) =
      some (some [], [⟨[97], 7, [1]⟩], .synched) ∧
    ¬Always (step fun _ ↦ [97]) (RecoversFinished fun _ ↦ true) start shortNameRun) := by
  refine ⟨⟨by decide +kernel, fun halways ↦ ?_⟩, by decide +kernel, fun halways ↦ ?_⟩
  · obtain ⟨s, hs, hvalue⟩ := Option.map_eq_some_iff.mp (show (run (step twoStorages) start
      foreignPageRun).map (fun s ↦ (recover (fun _ ↦ true) s.journal.file, s.finished)) =
        some (some [⟨[46, 47, 97], 7, [1]⟩, ⟨[46, 47, 98], 7, [1]⟩], [⟨[46, 47, 97], 7, [1]⟩])
      by decide +kernel)
    have hlast := halways.last hs
    simp only [Prod.mk.injEq] at hvalue
    rw [RecoversFinished, hvalue.1, hvalue.2] at hlast
    simp at hlast
  · obtain ⟨s, hs, hvalue⟩ := Option.map_eq_some_iff.mp (show (run (step fun _ ↦ [97]) start
      shortNameRun).map (fun s ↦ (recover (fun _ ↦ true) s.journal.file, s.finished)) =
        some (some [], [⟨[97], 7, [1]⟩]) by decide +kernel)
    have hlast := halways.last hs
    simp only [Prod.mk.injEq] at hvalue
    rw [RecoversFinished, hvalue.1, hvalue.2] at hlast
    simp at hlast

end Writers

end LibSpaces.Journal
