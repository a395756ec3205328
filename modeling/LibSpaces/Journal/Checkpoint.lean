import LibSpaces.Base.Transition
import LibSpaces.Journal.State

/-!
# Checkpoints of the journal

`journal_state::synch`, `src/src/storage/transactions/journal.cpp:331–406`, may end with a
compaction: every participating storage commits its base to its table, and the journal file
is removed. Only `synch` itself is exclusive, so other threads go on journalling and merging
between any two steps of a compaction.
-/

namespace LibSpaces.Journal

open LibSpaces.Base

/-- Where a call of `dbms::commit` on a writing transaction stands,
`src/src/storage/spaces/dbms.h:117–153`. -/
inductive CommitStatus
  | idle | journalling | failed | merged | synching | returned
  deriving DecidableEq

/-- The merge of the commit has moved its pages to the base storage. -/
def CommitStatus.hasMerged : CommitStatus → Bool
  | merged | synching | returned => true
  | idle | journalling | failed => false

/-- Where the compaction of a synch stands: the loop over the participants with those still
to come, and the flushed journal before it is removed. -/
inductive Phase
  | marked
  | committing (todo : List Bytes)
  | flushed
  | restarted
  deriving DecidableEq

/-- The storages and their journal. `dirty` are the pages that merges moved to the base of
their storage and that are not in its table yet, `table` the pages written to the tables,
both with the commits they come from. `covered` are the commits that had merged when
`journal_commit` last ran for their storage. -/
structure Checkpoints (T : Type) extends OwnedJournal T where
  participants : List Bytes
  status : T → CommitStatus
  pages : T → List Page
  dirty : List (T × Page)
  table : List (T × Page)
  covered : T → Bool
  synch : Option (T × Phase)

/-- The steps of the commits and of the compaction. Whether a synch compacts depends on the
time, the file size and open readers, and whether the directory of a participant is there on the
file system, so both are left to the environment. -/
inductive CheckpointAction (T : Type)
  | begin (t : T)
  | journal (t : T) (p : Page)
  | mergeThrows (t : T)
  | merge (t : T)
  | synch (t : T)
  | compact (order : List Bytes)
  | participant (directory : Bool)
  | flush
  | restart
  | finish

namespace Checkpoints

variable {T : Type}

/-- Nothing journalled, nothing stored. -/
def start : Checkpoints T := ⟨.start, [], fun _ ↦ .idle, fun _ ↦ [], [], [], fun _ ↦ false, none⟩

/-- A commit changes its status. -/
def setStatus [DecidableEq T] (s : Checkpoints T) (t : T) (status : CommitStatus) : Checkpoints T :=
  { s with status := Function.update s.status t status }

/-- A round of the loop of `sqlite_allocator::journal`, `transactional_storage.h:1784–1799`. -/
def journalPage [DecidableEq T] (s : Checkpoints T) (t : T) (p : Page) : Checkpoints T :=
  { s with
    toOwnedJournal := s.addPage t p, pages := Function.update s.pages t (s.pages t ++ [p]) }

/-- `version->move(storages.back())`, `transactional_storage.h:3069`: the pages of the commit
are in the base of its storage, modified. -/
def movePages [DecidableEq T] (s : Checkpoints T) (t : T) : Checkpoints T :=
  { s.setStatus t .merged with dirty := s.dirty ++ (s.pages t).map (fun p ↦ (t, p)) }

/-- `journal_commit` of one participant, `transactional_storage.h:3179–3193`: the modified
pages of its base are written and committed. -/
def journalCommit (storageOf : T → Bytes) (s : Checkpoints T) (n : Bytes) : Checkpoints T :=
  { s with
    table := s.table ++ s.dirty.filter (fun p ↦ p.2.name = n)
    dirty := s.dirty.filter (fun p ↦ p.2.name ≠ n)
    covered := fun u ↦ s.covered u || (storageOf u == n && (s.status u).hasMerged) }

/-- One step. `begin` is `transactional_storage.h:2800–2801`, where the storage becomes a
participant; `journal` and `merge` are the two halves of `mvcc_coordinator::merge`; `synch`
writes the commit boundary and `finish` returns from it; the other steps are the compaction,
`journal.cpp:371–397`, in their order. -/
def step [DecidableEq T] (storageOf : T → Bytes) (s : Checkpoints T) :
    CheckpointAction T → Option (Checkpoints T)
  | .begin t =>
    if s.status t = .idle then
      some { s.setStatus t .journalling with participants := s.participants ++ [storageOf t] }
    else none
  | .journal t p =>
    if s.status t = .journalling ∧ p.name = storageOf t then
      some (s.journalPage t p)
    else none
  | .mergeThrows t => if s.status t = .journalling then some (s.setStatus t .failed) else none
  | .merge t =>
    if s.status t = .journalling then some (s.movePages t) else none
  | .synch t =>
    if s.status t = .merged ∧ s.synch = none then
      some { s.setStatus t .synching with
        toOwnedJournal := s.markCommit, synch := some (t, .marked) }
    else none
  | .compact order =>
    match s.synch with
    | some (t, .marked) =>
      if order ⊆ s.participants ∧ s.participants ⊆ order then
        some { s with synch := some (t, .committing order) }
      else none
    | _ => none
  | .participant directory =>
    match s.synch with
    | some (t, .committing (n :: todo)) =>
      some { (if isValidStorageDirectory (fun _ ↦ directory) n then s.journalCommit storageOf n
          else s) with
        synch := some (t, .committing todo) }
    | _ => none
  | .flush =>
    match s.synch with
    | some (t, .committing []) =>
      some { s with toOwnedJournal := s.flushBuffer, synch := some (t, .flushed) }
    | _ => none
  | .restart =>
    match s.synch with
    | some (t, .flushed) =>
      some { s with toOwnedJournal := s.toOwnedJournal.restart, synch := some (t, .restarted) }
    | _ => none
  | .finish =>
    match s.synch with
    | some (t, .marked) | some (t, .restarted) =>
      some { s.setStatus t .returned with synch := none }
    | _ => none

/-- The file holds the page before a commit boundary. -/
def InJournal (file : Bytes) (p : Page) : Prop :=
  ∃ before between after,
    file = journalBytes 1 (before ++ .page p :: (between ++ .commit :: after))

/-- Every page of a commit that has returned is in its table, or in the journal file with a
commit boundary after it, from where recovery restores it. `inDirectory` is what the file
system answers at recovery. -/
def Durable (inDirectory : Bytes → Bool) (s : Checkpoints T) : Prop :=
  ∀ t, s.status t = .returned → ∀ p ∈ s.pages t,
    (t, p) ∈ s.table ∨ InJournal s.journal.file p ∧
      ∃ ws, recover inDirectory s.journal.file = some ws ∧ p.toWrite ∈ ws

/-- The steps that do not lose pages. Where the file is removed, nothing may have been
journalled since the last flush, and every page must be of a commit that failed or that had
merged when the journal commit of its storage ran, with the directory check passed. The 64 bit
entry counter, which suppresses the commit boundary at its start value, has not come round to
it. And where a synch returns, the directory check of recovery must pass for the pages of its
commit that are not in the table. -/
def Sound (inDirectory : Bytes → Bool) (s : Checkpoints T) : CheckpointAction T → Prop
  | .restart => s.journal.journalBuffer = [] ∧
      ∀ p ∈ s.committed ++ s.waiting, s.covered p.1 = true ∨ s.status p.1 = .failed
  | .synch _ => s.journal.sequence = s.journal.lastSynch →
      s.journal.file = [] ∧ s.journal.journalBuffer = []
  | .finish => ∀ x ∈ s.synch, ∀ p ∈ s.pages x.1,
      (x.1, p) ∈ s.table ∨ isValidStorageDirectory inDirectory p.name = true
  | _ => True

instance [DecidableEq T] (inDirectory : Bytes → Bool) (s : Checkpoints T)
    (a : CheckpointAction T) : Decidable (Sound inDirectory s a) :=
  match a with
  | .restart => inferInstanceAs (Decidable (_ ∧ _))
  | .synch _ => inferInstanceAs (Decidable (_ → _))
  | .finish => inferInstanceAs (Decidable (∀ x ∈ s.synch, ∀ p ∈ s.pages x.1,
      (x.1, p) ∈ s.table ∨ isValidStorageDirectory inDirectory p.name = true))
  | .begin _ | .journal _ _ | .mergeThrows _ | .merge _ | .compact _ | .participant _ | .flush =>
    isTrue trivial

/-- What sound steps keep. -/
structure Inv (inDirectory : Bytes → Bool) (storageOf : T → Bytes) (s : Checkpoints T) :
    Prop where
  tracks : ∀ valid, s.Tracks valid
  named : ∀ t, ∀ p ∈ s.pages t, p.name = storageOf t
  logged : ∀ t, s.status t ≠ .failed → ∀ p ∈ s.pages t,
    (t, p) ∈ s.table ∨ (t, p) ∈ s.committed ∨ (t, p) ∈ s.waiting
  bounded : ∀ t, s.status t = .synching ∨ s.status t = .returned → ∀ p ∈ s.pages t,
    (t, p) ∈ s.table ∨ (t, p) ∈ s.committed
  checked : ∀ t, s.status t = .returned → ∀ p ∈ s.pages t,
    (t, p) ∈ s.table ∨ isValidStorageDirectory inDirectory p.name = true
  moved : ∀ t, (s.status t).hasMerged = true → ∀ p ∈ s.pages t,
    (t, p) ∈ s.dirty ∨ (t, p) ∈ s.table
  covered_merged : ∀ t, s.covered t = true → (s.status t).hasMerged = true
  covered_table : ∀ t, s.covered t = true → ∀ p ∈ s.pages t, (t, p) ∈ s.table

variable {inDirectory : Bytes → Bool} {storageOf : T → Bytes}

private theorem inv_start : Inv inDirectory storageOf (start : Checkpoints T) where
  tracks := fun _ ↦ OwnedJournal.tracks_start
  named := by simp [start]
  logged := by simp [start]
  bounded := by simp [start]
  checked := by simp [start]
  moved := by simp [start]
  covered_merged := by simp [start]
  covered_table := by simp [start]

/-- The invariant makes every returned commit durable. -/
theorem Inv.durable {s : Checkpoints T} (h : Inv inDirectory storageOf s) :
    Durable inDirectory s := by
  intro t ht p hp
  rcases h.bounded t (.inr ht) p hp with htable | hcommitted
  · exact .inl htable
  · rcases h.checked t ht p hp with htable | hv
    · exact .inl htable
    · exact .inr ⟨(h.tracks _).exists_of_mem_committed (t, p) hcommitted, _,
        (h.tracks (isValidStorageDirectory inDirectory)).recover, List.mem_map.mpr
          ⟨(t, p), List.mem_filter.mpr ⟨hcommitted, hv⟩, rfl⟩⟩

/-- The environment moves a synch from one phase to the next without touching the data. -/
theorem Inv.setSynch {s : Checkpoints T} (h : Inv inDirectory storageOf s)
    (synch : Option (T × Phase)) :
    Inv inDirectory storageOf { s with synch := synch } where
  tracks := h.tracks
  named := h.named
  logged := h.logged
  bounded := h.bounded
  checked := h.checked
  moved := h.moved
  covered_merged := h.covered_merged
  covered_table := h.covered_table

/-- After the commit boundary nothing is left waiting, and nothing is lost. -/
private theorem mem_markCommit {s : Checkpoints T} (h : Inv inDirectory storageOf s) {t : T}
    (hC : Sound inDirectory s (.synch t)) (x : T × Page)
    (hx : x ∈ s.committed ∨ x ∈ s.waiting) : x ∈ s.markCommit.committed := by
  rcases s.markCommit_cases with ⟨-, hcommitted, -⟩ | ⟨hs, hsame⟩
  · rw [hcommitted]
    exact List.mem_append.mpr hx
  · obtain ⟨hfile, hbuffer⟩ := hC hs.symm
    obtain ⟨hc, hw⟩ := (h.tracks _).eq_nil hfile hbuffer
    rw [hc, hw] at hx
    simp at hx

/-- A journal commit writes the merged pages of its storage to the table. -/
theorem Inv.journalCommit {s : Checkpoints T} (h : Inv inDirectory storageOf s) (n : Bytes) :
    Inv inDirectory storageOf (s.journalCommit storageOf n) where
  tracks := h.tracks
  named := h.named
  logged := by
    intro u hu q hq
    rcases h.logged u hu q hq with hin | hin
    · exact .inl (List.mem_append_left _ hin)
    · exact .inr hin
  bounded := by
    intro u hu q hq
    rcases h.bounded u hu q hq with hin | hin
    · exact .inl (List.mem_append_left _ hin)
    · exact .inr hin
  checked := by
    intro u hu q hq
    rcases h.checked u hu q hq with hin | hin
    · exact .inl (List.mem_append_left _ hin)
    · exact .inr hin
  moved := by
    intro u hu q hq
    rcases h.moved u hu q hq with hin | hin
    · by_cases hn : q.name = n
      · exact .inr (List.mem_append_right _ (List.mem_filter.mpr ⟨hin, by simpa using hn⟩))
      · exact .inl (List.mem_filter.mpr ⟨hin, by simpa using hn⟩)
    · exact .inr (List.mem_append_left _ hin)
  covered_merged := by
    intro u hu
    simp only [Checkpoints.journalCommit, Bool.or_eq_true, Bool.and_eq_true] at hu
    rcases hu with hu | hu
    · exact h.covered_merged u hu
    · exact hu.2
  covered_table := by
    intro u hu q hq
    simp only [Checkpoints.journalCommit, Bool.or_eq_true, Bool.and_eq_true, beq_iff_eq] at hu
    rcases hu with hu | ⟨hname, hmerged⟩
    · exact List.mem_append_left _ (h.covered_table u hu q hq)
    · rcases h.moved u hmerged q hq with hin | hin
      · have hn : q.name = n := (h.named u q hq).trans hname
        exact List.mem_append_right _ (List.mem_filter.mpr ⟨hin, by simpa using hn⟩)
      · exact List.mem_append_left _ hin

/-- A removal of the file that loses nothing. -/
theorem Inv.restart {s : Checkpoints T} (h : Inv inDirectory storageOf s)
    (hC : Sound inDirectory s .restart) :
    Inv inDirectory storageOf { s with toOwnedJournal := s.toOwnedJournal.restart } := by
  have hsaved : ∀ u, s.status u ≠ .failed → ∀ q ∈ s.pages u, (u, q) ∈ s.table := by
    intro u hu q hq
    rcases h.logged u hu q hq with hin | hin
    · exact hin
    · rcases hC.2 (u, q) (List.mem_append.mpr hin) with hcovered | hfailed
      · exact h.covered_table u hcovered q hq
      · exact absurd hfailed hu
  constructor
  · exact fun valid ↦ OwnedJournal.tracks_restart hC.1
  · exact h.named
  · exact fun u hu q hq ↦ .inl (hsaved u hu q hq)
  · intro u hu q hq
    refine .inl (hsaved u ?_ q hq)
    rcases hu with hu | hu <;> (dsimp only at hu; rw [hu]; decide)
  · exact h.checked
  · exact h.moved
  · exact h.covered_merged
  · exact h.covered_table

/-- A synch in progress is that of a commit in status `synching`. -/
def Held (s : Checkpoints T) : Prop := ∀ t phase, s.synch = some (t, phase) → s.status t = .synching

/-- A synch changes its phase. -/
private theorem held_setSynch {s : Checkpoints T} (h : Held s) {t : T} {phase phase' : Phase}
    (hs : s.synch = some (t, phase)) (u : T) (p : Phase)
    (hu : some (t, phase') = some (u, p)) : s.status u = .synching := by
  simp only [Option.some.injEq, Prod.mk.injEq] at hu
  exact hu.1 ▸ h t phase hs

variable [DecidableEq T]

private theorem status_setStatus (s : Checkpoints T) (t u : T) (status : CommitStatus) :
    (s.setStatus t status).status u = if u = t then status else s.status u := by
  simp [setStatus, Function.update_apply]

private theorem mem_pages_journalPage (s : Checkpoints T) (t u : T) (p q : Page) :
    q ∈ (s.journalPage t p).pages u ↔ q ∈ s.pages u ∨ u = t ∧ q = p := by
  by_cases hu : u = t <;> simp [journalPage, hu]

/-- A page of a journalling commit waits in the journal. -/
theorem Inv.journalPage {s : Checkpoints T} (h : Inv inDirectory storageOf s) (t : T) (p : Page)
    (ht : s.status t = .journalling) (hname : p.name = storageOf t) :
    Inv inDirectory storageOf (s.journalPage t p) where
  tracks := fun valid ↦ (h.tracks valid).addPage t p
  named := by
    intro u q hq
    rcases (mem_pages_journalPage s t u p q).mp hq with hq | ⟨rfl, rfl⟩
    · exact h.named u q hq
    · exact hname
  logged := by
    intro u hu q hq
    rcases (mem_pages_journalPage s t u p q).mp hq with hq | ⟨rfl, rfl⟩
    · rcases h.logged u hu q hq with hin | hin | hin
      · exact .inl hin
      · exact .inr (.inl hin)
      · exact .inr (.inr (List.mem_append_left _ hin))
    · exact .inr (.inr (List.mem_append_right _ List.mem_cons_self))
  bounded := by
    intro u hu q hq
    rcases (mem_pages_journalPage s t u p q).mp hq with hq | ⟨rfl, rfl⟩
    · exact h.bounded u hu q hq
    · rcases hu with hu | hu <;> cases ht.symm.trans hu
  checked := by
    intro u hu q hq
    rcases (mem_pages_journalPage s t u p q).mp hq with hq | ⟨rfl, rfl⟩
    · exact h.checked u hu q hq
    · cases ht.symm.trans hu
  moved := by
    intro u hu q hq
    rcases (mem_pages_journalPage s t u p q).mp hq with hq | ⟨rfl, rfl⟩
    · exact h.moved u hu q hq
    · have hnot : (s.status u).hasMerged = true := hu
      rw [ht] at hnot
      cases hnot
  covered_merged := h.covered_merged
  covered_table := by
    intro u hu q hq
    rcases (mem_pages_journalPage s t u p q).mp hq with hq | ⟨rfl, rfl⟩
    · exact h.covered_table u hu q hq
    · have hnot := h.covered_merged u hu
      rw [ht] at hnot
      cases hnot

/-- A commit that has neither journalled nor merged, or is giving up, changes its status. -/
theorem Inv.setStatus {s : Checkpoints T} (h : Inv inDirectory storageOf s) (t : T)
    (status : CommitStatus) (ht : (s.status t).hasMerged = false) (hfailed : s.status t ≠ .failed)
    (hstatus : status.hasMerged = false) : Inv inDirectory storageOf (s.setStatus t status) where
  tracks := h.tracks
  named := h.named
  logged := by
    intro u hu q hq
    rw [status_setStatus] at hu
    split at hu
    · next he => exact h.logged u (he ▸ hfailed) q hq
    · exact h.logged u hu q hq
  bounded := by
    intro u hu q hq
    rw [status_setStatus] at hu
    split at hu
    · rcases hu with hu | hu <;> (rw [hu] at hstatus; cases hstatus)
    · exact h.bounded u hu q hq
  checked := by
    intro u hu q hq
    rw [status_setStatus] at hu
    split at hu
    · rw [hu] at hstatus
      cases hstatus
    · exact h.checked u hu q hq
  moved := by
    intro u hu q hq
    rw [status_setStatus] at hu
    split at hu
    · rw [hu] at hstatus
      cases hstatus
    · exact h.moved u hu q hq
  covered_merged := by
    intro u hu
    have hold := h.covered_merged u hu
    rw [status_setStatus]
    split
    · next he =>
      rw [he, ht] at hold
      cases hold
    · exact hold
  covered_table := h.covered_table

/-- A merge moves the journalled pages to the base. -/
theorem Inv.movePages {s : Checkpoints T} (h : Inv inDirectory storageOf s) (t : T)
    (ht : s.status t = .journalling) : Inv inDirectory storageOf (s.movePages t) := by
  have hstatus : ∀ u, (s.movePages t).status u = if u = t then .merged else s.status u :=
    fun u ↦ status_setStatus s t u .merged
  constructor
  · exact h.tracks
  · exact h.named
  · intro u hu q hq
    rw [hstatus] at hu
    split at hu
    · next he => exact h.logged u (by rw [he, ht]; decide) q hq
    · exact h.logged u hu q hq
  · intro u hu q hq
    rw [hstatus] at hu
    split at hu
    · rcases hu with hu | hu <;> cases hu
    · exact h.bounded u hu q hq
  · intro u hu q hq
    rw [hstatus] at hu
    split at hu
    · cases hu
    · exact h.checked u hu q hq
  · intro u hu q hq
    rw [hstatus] at hu
    split at hu
    · next he =>
      subst he
      exact .inl (List.mem_append_right _ (List.mem_map.mpr ⟨q, hq, rfl⟩))
    · rcases h.moved u hu q hq with hin | hin
      · exact .inl (List.mem_append_left _ hin)
      · exact .inr hin
  · intro u hu
    have hold := h.covered_merged u hu
    rw [hstatus]
    split
    · rfl
    · exact hold
  · exact h.covered_table

/-- The commit boundary of a merged commit follows all its pages. -/
theorem Inv.markCommit {s : Checkpoints T} (h : Inv inDirectory storageOf s) (t : T)
    (ht : s.status t = .merged) (hC : Sound inDirectory s (.synch t)) :
    Inv inDirectory storageOf { s.setStatus t .synching with
      toOwnedJournal := s.toOwnedJournal.markCommit, synch := some (t, .marked) } := by
  have hstatus := fun u ↦ status_setStatus s t u .synching
  constructor
  · exact fun valid ↦ (h.tracks valid).markCommit
  · exact h.named
  · intro u hu q hq
    dsimp only at hu
    rw [hstatus] at hu
    have hlogged : s.status u ≠ .failed := by
      split at hu
      · next he =>
        rw [he, ht]
        decide
      · exact hu
    rcases h.logged u hlogged q hq with hin | hin
    · exact .inl hin
    · exact .inr (.inl (mem_markCommit h hC _ hin))
  · intro u hu q hq
    dsimp only at hu
    rw [hstatus] at hu
    split at hu
    · next he =>
      rcases h.logged u (by rw [he, ht]; decide) q hq with hin | hin
      · exact .inl hin
      · exact .inr (mem_markCommit h hC _ hin)
    · rcases h.bounded u hu q hq with hin | hin
      · exact .inl hin
      · exact .inr (mem_markCommit h hC _ (.inl hin))
  · intro u hu q hq
    dsimp only at hu
    rw [hstatus] at hu
    split at hu
    · cases hu
    · exact h.checked u hu q hq
  · intro u hu q hq
    dsimp only at hu
    rw [hstatus] at hu
    split at hu
    · next he => exact h.moved u (by rw [he, ht]; rfl) q hq
    · exact h.moved u hu q hq
  · intro u hu
    have hold := h.covered_merged u hu
    dsimp only
    rw [hstatus]
    split
    · rfl
    · exact hold
  · exact h.covered_table

/-- A synch that returns leaves its commit as durable as it was. -/
theorem Inv.finish {s : Checkpoints T} (h : Inv inDirectory storageOf s) (t : T)
    (ht : s.status t = .synching)
    (hchecked : ∀ p ∈ s.pages t,
      (t, p) ∈ s.table ∨ isValidStorageDirectory inDirectory p.name = true) :
    Inv inDirectory storageOf { s.setStatus t .returned with synch := none } := by
  have hstatus := fun u ↦ status_setStatus s t u .returned
  constructor
  · exact h.tracks
  · exact h.named
  · intro u hu q hq
    dsimp only at hu
    rw [hstatus] at hu
    split at hu
    · next he => exact h.logged u (by rw [he, ht]; decide) q hq
    · exact h.logged u hu q hq
  · intro u hu q hq
    dsimp only at hu
    rw [hstatus] at hu
    split at hu
    · next he => exact h.bounded u (.inl (he ▸ ht)) q hq
    · exact h.bounded u hu q hq
  · intro u hu q hq
    dsimp only at hu
    rw [hstatus] at hu
    split at hu
    · next he =>
      subst he
      exact hchecked q hq
    · exact h.checked u hu q hq
  · intro u hu q hq
    dsimp only at hu
    rw [hstatus] at hu
    split at hu
    · next he => exact h.moved u (by rw [he, ht]; rfl) q hq
    · exact h.moved u hu q hq
  · intro u hu
    have hold := h.covered_merged u hu
    dsimp only
    rw [hstatus]
    split
    · rfl
    · exact hold
  · exact h.covered_table

/-- Commits outside a synch change their status freely. -/
private theorem held_setStatus {s : Checkpoints T} (h : Held s) {t : T} {status : CommitStatus}
    (ht : s.status t ≠ .synching) : Held (s.setStatus t status) := by
  intro u phase hu
  have hold := h u phase hu
  have hne : u ≠ t := fun he ↦ ht (he ▸ hold)
  rw [status_setStatus, if_neg hne]
  exact hold

/-- Every sound step keeps the invariant. -/
theorem inv_step (s s' : Checkpoints T) (a : CheckpointAction T)
    (h : Inv inDirectory storageOf s ∧ Held s) (hC : Sound inDirectory s a)
    (hstep : step storageOf s a = some s') : Inv inDirectory storageOf s' ∧ Held s' := by
  obtain ⟨hinv, hheld⟩ := h
  cases a with
  | begin t =>
    rw [step] at hstep
    split at hstep
    · next ht =>
      cases hstep
      have hi := hinv.setStatus t .journalling (by rw [ht]; rfl) (by rw [ht]; decide) rfl
      exact ⟨⟨hi.1, hi.2, hi.3, hi.4, hi.5, hi.6, hi.7, hi.8⟩,
        held_setStatus hheld (by rw [ht]; decide)⟩
    · cases hstep
  | journal t p =>
    rw [step] at hstep
    split at hstep
    · next ht =>
      cases hstep
      exact ⟨hinv.journalPage t p ht.1 ht.2, hheld⟩
    · cases hstep
  | mergeThrows t =>
    rw [step] at hstep
    split at hstep
    · next ht =>
      cases hstep
      exact ⟨hinv.setStatus t .failed (by rw [ht]; rfl) (by rw [ht]; decide) rfl,
        held_setStatus hheld (by rw [ht]; decide)⟩
    · cases hstep
  | merge t =>
    rw [step] at hstep
    split at hstep
    · next ht =>
      cases hstep
      exact ⟨hinv.movePages t ht, held_setStatus hheld (by rw [ht]; decide)⟩
    · cases hstep
  | synch t =>
    rw [step] at hstep
    split at hstep
    · next ht =>
      cases hstep
      refine ⟨hinv.markCommit t ht.1 hC, fun u phase hu ↦ ?_⟩
      simp only [Option.some.injEq, Prod.mk.injEq] at hu
      simp [status_setStatus, hu.1]
    · cases hstep
  | compact order =>
    rw [step] at hstep
    split at hstep
    · next t hsynch =>
      split at hstep
      · cases hstep
        exact ⟨hinv.setSynch _, held_setSynch hheld hsynch⟩
      · cases hstep
    · cases hstep
  | participant directory =>
    rw [step] at hstep
    split at hstep
    · next t n todo hsynch =>
      cases hstep
      by_cases hv : isValidStorageDirectory (fun _ ↦ directory) n = true
      · simp only [hv, if_true]
        exact ⟨(hinv.journalCommit n).setSynch _, held_setSynch hheld hsynch⟩
      · simp only [hv]
        exact ⟨hinv.setSynch _, held_setSynch hheld hsynch⟩
    · cases hstep
  | flush =>
    rw [step] at hstep
    split at hstep
    · next t hsynch =>
      cases hstep
      refine ⟨⟨fun valid ↦ (hinv.tracks valid).flushBuffer, hinv.named, hinv.logged, hinv.bounded,
        hinv.checked, hinv.moved, hinv.covered_merged, hinv.covered_table⟩,
        held_setSynch hheld hsynch⟩
    · cases hstep
  | restart =>
    rw [step] at hstep
    split at hstep
    · next t hsynch =>
      cases hstep
      exact ⟨(hinv.restart hC).setSynch _, held_setSynch hheld hsynch⟩
    · cases hstep
  | finish =>
    rw [step] at hstep
    split at hstep
    · next t hsynch =>
      cases hstep
      exact ⟨hinv.finish t (hheld t _ hsynch) (hC _ hsynch), by simp [Held]⟩
    · next t hsynch =>
      cases hstep
      exact ⟨hinv.finish t (hheld t _ hsynch) (hC _ hsynch), by simp [Held]⟩
    · cases hstep

end Checkpoints

end LibSpaces.Journal
