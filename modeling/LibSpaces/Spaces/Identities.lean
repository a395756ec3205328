import LibSpaces.Stx.Leb128
import LibSpaces.Transactions.Isolation
import LibSpaces.Transactions.SoleTransaction

/-!
# The identities that a writer gives out

`dbms` as the single writer of its storage, `src/src/storage/spaces/dbms.h:22–153`, with the boot
values of `src/src/storage/transactions/abstracted_storage.h:189–227`. The counter is loaded by
`begin` and saved by `commit`. A process that ends leaves what is committed.
-/

namespace LibSpaces.Spaces

open LibSpaces.Base LibSpaces.Stx LibSpaces.Transactions LibSpaces.Transactions.Coordinator

/-- `get_boot_value`, `abstracted_storage.h:189–200`: nothing where the block is empty, as the end
of the storage is. -/
def bootValue : Option Bytes → Option ℤ
  | none | some [] => none
  | some (byte :: bytes) => some (readSigned64 (byte :: bytes)).1.toInt

/-- `ID_ADDRESS`. -/
def idAddress : ℕ := 8

/-- The identity that `begin` loads from a block. -/
def savedId (block : Option Bytes) : ℤ := (bootValue block).getD 1

/-- `dbms`, `dbms.h:24–36`. -/
structure Dbms where
  session : Session
  opened : Bool
  id : ℤ
  startId : ℤ

namespace Dbms

/-- The storage of the session is in a transaction: `is_transacted`. -/
def transacted (d : Dbms) : Bool := d.session.storage.transacted

/-- What the transaction of the object reads. -/
def read (d : Dbms) (a : ℕ) : Option Bytes :=
  match d.session.storage.transaction with
  | some t => d.session.coordinator.read t a
  | none => none

/-- The constructor, `dbms.h:48–55`. There is no outcome while the write lock is not free. -/
def construct (d : Dbms) (version : ℕ) (replicated : Bool) : Option Dbms :=
  match d.session.begin true version replicated false false with
  | none => none
  | some (.error _, session) => some { d with session := { session with storage := .closed } }
  | some (.ok _, session) => match session.rollback false with
    | (.error _, session) => some { d with session := { session with storage := .closed } }
    | (.ok _, session) => some ⟨session, true, 1, d.startId⟩

/-- `gen_id`, `dbms.h:68–71`. There is no outcome where the signed counter overflows. -/
def genId (d : Dbms) : Option (ℤ × Dbms) :=
  if d.id + 1 < 2 ^ 63 then some (d.id, { d with id := d.id + 1 }) else none

/-- `begin`, `dbms.h:72–82`. -/
def begin (d : Dbms) (version : ℕ) (replicated : Bool) : Option Dbms :=
  if d.transacted then some d
  else match d.session.begin true version replicated false false with
    | none => none
    | some (.error _, session) => some { d with session := session }
    | some (.ok _, session) =>
      let d := { d with session := session }
      let id := savedId (d.read idAddress)
      some { d with
        session := { session with coordinator := session.coordinator.load idAddress }
        id := id
        startId := id }

/-- `rollback`, `dbms.h:83–93`. -/
def rollback (d : Dbms) : Dbms :=
  if d.transacted then { d with session := (d.session.rollback false).2 } else d

/-- The identity is saved where one was given out, `dbms.h:128–131`. -/
def saveId (d : Dbms) : Dbms :=
  if d.startId ≠ d.id then
    { d with
      session := d.session.allocateAndWrite idAddress .create (some (writeSigned d.id))
      startId := d.id }
  else d

/-- `commit`, `dbms.h:117–153`, and whether it has committed a transaction. -/
def commit (d : Dbms) (peers : Peers) (created : ℕ) : Bool × Dbms :=
  if d.transacted then
    match d.saveId.session.commit peers created false with
    | (.error _, session) => (false, { d.saveId with session := session })
    | (.ok _, session) => (true, { d.saveId with session := session })
  else (false, d)

/-- The destructor, `dbms.h:56–61`. -/
def close (d : Dbms) : Dbms :=
  { d.rollback with session := (d.rollback.session.close false).2, opened := false }

end Dbms

/-- The calls on the writer. The tree stores its pages while a transaction is open, and another
process may go on with what is committed. -/
inductive DbmsAction
  | construct (version : ℕ) (replicated : Bool)
  | begin (version : ℕ) (replicated : Bool)
  | genId
  | store (which : ℕ) (data : Bytes)
  | commit (peers : Peers) (created : ℕ)
  | rollback
  | close
  | restart (initial : Opening)

/-- The writer, the identities given out in transactions that committed, and those given out in
the one that is open. -/
structure IdLog where
  dbms : Dbms
  committed : List ℤ
  pending : List ℤ

namespace IdLog

/-- A new storage without a writer. -/
def start (initial : Opening) : IdLog where
  dbms := ⟨⟨.closed, .start initial, false⟩, false, 1, 1⟩
  committed := []
  pending := []

/-- A call. -/
def step (h : IdLog) : DbmsAction → Option IdLog
  | .construct version replicated =>
    if h.dbms.opened then none
    else (h.dbms.construct version replicated).map fun d ↦ { h with dbms := d }
  | .begin version replicated =>
    if h.dbms.opened then (h.dbms.begin version replicated).map fun d ↦ { h with dbms := d }
    else none
  | .genId =>
    if h.dbms.opened then h.dbms.genId.map fun r ↦
      { h with
        dbms := r.2
        pending := if h.dbms.transacted then h.pending ++ [r.1] else h.pending }
    else none
  | .store which data =>
    if h.dbms.transacted then some { h with dbms := { h.dbms with
      session := h.dbms.session.allocateAndWrite which .create (some data) } }
    else none
  | .commit peers created =>
    if h.dbms.opened then
      let result := h.dbms.commit peers created
      if result.1 then some ⟨result.2, h.committed ++ h.pending, []⟩
      else some { h with dbms := result.2 }
    else none
  | .rollback =>
    if h.dbms.opened then some { h with dbms := h.dbms.rollback, pending := [] } else none
  | .close => if h.dbms.opened then some { h with dbms := h.dbms.close, pending := [] } else none
  | .restart initial =>
    if h.dbms.opened then none
    else some { h with dbms := { h.dbms with session := ⟨.closed, .start initial, false⟩ } }

/-- What is asked of the calls: versions are new, no page is stored at the address of the
identities, and a new process finds what is committed. -/
def Allowed (h : IdLog) : DbmsAction → Prop
  | .construct version _ | .begin version _ => h.dbms.session.coordinator.IsFresh version
  | .store which _ => which ≠ idAddress ∧ (which = 0 → ∀ t ∈ h.dbms.session.storage.transaction,
      (h.dbms.session.coordinator.versions t).createNext.next ≠ idAddress)
  | .commit _ created => h.dbms.session.coordinator.IsFresh created
  | .restart initial => (Coordinator.start initial).content = h.dbms.session.coordinator.content
  | .genId | .rollback | .close => True

/-- The blocks that a process finds are compared at the addresses that either side holds. -/
theorem content_eq_iff (initial : Opening) (s : Coordinator) :
    (Coordinator.start initial).content = s.content ↔
      ∀ a ∈ initial.blocks.keys ++ s.storages.flatMap fun v ↦ (s.versions v).blocks.keys,
        (Coordinator.start initial).content a = s.content a := by
  refine ⟨fun h a _ ↦ congrFun h a, fun h ↦ funext fun a ↦ ?_⟩
  by_cases ha : a ∈ initial.blocks.keys ++ s.storages.flatMap fun v ↦ (s.versions v).blocks.keys
  · exact h a ha
  · rw [List.mem_append, List.mem_flatMap, not_or] at ha
    obtain ⟨hinitial, hstorages⟩ := ha
    have hnone : initial.block a = none := AList.lookup_eq_none.2 hinitial
    have hview : s.view s.storages.reverse a = none := by
      rw [view, List.findSome?_eq_none_iff]
      intro v hv
      exact AList.lookup_eq_none.2 fun hkey ↦ hstorages ⟨v, List.mem_reverse.1 hv, hkey⟩
    rw [content_single (v := 0) rfl, content, hview]
    change (initial.block a).map Block.content = none
    rw [hnone]
    rfl

instance (h : IdLog) : ∀ a, Decidable (h.Allowed a)
  | .construct version _ | .begin version _ =>
    inferInstanceAs (Decidable (h.dbms.session.coordinator.IsFresh version))
  | .store which _ => inferInstanceAs (Decidable (which ≠ idAddress ∧ (which = 0 →
      ∀ t ∈ h.dbms.session.storage.transaction,
        (h.dbms.session.coordinator.versions t).createNext.next ≠ idAddress)))
  | .commit _ created => inferInstanceAs (Decidable (h.dbms.session.coordinator.IsFresh created))
  | .restart initial => decidable_of_iff' _ (content_eq_iff initial h.dbms.session.coordinator)
  | .genId | .rollback | .close => isTrue trivial

/-- The identities that were given out, in order: those of transactions that committed, then those
of the open one. -/
def Increasing (h : IdLog) : Prop := (h.committed ++ h.pending).Pairwise (· < ·)

/-- The open transaction would save the identity that `begin` loaded or the last commit tried to
save, and what it gave out is below the next one. The block that `begin` read is in memory. -/
structure Begun (h : IdLog) : Prop where
  overlay : ∀ t ∈ h.dbms.session.storage.transaction,
    savedId (h.dbms.session.coordinator.overlay t idAddress) = h.dbms.startId
  saved_le : savedId (h.dbms.session.coordinator.content idAddress) ≤ h.dbms.startId
  le : h.dbms.startId ≤ h.dbms.id
  lt : h.dbms.id < 2 ^ 63
  pending : ∀ i ∈ h.pending, i < h.dbms.id
  loaded : ∀ n, idAddress ∉ (h.dbms.session.coordinator.traversals n).stored

/-- What the calls keep: the writer has the only transaction, which is empty unless it has begun,
and what is saved is above all identities of committed transactions. -/
structure Keeps (h : IdLog) : Prop where
  sole : Sole h.dbms.session.storage h.dbms.session.coordinator
  single : ∃ v, h.dbms.session.coordinator.storages = [v]
  writer : ∀ t ∈ h.dbms.session.storage.transaction, h.dbms.session.storage.writer = true
  kept : h.dbms.transacted = false → ∀ t ∈ h.dbms.session.storage.transaction,
    (h.dbms.session.coordinator.versions t).blocks = ∅
  closed : h.dbms.opened = false → h.dbms.transacted = false
  positive : 1 ≤ savedId (h.dbms.session.coordinator.content idAddress)
  saved : ∀ j ∈ h.committed, j < savedId (h.dbms.session.coordinator.content idAddress)
  idle : h.dbms.transacted = false → h.pending = []
  begun : h.dbms.transacted = true → h.Begun
  increasing : h.Increasing

variable {h : IdLog}

/-- A saved identity has 63 bits. -/
theorem savedId_lt (block : Option Bytes) : savedId block < 2 ^ 63 := by
  rw [savedId]
  cases hvalue : bootValue block with
  | none => decide
  | some value =>
    rcases block with _ | _ | ⟨byte, bytes⟩
    · cases hvalue
    · cases hvalue
    · obtain rfl := Option.some.inj hvalue
      exact BitVec.toInt_lt

/-- The identity that is saved is loaded. -/
theorem savedId_writeSigned {id : ℤ} (hpos : 0 ≤ id) (hlt : id < 2 ^ 63) :
    savedId (some (writeSigned id)) = id := by
  obtain ⟨n, rfl⟩ := Int.eq_ofNat_of_zero_le hpos
  have hn : n < 2 ^ 63 := by exact_mod_cast hlt
  have hread := readSigned64_write hn []
  rw [List.append_nil] at hread
  cases hbytes : writeSigned (n : ℤ) with
  | nil =>
    rw [writeSigned, writeSignedLoop] at hbytes
    split at hbytes <;> cases hbytes
  | cons byte bytes =>
    rw [hbytes] at hread
    have hsmall : 2 * (BitVec.ofNat 64 n).toNat < 2 ^ 64 := by
      rw [BitVec.toNat_ofNat]
      omega
    rw [savedId, bootValue, hread, Option.getD_some, BitVec.toInt_eq_toNat_of_lt hsmall,
      BitVec.toNat_ofNat, Nat.mod_eq_of_lt (by omega)]

/-- Without an open transaction nothing is pending. -/
theorem Keeps.ended (hk : h.Keeps) {d : Dbms} (hsole : Sole d.session.storage d.session.coordinator)
    (hstorages : d.session.coordinator.storages = h.dbms.session.coordinator.storages)
    (hcontent : d.session.coordinator.content = h.dbms.session.coordinator.content)
    (hidle : d.transacted = false)
    (hwriter : ∀ t ∈ d.session.storage.transaction, d.session.storage.writer = true ∧
      (d.session.coordinator.versions t).blocks = ∅) :
    Keeps { h with dbms := d, pending := [] } where
  sole := hsole
  single := by
    rw [hstorages]
    exact hk.single
  writer := fun t ht ↦ (hwriter t ht).1
  kept := fun _ t ht ↦ (hwriter t ht).2
  closed := fun _ ↦ hidle
  positive := by
    rw [hcontent]
    exact hk.positive
  saved := by
    rw [hcontent]
    exact hk.saved
  idle := fun _ ↦ rfl
  begun := fun hbegun ↦ absurd (hbegun.symm.trans hidle) nofun
  increasing := by
    have hincreasing := hk.increasing
    rw [Increasing, List.pairwise_append] at hincreasing
    rw [Increasing, List.append_nil]
    exact hincreasing.1

private theorem Keeps.pending_eq_nil (hk : h.Keeps) (hidle : h.dbms.transacted = false) :
    { h with pending := [] } = h := by
  rw [← hk.idle hidle]

/-- The transaction of the writer. -/
theorem Keeps.transaction (hk : h.Keeps) (hbegun : h.dbms.transacted = true) :
    ∃ t, h.dbms.session.storage.transaction = some t :=
  Option.ne_none_iff_exists'.1 (hk.sole.begun hbegun)

private theorem Keeps.rollback (hk : h.Keeps) :
    Keeps { h with dbms := h.dbms.rollback, pending := [] } ∧
      h.dbms.rollback.transacted = false := by
  cases hbegun : h.dbms.transacted with
  | false =>
    have hsame : h.dbms.rollback = h.dbms := if_neg (by simp [hbegun])
    rw [hsame, hk.pending_eq_nil hbegun]
    exact ⟨hk, hbegun⟩
  | true =>
    have hrollback : h.dbms.rollback =
        { h.dbms with session := (h.dbms.session.rollback false).2 } := if_pos hbegun
    obtain ⟨y, s', locked', hresult, hsole, hidle, hcontent, -, hy⟩ :=
      Session.rollback_of_sole hk.sole h.dbms.session.locked
    have hstorages := Session.storages_rollback hk.sole h.dbms.session.locked
    have hclosed : y = .closed := by
      refine hy.resolve_right fun he ↦ ?_
      rw [Dbms.transacted, ← he.1] at hbegun
      exact absurd (hbegun.symm.trans hidle) nofun
    rw [hresult] at hstorages
    rw [hrollback, show h.dbms.session.rollback false = _ from hresult]
    refine ⟨hk.ended hsole hstorages hcontent hidle ?_, hidle⟩
    rw [hclosed]
    exact nofun

private theorem Keeps.close (hk : h.Keeps) :
    Keeps { h with dbms := h.dbms.close, pending := [] } := by
  obtain ⟨hrolled, hidle⟩ := hk.rollback
  obtain ⟨s', hresult, hsole, hcontent⟩ :=
    Session.close_of_sole hrolled.sole h.dbms.rollback.session.locked
  have hstorages := Session.storages_close hrolled.sole h.dbms.rollback.session.locked
  rw [hresult] at hstorages
  have hclose : h.dbms.close = { h.dbms.rollback with
      session := ⟨.closed, s', h.dbms.rollback.session.locked⟩, opened := false } := by
    rw [Dbms.close, ← hresult]
  rw [hclose]
  exact hrolled.ended hsole hstorages hcontent rfl nofun

private theorem Keeps.construct (hk : h.Keeps) (hopened : h.dbms.opened = false) {version : ℕ}
    (hfresh : h.dbms.session.coordinator.IsFresh version) {replicated : Bool} {d : Dbms}
    (hd : h.dbms.construct version replicated = some d) : Keeps { h with dbms := d } := by
  have hpending : h.pending = [] := hk.idle (hk.closed hopened)
  have hsame : { h with dbms := d } = { h with dbms := d, pending := [] } := by rw [hpending]
  rw [hsame]
  rw [Dbms.construct] at hd
  rcases Session.begin_of_sole hk.sole h.dbms.session.locked true hfresh replicated nofun with
    hnone | ⟨r, y, s', locked', hresult, hsole, hcontent, hcases⟩
  · rw [show h.dbms.session.begin true version replicated false false = none from hnone] at hd
    cases hd
  have hstorages' : s'.storages = h.dbms.session.coordinator.storages :=
    Session.storages_begin hk.sole h.dbms.session.locked true hfresh replicated hresult
  rw [show h.dbms.session.begin true version replicated false false = _ from hresult] at hd
  rcases hcases with ⟨hr, hnone, hidle⟩ | ⟨rfl, hbegun, hwriter, -⟩
  · cases r with
    | ok u => exact absurd rfl hr
    | error e =>
      cases hd
      obtain ⟨transaction, transacted, writer⟩ := y
      change transaction = none at hnone
      subst hnone
      exact hk.ended (hsole.writer rfl false false rfl) hstorages' hcontent rfl nofun
  · obtain ⟨y', s₂, locked₂, hrollback, hsole', hidle, hcontent', -, hy⟩ :=
      Session.rollback_of_sole hsole locked'
    have hstorages₂ := Session.storages_rollback hsole locked'
    rw [hrollback] at hstorages₂
    dsimp only at hd
    rw [hrollback] at hd
    cases hd
    have hclosed : y' = .closed := by
      refine hy.resolve_right fun he ↦ ?_
      rw [← he.1] at hbegun
      exact absurd (hbegun.symm.trans hidle) nofun
    refine hk.ended hsole' (hstorages₂.trans hstorages') (hcontent'.trans hcontent) hidle ?_
    rw [hclosed]
    exact nofun

/-- An empty transaction that writes reads what is committed. -/
theorem read_of_empty {x : AbstractedStorage} {s : Coordinator} {t a : ℕ} (hsole : Sole x s)
    (ht : x.transaction = some t) (hw : x.writer = true) (hempty : (s.versions t).blocks = ∅)
    (ha : a ≠ 0) : s.read t a = s.content a := by
  have hwriter : t ∈ s.writers :=
    mem_writers.2 ⟨hsole.mem ht, by rw [hsole.readOnly t ht, hw]; rfl⟩
  rw [History.read_of_blocks_eq_empty ha hempty, hsole.inv.bases_writer hwriter]
  rfl

private theorem overlay_of_empty {s : Coordinator} {t a : ℕ} (hempty : (s.versions t).blocks = ∅) :
    s.overlay t a = s.content a := by
  rw [overlay, Allocator.block, hempty, AList.lookup_empty]
  rfl

/-- A transaction that begins is empty and loads the identity that is saved. -/
theorem Keeps.begin (hk : h.Keeps) {version : ℕ}
    (hfresh : h.dbms.session.coordinator.IsFresh version) {replicated : Bool} {d : Dbms}
    (hopened : h.dbms.opened = true)
    (hd : h.dbms.begin version replicated = some d) : Keeps { h with dbms := d } := by
  rw [Dbms.begin] at hd
  split at hd
  · cases hd
    exact hk
  next hbegun =>
  have hidle : h.dbms.transacted = false := Bool.eq_false_iff.2 hbegun
  have hpending : h.pending = [] := hk.idle hidle
  rcases Session.begin_of_sole hk.sole h.dbms.session.locked true hfresh replicated nofun with
    hnone | ⟨r, y, s', locked', hresult, hsole, hcontent, hcases⟩
  · rw [show h.dbms.session.begin true version replicated false false = none from hnone] at hd
    cases hd
  have hstorages : s'.storages = h.dbms.session.coordinator.storages :=
    Session.storages_begin hk.sole h.dbms.session.locked true hfresh replicated hresult
  rw [show h.dbms.session.begin true version replicated false false = _ from hresult] at hd
  rcases hcases with ⟨hr, hnone, hnot⟩ | ⟨rfl, hbegun, hwriter, hempty⟩
  · cases r with
    | ok u => exact absurd rfl hr
    | error e =>
      cases hd
      rw [← hk.pending_eq_nil hidle]
      exact hk.ended hsole hstorages hcontent hnot fun t ht ↦ absurd (hnone.symm.trans ht) nofun
  · obtain ⟨t, ht⟩ := Option.ne_none_iff_exists'.1 (hsole.begun hbegun)
    have hblocks : (s'.versions t).blocks = ∅ := by
      rcases hempty t ht rfl with hempty | ⟨-, -, htransaction, hs'⟩
      · exact hempty
      · exact hs' ▸ hk.kept hidle t htransaction
    have hread : savedId (s'.read t idAddress) =
        savedId (h.dbms.session.coordinator.content idAddress) := by
      rw [read_of_empty hsole ht hwriter hblocks (by decide), hcontent]
    have hloaded : ∀ d : Dbms, d.session = ⟨y, s', locked'⟩ → d.read idAddress =
        s'.read t idAddress := by
      intro d hd
      rw [Dbms.read, hd, ht]
    simp only [Option.some.injEq] at hd
    rw [hloaded _ rfl, hread] at hd
    subst hd
    constructor
    case sole => exact hsole.load idAddress
    case single =>
      change ∃ v, s'.storages = [v]
      rw [hstorages]
      exact hk.single
    case writer => exact fun _ _ ↦ hwriter
    case kept => exact fun hnot ↦ absurd (hbegun.symm.trans hnot) nofun
    case closed => exact fun hclosed ↦ absurd (hopened.symm.trans hclosed) nofun
    case positive =>
      change 1 ≤ savedId (s'.content idAddress)
      rw [hcontent]
      exact hk.positive
    case saved =>
      change ∀ j ∈ h.committed, j < savedId (s'.content idAddress)
      rw [hcontent]
      exact hk.saved
    case idle => exact fun _ ↦ hpending
    case begun =>
      refine fun _ ↦ ⟨fun u hu ↦ ?_, ?_, le_rfl, savedId_lt _, ?_,
        fun n ↦ Finset.notMem_erase idAddress _⟩
      · obtain rfl := Option.some.inj (ht.symm.trans hu)
        change savedId (s'.overlay t idAddress) = _
        rw [overlay_of_empty hblocks, hcontent]
      · change savedId (s'.content idAddress) ≤ _
        rw [hcontent]
      · intro i hi
        rw [hpending] at hi
        cases hi
    case increasing => exact hk.increasing

private theorem Keeps.genId (hk : h.Keeps) {r : ℤ × Dbms} (hr : h.dbms.genId = some r) :
    Keeps { h with
      dbms := r.2
      pending := if h.dbms.transacted then h.pending ++ [r.1] else h.pending } := by
  rw [Dbms.genId] at hr
  split at hr
  · next hroom =>
    cases hr
    cases hbegun : h.dbms.transacted with
    | false =>
      simp only [Bool.false_eq_true, if_false]
      exact ⟨hk.sole, hk.single, hk.writer, hk.kept, hk.closed, hk.positive, hk.saved, hk.idle,
        fun hb ↦ absurd (hb.symm.trans hbegun) nofun, hk.increasing⟩
    | true =>
      simp only [if_true]
      obtain ⟨hoverlay, hsaved, hle, hlt, hpending, hloaded⟩ := hk.begun hbegun
      refine ⟨hk.sole, hk.single, hk.writer, hk.kept, hk.closed, hk.positive, hk.saved,
        fun hi ↦ absurd (hbegun.symm.trans hi) nofun,
        fun _ ↦ ⟨hoverlay, hsaved, hle.trans (Int.le_add_one le_rfl), hroom, fun i hi ↦ ?_,
          hloaded⟩, ?_⟩
      · change i < h.dbms.id + 1
        rcases List.mem_append.1 hi with hi | hi
        · exact (hpending i hi).trans (Int.lt_succ _)
        · rw [List.mem_singleton.1 hi]
          exact Int.lt_succ _
      · change (h.committed ++ (h.pending ++ [h.dbms.id])).Pairwise (· < ·)
        rw [← List.append_assoc, List.pairwise_append]
        refine ⟨hk.increasing, List.pairwise_singleton .., fun i hi j hj ↦ ?_⟩
        rw [List.mem_singleton.1 hj]
        rcases List.mem_append.1 hi with hi | hi
        · exact (hk.saved i hi).trans_le (hsaved.trans hle)
        · exact hpending i hi
  · cases hr

/-- A block is stored in the transaction, other than the one of the identities unless it holds the
identity that is saved then. -/
theorem Keeps.stored (hk : h.Keeps) (hbegun : h.dbms.transacted = true) (which : ℕ) (data : Bytes)
    {startId : ℤ} (hle : startId ≤ h.dbms.id) (hsaved : h.dbms.startId ≤ startId)
    (hat : ∀ t a, h.dbms.session.storage.transaction = some t →
      (h.dbms.session.coordinator.allocate t which .create).1 = .ok (some (t, a)) →
      if a = idAddress then savedId (some data) = startId else startId = h.dbms.startId) :
    Keeps { h with dbms := { h.dbms with
      session := h.dbms.session.allocateAndWrite which .create (some data)
      startId := startId } } := by
  obtain ⟨t, ht⟩ := hk.transaction hbegun
  obtain ⟨a, s', hallocate, hs', hsole, hcontent, hblock⟩ :=
    hk.sole.stored ht (hk.writer t ht) which data
  have hsession : h.dbms.session.allocateAndWrite which .create (some data) =
      { h.dbms.session with coordinator := s' } := by
    simp only [Session.allocateAndWrite, ht, hs']
  have hstorages : s'.storages = h.dbms.session.coordinator.storages := by
    rw [← hs']
    exact (sameShape_allocateAndWrite ..).storages
  have htraversals : s'.traversals = h.dbms.session.coordinator.traversals := by
    obtain ⟨versions, hversions⟩ :=
      allocateAndWrite_eq h.dbms.session.coordinator t which .create (some data)
    rw [← hs', hversions]
  obtain ⟨hoverlay, hsaved_le, -, hlt, hpending, hloaded⟩ := hk.begun hbegun
  rw [hsession]
  constructor
  case sole => exact hsole
  case single =>
    change ∃ v, s'.storages = [v]
    rw [hstorages]
    exact hk.single
  case writer => exact hk.writer
  case kept => exact fun hnot ↦ absurd (hbegun.symm.trans hnot) nofun
  case closed => exact hk.closed
  case positive =>
    change 1 ≤ savedId (s'.content idAddress)
    rw [hcontent]
    exact hk.positive
  case saved =>
    change ∀ j ∈ h.committed, j < savedId (s'.content idAddress)
    rw [hcontent]
    exact hk.saved
  case idle => exact fun hi ↦ absurd (hbegun.symm.trans hi) nofun
  case begun =>
    refine fun _ ↦ ⟨fun u hu ↦ ?_, ?_, hle, hlt, hpending, fun n ↦ ?_⟩
    · obtain rfl := Option.some.inj (ht.symm.trans hu)
      change savedId (s'.overlay t idAddress) = startId
      have hgiven := hat t a ht hallocate
      rw [overlay, hblock, hcontent]
      split at hgiven
      · next ha =>
        rw [if_pos ha.symm, Option.some_or, hgiven]
      · next ha =>
        rw [if_neg (Ne.symm ha), hgiven]
        exact hoverlay t ht
    · change savedId (s'.content idAddress) ≤ startId
      rw [hcontent]
      exact hsaved_le.trans hsaved
    · change idAddress ∉ (s'.traversals n).stored
      rw [htraversals]
      exact hloaded n
  case increasing => exact hk.increasing

/-- The address of a block that is created. -/
theorem allocate_create {x : AbstractedStorage} {s : Coordinator} {t a which : ℕ} (hsole : Sole x s)
    (ht : x.transaction = some t) (hw : x.writer = true)
    (h : (s.allocate t which .create).1 = .ok (some (t, a))) :
    a = if which = 0 then (s.versions t).createNext.next else which := by
  have hro : ¬((s.versions t).readOnly = true ∧ StorageAction.create ≠ .read) := by
    rw [hsole.readOnly t ht, hw]
    exact fun h ↦ absurd h.1 nofun
  unfold allocate at h
  dsimp only at h
  rw [if_neg hro] at h
  split at h
  · next hwhich =>
    rw [if_pos hwhich]
    cases h
    rfl
  · next hwhich =>
    rw [if_neg hwhich]
    cases h
    rfl

private theorem Keeps.store (hk : h.Keeps) (hbegun : h.dbms.transacted = true) {which : ℕ}
    (data : Bytes) (hallowed : h.Allowed (.store which data)) :
    Keeps { h with dbms := { h.dbms with
      session := h.dbms.session.allocateAndWrite which .create (some data) } } := by
  obtain ⟨hwhich, hnext⟩ := hallowed
  refine hk.stored hbegun which data (hk.begun hbegun).le le_rfl fun t a ht ha ↦ ?_
  have hne : a ≠ idAddress := by
    rw [allocate_create hk.sole ht (hk.writer t ht) ha]
    split
    · next hzero => exact hnext hzero t ht
    · exact hwhich
  rw [if_neg hne]

private theorem Keeps.saveId (hk : h.Keeps) (hbegun : h.dbms.transacted = true) :
    Keeps { h with dbms := h.dbms.saveId } ∧ h.dbms.saveId.startId = h.dbms.saveId.id ∧
      h.dbms.saveId.transacted = true ∧ ∀ version, h.dbms.session.coordinator.IsFresh version →
        h.dbms.saveId.session.coordinator.IsFresh version := by
  rw [Dbms.saveId]
  split
  · refine ⟨?_, rfl, ?_, ?_⟩
    · obtain ⟨-, hsaved, hle, hlt, -, -⟩ := hk.begun hbegun
      refine hk.stored hbegun idAddress _ le_rfl hle fun t a ht ha ↦ ?_
      have haddress : a = idAddress := allocate_create hk.sole ht (hk.writer t ht) ha
      rw [if_pos haddress]
      refine savedId_writeSigned ?_ hlt
      exact Int.le_of_lt ((Int.zero_lt_one.trans_le hk.positive).trans_le (hsaved.trans hle))
    · obtain ⟨t, ht⟩ := hk.transaction hbegun
      simp only [Dbms.transacted, Session.allocateAndWrite, ht]
      exact hbegun
    · intro version hfresh
      obtain ⟨t, ht⟩ := hk.transaction hbegun
      simp only [Session.allocateAndWrite, ht]
      have hshape := sameShape_allocateAndWrite h.dbms.session.coordinator t idAddress .create
        (some (writeSigned h.dbms.id))
      exact hshape.isFresh hfresh
  · next hsame => exact ⟨hk, not_not.1 hsame, hbegun, fun _ hfresh ↦ hfresh⟩

/-- What is saved after a merge was saved before it or by the transaction. -/
theorem savedId_settles {s s' : Coordinator} {t : ℕ} (hsettles : Settles s s' t)
    (hloaded : idAddress ∉ (s.traversals 0).stored) :
    savedId (s'.content idAddress) = savedId (s.content idAddress) ∨
      savedId (s'.content idAddress) = savedId (s.overlay t idAddress) := by
  rcases hsettles idAddress with hsame | hsame | ⟨hnone, hempty⟩
  · exact .inl (congrArg _ hsame)
  · exact .inr (congrArg _ hsame)
  · left
    rw [hnone.resolve_right hloaded, hempty]
    rfl

/-- A commit that throws keeps its transaction. What is saved is what it was or what the transaction
would save. -/
private theorem Keeps.failed {d : Dbms} {s : Coordinator} {locked : Bool}
    (hk : Keeps { h with dbms := d }) (hbegun : d.transacted = true)
    (hsole : Sole d.session.storage s) (hsingle : ∃ v, s.storages = [v])
    (hpublishes : ∀ t ∈ d.session.storage.transaction, Publishes d.session.coordinator s t)
    (hsaved : savedId (d.session.coordinator.content idAddress) ≤ savedId (s.content idAddress))
    (hstart : savedId (s.content idAddress) ≤ d.startId)
    (hloaded : ∀ n, idAddress ∉ (s.traversals n).stored) :
    Keeps { h with dbms := { d with session := ⟨d.session.storage, s, locked⟩ } } := by
  obtain ⟨hoverlay, -, hle, hlt, hpending, -⟩ := hk.begun hbegun
  constructor
  case sole => exact hsole
  case single => exact hsingle
  case writer => exact hk.writer
  case kept => exact fun hnot ↦ absurd (hbegun.symm.trans hnot) nofun
  case closed => exact hk.closed
  case positive => exact hk.positive.trans hsaved
  case saved => exact fun j hj ↦ (hk.saved j hj).trans_le hsaved
  case idle => exact fun hnot ↦ absurd (hbegun.symm.trans hnot) nofun
  case begun =>
    refine fun _ ↦ ⟨fun t ht ↦ ?_, hstart, hle, hlt, hpending, hloaded⟩
    change savedId (s.overlay t idAddress) = d.startId
    rw [(hpublishes t ht).overlay]
    exact hoverlay t ht
  case increasing => exact hk.increasing

/-- A commit that returns has saved the identity of the transaction, which is kept empty. -/
private theorem Keeps.published {d : Dbms} {x : AbstractedStorage} {s : Coordinator} {locked : Bool}
    {t : ℕ} (hk : Keeps { h with dbms := d }) (hbegun : d.transacted = true)
    (hid : d.startId = d.id) (ht : d.session.storage.transaction = some t)
    (hsole : Sole x s) (hsingle : ∃ v, s.storages = [v]) (hended : x.transacted = false)
    (hx : x.transaction = some t) (hpublishes : Publishes d.session.coordinator s t)
    (hempty : (s.versions t).blocks = ∅) :
    Keeps ⟨{ d with session := ⟨x, s, locked⟩ }, h.committed ++ h.pending, []⟩ := by
  obtain ⟨hoverlay, hsaved, hle, hlt, hpending, -⟩ := hk.begun hbegun
  have hcontent : savedId (s.content idAddress) = d.startId := by
    rw [← overlay_of_empty hempty, hpublishes.overlay]
    exact hoverlay t ht
  constructor
  case sole => exact hsole
  case single => exact hsingle
  case writer =>
    refine fun _ _ ↦ (hsole.kept hended).resolve_left fun hnone ↦ ?_
    exact absurd (hnone.symm.trans hx) nofun
  case kept =>
    intro _ u hu
    obtain rfl := Option.some.inj (hx.symm.trans hu)
    exact hempty
  case closed => exact fun _ ↦ hended
  case positive => exact hk.positive.trans (hsaved.trans hcontent.ge)
  case saved =>
    change ∀ j ∈ h.committed ++ h.pending, j < savedId (s.content idAddress)
    intro j hj
    rw [hcontent]
    rcases List.mem_append.1 hj with hj | hj
    · exact (hk.saved j hj).trans_le hsaved
    · rw [hid]
      exact hpending j hj
  case idle => exact fun _ ↦ rfl
  case begun => exact fun hb ↦ absurd (hb.symm.trans hended) nofun
  case increasing =>
    change ((h.committed ++ h.pending) ++ []).Pairwise (· < ·)
    rw [List.append_nil]
    exact hk.increasing

private theorem Keeps.commit (hk : h.Keeps) (peers : Peers) {created : ℕ}
    (hfresh : h.dbms.session.coordinator.IsFresh created) :
    let result := h.dbms.commit peers created
    Keeps (if result.1 then ⟨result.2, h.committed ++ h.pending, []⟩
      else { h with dbms := result.2 }) := by
  intro result
  cases hbegun : h.dbms.transacted with
  | false =>
    have hresult : result = (false, h.dbms) := if_neg (by simp [hbegun])
    rw [hresult]
    exact hk
  | true =>
    obtain ⟨hk', hid, hbegun', hfresh'⟩ := hk.saveId hbegun
    obtain ⟨t, ht⟩ := hk'.transaction hbegun'
    obtain ⟨last, hlast⟩ := hk'.single
    obtain ⟨hoverlay, hsaved, -, -, -, hloaded⟩ := hk'.begun hbegun'
    have hresult : result = match h.dbms.saveId.session.commit peers created false with
        | (.error _, session) => (false, { h.dbms.saveId with session := session })
        | (.ok _, session) => (true, { h.dbms.saveId with session := session }) := if_pos hbegun
    have hsettles := Session.settles_commit hk'.sole h.dbms.saveId.session.locked ht
      (hk'.writer t ht) peers created hlast
    obtain ⟨r, y, s', locked', hcommit, hsole, hcases⟩ :=
      Session.commit_of_sole hk'.sole h.dbms.saveId.session.locked peers (hfresh' created hfresh)
    rw [hcommit] at hsettles
    rw [show h.dbms.saveId.session.commit peers created false = _ from hcommit] at hresult
    obtain ⟨hstorages, hsettles, k, htraversals⟩ := hsettles
    rcases hcases with ⟨⟨e, rfl⟩, rfl, hpublishes⟩ | ⟨⟨b, rfl⟩, hended, hsame, hcases⟩
    · have hbetween : savedId (h.dbms.saveId.session.coordinator.content idAddress) ≤
          savedId (s'.content idAddress) ∧
          savedId (s'.content idAddress) ≤ h.dbms.saveId.startId := by
        rcases savedId_settles hsettles (hloaded 0) with hsame | hsame
        · exact ⟨hsame.ge, hsame.trans_le hsaved⟩
        · rw [hsame, hoverlay t ht]
          exact ⟨hsaved, le_rfl⟩
      rw [hresult, if_neg nofun]
      refine hk'.failed hbegun' hsole ⟨last, hstorages⟩ hpublishes hbetween.1 hbetween.2 fun n ↦ ?_
      rw [show s'.traversals n = _ from htraversals n]
      exact hloaded (n + k)
    · rcases hcases with ⟨hnone, -⟩ | ⟨u, hu, -, hpublishes, hempty⟩
      · exact absurd (hnone.symm.trans ht) nofun
      rw [hresult, if_pos rfl]
      exact hk'.published hbegun' hid hu hsole ⟨last, hstorages⟩ hended (hsame.trans hu) hpublishes
        hempty

private theorem Keeps.restart (hk : h.Keeps) (hopened : h.dbms.opened = false) {initial : Opening}
    (hcontent : (Coordinator.start initial).content = h.dbms.session.coordinator.content) :
    Keeps { h with dbms := { h.dbms with session := ⟨.closed, .start initial, false⟩ } } := by
  have hpending : h.pending = [] := hk.idle (hk.closed hopened)
  constructor
  case sole => exact .start initial
  case single => exact ⟨0, rfl⟩
  case writer => exact fun _ ht ↦ by cases ht
  case kept => exact fun _ _ ht ↦ by cases ht
  case closed => exact fun _ ↦ rfl
  case positive =>
    change 1 ≤ savedId ((Coordinator.start initial).content idAddress)
    rw [hcontent]
    exact hk.positive
  case saved =>
    change ∀ j ∈ h.committed, j < savedId ((Coordinator.start initial).content idAddress)
    rw [hcontent]
    exact hk.saved
  case idle => exact fun _ ↦ hpending
  case begun => exact fun hb ↦ absurd hb Bool.false_ne_true
  case increasing => exact hk.increasing

private theorem keeps_start {initial : Opening} (hnew : initial.block idAddress = none) :
    (start initial).Keeps := by
  have hsaved : savedId ((Coordinator.start initial).content idAddress) = 1 := by
    rw [content_single (v := 0) rfl]
    change savedId ((initial.block idAddress).map Block.content) = 1
    rw [hnew]
    rfl
  constructor
  case sole => exact .start initial
  case single => exact ⟨0, rfl⟩
  case writer => exact fun _ ht ↦ by cases ht
  case kept => exact fun _ _ ht ↦ by cases ht
  case closed => exact fun _ ↦ rfl
  case positive => exact hsaved.ge
  case saved => exact fun _ hj ↦ by cases hj
  case idle => exact fun _ ↦ rfl
  case begun => exact fun hb ↦ absurd hb Bool.false_ne_true
  case increasing => exact .nil

private theorem keeps_step (h h' : IdLog) (a : DbmsAction) (hk : h.Keeps) (ha : h.Allowed a)
    (hstep : h.step a = some h') : h'.Keeps := by
  cases a with
  | construct version replicated =>
    simp only [step] at hstep
    split at hstep
    · cases hstep
    · next hopened =>
      obtain ⟨d, hd, rfl⟩ := Option.map_eq_some_iff.1 hstep
      exact hk.construct (Bool.not_eq_true _ ▸ hopened) ha hd
  | begin version replicated =>
    simp only [step] at hstep
    split at hstep
    · next hopened =>
      obtain ⟨d, hd, rfl⟩ := Option.map_eq_some_iff.1 hstep
      exact hk.begin ha hopened hd
    · cases hstep
  | genId =>
    simp only [step] at hstep
    split at hstep
    · obtain ⟨r, hr, rfl⟩ := Option.map_eq_some_iff.1 hstep
      exact hk.genId hr
    · cases hstep
  | store which data =>
    simp only [step] at hstep
    split at hstep
    · next hbegun =>
      cases hstep
      exact hk.store hbegun data ha
    · cases hstep
  | commit peers created =>
    simp only [step] at hstep
    split at hstep
    · have hcommit := hk.commit peers ha
      dsimp only at hcommit
      split at hstep
      · next hdone =>
        cases hstep
        rwa [if_pos hdone] at hcommit
      · next hdone =>
        cases hstep
        rwa [if_neg hdone] at hcommit
    · cases hstep
  | rollback =>
    simp only [step] at hstep
    split at hstep
    · cases hstep
      exact hk.rollback.1
    · cases hstep
  | close =>
    simp only [step] at hstep
    split at hstep
    · cases hstep
      exact hk.close
    · cases hstep
  | restart initial =>
    simp only [step] at hstep
    split at hstep
    · cases hstep
    · next hopened =>
      cases hstep
      exact hk.restart (Bool.not_eq_true _ ▸ hopened) ha

/-- One commit, and the storage is opened again. -/
def reopened : List DbmsAction :=
  [.construct 2 true, .begin 3 true, .genId, .genId, .commit alone 4, .close, .construct 5 true]

end IdLog

end LibSpaces.Spaces
