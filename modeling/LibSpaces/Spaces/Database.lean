import LibSpaces.Spaces.SetType
import LibSpaces.Spaces.TreeBlocks
import LibSpaces.Transactions.SoleWriter

/-!
# The set of a database

`dbms` as the only writer of its storage, with the tree that it keeps in the blocks of its
transactions, `src/src/storage/spaces/dbms.h:22–153`. There are no replicants. Whatever is in the
buffers of the tree, and wherever the process ends, the set is that of the operations of the
transactions that committed.
-/

namespace LibSpaces.Spaces

open LibSpaces.Base LibSpaces.Base.Memory LibSpaces.Stx LibSpaces.Stx.Btree
  LibSpaces.Transactions LibSpaces.Transactions.Coordinator

variable {K V : Type}

/-- The last address that the transaction has given out. -/
def Dbms.lastAddress (d : Dbms) : ℕ :=
  match d.session.storage.transaction with
  | some t => (d.session.coordinator.versions t).next
  | none => 0

/-- A tree loads its pages from the transaction. -/
def Dbms.seen (d : Dbms) (ty : TreeType K V) (loadBuffer : ℕ → Memory) : Storage K V :=
  Spaces.seen ty d.session.coordinator.order loadBuffer d.read d.lastAddress

/-- The blocks of new pages are empty until they are saved. -/
def createPages : ℕ → Session → Session
  | 0, session => session
  | n + 1, session => createPages n (session.allocateAndWrite 0 .create none)

/-- Saved pages and boot values are stored. -/
def storeBlocks (writes : List (ℕ × Bytes)) (session : Session) : Session :=
  writes.foldl (fun session write ↦ session.allocateAndWrite write.1 .create (some write.2)) session

/-! ### The transaction of the object -/

section Transaction

variable {ty : TreeType K V} {d : Dbms} {session : Session} {t : ℕ}

/-- An identity is a signed integer. -/
theorem savedId_bounds (block : Option Bytes) :
    -2 ^ 63 ≤ savedId block ∧ savedId block < 2 ^ 63 := by
  refine ⟨?_, IdLog.savedId_lt block⟩
  rw [savedId]
  rcases block with _ | _ | ⟨byte, bytes⟩
  · decide
  · decide
  · exact BitVec.le_toInt _

/-- The tree loads from the blocks of the transaction. -/
theorem Dbms.seen_of_writer (hwriter : SoleWriter d.session.storage d.session.coordinator)
    (ht : d.session.storage = ⟨some t, true, true⟩)
    (hzero : d.session.coordinator.overlay t 0 = none) (loadBuffer : ℕ → Memory) :
    d.seen ty loadBuffer = Spaces.seen ty d.session.coordinator.order loadBuffer
      (d.session.coordinator.overlay t) (d.session.coordinator.versions t).next := by
  have htransaction : d.session.storage.transaction = some t := by rw [ht]
  have hread : d.read = d.session.coordinator.overlay t := by
    ext1 a
    rw [Dbms.read, htransaction]
    dsimp only
    by_cases ha : a = 0
    · rw [ha, hzero, SoleWriter.read_zero]
    · exact hwriter.read_eq_overlay htransaction ha
  rw [Dbms.seen, hread, Dbms.lastAddress, htransaction]

private theorem Dbms.commit_of_saved (hbegun : d.transacted = true) (hsaved : d.startId = d.id)
    {peers : Peers} {created : ℕ} {b : Bool}
    (hcommit : d.session.commit peers created false = (.ok b, session)) :
    d.commit peers created = (true, { d with session := session }) := by
  have hsame : d.saveId = d := if_neg (not_not.2 hsaved)
  rw [Dbms.commit, if_pos hbegun, hsame, hcommit]

/-- The addresses of new pages are the next ones, and the tree sees no new page. -/
theorem createPages_of_writer (ty : TreeType K V) (n : ℕ) {s : Coordinator} (locked : Bool)
    (hwriter : SoleWriter ⟨some t, true, true⟩ s) (hroom : (s.versions t).next + n < 2 ^ 64)
    (hzero : s.overlay t 0 = none) :
    ∃ s', createPages n ⟨⟨some t, true, true⟩, s, locked⟩ =
        ⟨⟨some t, true, true⟩, s', locked⟩ ∧ SoleWriter ⟨some t, true, true⟩ s' ∧
      s'.content = s.content ∧ (s'.versions t).next = (s.versions t).next + n ∧
      SeenAlike ty (s.overlay t) (s'.overlay t) ∧ s'.overlay t 0 = none := by
  induction n generalizing s with
  | zero => exact ⟨s, rfl, hwriter, rfl, rfl, .refl _, hzero⟩
  | succ n ih =>
    obtain ⟨hoverlay, hnext, hnone⟩ := hwriter.overlay_created rfl (by omega)
    have hallocate : s.HasRoom t 0 .create := fun _ _ ↦ by omega
    obtain ⟨hwriter₁, hcontent₁⟩ := hwriter.allocated rfl hallocate none
    have hzero₁ : (s.allocateAndWrite t 0 .create none).overlay t 0 = none := by
      rw [hoverlay, Function.update_of_ne (Nat.succ_ne_zero _).symm]
      exact hzero
    obtain ⟨s', hpages, hwriter', hcontent', hnext', hseen, hzero'⟩ :=
      ih hwriter₁ (by omega) hzero₁
    refine ⟨s', hpages, hwriter', hcontent'.trans hcontent₁, by omega, ?_, hzero'⟩
    exact (hoverlay ▸ seenAlike_create hnone).trans hseen

private theorem storeBlocks_of_writer (writes : List (ℕ × Bytes)) {s : Coordinator} (locked : Bool)
    (hwriter : SoleWriter ⟨some t, true, true⟩ s) (hwrites : ∀ write ∈ writes, write.1 ≠ 0) :
    ∃ s', storeBlocks writes ⟨⟨some t, true, true⟩, s, locked⟩ =
        ⟨⟨some t, true, true⟩, s', locked⟩ ∧ SoleWriter ⟨some t, true, true⟩ s' ∧
      s'.overlay t = overwritten (s.overlay t) writes ∧ ∀ version, s.Above version →
        s'.Above version := by
  induction writes generalizing s with
  | nil => exact ⟨s, rfl, hwriter, rfl, fun _ ↦ id⟩
  | cons write writes ih =>
    obtain ⟨hwrite, hrest⟩ := List.forall_mem_cons.1 hwrites
    have hoverlay := hwriter.overlay_stored rfl hwrite write.2
    obtain ⟨hwriter₁, -⟩ := hwriter.allocated rfl (fun _ hzero ↦ absurd hzero hwrite) (some write.2)
    obtain ⟨s', hstore, hwriter', hoverlay', habove⟩ := ih hwriter₁ hrest
    refine ⟨s', hstore, hwriter', ?_, fun version hversion ↦ habove version ?_⟩
    · rw [hoverlay', hoverlay]
      rfl
    · have hshape := sameShape_allocateAndWrite s t write.1 .create (some write.2)
      intro v hv
      rw [hshape.version]
      exact hversion v (hshape.size ▸ hv)

/-- The identity is saved to a block that the tree does not see. -/
theorem Dbms.saveId_of_writer [LinearOrder K] [Inhabited K] [Inhabited V]
    {blocks : ℕ → Option Bytes} {m : OrderedMap K V} {ops : List (MapOp K V)} {set : Btree K V}
    (hwriter : SoleWriter d.session.storage d.session.coordinator)
    (ht : d.session.storage = ⟨some t, true, true⟩)
    (hid : -2 ^ 63 ≤ d.id ∧ d.id < 2 ^ 63) (hblocks : d.session.coordinator.overlay t = blocks)
    (hmounted : Mounted ty blocks m ops set) (hzero : blocks 0 = none) :
    ∃ s, d.saveId = ⟨⟨⟨some t, true, true⟩, s, d.session.locked⟩, d.opened, d.id, d.id⟩ ∧
      SoleWriter ⟨some t, true, true⟩ s ∧ Mounted ty (s.overlay t) m ops set ∧
      s.overlay t 0 = none ∧
      ∀ version, d.session.coordinator.Above version → s.Above version := by
  obtain ⟨⟨x, s, locked⟩, opened, id, startId⟩ := d
  cases ht
  cases hblocks
  rw [Dbms.saveId]
  by_cases hsame : startId = id
  · refine ⟨s, ?_, hwriter, hmounted, hzero, fun _ hversion ↦ hversion⟩
    rw [if_neg (not_not.2 hsame), hsame]
  · obtain ⟨s', hstore, hwriter', hoverlay, habove⟩ :=
      storeBlocks_of_writer [(idAddress, writeSigned id)] locked hwriter (by simp [idAddress])
    refine ⟨s', ?_, hwriter', ?_, ?_, habove⟩
    · rw [if_pos hsame]
      exact congrArg (fun session ↦ (⟨session, opened, id, id⟩ : Dbms)) hstore
    · rw [hoverlay]
      exact hmounted.congr (seenAlike_saveId hid.1 hid.2 (hmounted.durable.settled idAddress))
    · rw [hoverlay, overwritten_of_notMem (by simp [idAddress])]
      exact hzero

end Transaction

/-- `dbms` with its `set`, `dbms.h:24–36`. -/
structure Database (K V : Type) where
  dbms : Dbms
  set : Btree K V

namespace Database

/-- The constructor, `dbms.h:48–55`. There is no outcome while the write lock is not free. -/
def construct (ty : TreeType K V) (d : Database K V) (version : ℕ) (loadBuffer : ℕ → Memory) :
    Option (Database K V) :=
  match d.dbms.session.begin true version true false false with
  | some (.ok _, session) => do
    let set ← opened ({ d.dbms with session := session }.seen ty loadBuffer)
    let dbms ← d.dbms.construct version true
    return ⟨dbms, set⟩
  | _ => none

/-- `begin`, `dbms.h:72–82`. -/
def begin (ty : TreeType K V) (d : Database K V) (version : ℕ) (loadBuffer : ℕ → Memory) :
    Option (Database K V) :=
  if d.dbms.transacted then some d
  else (d.dbms.begin version true).bind fun dbms ↦
    if dbms.transacted then
      ({ d.set with storage := dbms.seen ty loadBuffer }.reload).map fun set ↦ ⟨dbms, set⟩
    else some { d with dbms := dbms }

/-- An operation on `get_set`, with what the load buffer of the tree holds. -/
def call [LinearOrder K] [Inhabited K] [Inhabited V] (ty : TreeType K V) (d : Database K V)
    (op : MapOp K V) (loadBuffer : ℕ → Memory) : Option (Database K V × Answer V) := do
  let (set, answer) ← { d.set with storage := d.dbms.seen ty loadBuffer }.step ty.traits op
  let session := createPages (set.storage.lastAddress - d.dbms.lastAddress) d.dbms.session
  return (⟨{ d.dbms with session := session }, set⟩, answer)

/-- `commit`, `dbms.h:117–153`, and whether it has committed a transaction. There is no outcome
where the tree cannot be flushed. The identity is saved before the tree is. -/
def commit (ty : TreeType K V) (d : Database K V) (saveBuffer : ℕ → Memory) (created : ℕ) :
    Option (Bool × Database K V) :=
  if d.dbms.transacted then do
    let writes ← flushWrites ty saveBuffer d.set
    let set ← d.set.flush
    let dbms := d.dbms.saveId
    let result := { dbms with session := storeBlocks writes dbms.session }.commit alone created
    return (result.1, ⟨result.2, set⟩)
  else some (false, d)

/-- `rollback`, `dbms.h:83–93`. -/
def rollback (d : Database K V) : Database K V :=
  if d.dbms.transacted then ⟨d.dbms.rollback, d.set.clear⟩ else d

end Database

/-- The calls on a database. Another process may go on with what is committed. -/
inductive DatabaseAction (K V : Type)
  | construct (version : ℕ) (loadBuffer : ℕ → Memory)
  | begin (version : ℕ) (loadBuffer : ℕ → Memory)
  | genId
  | call (op : MapOp K V) (loadBuffer : ℕ → Memory)
  | commit (saveBuffer : ℕ → Memory) (created : ℕ)
  | rollback
  | close
  | restart (initial : Opening)

/-- The database with the operations of the transactions that committed and of the one that is
open, and their answers. -/
structure DatabaseLog (K V : Type) where
  database : Database K V
  committed : List (MapOp K V × Answer V)
  pending : List (MapOp K V × Answer V)

namespace DatabaseLog

/-- A new storage without a database object. -/
def start (initial : Opening) : DatabaseLog K V where
  database := ⟨⟨⟨.closed, .start initial, false⟩, false, 1, 1⟩, Btree.blank Storage.empty⟩
  committed := []
  pending := []

/-- The set that is committed. -/
def base [LinearOrder K] [Inhabited V] (h : DatabaseLog K V) : OrderedMap K V :=
  (specRun OrderedMap.empty (h.committed.map Prod.fst)).1

section Step

variable [LinearOrder K] [Inhabited K] [Inhabited V] (ty : TreeType K V)

/-- A call. -/
def step (h : DatabaseLog K V) : DatabaseAction K V → Option (DatabaseLog K V)
  | .construct version loadBuffer =>
    (h.database.construct ty version loadBuffer).map fun d ↦ { h with database := d }
  | .begin version loadBuffer =>
    (h.database.begin ty version loadBuffer).map fun d ↦ { h with database := d }
  | .genId =>
    h.database.dbms.genId.map fun r ↦ { h with database := { h.database with dbms := r.2 } }
  | .call op loadBuffer => (h.database.call ty op loadBuffer).map fun r ↦
    { h with database := r.1, pending := h.pending ++ [(op, r.2)] }
  | .commit saveBuffer created => (h.database.commit ty saveBuffer created).map fun r ↦
    if r.1 then ⟨r.2, h.committed ++ h.pending, []⟩ else { h with database := r.2 }
  | .rollback => some { h with database := h.database.rollback, pending := [] }
  | .close => some { h with
      database := { h.database with dbms := h.database.dbms.close }
      pending := [] }
  | .restart initial => some { h with
      database := { h.database with dbms := { h.database.dbms with
        session := ⟨.closed, .start initial, false⟩
        opened := false } }
      pending := [] }

/-- The tree is given up only where it has a root or is unchanged. -/
def Live (s : Btree K V) : Prop := s.root ≠ 0 ∨ s.modified = []

instance (s : Btree K V) : Decidable (Live s) := inferInstanceAs (Decidable (_ ∨ _))

/-- What is asked of the calls: versions increase, there are addresses left, 31 bits hold the
addresses and the pages that are saved, and a new process finds what is committed. -/
def Allowed (h : DatabaseLog K V) : DatabaseAction K V → Prop
  | .construct version _ =>
    h.database.dbms.opened = false ∧ h.database.dbms.session.coordinator.Above version
  | .begin version _ =>
    h.database.dbms.opened = true ∧ h.database.dbms.session.coordinator.Above version
  | .genId => h.database.dbms.opened = true ∧ h.database.dbms.id + 1 < 2 ^ 63
  | .call op loadBuffer => h.database.dbms.transacted = true ∧
    ∀ r ∈ h.database.call ty op loadBuffer, r.1.set.storage.lastAddress < 2 ^ 64
  | .commit _ created => h.database.dbms.opened = true ∧
    h.database.dbms.session.coordinator.Above created ∧
      (h.database.dbms.transacted = true → Live h.database.set ∧
        h.database.set.storage.lastAddress < 2 ^ 31 ∧
        ∀ w ∈ h.database.set.modified, ∀ n ∈ h.database.set.load w, ty.pageSize n < pageLimit)
  | .rollback => h.database.dbms.opened = true ∧
    (h.database.dbms.transacted = true → Live h.database.set)
  | .close => h.database.dbms.opened = true
  | .restart initial => 0 < initial.version ∧
    (∀ b ∈ initial.blocks.entries, b.1 ≤ initial.next ∧ b.2.version ≤ initial.version) ∧
    (Coordinator.start initial).content = h.database.dbms.session.coordinator.content

instance (h : DatabaseLog K V) : ∀ a, Decidable (h.Allowed ty a)
  | .construct _ _ | .begin _ _ | .genId | .commit _ _ | .rollback =>
    inferInstanceAs (Decidable (_ ∧ _))
  | .call _ _ => inferInstanceAs (Decidable (_ ∧ ∀ r ∈ _, _))
  | .close => inferInstanceAs (Decidable (_ = _))
  | .restart initial => decidable_of_iff' _ (and_congr_right fun _ ↦ and_congr_right fun _ ↦
      IdLog.content_eq_iff initial h.database.dbms.session.coordinator)

/-! ### What the calls keep -/

/-- The open transaction: the tree holds the set of its operations. -/
structure Begun (h : DatabaseLog K V) (t : ℕ) : Prop where
  mounted : Mounted ty (h.database.dbms.session.coordinator.overlay t) h.base
    (h.pending.map Prod.fst) h.database.set
  lastAddress :
    h.database.set.storage.lastAddress = (h.database.dbms.session.coordinator.versions t).next
  answers : h.pending.map Prod.snd = (specRun h.base (h.pending.map Prod.fst)).2
  zero : h.database.dbms.session.coordinator.overlay t 0 = none

/-- What the calls keep: the committed blocks hold the set of the committed transactions. -/
structure Keeps (h : DatabaseLog K V) : Prop where
  writer : SoleWriter h.database.dbms.session.storage h.database.dbms.session.coordinator
  unlocked : h.database.dbms.transacted = false → h.database.dbms.session.locked = false
  kept : h.database.dbms.transacted = false → ∀ t ∈ h.database.dbms.session.storage.transaction,
    (h.database.dbms.session.coordinator.versions t).blocks = ∅
  closed : h.database.dbms.opened = false → h.database.dbms.transacted = false
  id : -2 ^ 63 ≤ h.database.dbms.id ∧ h.database.dbms.id < 2 ^ 63
  zero : h.database.dbms.session.coordinator.content 0 = none
  answers : h.committed.map Prod.snd =
    (specRun OrderedMap.empty (h.committed.map Prod.fst)).2
  durable : Durable ty h.database.dbms.session.coordinator.content h.base.pairs
  idle : h.database.dbms.transacted = false → h.pending = []
  blank : h.database.dbms.opened = true → h.database.dbms.transacted = false →
    h.database.set.root = 0 → h.database.set = Btree.blank h.database.set.storage
  begun : ∀ t, h.database.dbms.session.storage = ⟨some t, true, true⟩ → h.Begun ty t

end Step

section Calls

variable [LinearOrder K] [Inhabited K] [Inhabited V] {ty : TreeType K V} {h : DatabaseLog K V}
  {d : Dbms} {t : ℕ}

/-- Without an open transaction nothing is pending. -/
theorem Keeps.ended (hk : h.Keeps ty) {database : Database K V}
    (hwriter : SoleWriter database.dbms.session.storage database.dbms.session.coordinator)
    (hcontent : database.dbms.session.coordinator.content =
      h.database.dbms.session.coordinator.content)
    (hidle : database.dbms.transacted = false) (hlocked : database.dbms.session.locked = false)
    (hkept : ∀ t ∈ database.dbms.session.storage.transaction,
      (database.dbms.session.coordinator.versions t).blocks = ∅)
    (hid : -2 ^ 63 ≤ database.dbms.id ∧ database.dbms.id < 2 ^ 63)
    (hblank : database.dbms.opened = true → database.set.root = 0 →
      database.set = Btree.blank database.set.storage) :
    Keeps ty { h with database := database, pending := [] } where
  writer := hwriter
  unlocked _ := hlocked
  kept _ := hkept
  closed _ := hidle
  id := hid
  zero := by
    show database.dbms.session.coordinator.content 0 = none
    rw [hcontent]
    exact hk.zero
  answers := hk.answers
  durable := by
    show Durable ty database.dbms.session.coordinator.content h.base.pairs
    rw [hcontent]
    exact hk.durable
  idle _ := rfl
  blank hopened _ := hblank hopened
  begun t ht := by
    have hbegun : database.dbms.session.storage.transacted = true := by rw [ht]
    exact Bool.noConfusion (hbegun.symm.trans hidle)

/-- An open transaction has not changed what is committed. -/
theorem Keeps.working (hk : h.Keeps ty) {database : Database K V}
    {pending : List (MapOp K V × Answer V)}
    (ht : database.dbms.session.storage = ⟨some t, true, true⟩)
    (hopened : database.dbms.opened = true)
    (hwriter : SoleWriter ⟨some t, true, true⟩ database.dbms.session.coordinator)
    (hcontent : database.dbms.session.coordinator.content =
      h.database.dbms.session.coordinator.content)
    (hid : -2 ^ 63 ≤ database.dbms.id ∧ database.dbms.id < 2 ^ 63)
    (hbegun : Begun ty { h with database := database, pending := pending } t) :
    Keeps ty { h with database := database, pending := pending } := by
  have htransacted : database.dbms.transacted = true := by
    rw [Dbms.transacted, ht]
  constructor
  case writer => exact ht.symm ▸ hwriter
  case unlocked | kept | idle => exact fun hidle ↦ Bool.noConfusion (htransacted.symm.trans hidle)
  case closed => exact fun hclosed ↦ Bool.noConfusion (hopened.symm.trans hclosed)
  case id => exact hid
  case zero => exact (congrFun hcontent 0).trans hk.zero
  case answers => exact hk.answers
  case durable =>
    show Durable ty database.dbms.session.coordinator.content h.base.pairs
    rw [hcontent]
    exact hk.durable
  case blank => exact fun _ hidle ↦ Bool.noConfusion (htransacted.symm.trans hidle)
  case begun =>
    intro u hu
    cases ht.symm.trans hu
    exact hbegun

/-- The tree of a transaction that begins. -/
theorem Keeps.opens (hk : h.Keeps ty)
    (hwriter : SoleWriter ⟨some t, true, true⟩ d.session.coordinator)
    (ht : d.session.storage = ⟨some t, true, true⟩)
    (hcontent : d.session.coordinator.content = h.database.dbms.session.coordinator.content)
    (hempty : (d.session.coordinator.versions t).blocks = ∅) (loadBuffer : ℕ → Memory) :
    ∃ set, opened (d.seen ty loadBuffer) = some set ∧
      Mounted ty (d.session.coordinator.overlay t) h.base [] set ∧
      set.storage.lastAddress = (d.session.coordinator.versions t).next ∧
      d.session.coordinator.overlay t 0 = none := by
  have hoverlay : d.session.coordinator.overlay t = h.database.dbms.session.coordinator.content :=
    (overlay_of_empty hempty).trans hcontent
  have hzero : d.session.coordinator.overlay t 0 = none := hoverlay ▸ hk.zero
  rw [Dbms.seen_of_writer (ht ▸ hwriter) ht hzero]
  have hdurable : Durable ty (d.session.coordinator.overlay t) h.base.pairs := hoverlay ▸ hk.durable
  obtain ⟨set, hopen, hmounted, hlast⟩ := hdurable.mounted hwriter.positive.ne'
    (fun w hw ↦ hwriter.overlay_le rfl hw) (hwriter.room t rfl)
  exact ⟨set, hopen, hmounted, hlast, hzero⟩

private theorem Keeps.construct (hk : h.Keeps ty) {version : ℕ} {loadBuffer : ℕ → Memory}
    (ha : h.Allowed ty (.construct version loadBuffer)) :
    ∃ database, h.database.construct ty version loadBuffer = some database ∧
      Keeps ty { h with database := database } := by
  obtain ⟨hopened, habove⟩ := ha
  have hidle := hk.closed hopened
  obtain ⟨t, s, hbegin, hwriter, hcontent, hempty⟩ := Session.begin_of_writer hk.writer hidle
    (hk.unlocked hidle) (hk.kept hidle) habove
  obtain ⟨set, hopen, hmounted, -, -⟩ :=
    hk.opens (d := { h.database.dbms with session := ⟨⟨some t, true, true⟩, s, true⟩ }) hwriter rfl
      hcontent hempty loadBuffer
  obtain ⟨hrollback, hclosed, hdiscarded⟩ :=
    Session.rollback_of_writer ⟨⟨some t, true, true⟩, s, true⟩ hwriter rfl
  have hdbms : h.database.dbms.construct version true =
      some ⟨⟨.closed, s.discarded t, false⟩, true, 1, h.database.dbms.startId⟩ := by
    rw [Dbms.construct, hbegin]
    dsimp only
    rw [hrollback]
  have hconstruct : h.database.construct ty version loadBuffer =
      some ⟨⟨⟨.closed, s.discarded t, false⟩, true, 1, h.database.dbms.startId⟩, set⟩ := by
    rw [Database.construct, hbegin]
    dsimp only
    rw [hopen, hdbms]
    rfl
  refine ⟨_, hconstruct, ?_⟩
  rw [hk.idle hidle]
  exact hk.ended hclosed (hdiscarded.trans hcontent) rfl rfl (by rintro _ ⟨⟩)
    (by dsimp only; omega)
    fun _ hroot ↦ hmounted.eq_blank hroot (fresh_of_opened hopen).modified

private theorem Keeps.begin (hk : h.Keeps ty) {version : ℕ} {loadBuffer : ℕ → Memory}
    (ha : h.Allowed ty (.begin version loadBuffer)) :
    ∃ database, h.database.begin ty version loadBuffer = some database ∧
      Keeps ty { h with database := database } := by
  obtain ⟨hopened, habove⟩ := ha
  rw [Database.begin]
  by_cases hbegun : h.database.dbms.transacted = true
  · exact ⟨h.database, if_pos hbegun, hk⟩
  rw [if_neg hbegun]
  have hidle : h.database.dbms.transacted = false := Bool.eq_false_iff.2 hbegun
  obtain ⟨t, s, hbegin, hwriter, hcontent, hempty⟩ := Session.begin_of_writer hk.writer hidle
    (hk.unlocked hidle) (hk.kept hidle) habove
  obtain ⟨id, hid, hdbms⟩ : ∃ id : ℤ, (-2 ^ 63 ≤ id ∧ id < 2 ^ 63) ∧
      h.database.dbms.begin version true =
        some ⟨⟨⟨some t, true, true⟩, s.load idAddress, true⟩, h.database.dbms.opened, id, id⟩ := by
    refine ⟨savedId (Dbms.read { h.database.dbms with
      session := ⟨⟨some t, true, true⟩, s, true⟩ } idAddress), savedId_bounds _, ?_⟩
    rw [Dbms.begin, if_neg hbegun, hbegin]
  obtain ⟨set, hopen, hmounted, hlast, hzero⟩ :=
    hk.opens (d := ⟨⟨⟨some t, true, true⟩, s.load idAddress, true⟩, h.database.dbms.opened, id, id⟩)
      (hwriter.load idAddress) rfl hcontent hempty loadBuffer
  have hreload := reload_of_blank (hk.blank hopened hidle) (Dbms.seen
    ⟨⟨⟨some t, true, true⟩, s.load idAddress, true⟩, h.database.dbms.opened, id, id⟩ ty loadBuffer)
  refine ⟨⟨⟨⟨⟨some t, true, true⟩, s.load idAddress, true⟩, h.database.dbms.opened, id, id⟩, set⟩,
    ?_, ?_⟩
  · rw [hdbms, Option.bind_some]
    exact (if_pos rfl).trans (by rw [hreload, hopen]; rfl)
  have hpending : h.pending = [] := hk.idle hidle
  refine hk.working rfl hopened (hwriter.load idAddress) hcontent hid ?_
  constructor
  case mounted =>
    show Mounted ty (s.overlay t) h.base (h.pending.map Prod.fst) set
    rw [hpending]
    exact hmounted
  case lastAddress => exact hlast
  case answers =>
    show h.pending.map Prod.snd = (specRun h.base (h.pending.map Prod.fst)).2
    rw [hpending]
    rfl
  case zero => exact hzero

private theorem Keeps.call (hk : h.Keeps ty) {op : MapOp K V} {loadBuffer : ℕ → Memory}
    (ha : h.Allowed ty (.call op loadBuffer)) :
    ∃ r, h.database.call ty op loadBuffer = some r ∧
      Keeps ty { h with database := r.1, pending := h.pending ++ [(op, r.2)] } := by
  obtain ⟨hbegun, hroom⟩ := ha
  obtain ⟨t, ht⟩ := hk.writer.exists_transaction hbegun
  obtain ⟨hmounted, hlast, hanswers, hzero⟩ := hk.begun t ht
  have hattached : { h.database.set with storage := h.database.dbms.seen ty loadBuffer } =
      h.database.set := by
    rw [Dbms.seen_of_writer hk.writer ht hzero, ← hlast]
    exact hmounted.attached hk.writer.positive.ne'
  obtain ⟨set, hstep, hle, hmounted'⟩ := hmounted.step op
  have hcall : h.database.call ty op loadBuffer =
      some (⟨{ h.database.dbms with
        session := createPages (set.storage.lastAddress - h.database.dbms.lastAddress)
          h.database.dbms.session }, set⟩,
        (op.spec (specRun h.base (h.pending.map Prod.fst)).1).2) := by
    rw [Database.call, hattached, hstep]
    rfl
  have hlt : set.storage.lastAddress < 2 ^ 64 := hroom _ hcall
  have hlastAddress : h.database.dbms.lastAddress =
      (h.database.dbms.session.coordinator.versions t).next := by
    rw [Dbms.lastAddress, ht]
  obtain ⟨s, hpages, hwriter, hcontent, hnext, hseen, hzero'⟩ :=
    createPages_of_writer ty (set.storage.lastAddress - h.database.dbms.lastAddress)
      h.database.dbms.session.locked (ht ▸ hk.writer) (by omega) hzero
  have hsession : h.database.dbms.session = ⟨⟨some t, true, true⟩,
      h.database.dbms.session.coordinator, h.database.dbms.session.locked⟩ := by rw [← ht]
  rw [hsession, hpages] at hcall
  have hopened : h.database.dbms.opened = true := by
    apply Bool.eq_true_of_not_eq_false
    exact fun hclosed ↦ Bool.noConfusion (hbegun.symm.trans (hk.closed hclosed))
  refine ⟨_, hcall, ?_⟩
  refine hk.working rfl hopened hwriter hcontent hk.id ?_
  constructor
  case mounted =>
    show Mounted ty (s.overlay t) h.base ((h.pending ++ [_]).map Prod.fst) set
    rw [List.map_append]
    exact (hmounted' hlt).congr hseen
  case lastAddress =>
    show set.storage.lastAddress = (s.versions t).next
    omega
  case answers =>
    show (h.pending ++ [_]).map Prod.snd = (specRun h.base ((h.pending ++ [_]).map Prod.fst)).2
    rw [List.map_append, List.map_append, specRun_append, hanswers]
    rfl
  case zero => exact hzero'

private theorem Keeps.genId (hk : h.Keeps ty) (ha : h.Allowed ty .genId) :
    ∃ r, h.database.dbms.genId = some r ∧
      Keeps ty { h with database := { h.database with dbms := r.2 } } := by
  obtain ⟨-, hroom⟩ := ha
  refine ⟨_, if_pos hroom, ⟨hk.writer, hk.unlocked, hk.kept, hk.closed, ?_, hk.zero, hk.answers,
    hk.durable, hk.idle, hk.blank, fun t ht ↦ ?_⟩⟩
  · have := hk.id.1
    exact ⟨by dsimp only; omega, hroom⟩
  · obtain ⟨hmounted, hlast, hanswers, hzero⟩ := hk.begun t ht
    exact ⟨hmounted, hlast, hanswers, hzero⟩

private theorem Keeps.commit (hk : h.Keeps ty) {saveBuffer : ℕ → Memory} {created : ℕ}
    (ha : h.Allowed ty (.commit saveBuffer created)) :
    ∃ r, h.database.commit ty saveBuffer created = some r ∧
      Keeps ty (if r.1 then ⟨r.2, h.committed ++ h.pending, []⟩
        else { h with database := r.2 }) := by
  obtain ⟨hopened, habove, hflush⟩ := ha
  rw [Database.commit]
  by_cases hbegun : h.database.dbms.transacted = true
  · obtain ⟨hlive, hlt, hsize⟩ := hflush hbegun
    obtain ⟨t, ht⟩ := hk.writer.exists_transaction hbegun
    obtain ⟨hmounted, -, hanswers, hzero⟩ := hk.begun t ht
    obtain ⟨s, hsaved, hwriter, hmounted', hzero', habove'⟩ :=
      Dbms.saveId_of_writer hk.writer ht hk.id rfl hmounted hzero
    obtain ⟨writes, set, hwrites, hset, haddresses, hdurable, hblank⟩ :=
      hmounted'.flushed hlive hlt hsize saveBuffer
    obtain ⟨s₁, hstored, hwriter₁, hoverlay, habove₁⟩ := storeBlocks_of_writer writes
      h.database.dbms.session.locked hwriter fun write hwrite ↦ by
        have := haddresses write hwrite
        omega
    obtain ⟨s₂, hcommit, hwriter₂, hcontent, hempty⟩ := Session.commit_of_writer
      ⟨⟨some t, true, true⟩, s₁, h.database.dbms.session.locked⟩ hwriter₁ rfl
      (habove₁ created (habove' created habove))
    have hresult := Dbms.commit_of_saved (d := ⟨⟨⟨some t, true, true⟩, s₁,
      h.database.dbms.session.locked⟩, h.database.dbms.opened, h.database.dbms.id,
      h.database.dbms.id⟩) rfl rfl hcommit
    refine ⟨(true, ⟨⟨⟨⟨some t, false, true⟩, s₂, false⟩, h.database.dbms.opened,
      h.database.dbms.id, h.database.dbms.id⟩, set⟩), ?_, ?_⟩
    · rw [if_pos hbegun, hwrites, hset, hsaved]
      simp only [Option.bind_eq_bind, Option.bind_some, hstored, hresult, Option.pure_def]
    have hbase : ((specRun OrderedMap.empty ((h.committed ++ h.pending).map Prod.fst)).1 :
        OrderedMap K V) = (specRun h.base (h.pending.map Prod.fst)).1 := by
      rw [List.map_append, specRun_append]
      rfl
    have hcontent' : s₂.content = overwritten (s.overlay t) writes := hcontent.trans hoverlay
    constructor
    case writer => exact hwriter₂
    case unlocked => exact fun _ ↦ rfl
    case kept =>
      intro _ u hu
      cases hu
      exact hempty
    case closed => exact fun _ ↦ rfl
    case id => exact hk.id
    case zero =>
      refine (congrFun hcontent' 0).trans ?_
      rw [overwritten_of_notMem]
      · exact hzero'
      · intro write hwrite
        have := haddresses write hwrite
        omega
    case answers =>
      show (h.committed ++ h.pending).map Prod.snd =
        (specRun OrderedMap.empty ((h.committed ++ h.pending).map Prod.fst)).2
      rw [List.map_append, List.map_append, specRun_append, hk.answers, hanswers]
      rfl
    case durable =>
      show Durable ty s₂.content (specRun OrderedMap.empty
        ((h.committed ++ h.pending).map Prod.fst)).1.pairs
      rw [hbase, hcontent']
      exact hdurable
    case idle => exact fun _ ↦ rfl
    case blank => exact fun _ _ ↦ hblank
    case begun => rintro _ ⟨⟩
  · exact ⟨(false, h.database), if_neg hbegun, hk⟩

private theorem Keeps.rollback (hk : h.Keeps ty) (ha : h.Allowed ty .rollback) :
    Keeps ty { h with database := h.database.rollback, pending := [] } := by
  obtain ⟨hopened, hlive⟩ := ha
  rw [Database.rollback]
  by_cases hbegun : h.database.dbms.transacted = true
  · obtain ⟨t, ht⟩ := hk.writer.exists_transaction hbegun
    obtain ⟨hmounted, -⟩ := hk.begun t ht
    obtain ⟨hrollback, hclosed, hcontent⟩ := Session.rollback_of_writer _ hk.writer ht
    have hdbms : h.database.dbms.rollback = { h.database.dbms with session :=
        ⟨.closed, h.database.dbms.session.coordinator.discarded t, false⟩ } := by
      rw [Dbms.rollback, if_pos hbegun, hrollback]
    rw [if_pos hbegun, hdbms]
    refine hk.ended hclosed hcontent rfl rfl (by rintro _ ⟨⟩) hk.id fun _ _ ↦
      clear_blank fun hroot ↦ ?_
    exact hmounted.eq_blank hroot ((hlive hbegun).resolve_left (not_not.2 hroot))
  · have hidle : h.database.dbms.transacted = false := Bool.eq_false_iff.2 hbegun
    rw [if_neg hbegun]
    exact hk.ended hk.writer rfl hidle (hk.unlocked hidle) (hk.kept hidle) hk.id
      fun hopened ↦ hk.blank hopened hidle

private theorem Keeps.close (hk : h.Keeps ty) :
    Keeps ty { h with
      database := { h.database with dbms := h.database.dbms.close }
      pending := [] } := by
  obtain ⟨s, hclose, hclosed, hcontent⟩ : ∃ s, h.database.dbms.close =
      { h.database.dbms with session := ⟨.closed, s, false⟩, opened := false } ∧
        SoleWriter .closed s ∧ s.content = h.database.dbms.session.coordinator.content := by
    by_cases hbegun : h.database.dbms.transacted = true
    · obtain ⟨t, ht⟩ := hk.writer.exists_transaction hbegun
      obtain ⟨hrollback, hclosed, hcontent⟩ := Session.rollback_of_writer _ hk.writer ht
      refine ⟨_, ?_, hclosed, hcontent⟩
      rw [Dbms.close, Dbms.rollback, if_pos hbegun, hrollback]
      rfl
    · obtain ⟨s, hclose, hclosed, hcontent⟩ := Session.close_of_writer hk.writer
      refine ⟨s, ?_, hclosed, hcontent⟩
      rw [Dbms.close, Dbms.rollback, if_neg hbegun, hclose,
        hk.unlocked (Bool.eq_false_iff.2 hbegun)]
  rw [hclose]
  refine hk.ended hclosed hcontent rfl rfl ?_ hk.id ?_
  · rintro _ ⟨⟩
  · rintro ⟨⟩

private theorem Keeps.restart (hk : h.Keeps ty) {initial : Opening}
    (ha : h.Allowed ty (.restart initial)) :
    Keeps ty { h with
      database := { h.database with dbms := { h.database.dbms with
        session := ⟨.closed, .start initial, false⟩
        opened := false } }
      pending := [] } := by
  obtain ⟨hpositive, hblocks, hcontent⟩ := ha
  have hentry (a : ℕ) (b : Block) (hb : initial.block a = some b) :
      a ≤ initial.next ∧ b.version ≤ initial.version := hblocks ⟨a, b⟩ (AList.mem_lookup_iff.1 hb)
  have hwriter : SoleWriter .closed (.start initial) := by
    refine .start (fun a ha ↦ ?_) hpositive fun a b hb ↦ (hentry a b hb).2
    obtain ⟨b, hb⟩ := Option.isSome_iff_exists.1 ha
    exact (hentry a b hb).1
  refine hk.ended hwriter hcontent rfl rfl ?_ hk.id ?_
  · rintro _ ⟨⟩
  · rintro ⟨⟩

private theorem keeps_start {initial : Opening} (hempty : initial.blocks = ∅)
    (hpositive : 0 < initial.version) : (start initial : DatabaseLog K V).Keeps ty := by
  have hnone (a : ℕ) : initial.block a = none := by
    rw [Allocator.block, hempty, AList.lookup_empty]
  have hcontent : (Coordinator.start initial).content = fun _ ↦ none := by
    ext1 a
    rw [content_single (v := 0) rfl]
    exact congrArg (Option.map Block.content) (hnone a)
  constructor
  case writer =>
    refine .start (fun a ha ↦ ?_) hpositive fun a b hb ↦ ?_
    · rw [hnone] at ha
      cases ha
    · rw [hnone] at hb
      cases hb
  case unlocked | closed | idle => exact fun _ ↦ rfl
  case kept => rintro _ _ ⟨⟩
  case id =>
    show -2 ^ 63 ≤ (1 : ℤ) ∧ (1 : ℤ) < 2 ^ 63
    decide
  case zero => exact congrFun hcontent 0
  case answers => rfl
  case durable =>
    show Durable ty (Coordinator.start initial).content []
    rw [hcontent]
    exact durable_empty
  case blank => rintro ⟨⟩
  case begun => rintro _ ⟨⟩

/-- Every allowed call has an outcome. -/
theorem Keeps.exists_step (hk : h.Keeps ty) {a : DatabaseAction K V} (ha : h.Allowed ty a) :
    ∃ h', h.step ty a = some h' ∧ h'.Keeps ty := by
  cases a with
  | construct version loadBuffer =>
    obtain ⟨d, hd, hkeeps⟩ := hk.construct ha
    exact ⟨_, congrArg (Option.map _) hd, hkeeps⟩
  | begin version loadBuffer =>
    obtain ⟨d, hd, hkeeps⟩ := hk.begin ha
    exact ⟨_, congrArg (Option.map _) hd, hkeeps⟩
  | genId =>
    obtain ⟨r, hr, hkeeps⟩ := hk.genId ha
    exact ⟨_, congrArg (Option.map _) hr, hkeeps⟩
  | call op loadBuffer =>
    obtain ⟨r, hr, hkeeps⟩ := hk.call ha
    exact ⟨_, congrArg (Option.map _) hr, hkeeps⟩
  | commit saveBuffer created =>
    obtain ⟨r, hr, hkeeps⟩ := hk.commit ha
    exact ⟨_, congrArg (Option.map _) hr, hkeeps⟩
  | rollback => exact ⟨_, rfl, hk.rollback ha⟩
  | close => exact ⟨_, rfl, hk.close⟩
  | restart initial => exact ⟨_, rfl, hk.restart ha⟩

variable (ty h) in
/-- The database is the ordered map of its committed transactions and of the one that is open. -/
structure Serial : Prop where
  answers : (h.committed ++ h.pending).map Prod.snd =
    (specRun OrderedMap.empty ((h.committed ++ h.pending).map Prod.fst)).2
  current : h.database.dbms.transacted = true →
    h.database.set.held =
        some (specRun OrderedMap.empty ((h.committed ++ h.pending).map Prod.fst)).1.pairs ∧
      h.database.set.stats.treeSize =
        (specRun OrderedMap.empty ((h.committed ++ h.pending).map Prod.fst)).1.size
  stored : ∀ (order : ℕ) (loadBuffer : ℕ → Memory) (last : ℕ), order ≠ 0 →
    (∀ w, (h.database.dbms.session.coordinator.content w).isSome → w ≤ last) →
    ∃ s, opened (seen ty order loadBuffer h.database.dbms.session.coordinator.content last) =
      some s ∧ s.held = some h.base.pairs ∧ s.stats.treeSize = h.base.size
  outcome : ∀ a, h.Allowed ty a → (h.step ty a).isSome

private theorem Keeps.serial (hk : h.Keeps ty) : h.Serial ty where
  answers := by
    rw [List.map_append, List.map_append, specRun_append, hk.answers]
    cases hbegun : h.database.dbms.transacted with
    | false =>
      rw [hk.idle hbegun]
      rfl
    | true =>
      obtain ⟨t, ht⟩ := hk.writer.exists_transaction hbegun
      exact congrArg (_ ++ ·) (hk.begun t ht).answers
  current hbegun := by
    obtain ⟨t, ht⟩ := hk.writer.exists_transaction hbegun
    obtain ⟨-, -, -, -, -, hholds, -⟩ := (hk.begun t ht).mounted.holds
    rw [List.map_append, specRun_append]
    exact ⟨hholds.held, hholds.treeSize⟩
  stored order loadBuffer last horder hbound := by
    obtain ⟨s, hopen, hholds⟩ := hk.durable.opens order loadBuffer last horder hbound
    exact ⟨s, hopen, hholds.held, hholds.treeSize⟩
  outcome a ha := by
    obtain ⟨h', hstep, -⟩ := hk.exists_step ha
    rw [hstep]
    rfl

/-- In every run the answers of the set are those of an ordered map that has run the operations of
the committed transactions and of the open one. A tree that is opened on the committed blocks holds
what the committed transactions have left, and no allowed call fails. -/
theorem serial_of_reached {initial : Opening} (hempty : initial.blocks = ∅)
    (hpositive : 0 < initial.version)
    (hs : Reached (step ty) (Allowed ty) (start initial) h) : h.Serial ty := by
  refine (hs.invariant (Keeps ty) (keeps_start hempty hpositive) fun h h' a hk ha hstep ↦ ?_).serial
  obtain ⟨h₁, hstep₁, hkeeps⟩ := hk.exists_step ha
  rw [hstep] at hstep₁
  cases hstep₁
  exact hkeeps

end Calls

/-- What earlier pages have left in a buffer. -/
def used : ℕ → Memory := fun _ _ ↦ 7

/-- A key with a number as its name. -/
def numberKey : SetKey := ⟨1, .numeric 0x3ff0000000000000, by decide, by decide⟩

/-- A key with a text as its name. -/
def textKey : SetKey := ⟨1, .text [110, 97], by decide, by decide⟩

/-- A record with a number. -/
def numberRecord : SetRecord := ⟨0, 0, .numeric 0x4000000000000000, zero_narrow, by decide⟩

/-- A record with a text. -/
def textRecord : SetRecord := ⟨0, 2, .text [120, 121], by decide, by decide⟩

/-- Two pairs are committed and one of them is erased in a transaction that is given up. Another
process finds both in the table. -/
def restarted : List (DatabaseAction SetKey SetRecord) :=
  [.construct 2 used, .begin 3 used, .genId, .call (.insert textKey textRecord) used,
    .call (.insert numberKey numberRecord) used, .commit used 4, .begin 5 used,
    .call (.eraseOne textKey) used, .rollback, .begin 6 used,
    .call (.insert ⟨2, .text [], by decide, ordered_empty⟩ numberRecord) used,
    .restart ⟨⟨4, 33, 0, AList.insert 1 ⟨[33], 3⟩ (AList.insert 2 ⟨[2], 3⟩ (AList.insert 4 ⟨[33], 3⟩
      (AList.insert 8 ⟨[2], 3⟩ (AList.insert 33 ⟨[80, 0, 0, 0, 32, 2, 0, 1, 0, 32, 1, 1, 6, 0, 5, 2,
        0, 67, 240, 63, 1, 3, 13, 0, 2, 32, 0, 106, 0, 0, 110, 97, 0, 0, 37, 0, 73, 0, 64, 0, 2, 38,
        0, 80, 0, 0, 0, 120, 121], 3⟩ ∅))))⟩, fun _ ↦ ⟨id, {1, 2, 4, 8, 33}⟩⟩,
    .construct 5 used, .begin 6 used, .call (.subscript textKey) used,
    .call (.erase numberKey) used]

/-- A set with its own encoding over a restart: the second process reads from the table what the
first one committed. -/
theorem serial_of_reached_restarted :
    ∃ h, runAllowed (step setType) (Allowed setType) (start (.plain ⟨1, 32, 0, ∅⟩)) restarted =
        some h ∧
      h.committed.map Prod.snd = [.done true, .done true] ∧
      h.pending.map Prod.snd = [.data (some textRecord), .count 1] ∧ h.Serial setType := by
  have hrun : (runAllowed (step setType) (Allowed setType) (start (.plain ⟨1, 32, 0, ∅⟩))
      restarted).map (fun h ↦ (h.committed.map Prod.snd, h.pending.map Prod.snd)) =
        some ([.done true, .done true], [.data (some textRecord), .count 1]) := by decide +kernel
  obtain ⟨h, hs, hvalue⟩ := Option.map_eq_some_iff.1 hrun
  rw [Prod.mk.injEq] at hvalue
  exact ⟨h, hs, hvalue.1, hvalue.2,
    serial_of_reached rfl (by decide) (reached_of_runAllowed .start hs)⟩

end DatabaseLog

end LibSpaces.Spaces
