import LibSpaces.Stx.Persistence
import LibSpaces.Stx.Relations

/-!
# A tree that is opened again

A session opens a tree on its storage, works on it and ends with a flush or with a rollback,
`src/src/storage/spaces/dbms.h:61–93`. An empty tree is not flushed, and `clear` leaves it as it is.
-/

namespace LibSpaces.Stx

open LibSpaces.Base

variable {K V : Type}

/-- A storage without pages. -/
def Storage.empty : Storage K V := ⟨fun _ ↦ none, fun _ ↦ none, 0⟩

/-- In the empty storage no leaf points to itself. -/
theorem Storage.unlooped_empty : (Storage.empty : Storage K V).Unlooped := fun _ _ h ↦ nomatch h

namespace Btree

/-- `dbms::rollback`: the transaction is given up, then the tree is cleared. -/
def rollback (s : Btree K V) (storage : Storage K V) : Btree K V :=
  { s with storage := storage }.clear

/-! ### The first and the last leaf -/

section Alike

variable {s t : Btree K V}

/-- The trees may differ in the leaves they remember as the first and the last one. -/
structure Alike (s t : Btree K V) : Prop where
  storage : s.storage = t.storage
  nodesLoaded : s.nodesLoaded = t.nodesLoaded
  modified : s.modified = t.modified
  root : s.root = t.root
  stats : s.stats = t.stats

/-- No operation looks at the first or the last leaf. -/
theorem kept_alike : Kept (Alike (K := K) (V := V)) where
  load h := by
    funext w
    rw [load, load, h.nodesLoaded, h.storage]
  root h := h.root
  lastAddress h := by rw [h.storage]
  modified h := h.modified
  put h w n := ⟨h.storage, by simp only [put, h.nodesLoaded], by simp only [put, h.modified],
    h.root, h.stats⟩
  allocate h n := ⟨by simp only [allocate, put, h.storage],
    by simp only [allocate, put, h.storage, h.nodesLoaded],
    by simp only [allocate, put, h.storage, h.modified], h.root, h.stats⟩
  setRoot h _ := ⟨h.storage, h.nodesLoaded, h.modified, rfl, h.stats⟩
  setHead h _ := ⟨h.storage, h.nodesLoaded, h.modified, h.root, h.stats⟩
  setLast h _ := ⟨h.storage, h.nodesLoaded, h.modified, h.root, h.stats⟩
  setSize h f := ⟨h.storage, h.nodesLoaded, h.modified, h.root, by rw [h.stats]⟩
  write h w _ n := ⟨h.storage, by simp only [h.nodesLoaded], h.modified, h.root, h.stats⟩

/-- The trees may differ in the leaf they remember as the first one. -/
structure Kin (s t : Btree K V) : Prop extends Alike s t where
  lastSurface : s.lastSurface = t.lastSurface

/-- No operation looks at the first leaf. -/
theorem kept_kin : Kept (Kin (K := K) (V := V)) where
  load h := kept_alike.load h.toAlike
  root h := h.root
  lastAddress h := kept_alike.lastAddress h.toAlike
  modified h := h.modified
  put h w n := ⟨kept_alike.put h.toAlike w n, h.lastSurface⟩
  allocate h n := ⟨kept_alike.allocate h.toAlike n, h.lastSurface⟩
  setRoot h w := ⟨kept_alike.setRoot h.toAlike w, h.lastSurface⟩
  setHead h w := ⟨kept_alike.setHead h.toAlike w, h.lastSurface⟩
  setLast h w := ⟨kept_alike.setLast h.toAlike w, rfl⟩
  setSize h f := ⟨kept_alike.setSize h.toAlike f, h.lastSurface⟩
  write h w hw n := ⟨kept_alike.write h.toAlike w hw n, h.lastSurface⟩

private theorem inorder_congr (h : s.load = t.load) (fuel : ℕ) :
    s.inorder fuel = t.inorder fuel := by
  induction fuel with
  | zero => rfl
  | succ fuel ih =>
    funext w
    unfold inorder
    rw [h, ih]

private theorem held_congr (hload : s.load = t.load) (hroot : s.root = t.root) :
    s.held = t.held := by
  unfold held depth
  rw [hload, hroot, inorder_congr hload]

end Alike

variable [LinearOrder K] [Inhabited K] {tr : Traits} {s s' s₀ t : Btree K V} {st : Storage K V}
  {kvs : List (K × V)} {m : OrderedMap K V} {R : Btree K V → Btree K V → Prop}

/-- A tree that is related to one that holds the pairs answers a run as that one does. -/
theorem Kept.run_spec [Inhabited V] (hR : Kept R) (h : R s t) (ht : Represents tr t m.pairs)
    (ops : List (MapOp K V)) :
    ∃ s' t', s.run tr ops = some (s', (specRun m ops).2) ∧ R s' t' ∧
      Represents tr t' (specRun m ops).1.pairs ∧ Within t t' := by
  obtain ⟨t', heq, ht', hwithin⟩ := Btree.run_spec ht ops
  have hagree := hR.run h tr ops
  rw [heq] at hagree
  generalize hout : s.run tr ops = out at hagree
  cases hagree with
  | @some a _ hab =>
    obtain ⟨s', answers⟩ := a
    obtain ⟨h', rfl⟩ : R s' t' ∧ answers = _ := hab
    exact ⟨s', t', rfl, h', ht', hwithin⟩

/-- The tree holds the pairs, whatever it remembers as its first and last leaf. -/
def Holds (tr : Traits) (s : Btree K V) (kvs : List (K × V)) : Prop :=
  ∃ t, Alike s t ∧ Represents tr t kvs

/-- The pairs below the root are the ones that the tree holds. -/
theorem Holds.held (h : Holds tr s kvs) : s.held = some kvs := by
  obtain ⟨t, ht, hrep⟩ := h
  rw [held_congr (kept_alike.load ht) ht.root, held_spec hrep.searchable]

/-- The size is the number of pairs. -/
theorem Holds.treeSize (h : Holds tr s kvs) : s.stats.treeSize = kvs.length := by
  obtain ⟨t, ht, hrep⟩ := h
  rw [ht.stats, treeSize_spec hrep.searchable]

/-- No leaf points to itself. -/
theorem Holds.unlooped (h : Holds tr s kvs) : s.Unlooped := by
  obtain ⟨t, ht, hrep⟩ := h
  have hunlooped : t.Unlooped := by
    cases hrep with
    | bare hb => exact hb.chain.unlooped
    | rooted t' ht' => exact ht'.chain.unlooped
  intro w n hn
  rw [kept_alike.load ht] at hn
  exact hunlooped w n hn

/-- There is no root where there are no pairs. -/
theorem Holds.root_eq_zero (h : Holds tr s kvs) : s.root = 0 ↔ kvs = [] := by
  obtain ⟨t, ht, hrep⟩ := h
  rw [ht.root]
  cases hrep with
  | bare hb => exact iff_of_true hb.root rfl
  | rooted t' ht' =>
    exact iff_of_false (Rooted.root_ne ht'.root ht'.owned) (ht'.filled.pairs_ne_nil le_rfl)

omit [LinearOrder K] [Inhabited K] in
private theorem LeafChain.of_load {L : List ℕ} (hc : LeafChain s L) (hload : s'.load = s.load)
    (hle : s.storage.lastAddress ≤ s'.storage.lastAddress)
    (hlast : s'.lastSurface = s.lastSurface) : LeafChain s' L :=
  hc.congr (fun _ _ _ _ ⟨kvs, hcell⟩ ↦ ⟨kvs, hload ▸ hcell⟩) hlast hle
    fun w n hn ↦ hc.unlooped w n (hload ▸ hn)

omit [LinearOrder K] [Inhabited K] in
private theorem Barren.of_load (hs : Barren s) (hload : s'.load = s.load) (hroot : s'.root = s.root)
    (hle : s.storage.lastAddress ≤ s'.storage.lastAddress)
    (hlast : s'.lastSurface = s.lastSurface) (hsize : s'.stats.treeSize = s.stats.treeSize) :
    Barren s' :=
  ⟨hroot.trans hs.root, hs.chain.of_load hload hle hlast, hsize.trans hs.treeSize⟩

private theorem Grounded.of_load {h lo : ℕ} {t : Shape K V h} (ht : Grounded tr lo s t)
    (hload : s'.load = s.load) (hroot : s'.root = s.root)
    (hle : s.storage.lastAddress ≤ s'.storage.lastAddress)
    (hlast : s'.lastSurface = s.lastSurface) (hsize : s'.stats.treeSize = s.stats.treeSize) :
    Grounded tr lo s' t :=
  ⟨hroot.trans ht.root, ht.stored.of_load_eq fun w _ ↦ congrFun hload w, ht.filled, ht.sorted,
    ht.owned.mono hle, ht.chain.of_load hload hle hlast, hsize.trans ht.treeSize⟩

/-- A tree with the same nodes holds the same pairs. -/
theorem Represents.of_load (h : Represents tr s kvs) (hload : s'.load = s.load)
    (hroot : s'.root = s.root) (hle : s.storage.lastAddress ≤ s'.storage.lastAddress)
    (hhead : s'.headsurface = s.headsurface) (hlast : s'.lastSurface = s.lastSurface)
    (hsize : s'.stats.treeSize = s.stats.treeSize) : Represents tr s' kvs := by
  cases h with
  | bare hb =>
    exact .bare ⟨hb.toBarren.of_load hload hroot hle hlast hsize, hhead.trans hb.headsurface⟩
  | rooted t ht =>
    exact .rooted t
      ⟨ht.toGrounded.of_load hload hroot hle hlast hsize, hhead.trans ht.headsurface⟩

private theorem Searchable.of_load (h : Searchable tr s kvs) (hload : s'.load = s.load)
    (hroot : s'.root = s.root) (hle : s.storage.lastAddress ≤ s'.storage.lastAddress)
    (hlast : s'.lastSurface = s.lastSurface) (hsize : s'.stats.treeSize = s.stats.treeSize) :
    Searchable tr s' kvs := by
  cases h with
  | bare hb => exact .bare (hb.of_load hload hroot hle hlast hsize)
  | rooted t ht => exact .rooted t (ht.of_load hload hroot hle hlast hsize)

/-- A tree is searchable where it holds its pairs once its first leaf is known. -/
theorem searchable_iff : Searchable tr s kvs ↔ ∃ t, Kin s t ∧ Represents tr t kvs := by
  constructor
  · intro h
    cases h with
    | bare hb =>
      exact ⟨{ s with headsurface := 0 }, ⟨⟨rfl, rfl, rfl, rfl, rfl⟩, rfl⟩,
        .bare ⟨hb.of_load rfl rfl le_rfl rfl rfl, rfl⟩⟩
    | rooted t ht =>
      exact ⟨{ s with headsurface := t.leaves.headD 0 }, ⟨⟨rfl, rfl, rfl, rfl, rfl⟩, rfl⟩,
        .rooted t ⟨ht.of_load rfl rfl le_rfl rfl rfl, rfl⟩⟩
  · rintro ⟨t, ht, hrep⟩
    exact hrep.searchable.of_load (kept_kin.load ht) ht.root (by rw [ht.storage]) ht.lastSurface
      (by rw [ht.stats])

private theorem Searchable.holds (h : Searchable tr s kvs) : Holds tr s kvs := by
  obtain ⟨t, ht, hrep⟩ := searchable_iff.1 h
  exact ⟨t, ht.toAlike, hrep⟩

/-- Another tree with the same pages, root and size holds the same pairs. -/
theorem Holds.of_load (h : Holds tr s kvs) (hload : s'.load = s.load) (hroot : s'.root = s.root)
    (hle : s.storage.lastAddress ≤ s'.storage.lastAddress)
    (hsize : s'.stats.treeSize = s.stats.treeSize) : Holds tr s' kvs := by
  obtain ⟨t, ht, hrep⟩ := h
  refine ⟨{ s' with headsurface := t.headsurface, lastSurface := t.lastSurface },
    ⟨rfl, rfl, rfl, rfl, rfl⟩, hrep.of_load ?_ (hroot.trans ht.root) (ht.storage ▸ hle) rfl rfl
      (hsize.trans (by rw [ht.stats]))⟩
  exact hload.trans (kept_alike.load ht)

/-- Where there are pairs the root can be loaded. -/
theorem Holds.exists_root (h : Holds tr s kvs) (hne : kvs ≠ []) : (s.load s.root).isSome := by
  obtain ⟨t, ht, hrep⟩ := h
  rw [kept_alike.load ht, ht.root]
  cases hrep with
  | bare hb => exact absurd rfl hne
  | rooted t' ht' =>
    rw [ht'.root]
    exact Option.isSome_iff_exists.2 ht'.stored.exists_load

/-- A write to a tree that is searchable leaves it so. -/
theorem Searchable.assign [Inhabited V] (h : Searchable tr s kvs) (key : K) (value : V) :
    ∃ s', s.assign tr key value = some s' ∧
      Searchable tr s' (assignKey key value (insertKey key default kvs)) := by
  obtain ⟨t, ht, hrep⟩ := searchable_iff.1 h
  obtain ⟨t', heq, hrep', -⟩ := assign_spec hrep key value
  have hrel := kept_kin.assign ht tr key value
  rw [heq] at hrel
  generalize s.assign tr key value = out at hrel ⊢
  cases hrel with
  | @some s' _ hs' => exact ⟨s', rfl, searchable_iff.2 ⟨t', hs', hrep'⟩⟩

/-- Each operation answers as the ordered map does, also after a tree was opened again. -/
theorem Holds.step [Inhabited V] (h : Holds tr s m.pairs) (op : MapOp K V) :
    ∃ s', s.step tr op = some (s', (op.spec m).2) ∧ Holds tr s' (op.spec m).1.pairs := by
  obtain ⟨t, ht, hrep⟩ := h
  obtain ⟨t', heq, hrep', -⟩ := step_spec hrep op
  have hagree := kept_alike.step ht tr op
  rw [heq] at hagree
  generalize s.step tr op = out at hagree ⊢
  cases hagree with
  | @some a _ hab =>
    obtain ⟨s', answer⟩ := a
    obtain ⟨ht', rfl⟩ : Alike s' t' ∧ answer = _ := hab
    exact ⟨s', rfl, t', ht', hrep'⟩

/-! ### A session -/

/-- What the operations of a session leave of the storage and of what is known about it. -/
structure Session (s s' : Btree K V) : Prop where
  pages : s'.storage.pages = s.storage.pages
  boot : s'.storage.boot = s.storage.boot
  lastAddress : s.storage.lastAddress ≤ s'.storage.lastAddress
  stats : s'.stats = { s.stats with treeSize := s'.stats.treeSize }
  tracked : s.Tracked → s'.Tracked
  unchanged : s'.modified = [] → s'.load = s.load ∧ s'.root = s.root ∧ s'.stats = s.stats

omit [LinearOrder K] [Inhabited K] in
private theorem Within.session {t' : Btree K V} (h : Within t t')
    (ht : Alike s t) (ht' : Alike s' t') : Session s s' := by
  refine ⟨by rw [ht'.storage, h.pages, ht.storage], by rw [ht'.storage, h.boot, ht.storage],
    by rw [ht'.storage, ht.storage]; exact h.lastAddress,
    by rw [ht'.stats, ht.stats]; exact h.stats, fun htracked w ↦ ?_, fun hmod ↦ ?_⟩
  · rw [ht'.nodesLoaded, ht'.modified]
    refine h.tracked (fun v ↦ ?_) w
    rw [← ht.nodesLoaded, ← ht.modified]
    exact htracked v
  · obtain rfl := h.dirty.resolve_right (not_not.2 (ht'.modified ▸ hmod))
    exact ⟨(kept_alike.load ht').trans (kept_alike.load ht).symm, ht'.root.trans ht.root.symm,
      ht'.stats.trans ht.stats.symm⟩

/-- So does every series of operations, within one session. -/
theorem Holds.run [Inhabited V] (h : Holds tr s m.pairs) (ops : List (MapOp K V)) :
    ∃ s', s.run tr ops = some (s', (specRun m ops).2) ∧ Holds tr s' (specRun m ops).1.pairs ∧
      Session s s' := by
  obtain ⟨t, ht, hrep⟩ := h
  obtain ⟨s', t', hrun, ht', hrep', hwithin⟩ := kept_alike.run_spec ht hrep ops
  exact ⟨s', hrun, ⟨t', ht', hrep'⟩, hwithin.session ht ht'⟩

/-- A session of a searchable tree. One that registers nothing keeps the last leaf. -/
theorem Searchable.run [Inhabited V] (h : Searchable tr s m.pairs) (ops : List (MapOp K V)) :
    ∃ s', s.run tr ops = some (s', (specRun m ops).2) ∧
      Searchable tr s' (specRun m ops).1.pairs ∧ Session s s' ∧
      (s'.modified = [] → s'.lastSurface = s.lastSurface) := by
  obtain ⟨t, ht, hrep⟩ := searchable_iff.1 h
  obtain ⟨s', t', hrun, ht', hrep', hwithin⟩ := kept_kin.run_spec ht hrep ops
  refine ⟨s', hrun, searchable_iff.2 ⟨t', ht', hrep'⟩, hwithin.session ht.toAlike ht'.toAlike,
    fun hmod ↦ ?_⟩
  obtain rfl := hwithin.dirty.resolve_right (not_not.2 (ht'.modified ▸ hmod))
  exact ht'.lastSurface.trans ht.lastSurface.symm

omit [LinearOrder K] [Inhabited K] in
/-- What a session has changed is held in memory. -/
theorem Session.tracked_of_opened (hs : Session s₀ s) (h : opened st = some s₀) : s.Tracked := by
  have hfresh := fresh_of_opened h
  refine hs.tracked fun w ↦ ?_
  rw [hfresh.nodesLoaded, hfresh.modified]
  exact iff_of_false Bool.false_ne_true List.not_mem_nil

omit [LinearOrder K] [Inhabited K] in
private theorem Tracked.load_saved (h : s.Tracked) (w : ℕ) :
    s.savedAll.storage.pages w = s.load w := by
  simp only [savedAll, saved, load]
  by_cases hw : w ∈ s.modified
  · obtain ⟨n, hn⟩ := Option.isSome_iff_exists.1 ((h w).2 hw)
    rw [if_pos hw, hn]
    rfl
  · have hnone := mt (h w).1 hw
    rw [Option.not_isSome_iff_eq_none] at hnone
    rw [if_neg hw, hnone]
    rfl

omit [LinearOrder K] [Inhabited K] in
/-- The boot blocks that a flush leaves hold the root and the size. -/
theorem boot_of_flush (hopen : opened st = some s₀) (hs : Session s₀ s) (hroot : s.root ≠ 0)
    (hsize : s.stats.treeSize ≠ 0) :
    let s₁ := s.savedAll.writeBootValues
    s₁.storage.boot 1 = some s.root ∧ s₁.storage.boot 2 = some s.stats.treeSize := by
  have hfresh := fresh_of_opened hopen
  have hboot : s.storage.boot = st.boot := hs.boot.trans (by rw [hfresh.storage])
  have hstart : s.stats.startRoot = s₀.root ∧ s.stats.startTreeSize = s₀.stats.treeSize ∧
      s.stats.changes = 0 := by
    rw [hs.stats]
    exact ⟨hfresh.startRoot, hfresh.startTreeSize, hfresh.changes⟩
  intro s₁
  by_cases hmod : s.modified = []
  · obtain ⟨-, hroot', hstats'⟩ := hs.unchanged hmod
    have hsame : s₁ = s.savedAll := by
      refine if_pos ?_
      show s.stats.changes + s.modified.length = 0
      rw [hmod, hstart.2.2]
      rfl
    rw [hsame]
    show s.storage.boot 1 = _ ∧ s.storage.boot 2 = _
    rw [hboot, hroot', hstats']
    exact ⟨hfresh.root (hroot' ▸ hroot), hfresh.treeSize (hstats' ▸ hsize)⟩
  · have hwritten : BootWritten s.savedAll s₁ := by
      refine bootWritten_writeBootValues ?_
      show s.stats.changes + s.modified.length ≠ 0
      have := List.length_pos_of_ne_nil hmod
      omega
    rw [hwritten.root, hwritten.treeSize]
    show (if s.stats.startRoot ≠ s.root then _ else s.storage.boot 1) = _ ∧
      (if s.stats.startTreeSize ≠ s.stats.treeSize then _ else s.storage.boot 2) = _
    rw [hstart.1, hstart.2.1, hboot]
    constructor
    · split
      · rfl
      · next heq => rw [← not_not.1 heq] at hroot ⊢; exact hfresh.root hroot
    · split
      · rfl
      · next heq => rw [← not_not.1 heq] at hsize ⊢; exact hfresh.treeSize hsize

omit [LinearOrder K] [Inhabited K] in
/-- A flush leaves the last leaf in its boot block. -/
theorem last_of_flush (hopen : opened st = some s₀) (hs : Session s₀ s)
    (hlast : s.modified = [] → s.lastSurface = s₀.lastSurface) (hne : s.lastSurface ≠ 0) :
    (s.savedAll.writeBootValues.storage.boot 4).getD 0 = s.lastSurface := by
  have hfresh := fresh_of_opened hopen
  have hboot : s.storage.boot = st.boot := hs.boot.trans (by rw [hfresh.storage])
  have hstart : s.stats.startLast = s₀.lastSurface ∧ s.stats.changes = 0 := by
    rw [hs.stats]
    exact ⟨hfresh.startLast, hfresh.changes⟩
  -- what was opened has read its last leaf there
  have hread : s₀.lastSurface = s.lastSurface → (st.boot 4).getD 0 = s.lastSurface := by
    rcases opened_cases hopen with ⟨-, rfl⟩ | ⟨b, -, -, rfl⟩
    · exact fun h ↦ absurd h.symm hne
    · exact id
  by_cases hmod : s.modified = []
  · have hsame : s.savedAll.writeBootValues = s.savedAll := by
      refine if_pos ?_
      show s.stats.changes + s.modified.length = 0
      rw [hmod, hstart.2]
      rfl
    rw [hsame]
    show (s.storage.boot 4).getD 0 = _
    rw [hboot]
    exact hread (hlast hmod).symm
  · have hwritten : BootWritten s.savedAll s.savedAll.writeBootValues := by
      refine bootWritten_writeBootValues ?_
      show s.stats.changes + s.modified.length ≠ 0
      have := List.length_pos_of_ne_nil hmod
      omega
    rw [hwritten.last]
    show (if s.stats.startLast ≠ s.lastSurface then _ else s.storage.boot 4).getD 0 = _
    rw [hstart.1, hboot]
    split
    · rfl
    · next heq => exact hread (not_not.1 heq)

/-- The tree that is opened after a flush of one that is not empty. -/
structure Reopened (s s₁ s₂ : Btree K V) : Prop where
  flushed : s₁ = s.savedAll.writeBootValues
  load : s₂.load = s.load
  root : s₂.root = s.root
  lastAddress : s.storage.lastAddress ≤ s₂.storage.lastAddress
  treeSize : s₂.stats.treeSize = s.stats.treeSize
  lastSurface : s₂.lastSurface = (s₁.storage.boot 4).getD 0

private theorem Holds.exists_reopened (h : Holds tr s kvs) (hopen : opened st = some s₀)
    (hs : Session s₀ s) (hne : kvs ≠ []) :
    ∃ s₁ s₂, s.flush = some s₁ ∧ opened s₁.storage = some s₂ ∧ Reopened s s₁ s₂ := by
  have htracked := hs.tracked_of_opened hopen
  have hroot : s.root ≠ 0 := mt h.root_eq_zero.1 hne
  have hsize : s.stats.treeSize ≠ 0 := by
    rw [h.treeSize]
    exact mt List.length_eq_zero_iff.1 hne
  obtain ⟨hboot₁, hboot₂⟩ := boot_of_flush hopen hs hroot hsize
  have hsame := sameTree_writeBootValues s.savedAll
  refine ⟨_, described _ s.root, flush_eq h.unlooped (fun w ↦ (htracked w).2) hsize,
    opened_of_some hboot₁ (.inr ?_), rfl, ?_, rfl, hsame.lastAddress.ge, ?_, rfl⟩
  · rw [hsame.pages]
    exact (htracked.load_saved s.root) ▸ h.exists_root hne
  · funext w
    rw [load_described, hsame.pages]
    exact htracked.load_saved w
  · show (Option.getD _ 0) = _
    rw [hboot₂]
    rfl

/-- A tree that is not empty is the same one after a flush. -/
theorem Holds.reopened (h : Holds tr s kvs) (hopen : opened st = some s₀) (hs : Session s₀ s)
    (hne : kvs ≠ []) :
    ∃ s₁ s₂, s.flush = some s₁ ∧ opened s₁.storage = some s₂ ∧ Holds tr s₂ kvs := by
  obtain ⟨s₁, s₂, hflush, hopened, hr⟩ := h.exists_reopened hopen hs hne
  exact ⟨s₁, s₂, hflush, hopened, h.of_load hr.load hr.root hr.lastAddress hr.treeSize⟩

/-- An empty tree is not flushed. -/
theorem Holds.not_flushed (h : Holds tr s []) (hopen : opened st = some s₀) (hs : Session s₀ s)
    (h₀ : Holds tr s₀ kvs) :
    ∃ s₂, s.flush = some s ∧ opened s.storage = some s₂ ∧ Holds tr s₂ kvs := by
  have hfresh := fresh_of_opened hopen
  refine ⟨_, if_pos h.treeSize, opened_congr (hs.pages.trans (by rw [hfresh.storage]))
    (hs.boot.trans (by rw [hfresh.storage])) hopen, h₀.of_load ?_ rfl hs.lastAddress rfl⟩
  funext w
  show (s₀.nodesLoaded w <|> s.storage.pages w) = (s₀.nodesLoaded w <|> s₀.storage.pages w)
  rw [hs.pages]

/-- A flush keeps the tree for the next session unless all pairs of the stored tree were erased. -/
theorem reopens_iff [Inhabited V] (hopen : opened st = some s₀) (h₀ : Holds tr s₀ m.pairs)
    (ops : List (MapOp K V)) :
    ∃ s answers s₁ s₂, s₀.run tr ops = some (s, answers) ∧ s.flush = some s₁ ∧
      opened s₁.storage = some s₂ ∧ s.held = some (specRun m ops).1.pairs ∧
      (s₂.held = s.held ∧ s₂.stats.treeSize = s.stats.treeSize ↔
        s.stats.treeSize ≠ 0 ∨ s₀.stats.treeSize = 0) := by
  obtain ⟨s, hrun, hs, hsession⟩ := h₀.run ops
  by_cases hne : (specRun m ops).1.pairs = []
  · rw [hne] at hs ⊢
    obtain ⟨s₂, hflush, hopen₂, hs₂⟩ := hs.not_flushed hopen hsession h₀
    refine ⟨s, _, s, s₂, hrun, hflush, hopen₂, hs.held, ?_⟩
    rw [hs₂.held, hs.held, hs₂.treeSize, hs.treeSize, h₀.treeSize]
    simp
  · obtain ⟨s₁, s₂, hflush, hopen₂, hs₂⟩ := hs.reopened hopen hsession hne
    refine ⟨s, _, s₁, s₂, hrun, hflush, hopen₂, hs.held, ?_⟩
    rw [hs₂.held, hs.held, hs₂.treeSize, hs.treeSize]
    simp [hne]

private theorem Searchable.lastSurface_ne (h : Searchable tr s kvs) (hne : kvs ≠ []) :
    s.lastSurface ≠ 0 := by
  cases h with
  | bare hb => exact absurd rfl hne
  | rooted t ht =>
    obtain ⟨L, l, hl⟩ := (List.eq_nil_or_concat' t.leaves).resolve_left (leaves_ne_nil ht.filled)
    rw [ht.chain.last, hl, List.getLastD_concat]
    exact (ht.chain.pos l (hl ▸ List.mem_append_right _ (List.mem_singleton_self l))).ne'

/-- A session that opens the tree of a storage, works on it and flushes it. -/
def stored [Inhabited V] (tr : Traits) (st : Storage K V) (ops : List (MapOp K V)) :
    Option (Storage K V) := do
  let s ← opened st
  let (s, _) ← s.run tr ops
  let s ← s.flush
  return s.storage

/-- What a session leaves is opened as a tree that is searchable again. -/
theorem Searchable.stored [Inhabited V] (hopen : opened st = some s₀)
    (h₀ : Searchable tr s₀ m.pairs) (ops : List (MapOp K V)) :
    ∃ st' s' m', stored tr st ops = some st' ∧ opened st' = some s' ∧
      Searchable tr s' (OrderedMap.pairs m') := by
  obtain ⟨s, hrun, hs, hsession, hlast⟩ := h₀.run ops
  have hstored {s₁ : Btree K V} (hflush : s.flush = some s₁) :
      Btree.stored tr st ops = some s₁.storage := by
    simp only [Btree.stored, hopen, hrun, hflush, Option.bind_eq_bind, Option.bind_some,
      Option.pure_def]
  by_cases hne : (specRun m ops).1.pairs = []
  · have hfresh := fresh_of_opened hopen
    have hsize : s.stats.treeSize = 0 := by rw [hs.holds.treeSize, hne, List.length_nil]
    refine ⟨_, _, m, hstored (if_pos hsize), opened_congr
      (hsession.pages.trans (by rw [hfresh.storage])) (hsession.boot.trans (by rw [hfresh.storage]))
      hopen, h₀.of_load ?_ rfl hsession.lastAddress rfl rfl⟩
    funext w
    show (s₀.nodesLoaded w <|> s.storage.pages w) = (s₀.nodesLoaded w <|> s₀.storage.pages w)
    rw [hsession.pages]
  · obtain ⟨s₁, s₂, hflush, hopened, hr⟩ := hs.holds.exists_reopened hopen hsession hne
    refine ⟨s₁.storage, s₂, _, hstored hflush, hopened,
      hs.of_load hr.load hr.root hr.lastAddress ?_ hr.treeSize⟩
    rw [hr.lastSurface, hr.flushed]
    exact last_of_flush hopen hsession hlast (hs.lastSurface_ne hne)

/-- A storage without a tree is opened as the empty one. -/
theorem holds_blank (hst : st.Unlooped) (hboot : st.boot 1 = none) :
    opened st = some (blank st) ∧ Holds tr (blank st) [] :=
  ⟨opened_of_none hboot, _, ⟨rfl, rfl, rfl, rfl, rfl⟩, represents_blank hst⟩

/-- Whatever sessions work on a storage, its tree is searchable when it is opened again. -/
theorem searchable_of_sessions [Inhabited V] (tr : Traits)
    (sessions : List (List (MapOp K V))) :
    ∃ st s m, sessions.foldlM (stored tr) (Storage.empty : Storage K V) = some st ∧
      opened st = some s ∧ Searchable tr s (OrderedMap.pairs m) := by
  have hblank : opened Storage.empty = some (blank (Storage.empty : Storage K V)) ∧
      Searchable tr (blank (Storage.empty : Storage K V)) OrderedMap.empty.pairs :=
    ⟨opened_of_none rfl, (represents_blank Storage.unlooped_empty).searchable⟩
  generalize (Storage.empty : Storage K V) = st, blank (Storage.empty : Storage K V) = s,
    (OrderedMap.empty : OrderedMap K V) = m at hblank ⊢
  induction sessions generalizing st s m with
  | nil => exact ⟨st, s, m, rfl, hblank⟩
  | cons ops sessions ih =>
    obtain ⟨st', s', m', hstored, hopened, hs'⟩ := Searchable.stored hblank.1 hblank.2 ops
    rw [List.foldlM_cons, hstored]
    exact ih st' s' m' ⟨hopened, hs'⟩

/-- Three operations on an empty tree, a flush, and the tree opened again. -/
theorem reopens_iff_of_empty :
    ∃ s answers s₁ s₂, (blank Storage.empty).run Traits.perPage
        [.insert 3 30, .insert 5 50, .erase (3 : ℕ)] = some (s, answers) ∧ s.flush = some s₁ ∧
      opened s₁.storage = some s₂ ∧ s.held = some [(5, (50 : ℕ))] ∧
      (s₂.held = s.held ∧ s₂.stats.treeSize = s.stats.treeSize ↔ s.stats.treeSize ≠ 0 ∨ 0 = 0) := by
  obtain ⟨hopen, hholds⟩ := holds_blank (K := ℕ) (V := ℕ) Storage.unlooped_empty rfl
  exact reopens_iff (m := OrderedMap.empty) hopen hholds [.insert 3 30, .insert 5 50, .erase 3]

/-- A session on the empty storage that stores one pair. -/
theorem exists_onePair : ∃ (st : Storage ℕ ℕ) (s₀ : Btree ℕ ℕ), opened st = some s₀ ∧
    Holds Traits.perPage s₀ (specRun OrderedMap.empty [.insert 3 30]).1.pairs := by
  obtain ⟨hopen, hblank⟩ := holds_blank (K := ℕ) (V := ℕ) Storage.unlooped_empty rfl
  obtain ⟨s, -, hs, hsession⟩ := Holds.run (m := OrderedMap.empty) hblank [.insert 3 30]
  obtain ⟨s₁, s₂, -, hopen₂, hs₂⟩ := hs.reopened hopen hsession (by decide)
  exact ⟨s₁.storage, s₂, hopen₂, hs₂⟩

/-- The stored tree has one pair; it is still there after the pair was erased. -/
theorem not_reopens_emptied :
    ¬ ∀ (st : Storage ℕ ℕ) (s₀ s s₁ s₂ : Btree ℕ ℕ) (m : OrderedMap ℕ ℕ) (ops : List (MapOp ℕ ℕ))
      (answers : List (Answer ℕ)), opened st = some s₀ → Holds Traits.perPage s₀ m.pairs →
      s₀.run Traits.perPage ops = some (s, answers) → s.flush = some s₁ →
      opened s₁.storage = some s₂ → s₂.held = s.held ∧ s₂.stats.treeSize = s.stats.treeSize := by
  intro h
  obtain ⟨st, s₀, hopen, h₀⟩ := exists_onePair
  obtain ⟨s, hrun, hs, hsession⟩ := h₀.run [.erase 3]
  obtain ⟨s₂, hflush, hopen₂, hs₂⟩ := Holds.not_flushed hs hopen hsession h₀
  obtain ⟨hheld, -⟩ := h _ _ _ _ _ _ _ _ hopen h₀ hrun hflush hopen₂
  rw [hs₂.held, hs.held] at hheld
  exact absurd hheld (by decide)

/-! ### Rollback -/

/-- What the next transaction starts from: the pairs and the size of the stored tree, and no page
of the one that was given up. -/
structure Discarded (st : Storage K V) (s₀ s' : Btree K V) : Prop where
  held : s'.held = s₀.held
  treeSize : s'.stats.treeSize = s₀.stats.treeSize
  modified : s'.modified = []
  load : ∀ w, s'.load w = st.pages w

omit [LinearOrder K] [Inhabited K] in
private theorem modified_of_initializeContexts (hroot : s.root = 0)
    (h : s.initializeContexts = some s') :
    s'.modified = s.modified := by
  unfold initializeContexts at h
  split at h
  · cases h
    rfl
  · next b hb =>
    obtain ⟨s₁, hroot₁, h⟩ := Option.bind_eq_some_iff.1 h
    cases h
    show s₁.modified = s.modified
    rw [setRootAddress] at hroot₁
    split at hroot₁
    · cases hroot₁
      rfl
    · dsimp only at hroot₁
      rw [clear, if_pos hroot] at hroot₁
      obtain ⟨n, -, rfl⟩ := Option.map_eq_some_iff.1 hroot₁
      rfl

omit [LinearOrder K] [Inhabited K] in
/-- `clear` leaves a tree without a root as it is. -/
theorem reload_rollback_of_bare (hroot : s.root = 0) :
    (s.rollback st).reload = ({ s with storage := st } : Btree K V).initializeContexts := by
  have hclear : ({ s with storage := st } : Btree K V).clear = { s with storage := st } :=
    if_pos hroot
  rw [rollback, hclear, reload, hclear]

omit [LinearOrder K] [Inhabited K] in
/-- The tree was empty when the boot blocks were read. -/
theorem exists_initializeContexts (hopen : opened st = some s₀) (hroot₀ : s₀.root = 0)
    (hst : s.storage.boot = st.boot) (hsize : s.stats.treeSize = s₀.stats.treeSize) :
    ∃ s', s.initializeContexts = some s' ∧ s'.root = s.root ∧ s'.modified = s.modified ∧
      s'.load = s.load ∧ s'.stats.treeSize = s₀.stats.treeSize := by
  rcases opened_cases hopen with ⟨hnone, rfl⟩ | ⟨b, hb, -, rfl⟩
  · refine ⟨s, ?_, rfl, rfl, rfl, hsize⟩
    unfold initializeContexts
    rw [hst, hnone]
  · obtain rfl : b = 0 := hroot₀
    have hread : s.initializeContexts = some { s with
        headsurface := (st.boot 3).getD 0
        lastSurface := (st.boot 4).getD 0
        stats := { s.stats with
          treeSize := (st.boot 2).getD 0
          startRoot := 0
          startTreeSize := (st.boot 2).getD 0
          startHead := (st.boot 3).getD 0
          startLast := (st.boot 4).getD 0 } } := by
      have hzero : s.setRootAddress 0 = some s := if_pos rfl
      unfold initializeContexts
      rw [hst, hb]
      simp only [hzero, hst, Option.bind_eq_bind, Option.bind_some, Option.pure_def]
    exact ⟨_, hread, rfl, rfl, rfl, rfl⟩

/-- A rollback gives up what the session did unless it left an empty tree. -/
theorem rolls_back_iff [Inhabited V] (hopen : opened st = some s₀) (h₀ : Holds tr s₀ m.pairs)
    (ops : List (MapOp K V)) {st' : Storage K V} (hpages : st'.pages = st.pages)
    (hboot : st'.boot = st.boot) :
    ∃ s answers, s₀.run tr ops = some (s, answers) ∧
      ((∃ s', (s.rollback st').reload = some s' ∧ Discarded st s₀ s') ↔
        s.root ≠ 0 ∨ s.modified = []) := by
  obtain ⟨s, hrun, hs, hsession⟩ := h₀.run ops
  have hfresh := fresh_of_opened hopen
  refine ⟨s, _, hrun, ?_⟩
  by_cases hroot : s.root = 0
  · rw [reload_rollback_of_bare hroot]
    by_cases hmod : s.modified = []
    · obtain ⟨-, hroot₀, hstats⟩ := hsession.unchanged hmod
      obtain ⟨s', hinit, hroot', hmod', hload', hsize'⟩ := exists_initializeContexts
        (s := { s with storage := st' }) hopen (hroot₀ ▸ hroot) hboot (by rw [hstats])
      refine iff_of_true ⟨s', hinit, ?_, hsize', hmod'.trans hmod, fun w ↦ ?_⟩ (.inr hmod)
      · rw [held, if_pos (hroot'.trans hroot), held, if_pos (hroot₀ ▸ hroot)]
      · have hnone : s.nodesLoaded w = none := by
          have := (hsession.tracked_of_opened hopen w).not
          rw [hmod, Option.not_isSome_iff_eq_none] at this
          exact this.2 List.not_mem_nil
        rw [hload']
        show (s.nodesLoaded w <|> st'.pages w) = _
        rw [hnone, hpages]
        rfl
    · refine iff_of_false ?_ (not_or.2 ⟨not_not.2 hroot, hmod⟩)
      rintro ⟨s', hinit, hd⟩
      refine hmod ?_
      exact (modified_of_initializeContexts (s := { s with storage := st' }) hroot hinit).symm.trans
        hd.modified
  · have hcleared : s.rollback st' = blank st' := if_neg hroot
    have hreload : (s.rollback st').reload = some { s₀ with storage := st' } := by
      rw [hcleared, reload]
      exact (congrArg initializeContexts (if_pos rfl)).trans (opened_congr hpages hboot hopen)
    refine iff_of_true ⟨_, hreload, held_congr ?_ rfl, rfl, hfresh.modified, fun w ↦ ?_⟩
      (.inl hroot)
    · funext w
      show (s₀.nodesLoaded w <|> st'.pages w) = (s₀.nodesLoaded w <|> s₀.storage.pages w)
      rw [hpages, hfresh.storage]
    · show (s₀.nodesLoaded w <|> st'.pages w) = _
      rw [hfresh.nodesLoaded, hpages]
      rfl

/-- Two insertions into an empty tree, rolled back. -/
theorem rolls_back_iff_of_empty :
    ∃ s answers, (blank Storage.empty).run Traits.perPage
        [.insert 3 30, .insert (5 : ℕ) (50 : ℕ)] = some (s, answers) ∧
      ((∃ s', (s.rollback Storage.empty).reload = some s' ∧
        Discarded Storage.empty (blank Storage.empty) s') ↔
        s.root ≠ 0 ∨ s.modified = []) := by
  obtain ⟨hopen, hblank⟩ := holds_blank (K := ℕ) (V := ℕ) Storage.unlooped_empty rfl
  exact rolls_back_iff (m := OrderedMap.empty) hopen hblank [.insert 3 30, .insert 5 50] rfl rfl

/-- The stored tree has one pair; the erased leaf is still registered in the next transaction. -/
theorem not_rolls_back_emptied :
    ¬ ∀ (st : Storage ℕ ℕ) (s₀ s : Btree ℕ ℕ) (m : OrderedMap ℕ ℕ) (ops : List (MapOp ℕ ℕ))
      (answers : List (Answer ℕ)), opened st = some s₀ → Holds Traits.perPage s₀ m.pairs →
      s₀.run Traits.perPage ops = some (s, answers) →
      ∃ s', (s.rollback st).reload = some s' ∧ Discarded st s₀ s' := by
  intro h
  obtain ⟨st, s₀, hopen, h₀⟩ := exists_onePair
  obtain ⟨s, hrun, hs, hsession⟩ := h₀.run [.erase 3]
  obtain ⟨s', hreload, hd⟩ := h _ _ _ _ _ _ hopen h₀ hrun
  have hroot : s.root = 0 := hs.root_eq_zero.2 (by decide)
  rw [reload_rollback_of_bare hroot] at hreload
  have hmod : s.modified = [] :=
    (modified_of_initializeContexts (s := { s with storage := st }) hroot hreload).symm.trans
      hd.modified
  exact absurd ((hsession.unchanged hmod).2.1 ▸ hroot) (mt h₀.root_eq_zero.1 (by decide))

end Btree

end LibSpaces.Stx
