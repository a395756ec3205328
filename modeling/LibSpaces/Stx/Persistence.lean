import LibSpaces.Stx.MapRuns

/-!
# Flushing and opening a tree

`flush`, `write_boot_values`, `initialize_contexts` and `clear`,
`src/src/stx/btree.h:2364–2465,4268–4291,4459–4524,4786–4896`. The transaction is a writing one.
The size of the last leaf, which boot block 5 keeps, is added to the tree in `NodeStates`.
-/

namespace LibSpaces.Stx.Btree

open LibSpaces.Base

variable {K V : Type}

section Source

variable (s : Btree K V)

/-- `set_boot_value`. -/
def setBoot (i value : ℕ) : Btree K V :=
  { s with storage := { s.storage with boot := Function.update s.storage.boot i (some value) } }

/-- A leaf that is its own successor is not saved, `btree.h:2444–2447`. -/
def refuses (w : ℕ) : Node K V → Bool
  | .surface n => n.next == w
  | .interior _ => false

/-- `save`, `btree.h:2364–2452`. -/
def save (w : ℕ) : Option (Btree K V) := do
  let n ← s.nodesLoaded w
  if refuses w n then none
  else return { s with
    storage := { s.storage with pages := Function.update s.storage.pages w (some n) }
    stats := { s.stats with changes := s.stats.changes + 1 } }

/-- The root is written, and remembered as the first leaf, `btree.h:4466–4469`. -/
def writeRoot : Btree K V :=
  if s.stats.startRoot ≠ s.root then
    { s.setBoot 1 s.root with stats := { s.stats with startHead := s.root } }
  else s

/-- `btree.h:4471–4474`. -/
def writeTreeSize : Btree K V :=
  if s.stats.startTreeSize ≠ s.stats.treeSize then
    { s.setBoot 2 s.stats.treeSize with
      stats := { s.stats with startTreeSize := s.stats.treeSize } }
  else s

/-- `btree.h:4475–4478`. -/
def writeHead : Btree K V :=
  if s.stats.startHead ≠ s.headsurface then
    { s.setBoot 3 s.headsurface with stats := { s.stats with startHead := s.headsurface } }
  else s

/-- `btree.h:4479–4483`. -/
def writeLast : Btree K V :=
  if s.stats.startLast ≠ s.lastSurface then
    { s.setBoot 4 s.lastSurface with stats := { s.stats with startLast := s.lastSurface } }
  else s

/-- `write_boot_values`, `btree.h:4459–4492`. -/
def writeBootValues : Btree K V :=
  if s.stats.changes = 0 then s
  else
    let s := s.writeRoot.writeTreeSize.writeHead.writeLast
    { s with stats := { s.stats with changes := 0 } }

/-- `flush`, `btree.h:4508–4524`. -/
def flush : Option (Btree K V) :=
  if s.stats.treeSize = 0 then some s
  else (s.modified.foldlM save s).map fun s ↦ { s with modified := [] }.writeBootValues

/-- `clear`, `btree.h:4843–4872`. -/
def clear : Btree K V := if s.root = 0 then s else blank s.storage

/-- `set_root_address` and `restore`, `btree.h:4882–4896`. -/
def setRootAddress (w : ℕ) : Option (Btree K V) :=
  if w = 0 then some s
  else
    let s := s.clear
    (s.load w).map fun _ ↦ { s with root := w }

/-- `initialize_contexts`, `btree.h:4268–4291`: a boot block that is missing is read as 0. -/
def initializeContexts : Option (Btree K V) :=
  match s.storage.boot 1 with
  | none => some s
  | some b => do
    let s ← s.setRootAddress b
    let treeSize := (s.storage.boot 2).getD 0
    let head := (s.storage.boot 3).getD 0
    let last := (s.storage.boot 4).getD 0
    return { s with
      headsurface := head
      lastSurface := last
      stats := { s.stats with
        treeSize := treeSize
        startRoot := b
        startTreeSize := treeSize
        startHead := head
        startLast := last } }

/-- `reload`, `btree.h:4786–4834`. -/
def reload : Option (Btree K V) := s.clear.initializeContexts

/-- The constructor, `btree.h:4298–4310`. -/
def opened (storage : Storage K V) : Option (Btree K V) := (blank storage).initializeContexts

end Source

variable {s s' : Btree K V} {storage : Storage K V}

/-! ### Saving -/

/-- Where no leaf points to itself, none is refused by `save`. -/
theorem not_refuses (hs : s.Unlooped) {w : ℕ} {n : Node K V} (hn : s.nodesLoaded w = some n) :
    refuses w n = false := by
  cases n with
  | interior m => rfl
  | surface m => exact beq_false_of_ne (hs w m (by rw [load, hn]; rfl))

/-- The pages of `l` were saved. -/
def saved (s : Btree K V) (l : List ℕ) : Btree K V :=
  { s with
    storage := { s.storage with pages := fun w ↦
      if w ∈ l then s.nodesLoaded w else s.storage.pages w }
    stats := { s.stats with changes := s.stats.changes + l.length } }

private theorem save_eq {w : ℕ} {n : Node K V} (hn : s.nodesLoaded w = some n)
    (hnot : refuses w n = false) : s.save w = some (s.saved [w]) := by
  have hpages : Function.update s.storage.pages w (some n) =
      fun v ↦ if v ∈ [w] then s.nodesLoaded v else s.storage.pages v := by
    funext v
    rw [Function.update_apply]
    simp only [List.mem_singleton]
    split
    · next heq => rw [heq, hn]
    · rfl
  simp only [save, hn, Option.bind_eq_bind, Option.bind_some, hnot, Bool.false_eq_true, if_false,
    Option.pure_def, hpages]
  rfl

private theorem saved_saved (w : ℕ) (l : List ℕ) : (s.saved [w]).saved l = s.saved (w :: l) := by
  simp only [saved, Btree.mk.injEq, Storage.mk.injEq, Stats.mk.injEq, List.length_cons,
    List.length_nil, List.mem_cons, List.not_mem_nil, or_false, true_and, and_true]
  constructor
  · funext v
    by_cases hv : v ∈ l <;> simp [hv]
  · omega

private theorem foldlM_save {l : List ℕ} (hloaded : ∀ w ∈ l, (s.nodesLoaded w).isSome)
    (hnot : ∀ w n, s.nodesLoaded w = some n → refuses w n = false) :
    l.foldlM save s = some (s.saved l) := by
  induction l generalizing s with
  | nil => simp [saved]
  | cons w l ih =>
    obtain ⟨n, hn⟩ := Option.isSome_iff_exists.1 (hloaded w List.mem_cons_self)
    rw [List.foldlM_cons, save_eq hn (hnot w n hn), Option.bind_eq_bind, Option.bind_some,
      ih (s := s.saved [w]) (fun v hv ↦ hloaded v (List.mem_cons_of_mem _ hv)) hnot, saved_saved]

/-- All pages that are registered were saved. -/
def savedAll (s : Btree K V) : Btree K V := { s.saved s.modified with modified := [] }

/-- Without modified pages nothing is saved. -/
theorem savedAll_of_nil (h : s.modified = []) : s.savedAll = s := by
  rw [savedAll, h]
  simp only [saved, List.not_mem_nil, if_false, List.length_nil, Nat.add_zero]
  rw [← h]

/-- What a flush leaves of a tree that is not empty. -/
theorem flush_eq (hs : s.Unlooped) (hloaded : ∀ w ∈ s.modified, (s.nodesLoaded w).isSome)
    (hsize : s.stats.treeSize ≠ 0) : s.flush = some s.savedAll.writeBootValues := by
  rw [flush, if_neg hsize, foldlM_save hloaded fun w n hn ↦ not_refuses hs hn]
  rfl

private theorem eq_saved_of_save {w : ℕ} (h : s.save w = some s') : s' = s.saved [w] := by
  unfold save at h
  obtain ⟨n, hn, h⟩ := Option.bind_eq_some_iff.1 h
  split at h
  · cases h
  · next hnot =>
    have hsave := save_eq hn (Bool.not_eq_true _ ▸ hnot)
    unfold save at hsave
    rw [hn, Option.bind_eq_bind, Option.bind_some, if_neg hnot] at hsave
    exact Option.some.inj (h.symm.trans hsave)

private theorem eq_saved_of_foldlM {l : List ℕ} (h : l.foldlM save s = some s') :
    s' = s.saved l := by
  induction l generalizing s with
  | nil =>
    cases h
    simp [saved]
  | cons w l ih =>
    rw [List.foldlM_cons] at h
    obtain ⟨s₁, hsave, h⟩ := Option.bind_eq_some_iff.1 h
    rw [ih h, eq_saved_of_save hsave, saved_saved]

/-- What a flush that does not throw leaves of a tree that is not empty. -/
theorem eq_of_flush (h : s.flush = some s') (hsize : s.stats.treeSize ≠ 0) :
    s' = s.savedAll.writeBootValues := by
  rw [flush, if_neg hsize] at h
  obtain ⟨s₁, hsaved, rfl⟩ := Option.map_eq_some_iff.1 h
  rw [eq_saved_of_foldlM hsaved]
  rfl

/-! ### Boot values -/

/-- The tree is the same, apart from the boot blocks and what is remembered of them. -/
structure SameTree (s s' : Btree K V) : Prop where
  pages : s'.storage.pages = s.storage.pages
  lastAddress : s'.storage.lastAddress = s.storage.lastAddress
  nodesLoaded : s'.nodesLoaded = s.nodesLoaded
  modified : s'.modified = s.modified
  root : s'.root = s.root
  headsurface : s'.headsurface = s.headsurface
  lastSurface : s'.lastSurface = s.lastSurface
  treeSize : s'.stats.treeSize = s.stats.treeSize

/-- The relation is transitive. -/
theorem SameTree.trans {s₁ s₂ s₃ : Btree K V} (h : SameTree s₁ s₂) (h' : SameTree s₂ s₃) :
    SameTree s₁ s₃ where
  pages := h'.pages.trans h.pages
  lastAddress := h'.lastAddress.trans h.lastAddress
  nodesLoaded := h'.nodesLoaded.trans h.nodesLoaded
  modified := h'.modified.trans h.modified
  root := h'.root.trans h.root
  headsurface := h'.headsurface.trans h.headsurface
  lastSurface := h'.lastSurface.trans h.lastSurface
  treeSize := h'.treeSize.trans h.treeSize

private theorem sameTree_writeRoot (s : Btree K V) : SameTree s s.writeRoot := by
  unfold writeRoot
  split <;> exact ⟨rfl, rfl, rfl, rfl, rfl, rfl, rfl, rfl⟩

private theorem sameTree_writeTreeSize (s : Btree K V) : SameTree s s.writeTreeSize := by
  unfold writeTreeSize
  split <;> exact ⟨rfl, rfl, rfl, rfl, rfl, rfl, rfl, rfl⟩

private theorem sameTree_writeHead (s : Btree K V) : SameTree s s.writeHead := by
  unfold writeHead
  split <;> exact ⟨rfl, rfl, rfl, rfl, rfl, rfl, rfl, rfl⟩

private theorem sameTree_writeLast (s : Btree K V) : SameTree s s.writeLast := by
  unfold writeLast
  split <;> exact ⟨rfl, rfl, rfl, rfl, rfl, rfl, rfl, rfl⟩

/-- Writing the boot values leaves the tree as it is. -/
theorem sameTree_writeBootValues (s : Btree K V) : SameTree s s.writeBootValues := by
  unfold writeBootValues
  split
  · exact ⟨rfl, rfl, rfl, rfl, rfl, rfl, rfl, rfl⟩
  · have hwrites := (((sameTree_writeRoot s).trans (sameTree_writeTreeSize _)).trans
      (sameTree_writeHead _)).trans (sameTree_writeLast _)
    exact ⟨hwrites.pages, hwrites.lastAddress, hwrites.nodesLoaded, hwrites.modified, hwrites.root,
      hwrites.headsurface, hwrites.lastSurface, hwrites.treeSize⟩

/-- The boot blocks after they were written, and what is remembered of them. -/
structure BootWritten (s s' : Btree K V) : Prop where
  root : s'.storage.boot 1 =
    if s.stats.startRoot ≠ s.root then some s.root else s.storage.boot 1
  treeSize : s'.storage.boot 2 =
    if s.stats.startTreeSize ≠ s.stats.treeSize then some s.stats.treeSize else s.storage.boot 2
  head : s'.storage.boot 3 =
    if (if s.stats.startRoot ≠ s.root then s.root else s.stats.startHead) ≠ s.headsurface then
      some s.headsurface else s.storage.boot 3
  last : s'.storage.boot 4 =
    if s.stats.startLast ≠ s.lastSurface then some s.lastSurface else s.storage.boot 4
  stats : s'.stats = { s.stats with
    changes := 0
    startTreeSize := s.stats.treeSize
    startHead := s.headsurface
    startLast := s.lastSurface }

/-- Only the boot block that is set changes. -/
theorem boot_setBoot (i value j : ℕ) :
    (s.setBoot i value).storage.boot j = if j = i then some value else s.storage.boot j :=
  Function.update_apply ..

private theorem writeRoot_spec (s : Btree K V) :
    (∀ j, s.writeRoot.storage.boot j =
      if j = 1 ∧ s.stats.startRoot ≠ s.root then some s.root else s.storage.boot j) ∧
      s.writeRoot.stats = { s.stats with
        startHead := if s.stats.startRoot ≠ s.root then s.root else s.stats.startHead } := by
  unfold writeRoot
  split
  · next h => exact ⟨fun j ↦ (boot_setBoot 1 s.root j).trans (by simp [h]), rfl⟩
  · next h => exact ⟨fun j ↦ by simp [not_not.1 h], rfl⟩

private theorem writeTreeSize_spec (s : Btree K V) :
    (∀ j, s.writeTreeSize.storage.boot j =
      if j = 2 ∧ s.stats.startTreeSize ≠ s.stats.treeSize then some s.stats.treeSize
      else s.storage.boot j) ∧
      s.writeTreeSize.stats = { s.stats with startTreeSize := s.stats.treeSize } := by
  unfold writeTreeSize
  split
  · next h => exact ⟨fun j ↦ (boot_setBoot 2 s.stats.treeSize j).trans (by simp [h]), rfl⟩
  · next h => exact ⟨fun j ↦ by simp [not_not.1 h], by rw [← not_not.1 h]⟩

private theorem writeHead_spec (s : Btree K V) :
    (∀ j, s.writeHead.storage.boot j =
      if j = 3 ∧ s.stats.startHead ≠ s.headsurface then some s.headsurface
      else s.storage.boot j) ∧
      s.writeHead.stats = { s.stats with startHead := s.headsurface } := by
  unfold writeHead
  split
  · next h => exact ⟨fun j ↦ (boot_setBoot 3 s.headsurface j).trans (by simp [h]), rfl⟩
  · next h => exact ⟨fun j ↦ by simp [not_not.1 h], by rw [← not_not.1 h]⟩

private theorem writeLast_spec (s : Btree K V) :
    (∀ j, s.writeLast.storage.boot j =
      if j = 4 ∧ s.stats.startLast ≠ s.lastSurface then some s.lastSurface
      else s.storage.boot j) ∧
      s.writeLast.stats = { s.stats with startLast := s.lastSurface } := by
  unfold writeLast
  split
  · next h => exact ⟨fun j ↦ (boot_setBoot 4 s.lastSurface j).trans (by simp [h]), rfl⟩
  · next h => exact ⟨fun j ↦ by simp [not_not.1 h], by rw [← not_not.1 h]⟩

/-- After a change the boot values are written. -/
theorem bootWritten_writeBootValues (hchanges : s.stats.changes ≠ 0) :
    BootWritten s s.writeBootValues := by
  have hwrite : s.writeBootValues = { s.writeRoot.writeTreeSize.writeHead.writeLast with
      stats := { s.writeRoot.writeTreeSize.writeHead.writeLast.stats with changes := 0 } } :=
    if_neg hchanges
  obtain ⟨hboot₁, hstats₁⟩ := writeRoot_spec s
  obtain ⟨hboot₂, hstats₂⟩ := writeTreeSize_spec s.writeRoot
  obtain ⟨hboot₃, hstats₃⟩ := writeHead_spec s.writeRoot.writeTreeSize
  obtain ⟨hboot₄, hstats₄⟩ := writeLast_spec s.writeRoot.writeTreeSize.writeHead
  have hsame₁ := sameTree_writeRoot s
  have hsame₂ := hsame₁.trans (sameTree_writeTreeSize _)
  have hsame₃ := hsame₂.trans (sameTree_writeHead _)
  rw [hstats₁] at hstats₂
  rw [hstats₂, hsame₂.headsurface] at hstats₃
  rw [hstats₃, hsame₃.lastSurface] at hstats₄
  have hboot (j : ℕ) : s.writeBootValues.storage.boot j =
      s.writeRoot.writeTreeSize.writeHead.writeLast.storage.boot j := by rw [hwrite]
  constructor
  case root => rw [hboot, hboot₄, hboot₃, hboot₂, hboot₁]; simp
  case treeSize =>
    rw [hboot, hboot₄, hboot₃, hboot₂, hboot₁, hstats₁]
    simp
  case head =>
    rw [hboot, hboot₄, hboot₃, hboot₂, hboot₁, hstats₂, hsame₂.headsurface]
    simp
  case last =>
    rw [hboot, hboot₄, hboot₃, hboot₂, hboot₁, hstats₃, hsame₃.lastSurface]
    simp
  case stats => rw [hwrite, hstats₄]

/-- The boot blocks from 5 on are not written. -/
theorem boot_writeBootValues {j : ℕ} (hj : 4 < j) :
    s.writeBootValues.storage.boot j = s.storage.boot j := by
  have hne (i : ℕ) (hi : i ≤ 4) : j ≠ i := by omega
  unfold writeBootValues
  split
  · rfl
  · show s.writeRoot.writeTreeSize.writeHead.writeLast.storage.boot j = _
    rw [(writeLast_spec _).1, (writeHead_spec _).1, (writeTreeSize_spec _).1, (writeRoot_spec _).1]
    simp [hne]

/-! ### Opening -/

/-- The tree that the boot blocks describe. -/
def described (storage : Storage K V) (b : ℕ) : Btree K V :=
  let treeSize := (storage.boot 2).getD 0
  let head := (storage.boot 3).getD 0
  let last := (storage.boot 4).getD 0
  ⟨storage, fun _ ↦ none, [], b, head, last, ⟨treeSize, 0, b, treeSize, head, last⟩, Noted.empty⟩

/-- A tree that is opened loads the pages of the storage. -/
theorem load_described (storage : Storage K V) (b : ℕ) :
    (described storage b).load = storage.pages := rfl

/-- A storage without a root opens as an empty tree. -/
theorem opened_of_none (h : storage.boot 1 = none) : opened storage = some (blank storage) := by
  have h' : (blank storage).storage.boot 1 = none := h
  unfold opened initializeContexts
  rw [h']

/-- A storage with a root opens as the tree of that root. -/
theorem opened_of_some {b : ℕ} (hb : storage.boot 1 = some b)
    (hpage : b = 0 ∨ (storage.pages b).isSome) : opened storage = some (described storage b) := by
  have hb' : (blank storage).storage.boot 1 = some b := hb
  have hroot : (blank storage).setRootAddress b = some { blank storage with root := b } := by
    rw [setRootAddress]
    split
    · next hzero => rw [hzero]; rfl
    · next hne =>
      obtain ⟨n, hn⟩ := Option.isSome_iff_exists.1 (hpage.resolve_left hne)
      have hclear : (blank storage).clear = blank storage := if_pos rfl
      have hload : (blank storage).load b = some n := hn
      simp only [hclear, hload, Option.map_some]
  unfold opened initializeContexts
  rw [hb']
  simp only [hroot, Option.bind_eq_bind, Option.bind_some, Option.pure_def]
  rfl

/-- What is opened is empty or described by the boot blocks. -/
theorem opened_cases (h : opened storage = some s) :
    storage.boot 1 = none ∧ s = blank storage ∨ ∃ b, storage.boot 1 = some b ∧
      (b = 0 ∨ (storage.pages b).isSome) ∧ s = described storage b := by
  cases hb : storage.boot 1 with
  | none => exact .inl ⟨rfl, Option.some.inj (h.symm.trans (opened_of_none hb))⟩
  | some b =>
    refine .inr ⟨b, rfl, ?_⟩
    by_cases hpage : b = 0 ∨ (storage.pages b).isSome
    · exact ⟨hpage, Option.some.inj (h.symm.trans (opened_of_some hb hpage))⟩
    · rw [not_or, Bool.not_eq_true, Option.isSome_eq_false_iff, Option.isNone_iff_eq_none] at hpage
      have hb' : (blank storage).storage.boot 1 = some b := hb
      have hclear : (blank storage).clear = blank storage := if_pos rfl
      have hload : (blank storage).load b = none := hpage.2
      have hroot : (blank storage).setRootAddress b = none := by
        rw [setRootAddress, if_neg hpage.1]
        simp only [hclear, hload, Option.map_none]
      unfold opened initializeContexts at h
      rw [hb'] at h
      simp only [hroot, Option.bind_eq_bind, Option.bind_none, reduceCtorEq] at h

/-- An opened tree remembers what it has read. -/
structure Fresh (st : Storage K V) (s : Btree K V) : Prop where
  storage : s.storage = st
  nodesLoaded : ∀ w, s.nodesLoaded w = none
  modified : s.modified = []
  changes : s.stats.changes = 0
  startRoot : s.stats.startRoot = s.root
  startTreeSize : s.stats.startTreeSize = s.stats.treeSize
  startHead : s.stats.startHead = s.headsurface
  startLast : s.stats.startLast = s.lastSurface
  root : s.root ≠ 0 → st.boot 1 = some s.root
  treeSize : s.stats.treeSize ≠ 0 → st.boot 2 = some s.stats.treeSize

/-- What is opened remembers what was read. -/
theorem fresh_of_opened (h : opened storage = some s) : Fresh storage s := by
  rcases opened_cases h with ⟨-, rfl⟩ | ⟨b, hb, -, rfl⟩
  · exact ⟨rfl, fun _ ↦ rfl, rfl, rfl, rfl, rfl, rfl, rfl, fun h ↦ absurd rfl h,
      fun h ↦ absurd rfl h⟩
  · refine ⟨rfl, fun _ ↦ rfl, rfl, rfl, rfl, rfl, rfl, rfl, fun _ ↦ hb, fun hsize ↦ ?_⟩
    cases htwo : storage.boot 2 with
    | none => exact absurd (congrArg (Option.getD · 0) htwo) hsize
    | some n => simp only [described, htwo, Option.getD_some]

/-- Opening looks at the pages and the boot blocks alone. -/
theorem opened_congr {storage' : Storage K V} (hpages : storage'.pages = storage.pages)
    (hboot : storage'.boot = storage.boot) (h : opened storage = some s) :
    opened storage' = some { s with storage := storage' } := by
  rcases opened_cases h with ⟨hnone, rfl⟩ | ⟨b, hb, hpage, rfl⟩
  · exact opened_of_none (hboot ▸ hnone)
  · rw [opened_of_some (hboot ▸ hb) (hpages ▸ hpage)]
    simp only [described, hboot]

end LibSpaces.Stx.Btree
