import LibSpaces.Stx.Iterators
import LibSpaces.Stx.NodeStates

/-!
# The boot blocks of a flushed tree

A boot block is written when the value differs from the one that is remembered of it. When the root
is written its address is remembered as that of the first leaf, `src/src/stx/btree.h:4466–4469`,
and the root that is remembered is never set again.
-/

namespace LibSpaces.Stx

open LibSpaces.Base

variable {K V : Type}

/-- The boot blocks of an empty storage or of a tree with a last leaf. -/
structure Storage.Booted (st : Storage K V) : Prop where
  last : (st.boot 1).isSome → (st.boot 4).isSome
  none : st.boot 1 = none → st.boot 3 = none ∧ st.boot 5 = none

namespace Handle

variable {h h' : Handle K V} {st : Storage K V}

/-- The size of the last leaf, if there is one. -/
def lastLeafSize (h : Handle K V) : Option ℕ :=
  if h.tree.lastSurface = 0 then none
  else (h.tree.surfaceAt h.tree.lastSurface).map fun n ↦ n.kvs.length

/-- The boot blocks hold the root, the size, the first leaf, the last leaf and the size of the last
leaf. Blocks 3 and 5 that are missing are read as 0. -/
structure Described (h : Handle K V) : Prop where
  root : h.tree.storage.boot 1 = some h.tree.root
  treeSize : h.tree.storage.boot 2 = some h.tree.stats.treeSize
  head : (h.tree.storage.boot 3).getD 0 = h.tree.headsurface
  last : h.tree.storage.boot 4 = some h.tree.lastSurface
  lastSize : h.lastLeafSize = some ((h.tree.storage.boot 5).getD 0)

/-- `begin` and `end` are the same iterators of the same leaves. -/
structure SameEnds (h h' : Handle K V) : Prop where
  beginIterator : h'.tree.beginIterator = h.tree.beginIterator
  endIterator : h'.tree.endIterator = h.tree.endIterator
  first : ∀ n, h.tree.surfaceAt h.tree.headsurface = some n →
    h'.tree.surfaceAt h.tree.headsurface = some n
  last : ∀ n, h.tree.surfaceAt h.tree.lastSurface = some n →
    h'.tree.surfaceAt h.tree.lastSurface = some n

/-- Before a flush: the size that was noted is that of the last leaf; if the root is the one that
the tree was opened with, block 1 still holds it; if it is another one and the first leaf too,
block 3 holds it already. -/
def Remembers (h : Handle K V) : Prop :=
  h.lastLeafSize = some h.lastSurfaceSize ∧
  (h.tree.stats.startRoot = h.tree.root → h.tree.storage.boot 1 = some h.tree.root) ∧
  (h.tree.stats.startRoot ≠ h.tree.root → h.tree.headsurface = h.tree.root →
    (h.tree.storage.boot 3).getD 0 = h.tree.headsurface)

/-- The flush is one that saves pages. -/
def Saves (h : Handle K V) : Prop := h.tree.stats.treeSize ≠ 0 ∧ h.tree.modified ≠ []

/-- The flushes that save pages are such. -/
def Describes (h : Handle K V) : TreeAction K V → Prop
  | .flush => h.Saves → h.Remembers
  | _ => True

/-- What is remembered of the boot blocks, and the leaves that are registered. -/
structure Booted (h : Handle K V) : Prop where
  treeSize : h.tree.stats.startTreeSize ≠ 0 →
    h.tree.storage.boot 2 = some h.tree.stats.startTreeSize
  head : (h.tree.storage.boot 3).getD 0 = h.tree.stats.startHead
  last : h.tree.stats.startLast ≠ 0 → h.tree.storage.boot 4 = some h.tree.stats.startLast
  lastSize : (h.tree.storage.boot 5).getD 0 = h.startLastSurfaceSize
  changes : h.tree.stats.changes = 0
  storage : h.tree.storage.Booted
  leaves : ∀ w n, h.tree.load w = some (.surface n) → h.tree.storage.pages w ≠ some (.surface n) →
    w ∈ h.tree.modified
  loaded : ∀ w ∈ h.tree.modified, (h.tree.nodesLoaded w).isSome
  stored : ∀ w, (h.tree.load w).isSome →
    w ∈ h.tree.modified ∨ (h.tree.storage.pages w).isSome
  changed : ∀ w ∈ h.tree.noted.changed, w ∈ h.tree.modified ∨ (h.tree.storage.pages w).isSome

private theorem booted_opened (hst : st.Booted) (hopen : opened st = some h) : Booted h := by
  obtain ⟨s, hs, rfl⟩ := Option.map_eq_some_iff.1 hopen
  have hfresh := Btree.fresh_of_opened hs
  have hstorage : s.storage = st := hfresh.storage
  have hleaves (w : ℕ) (n : Surface K V) (hn : s.load w = some (.surface n))
      (hpage : s.storage.pages w ≠ some (.surface n)) : w ∈ s.modified := by
    refine absurd ?_ hpage
    rw [Btree.load, hfresh.nodesLoaded] at hn
    exact hn
  have hloaded (w : ℕ) (hw : w ∈ s.modified) : (s.nodesLoaded w).isSome :=
    absurd (hfresh.modified ▸ hw) List.not_mem_nil
  have hloads (w : ℕ) (hw : (s.load w).isSome) :
      w ∈ s.modified ∨ (s.storage.pages w).isSome := by
    rw [Btree.load, hfresh.nodesLoaded] at hw
    exact .inr hw
  have hchanged (w : ℕ) (hw : w ∈ ([] : List ℕ)) :
      w ∈ s.modified ∨ (s.storage.pages w).isSome := absurd hw List.not_mem_nil
  rcases Btree.opened_cases hs with ⟨hnone, rfl⟩ | ⟨b, hb, -, rfl⟩
  · obtain ⟨hthree, hfive⟩ := hst.none hnone
    refine ⟨fun hne ↦ absurd rfl hne, ?_, fun hne ↦ absurd rfl hne, ?_, rfl, hst, hleaves, hloaded,
      hloads, hchanged⟩
    · show (st.boot 3).getD 0 = 0
      rw [hthree]
      rfl
    · show (st.boot 5).getD 0 = if (st.boot 1).isSome then (st.boot 5).getD 0 else 0
      rw [hfive, hnone]
      rfl
  · refine ⟨fun hne ↦ ?_, rfl, fun hne ↦ ?_, ?_, rfl, hst, hleaves, hloaded,
      hloads, hchanged⟩
    · exact hfresh.treeSize hne
    · obtain ⟨v, hv⟩ := Option.isSome_iff_exists.1 (hst.last (hb ▸ rfl))
      show st.boot 4 = some ((st.boot 4).getD 0)
      rw [hv]
      rfl
    · show (st.boot 5).getD 0 = if (st.boot 1).isSome then (st.boot 5).getD 0 else 0
      rw [hb]
      rfl

/-! ### The steps -/

/-- What is passed over is stored. -/
theorem Booted.page_of_passedOver [LinearOrder K] [Inhabited K] [Inhabited V] {tr : Traits}
    {op : MapOp K V} {reloaded : List ℕ} {w : ℕ} (hb : Booted h)
    (hw : w ∈ h.passedOver tr op reloaded) : (h.tree.storage.pages w).isSome := by
  unfold passedOver at hw
  dsimp only at hw
  split at hw
  · obtain ⟨hchanged, hmod, -⟩ := of_decide_eq_true (List.mem_filter.1 hw).2
    exact (hb.changed w (List.mem_filter.1 hchanged).1).resolve_left hmod
  · cases hw

private theorem Booted.work [LinearOrder K] [Inhabited K] [Inhabited V] {tr : Traits}
    {op : MapOp K V} {reloaded : List ℕ} (hb : Booted h) (hwork : h.work tr op reloaded = some h') :
    Booted h' := by
  obtain ⟨s, answer, hstep, hwrote, rfl⟩ := exists_of_work hwork
  have hboot : s.storage.boot = h.tree.storage.boot := hwrote.boot
  have hstats : s.stats = { h.tree.stats with treeSize := s.stats.treeSize } := hwrote.stats
  have hothers {w : ℕ} (hw : w ∉ s.modified) : s.nodesLoaded w = h.tree.nodesLoaded w :=
    hwrote.others w hw
  have hsame {w : ℕ} (hw : w ∉ s.modified) : s.load w = h.tree.load w := by
    rw [Btree.load, hothers hw, hwrote.pages]
    rfl
  have hwritten {w : ℕ} (hw : w ∈ s.modified) :
      w ∈ (s.modified.filter fun w ↦ w ∉ h.passedOver tr op reloaded) ∪ h.tree.modified ∨
        (s.storage.pages w).isSome := by
    rw [hwrote.pages, List.mem_union_iff]
    by_cases hpassed : w ∈ h.passedOver tr op reloaded
    · exact .inr (hb.page_of_passedOver hpassed)
    · exact .inl (.inl (List.mem_filter.2 ⟨hw, decide_eq_true hpassed⟩))
  refine ⟨?_, ?_, ?_, ?_, ?_, ⟨?_, ?_⟩, fun w n hn hpage ↦ ?_, fun w hw ↦ ?_, fun w hw ↦ ?_,
    fun w hw ↦ ?_⟩
  · show s.stats.startTreeSize ≠ 0 → s.storage.boot 2 = some s.stats.startTreeSize
    rw [hboot, hstats]
    exact hb.treeSize
  · show (s.storage.boot 3).getD 0 = s.stats.startHead
    rw [hboot, hstats]
    exact hb.head
  · show s.stats.startLast ≠ 0 → s.storage.boot 4 = some s.stats.startLast
    rw [hboot, hstats]
    exact hb.last
  · show (s.storage.boot 5).getD 0 = _
    rw [hboot]
    exact hb.lastSize
  · show s.stats.changes = 0
    rw [hstats]
    exact hb.changes
  · show (s.storage.boot 1).isSome → (s.storage.boot 4).isSome
    rw [hboot]
    exact hb.storage.last
  · show s.storage.boot 1 = none → s.storage.boot 3 = none ∧ s.storage.boot 5 = none
    rw [hboot]
    exact hb.storage.none
  · refine List.mem_union_iff.2 ?_
    by_cases hw : w ∈ s.modified
    · refine .inl (List.mem_filter.2 ⟨hw, decide_eq_true fun hpassed ↦ ?_⟩)
      -- a node that is passed over is an interior one
      simp only [passedOver, hstep] at hpassed
      have hinterior := (of_decide_eq_true (List.mem_filter.1 hpassed).2).2.2
      rw [Btree.isInterior, Btree.interiorAt, show s.load w = some (.surface n) from hn]
        at hinterior
      exact absurd hinterior Bool.false_ne_true
    · exact .inr (hb.leaves w n (hsame hw ▸ hn) (hwrote.pages ▸ hpage))
  · by_cases hw' : w ∈ s.modified
    · exact hwrote.loaded w hw'
    · have hold := (List.mem_union_iff.1 hw).resolve_left fun hmem ↦ hw' (List.mem_filter.1 hmem).1
      show (s.nodesLoaded w).isSome
      rw [hothers hw']
      exact hb.loaded w hold
  · by_cases hw' : w ∈ s.modified
    · exact hwritten hw'
    · show _ ∨ (s.storage.pages w).isSome
      rw [hwrote.pages, List.mem_union_iff]
      exact (hb.stored w (hsame hw' ▸ hw)).imp_left .inr
  · rcases hwrote.changed w hw with hold | hw'
    · show _ ∨ (s.storage.pages w).isSome
      rw [hwrote.pages, List.mem_union_iff]
      exact (hb.changed w (List.mem_filter.1 hold).1).imp_left .inr
    · exact hwritten hw'

private theorem bootWritten_writeLastSize {s : Btree K V} (hw : Btree.BootWritten s h.tree) :
    Btree.BootWritten s h.writeLastSize.tree ∧
      h.writeLastSize.tree.storage.boot 5 = (if h.startLastSurfaceSize ≠ h.lastSurfaceSize then
        some h.lastSurfaceSize else h.tree.storage.boot 5) ∧
      h.writeLastSize.startLastSurfaceSize = h.lastSurfaceSize := by
  unfold writeLastSize
  split
  · next hne =>
    refine ⟨⟨?_, ?_, ?_, ?_, hw.stats⟩, ?_, rfl⟩
    · exact (Btree.boot_setBoot 5 _ 1).trans ((if_neg (by decide)).trans hw.root)
    · exact (Btree.boot_setBoot 5 _ 2).trans ((if_neg (by decide)).trans hw.treeSize)
    · exact (Btree.boot_setBoot 5 _ 3).trans ((if_neg (by decide)).trans hw.head)
    · exact (Btree.boot_setBoot 5 _ 4).trans ((if_neg (by decide)).trans hw.last)
    · exact Btree.boot_setBoot 5 _ 5
  · next heq => exact ⟨hw, rfl, not_not.1 heq⟩

/-- What a flush that saves pages writes to the boot blocks. -/
theorem bootWritten_of_flush (hflush : h.flush = some h') (hsaves : h.Saves) :
    Btree.BootWritten h.tree.savedAll h'.tree ∧
      h'.tree.storage.boot 5 = (if h.startLastSurfaceSize ≠ h.lastSurfaceSize then
        some h.lastSurfaceSize else h.tree.storage.boot 5) ∧
      h'.startLastSurfaceSize = h.lastSurfaceSize := by
  have hpos : h.tree.stats.changes + h.tree.modified.length ≠ 0 := by
    have := List.length_pos_of_ne_nil hsaves.2
    omega
  rw [flush, if_neg hsaves.1] at hflush
  obtain ⟨t, ht, rfl⟩ := Option.map_eq_some_iff.1 hflush
  obtain rfl := Btree.eq_of_flush ht hsaves.1
  have hwritten : Btree.BootWritten h.tree.savedAll h.tree.savedAll.writeBootValues :=
    Btree.bootWritten_writeBootValues hpos
  have hfive : h.tree.savedAll.writeBootValues.storage.boot 5 = h.tree.storage.boot 5 :=
    Btree.boot_writeBootValues (by decide)
  dsimp only
  rw [if_neg hpos, ← hfive]
  exact bootWritten_writeLastSize { hwritten with }

private theorem lastLeafSize_congr (hload : h'.tree.load = h.tree.load)
    (hlast : h'.tree.lastSurface = h.tree.lastSurface) : h'.lastLeafSize = h.lastLeafSize := by
  unfold lastLeafSize Btree.surfaceAt
  rw [hload, hlast]

/-- After `end` the size that is noted is that of the last leaf. -/
theorem lastLeafSize_of_atEnd (hend : h.atEnd = some h') (hlast : h.tree.lastSurface ≠ 0) :
    h'.lastLeafSize = some h'.lastSurfaceSize := by
  obtain ⟨i, hi, rfl⟩ := Option.map_eq_some_iff.1 hend
  rw [Btree.endIterator, if_neg hlast] at hi
  obtain ⟨n, hn, rfl⟩ := Option.map_eq_some_iff.1 hi
  have hleaf : lastLeafSize h = some n.kvs.length := by
    rw [lastLeafSize, if_neg hlast, hn, Option.map_some]
  exact (lastLeafSize_congr rfl rfl).trans hleaf

/-- The size and the last leaf are in their blocks whenever there is a last leaf. -/
theorem Booted.boot_of_flush (hb : Booted h) (hflush : h.flush = some h') (hsaves : h.Saves) :
    h'.tree.storage.boot 2 = some h.tree.stats.treeSize ∧
      (h.tree.lastSurface ≠ 0 → h'.tree.storage.boot 4 = some h.tree.lastSurface) ∧
      (h'.tree.storage.boot 5).getD 0 = h.lastSurfaceSize := by
  obtain ⟨hw, hfive, -⟩ := bootWritten_of_flush hflush hsaves
  refine ⟨?_, fun hne ↦ ?_, ?_⟩
  · refine hw.treeSize.trans ?_
    split
    · rfl
    · next heq =>
      have heq' : h.tree.stats.startTreeSize = h.tree.stats.treeSize := not_not.1 heq
      exact heq' ▸ hb.treeSize (heq' ▸ hsaves.1)
  · refine hw.last.trans ?_
    split
    · rfl
    · next heq =>
      have heq' : h.tree.stats.startLast = h.tree.lastSurface := not_not.1 heq
      exact heq' ▸ hb.last (heq' ▸ hne)
  · rw [hfive]
    split
    · rfl
    · next heq => exact hb.lastSize.trans (not_not.1 heq)

/-- The boot blocks are right after a flush exactly where the flush began as it is to. -/
theorem Booted.described_iff (hb : Booted h) (hflush : h.flush = some h') (hsaves : h.Saves) :
    h'.Described ↔ h.Remembers := by
  obtain ⟨hw, -, -⟩ := bootWritten_of_flush hflush hsaves
  obtain ⟨htwo, hfour, hfive⟩ := hb.boot_of_flush hflush hsaves
  have hsame := sameTree_of_flush hflush hsaves.1
  have hsize := lastLeafSize_congr (load_of_flush hflush hsaves.1 hb.loaded) hsame.lastSurface
  have hone : h'.tree.storage.boot 1 = some h'.tree.root ↔
      (h.tree.stats.startRoot = h.tree.root → h.tree.storage.boot 1 = some h.tree.root) := by
    rw [hsame.root, hw.root]
    show (if h.tree.stats.startRoot ≠ h.tree.root then some h.tree.root
      else h.tree.storage.boot 1) = some h.tree.root ↔ _
    by_cases heq : h.tree.stats.startRoot = h.tree.root <;> simp [heq]
  have hthree : (h'.tree.storage.boot 3).getD 0 = h'.tree.headsurface ↔
      (h.tree.stats.startRoot ≠ h.tree.root → h.tree.headsurface = h.tree.root →
        (h.tree.storage.boot 3).getD 0 = h.tree.headsurface) := by
    rw [hsame.headsurface, hw.head]
    show (if (if h.tree.stats.startRoot ≠ h.tree.root then h.tree.root
        else h.tree.stats.startHead) ≠ h.tree.headsurface then some h.tree.headsurface
      else h.tree.storage.boot 3).getD 0 = h.tree.headsurface ↔ _
    by_cases heq : h.tree.stats.startRoot = h.tree.root
    · rw [if_neg (not_not.2 heq)]
      refine iff_of_true ?_ fun hne ↦ absurd heq hne
      split
      · rfl
      · next hsame => exact hb.head.trans (not_not.1 hsame)
    · rw [if_pos heq]
      by_cases hroot : h.tree.root = h.tree.headsurface
      · rw [if_neg (not_not.2 hroot)]
        exact ⟨fun hthree _ _ ↦ hthree, fun himp ↦ himp heq hroot.symm⟩
      · rw [if_pos hroot]
        exact iff_of_true rfl fun _ hsame ↦ absurd hsame.symm hroot
  constructor
  · intro hd
    refine ⟨?_, hone.1 hd.root, hthree.1 hd.head⟩
    rw [← hsize, hd.lastSize, hfive]
  · intro ⟨hnoted, hroot, hhead⟩
    have hne : h.tree.lastSurface ≠ 0 := fun hzero ↦ by
      rw [lastLeafSize, if_pos hzero] at hnoted
      cases hnoted
    refine ⟨hone.2 hroot, ?_, hthree.2 hhead, ?_, ?_⟩
    · rw [htwo, hsame.treeSize]
      rfl
    · rw [hfour hne, hsame.lastSurface]
      rfl
    · rw [hsize, hnoted, hfive]

/-- The leaves in memory are stored by a flush. -/
theorem Booted.leaf_of_flush (hb : Booted h) (hflush : h.flush = some h')
    (hsize : h.tree.stats.treeSize ≠ 0) {w : ℕ} {n : Surface K V}
    (hn : h'.tree.load w = some (.surface n)) : h'.tree.storage.pages w = some (.surface n) := by
  rw [load_of_flush hflush hsize hb.loaded] at hn
  rw [pages_of_flush hflush hsize]
  split
  · next hw =>
    obtain ⟨m, hm⟩ := Option.isSome_iff_exists.1 (hb.loaded w hw)
    rw [Btree.load, hm] at hn
    rw [hm]
    exact hn
  · next hw => exact not_not.1 (mt (hb.leaves w n hn) hw)

/-- What is still `changed` after a flush was `changed` before it. -/
theorem mem_changed_of_flush (hflush : h.flush = some h') (hsize : h.tree.stats.treeSize ≠ 0)
    {w : ℕ} (hw : w ∈ h'.tree.noted.changed) : w ∈ h.tree.noted.changed := by
  rw [flush, if_neg hsize] at hflush
  obtain ⟨t, -, rfl⟩ := Option.map_eq_some_iff.1 hflush
  dsimp only at hw
  split at hw
  · exact (List.mem_filter.1 hw).1
  · unfold writeLastSize at hw
    split at hw <;> exact (List.mem_filter.1 hw).1

/-- A page that is registered or stored is stored after a flush. -/
theorem Booted.page_of_flush (hb : Booted h) (hflush : h.flush = some h')
    (hsize : h.tree.stats.treeSize ≠ 0) {w : ℕ}
    (hw : w ∈ h.tree.modified ∨ (h.tree.storage.pages w).isSome) :
    (h'.tree.storage.pages w).isSome := by
  rw [pages_of_flush hflush hsize]
  split
  · next hmem => exact hb.loaded w hmem
  · next hmem => exact hw.resolve_left hmem

/-- A flush that saves no page changes nothing. -/
theorem Booted.flush_unsaved (hb : Booted h) (hflush : h.flush = some h') (hsaves : ¬h.Saves) :
    h' = h := by
  by_cases hsize : h.tree.stats.treeSize = 0
  · rw [flush, if_pos hsize] at hflush
    cases hflush
    rfl
  · have hmod : h.tree.modified = [] := not_not.1 fun hne ↦ hsaves ⟨hsize, hne⟩
    rw [flush, if_neg hsize] at hflush
    obtain ⟨t, ht, rfl⟩ := Option.map_eq_some_iff.1 hflush
    have hwrite : h.tree.writeBootValues = h.tree := if_pos hb.changes
    obtain rfl : t = h.tree := by
      rw [Btree.eq_of_flush ht hsize, Btree.savedAll_of_nil hmod, hwrite]
    have hfilter : h.tree.noted.changed.filter (fun w ↦ decide (w ∉ h.tree.modified ∨
        h.tree.isInterior w)) = h.tree.noted.changed :=
      List.filter_eq_self.2 fun w _ ↦ decide_eq_true (.inl (hmod ▸ List.not_mem_nil))
    dsimp only
    rw [hfilter, if_pos (by rw [hb.changes, hmod]; rfl)]

private theorem Booted.flush (hb : Booted h) (hflush : h.flush = some h')
    (hr : h.Saves → h.Remembers) : Booted h' := by
  by_cases hsaves : h.Saves
  · have hd := (hb.described_iff hflush hsaves).2 (hr hsaves)
    obtain ⟨hw, hfive, hstart⟩ := bootWritten_of_flush hflush hsaves
    have hsame := sameTree_of_flush hflush hsaves.1
    have hstats := hw.stats
    have hload := load_of_flush hflush hsaves.1 hb.loaded
    refine ⟨fun _ ↦ ?_, ?_, fun _ ↦ ?_, ?_, ?_, ⟨fun _ ↦ ?_, fun hnone ↦ ?_⟩, fun w n hn hpage ↦ ?_,
      fun w hw ↦ ?_, fun w hw ↦ ?_, fun w hw ↦ ?_⟩
    · rw [hd.treeSize, hstats]
    · rw [hd.head, hstats]
      exact hsame.headsurface
    · rw [hd.last, hstats]
      exact congrArg some hsame.lastSurface
    · rw [hstart]
      exact (hb.boot_of_flush hflush hsaves).2.2
    · rw [hstats]
    · rw [hd.last]
      rfl
    · cases hnone.symm.trans hd.root
    · exact absurd (hb.leaf_of_flush hflush hsaves.1 hn) hpage
    · have hmod : h'.tree.modified = [] := hsame.modified
      rw [hmod] at hw
      cases hw
    · exact .inr (hb.page_of_flush hflush hsaves.1 (hb.stored w (hload ▸ hw)))
    · refine .inr (hb.page_of_flush hflush hsaves.1 ?_)
      exact hb.changed w (mem_changed_of_flush hflush hsaves.1 hw)
  · rw [hb.flush_unsaved hflush hsaves]
    exact hb

/-- A tree that is opened on boot blocks that are right has the ends of the one that was flushed. -/
theorem Described.sameEnds {h₂ : Handle K V} (hd : h.Described)
    (hleaves : ∀ w n, h.tree.load w = some (.surface n) →
      h.tree.storage.pages w = some (.surface n))
    (hopen : opened h.tree.storage = some h₂) : SameEnds h h₂ := by
  obtain ⟨s, hs, rfl⟩ := Option.map_eq_some_iff.1 hopen
  rcases Btree.opened_cases hs with ⟨hnone, -⟩ | ⟨b, hb, -, rfl⟩
  · cases hnone.symm.trans hd.root
  · have hlast : (Btree.described h.tree.storage b).lastSurface = h.tree.lastSurface := by
      show (h.tree.storage.boot 4).getD _ = _
      rw [hd.last]
      rfl
    have hsurface {w : ℕ} {n : Surface K V} (hn : h.tree.surfaceAt w = some n) :
        (Btree.described h.tree.storage b).surfaceAt w = some n := by
      unfold Btree.surfaceAt at hn
      split at hn
      · next hload =>
        cases hn
        exact Btree.surfaceAt_eq (hleaves _ _ hload)
      · cases hn
    refine ⟨congrArg (·, 0) hd.head, ?_, fun n ↦ hsurface, fun n ↦ hsurface⟩
    have hsize := hd.lastSize
    unfold lastLeafSize at hsize
    split at hsize
    · cases hsize
    · next hne =>
      obtain ⟨n, hn, -⟩ := Option.map_eq_some_iff.1 hsize
      show (Btree.described h.tree.storage b).endIterator = h.tree.endIterator
      unfold Btree.endIterator
      rw [hlast, if_neg hne, if_neg hne, hsurface hn, hn]

private theorem booted_step [LinearOrder K] [Inhabited K] [Inhabited V] {tr : Traits}
    (a : TreeAction K V)
    (hb : Booted h) (ha : h.Describes a) (hstep : h.step tr a = some h') : Booted h' := by
  cases a with
  | work op reloaded => exact hb.work hstep
  | atEnd =>
    obtain ⟨i, -, rfl⟩ := Option.map_eq_some_iff.1 hstep
    refine { hb with changed := fun w hw ↦ hb.changed w ?_ }
    dsimp only at hw
    split at hw
    · exact hw
    · exact (List.mem_filter.1 hw).1
  | flush => exact hb.flush hstep ha
  | reopen => exact booted_opened hb.storage hstep

/-- In runs whose flushes began as they are to, one more flush leaves the boot blocks right exactly
where it began so too, and the tree that is opened on them has the same ends. -/
theorem described_iff_of_reached [LinearOrder K] [Inhabited K] [Inhabited V] {tr : Traits}
    {h₀ : Handle K V} (hst : st.Booted) (hopen : opened st = some h₀)
    (hs : Reached (step tr) Describes h₀ h) (hflush : h.flush = some h') (hsaves : h.Saves) :
    (h'.Described ↔ h.Remembers) ∧
      (h'.Described → (h'.tree.load h'.tree.root).isSome →
        ∃ h₂, opened h'.tree.storage = some h₂ ∧ SameEnds h' h₂) := by
  have hb : Booted h := hs.invariant Booted (booted_opened hst hopen)
    fun _ _ a hb ha hstep ↦ booted_step a hb ha hstep
  refine ⟨hb.described_iff hflush hsaves, fun hd hroot ↦ ?_⟩
  have hpage : (h'.tree.storage.pages h'.tree.root).isSome :=
    hb.page_of_flush hflush hsaves.1
      (hb.stored _ (load_of_flush hflush hsaves.1 hb.loaded ▸ hroot))
  obtain ⟨h₂, hopen'⟩ : ∃ h₂, opened h'.tree.storage = some h₂ :=
    ⟨_, by rw [opened, Btree.opened_of_some hd.root (.inr hpage), Option.map_some]⟩
  exact ⟨h₂, hopen', hd.sameEnds (fun w n ↦ hb.leaf_of_flush hflush hsaves.1) hopen'⟩

instance (h : Handle K V) : Decidable h.Remembers :=
  inferInstanceAs (Decidable (_ ∧ _ ∧ _))

instance (h : Handle K V) : Decidable h.Saves := inferInstanceAs (Decidable (_ ∧ _))

instance (h : Handle K V) (a : TreeAction K V) : Decidable (h.Describes a) :=
  match a with
  | .flush => inferInstanceAs (Decidable (h.Saves → h.Remembers))
  | .work .. | .atEnd | .reopen => inferInstanceAs (Decidable True)

private theorem booted_empty :
    (Storage.empty : Storage ℕ ℕ).Booted :=
  ⟨fun h ↦ h, fun _ ↦ ⟨rfl, rfl⟩⟩

/-- A root with two leaves, flushed twice, with `end` before each flush. -/
def splitTwice : List (TreeAction ℕ ℕ) :=
  [.work (.insert 1 10) [], .work (.insert 2 20) [], .work (.insert 3 30) [],
    .work (.insert 4 40) [], .work (.insert 5 50) [], .atEnd, .flush, .reopen,
    .work (.insert 6 60) [], .atEnd]

/-- After the second of the two flushes the last leaf has changed with the first. -/
theorem described_iff_of_reached_splitTwice :
    ∃ h h', runAllowed (step four) Describes empty splitTwice = some h ∧ h.flush = some h' ∧
      (h'.Described ↔ h.Remembers) ∧
      (h'.Described → (h'.tree.load h'.tree.root).isSome →
        ∃ h₂, opened h'.tree.storage = some h₂ ∧ SameEnds h' h₂) := by
  have hrun : (runAllowed (step four) Describes empty splitTwice).map
      (fun h ↦ (decide h.Saves, h.flush.isSome)) = some (true, true) := by
    decide +kernel
  obtain ⟨h, hs, hvalue⟩ := Option.map_eq_some_iff.1 hrun
  simp only [Prod.mk.injEq, decide_eq_true_eq] at hvalue
  obtain ⟨hsaves, hflush⟩ := hvalue
  obtain ⟨h', hflush⟩ := Option.isSome_iff_exists.1 hflush
  exact ⟨h, h', hs, hflush, described_iff_of_reached booted_empty opened_empty
    (reached_of_runAllowed .start hs) hflush hsaves⟩

/-- The tree on one leaf. -/
def oneLeaf : List (TreeAction ℕ ℕ) := [.work (.insert 3 30) [], .atEnd]

/-- Block 3 is not written when the first leaf is the root. -/
theorem not_described_oneLeaf :
    ¬ ∀ (st : Storage ℕ ℕ) (h₀ h h' : Handle ℕ ℕ), st.Booted → opened st = some h₀ →
      Reached (step Traits.perPage) (fun _ _ ↦ True) h₀ h → h.flush = some h' → h.Saves →
      h'.Described := by
  intro hall
  have hrun : (runAllowed (step Traits.perPage) (fun _ _ ↦ True) empty oneLeaf).bind
      (fun h ↦ (if h.Saves then h.flush else none).map fun h' ↦
        ((h'.tree.storage.boot 3).getD 0, h'.tree.headsurface)) = some (0, 1) := by
    decide +kernel
  obtain ⟨h, hs, hrest⟩ := Option.bind_eq_some_iff.1 hrun
  obtain ⟨h', hflush, hvalue⟩ := Option.map_eq_some_iff.1 hrest
  split at hflush
  · next hsaves =>
    obtain ⟨hthree, hhead⟩ := Prod.mk.inj hvalue
    have hd := hall _ _ h h' booted_empty opened_empty (reached_of_runAllowed .start hs) hflush
      hsaves
    exact absurd (hthree.symm.trans (hd.head.trans hhead)) (by decide)
  · cases hflush

end Handle

end LibSpaces.Stx
