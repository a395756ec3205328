import Mathlib.Order.Bounds.Defs
import LibSpaces.Stx.MapRuns

/-!
# The nodes of a tree

What `verify`, `src/src/stx/btree.h:7060–7213`, looks at, in terms of the nodes that are reached
from the root: it holds after every run.
-/

namespace LibSpaces.Stx

open LibSpaces.Base

variable {K V : Type}

/-- The keys in a node. -/
def Node.keys : Node K V → List K
  | .surface n => n.kvs.map Prod.fst
  | .interior n => n.keys

/-- `surfaceslotmax` or `interiorslotmax`. -/
def Node.slotmax (tr : Traits) : Node K V → ℕ
  | .surface _ => tr.slotmax 0
  | .interior _ => tr.slotmax 1

/-- `minsurfaces` or `mininteriorslots`. -/
def Node.minslots (tr : Traits) : Node K V → ℕ
  | .surface _ => tr.minslots 0
  | .interior _ => tr.minslots 1

namespace Btree

/-- `x` is reached from `w` through `d` children. -/
inductive Descends (s : Btree K V) : ℕ → ℕ → ℕ → Prop
  | refl (w : ℕ) : Descends s w 0 w
  | child {w d c x : ℕ} {n : Interior K} (hload : s.load w = some (.interior n))
    (hc : c ∈ n.childid) (hx : Descends s c d x) : Descends s w (d + 1) x

/-- The node at `w` lies `d` levels below the root. -/
def Inside (s : Btree K V) (d w : ℕ) : Prop := s.root ≠ 0 ∧ Descends s s.root d w

/-- The keys of the leaves that are reached from `w`. -/
def keysBelow (s : Btree K V) (w : ℕ) : Set K :=
  {key | ∃ d x n, Descends s w d x ∧ s.load x = some (.surface n) ∧ key ∈ n.kvs.map Prod.fst}

variable [LinearOrder K] [Inhabited K]

/-- A tree whose leaves lie `h` levels below the root. -/
structure Wellformed (tr : Traits) (h : ℕ) (s : Btree K V) : Prop where
  loads : ∀ d w, Inside s d w → (s.load w).isSome
  depth : ∀ d w, Inside s d w → ((∃ n, s.load w = some (.surface n)) ↔ d = h)
  least : ∀ d w n, Inside s d w → s.load w = some n →
    (if d = 0 then 1 else n.minslots tr) ≤ n.occupants
  most : ∀ d w n, Inside s d w → s.load w = some n → n.occupants ≤ n.slotmax tr
  keys : ∀ d w n, Inside s d w → s.load w = some n → n.keys.Pairwise (· < ·)
  children : ∀ d w n, Inside s d w → s.load w = some (.interior n) →
    n.childid.length = n.keys.length + 1
  separators : ∀ d w n, Inside s d w → s.load w = some (.interior n) →
    ∀ slot < n.keys.length,
      IsGreatest (s.keysBelow (n.childid.getD slot 0)) (getKey n.keys slot)
  chain : ∃ leaves, Linked s.Cell 0 leaves 0 ∧ s.headsurface = leaves.headD 0 ∧
    s.lastSurface = leaves.getLastD 0 ∧ leaves.Nodup ∧ (∀ w, w ∈ leaves ↔ Inside s h w) ∧
    Sorted (leaves.flatMap s.kvsAt)

variable {tr : Traits} {s : Btree K V} {h lo d x : ℕ} {t : Shape K V h} {kvs : List (K × V)}

/-! ### The nodes below a stored node -/

/-- A node that is reached is the topmost one of a part of the tree. -/
theorem Stored.descends (hst : Stored s t) (hf : t.Filled tr lo) (hs : Sorted t.pairs)
    (hd : Descends s t.addr d x) :
    ∃ h', ∃ t' : Shape K V h', h' + d = h ∧ t'.addr = x ∧ Stored s t' ∧
      (if d = 0 then t'.Filled tr lo else t'.Filled tr (tr.minslots h')) ∧ Sorted t'.pairs ∧
      t'.leaves ⊆ t.leaves := by
  induction h generalizing lo d with
  | zero =>
    obtain ⟨w, kvs, rfl⟩ := t.exists_leaf
    obtain ⟨n, p, hload⟩ := stored_leaf.1 hst
    cases hd with
    | refl => exact ⟨0, _, rfl, rfl, hst, hf, hs, List.Subset.refl _⟩
    | child hload' => cases hload.symm.trans hload'
  | succ h ih =>
    obtain ⟨w, cs, rfl⟩ := t.exists_branch
    obtain ⟨hload, hcs⟩ := stored_branch.1 hst
    cases hd with
    | refl => exact ⟨h + 1, _, rfl, rfl, hst, hf, hs, List.Subset.refl _⟩
    | child hload' hc hx =>
      cases hload.symm.trans hload'
      obtain ⟨c, hmem, rfl⟩ := List.mem_map.1 hc
      obtain ⟨h', t', hh, haddr, hst', hf', hs', hleaves⟩ := ih (hcs c hmem)
        ((Shape.filled_branch.1 hf).2.2 c hmem) ((Shape.sorted_flatMap.1 hs).1 c hmem) hx
      refine ⟨h', t', by omega, haddr, hst', ?_, hs', fun w hw ↦ ?_⟩
      · rw [if_neg (Nat.succ_ne_zero _)]
        split at hf'
        next hd =>
          obtain rfl : h' = h := by omega
          exact hf'
        next => exact hf'
      · exact List.mem_flatMap.2 ⟨c, hmem, hleaves hw⟩

omit [LinearOrder K] in
private theorem Stored.descends_leaf (hst : Stored s t) {w : ℕ} (hw : w ∈ t.leaves) :
    Descends s t.addr h w := by
  induction h with
  | zero =>
    obtain ⟨x, kvs, rfl⟩ := t.exists_leaf
    rw [Shape.leaves_leaf, List.mem_singleton] at hw
    rw [hw]
    exact .refl x
  | succ h ih =>
    obtain ⟨x, cs, rfl⟩ := t.exists_branch
    obtain ⟨hload, hcs⟩ := stored_branch.1 hst
    obtain ⟨c, hc, hwc⟩ := List.mem_flatMap.1 hw
    exact .child hload (List.mem_map.2 ⟨c, hc, rfl⟩) (ih (hcs c hc) hwc)

private theorem Stored.mem_leaves (hst : Stored s t) (hf : t.Filled tr lo) (hs : Sorted t.pairs)
    {w : ℕ} :
    w ∈ t.leaves ↔ Descends s t.addr h w := by
  refine ⟨hst.descends_leaf, fun hd ↦ ?_⟩
  obtain ⟨h', t', hh, rfl, -, -, -, hleaves⟩ := hst.descends hf hs hd
  obtain rfl : h' = 0 := by omega
  exact hleaves List.mem_cons_self

omit [LinearOrder K] in
/-- A node without children is a leaf of the tree. -/
theorem Stored.surface_iff (hst : Stored s t) :
    (∃ n, s.load t.addr = some (.surface n)) ↔ h = 0 := by
  cases h with
  | zero =>
    obtain ⟨n, p, hload⟩ := hst
    exact ⟨fun _ ↦ rfl, fun _ ↦ ⟨_, hload⟩⟩
  | succ h =>
    refine ⟨fun ⟨n, hn⟩ ↦ ?_, fun hh ↦ absurd hh (Nat.succ_ne_zero h)⟩
    cases hn.symm.trans hst.1

private theorem Stored.keysBelow (hst : Stored s t) (hf : t.Filled tr lo) (hs : Sorted t.pairs) :
    s.keysBelow t.addr = {key | key ∈ t.pairs.map Prod.fst} := by
  have hflat := hst.flatMap_kvsAt
  ext key
  constructor
  · rintro ⟨d, x, n, hd, hload, hkey⟩
    obtain ⟨h', t', hh, rfl, hst', -, -, hleaves⟩ := hst.descends hf hs hd
    obtain rfl : h' = 0 := hst'.surface_iff.1 ⟨n, hload⟩
    obtain ⟨p, hp, rfl⟩ := List.mem_map.1 hkey
    refine List.mem_map.2 ⟨p, ?_, rfl⟩
    rw [← hflat]
    exact List.mem_flatMap.2 ⟨t'.addr, hleaves List.mem_cons_self, kvsAt_eq hload ▸ hp⟩
  · intro hkey
    obtain ⟨p, hp, rfl⟩ := List.mem_map.1 hkey
    rw [← hflat] at hp
    obtain ⟨w, hw, hp⟩ := List.mem_flatMap.1 hp
    have hd := hst.descends_leaf hw
    obtain ⟨h', t', hh, rfl, hst', -⟩ := hst.descends hf hs hd
    obtain ⟨n, hn⟩ := hst'.surface_iff.2 (by omega)
    exact ⟨h, t'.addr, n, hd, hn, List.mem_map.2 ⟨p, kvsAt_eq hn ▸ hp, rfl⟩⟩

private theorem isGreatest_maxKey (hs : Sorted kvs) (hne : kvs ≠ []) :
    IsGreatest {key | key ∈ kvs.map Prod.fst} (lastKey kvs) := by
  refine ⟨?_, fun key hkey ↦ ?_⟩
  · obtain ⟨p, hp, hlast⟩ := Shape.exists_lastKey hne
    exact List.mem_map.2 ⟨p, hp, hlast⟩
  · obtain ⟨p, hp, rfl⟩ := List.mem_map.1 hkey
    exact Shape.le_lastKey hs hp

/-! ### One node -/

/-- What a stored node that is the topmost one of a part of the tree looks like. -/
theorem Stored.node (hst : Stored s t) (hf : t.Filled tr lo) (hs : Sorted t.pairs) {n : Node K V}
    (hload : s.load t.addr = some n) :
    lo ≤ n.occupants ∧ n.occupants ≤ n.slotmax tr ∧ tr.minslots h = n.minslots tr ∧
      n.keys.Pairwise (· < ·) ∧
      ∀ m, n = .interior m → m.childid.length = m.keys.length + 1 ∧
        ∀ slot < m.keys.length,
          IsGreatest (s.keysBelow (m.childid.getD slot 0)) (getKey m.keys slot) := by
  cases h with
  | zero =>
    obtain ⟨w, kvs, rfl⟩ := t.exists_leaf
    obtain ⟨next, preceding, hleaf⟩ := stored_leaf.1 hst
    cases hload.symm.trans hleaf
    exact ⟨hf.1, hf.2, rfl, List.pairwise_map.2 hs, nofun⟩
  | succ h =>
    obtain ⟨w, cs, rfl⟩ := t.exists_branch
    obtain ⟨hbranch, hcs⟩ := stored_branch.1 hst
    obtain ⟨hleast, hmost, hfs⟩ := Shape.filled_branch.1 hf
    cases hload.symm.trans hbranch
    have hlen : (Shape.separators cs).length = cs.length - 1 := Shape.length_separators cs
    have hne : ∀ c ∈ cs, c.pairs ≠ [] := fun c hc ↦
      (hfs c hc).pairs_ne_nil (le_trans (by decide) (Shape.two_le_minslots tr h))
    refine ⟨?_, ?_, rfl, Shape.separators_sorted hne hs, fun m hm ↦ ?_⟩
    · show lo ≤ (Shape.separators cs).length
      omega
    · show (Shape.separators cs).length ≤ tr.slotmax (h + 1)
      omega
    · cases hm
      refine ⟨?_, fun slot hslot ↦ ?_⟩
      · show (cs.map Shape.addr).length = (Shape.separators cs).length + 1
        rw [List.length_map]
        omega
      · have hlt : slot + 1 < cs.length := by
          have : slot < (Shape.separators cs).length := hslot
          omega
        have hmem : cs[slot] ∈ cs := List.getElem_mem _
        have hsort := (Shape.sorted_flatMap.1 hs).1 _ hmem
        have haddr : (cs.map Shape.addr).getD slot 0 = (cs[slot]).addr := by
          rw [List.getD_eq_getElem _ _ (by rw [List.length_map]; omega), List.getElem_map]
        show IsGreatest (s.keysBelow ((cs.map Shape.addr).getD slot 0))
          (getKey (Shape.separators cs) slot)
        rw [haddr, Shape.getKey_separators hlt, (hcs _ hmem).keysBelow (hfs _ hmem) hsort]
        exact isGreatest_maxKey hsort (hne _ hmem)

/-! ### The whole tree -/

private theorem Bare.wellformed (hs : Bare s) : s.Wellformed tr 0 := by
  have hempty : ∀ d w, ¬ Inside s d w := fun d w hin ↦ hin.1 hs.root
  exact ⟨fun d w hin ↦ (hempty d w hin).elim, fun d w hin ↦ (hempty d w hin).elim,
    fun d w _ hin ↦ (hempty d w hin).elim, fun d w _ hin ↦ (hempty d w hin).elim,
    fun d w _ hin ↦ (hempty d w hin).elim, fun d w _ hin ↦ (hempty d w hin).elim,
    fun d w _ hin ↦ (hempty d w hin).elim,
    [], trivial, hs.headsurface, hs.chain.last, List.nodup_nil,
    fun w ↦ ⟨nofun, fun hin ↦ (hempty 0 w hin).elim⟩, List.Pairwise.nil⟩

private theorem Rooted.wellformed (ht : Rooted tr 1 s t) : s.Wellformed tr h := by
  have hroot : s.root ≠ 0 := Rooted.root_ne ht.root ht.owned
  have hpart {d w : ℕ} (hin : Inside s d w) :=
    ht.stored.descends ht.filled ht.sorted (ht.root ▸ hin.2)
  have hnode {d w : ℕ} {n : Node K V} (hin : Inside s d w) (hload : s.load w = some n) :
      (if d = 0 then 1 else n.minslots tr) ≤ n.occupants ∧ n.occupants ≤ n.slotmax tr ∧
        n.keys.Pairwise (· < ·) ∧
        ∀ m, n = .interior m → m.childid.length = m.keys.length + 1 ∧
          ∀ slot < m.keys.length,
            IsGreatest (s.keysBelow (m.childid.getD slot 0)) (getKey m.keys slot) := by
    obtain ⟨h', t', -, rfl, hst, hf, hs, -⟩ := hpart hin
    split at hf
    next hd =>
      obtain ⟨hleast, hmost, -, hkeys, hsep⟩ := hst.node hf hs hload
      exact ⟨by rwa [if_pos hd], hmost, hkeys, hsep⟩
    next hd =>
      obtain ⟨hleast, hmost, hmin, hkeys, hsep⟩ := hst.node hf hs hload
      exact ⟨by rwa [if_neg hd, ← hmin], hmost, hkeys, hsep⟩
  refine ⟨fun d w hin ↦ ?_, fun d w hin ↦ ?_, fun d w n hin hload ↦ (hnode hin hload).1,
    fun d w n hin hload ↦ (hnode hin hload).2.1, fun d w n hin hload ↦ (hnode hin hload).2.2.1,
    fun d w n hin hload ↦ ((hnode hin hload).2.2.2 n rfl).1,
    fun d w n hin hload ↦ ((hnode hin hload).2.2.2 n rfl).2, t.leaves, ht.chain.linked,
    ht.headsurface, ht.chain.last, ht.chain.nodup, fun w ↦ ?_, ?_⟩
  · obtain ⟨h', t', -, rfl, hst, -⟩ := hpart hin
    exact Option.isSome_iff_exists.2 hst.exists_load
  · obtain ⟨h', t', hh, rfl, hst, -⟩ := hpart hin
    rw [hst.surface_iff]
    omega
  · rw [ht.stored.mem_leaves ht.filled ht.sorted, Inside, ht.root]
    exact ⟨fun hd ↦ ⟨ht.root ▸ hroot, hd⟩, And.right⟩
  · rw [ht.stored.flatMap_kvsAt]
    exact ht.sorted

/-- The nodes of a tree are well formed after every run from an empty one. -/
theorem run_wellformed [Inhabited V] (tr : Traits) {storage : Storage K V} (hst : storage.Unlooped)
    (ops : List (MapOp K V)) :
    ∃ s answers h, (blank storage).run tr ops = some (s, answers) ∧ s.Wellformed tr h := by
  obtain ⟨s, heq, hs, -⟩ := run_spec (m := OrderedMap.empty) (represents_blank hst) ops
  generalize (specRun OrderedMap.empty ops).1.pairs = kvs at hs
  cases hs with
  | bare hs => exact ⟨s, _, 0, heq, hs.wellformed⟩
  | rooted t ht => exact ⟨s, _, _, heq, ht.wellformed⟩

/-- Three operations on an empty tree. -/
theorem run_wellformed_of_empty :
    ∃ s answers h, (blank ⟨fun _ ↦ none, fun _ ↦ none, 0⟩).run Traits.perPage
        [.insert 3 30, .assign 5 (50 : ℕ), .erase (3 : ℕ)] = some (s, answers) ∧
      s.Wellformed Traits.perPage h := by
  have hst : (⟨fun _ ↦ none, fun _ ↦ none, 0⟩ : Storage ℕ ℕ).Unlooped := fun _ _ h ↦ nomatch h
  exact run_wellformed Traits.perPage hst [.insert 3 30, .assign 5 50, .erase 3]

end Btree

end LibSpaces.Stx
