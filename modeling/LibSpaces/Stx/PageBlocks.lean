import Mathlib.Algebra.BigOperators.Ring.List
import LibSpaces.Stx.Reopening
import LibSpaces.Stx.Saveable
import LibSpaces.Stx.StoredPages

/-!
# The blocks of a tree

What `load` finds in a block of the storage, and the block that `save` stores for a page,
`src/src/stx/btree.h:1566–1656,2095–2233,2394–2471,2619–2662`. Each load of a block gives the same
node: it depends neither on the order of the transaction nor on what the buffers of the tree hold.
-/

namespace LibSpaces.Stx

open LibSpaces.Base LibSpaces.Base.Memory

/-- The template arguments of a tree, with the room that a leaf reserves for `allocated` keys and
values. -/
structure TreeType (K V : Type) where
  traits : Traits
  keys : Codec K
  values : Codec V
  unencoded : ℕ
  slots_lt : traits.interiorslots + 1 < 2 ^ 15
  keys_roundTrips : keys.RoundTrips
  values_roundTrips : values.RoundTrips

variable {K V : Type}

/-- A node with the children that `save` writes, one more than occupants. What a node without
occupants still has for a first child is not modelled: `load` refuses its page. -/
def Node.occupied : Node K V → Node K V
  | .surface n => .surface n
  | .interior n => .interior { n with childid := n.childid.take (n.keys.length + 1) }

namespace TreeType

variable (ty : TreeType K V)

/-- The node in a block, if `load` does not throw. The end of the storage is an empty buffer. -/
def page (order : ℕ) (loadBuffer : Memory) (w : ℕ) (block : Option Bytes) : Option (Node K V) :=
  match loadPage ty.traits ty.keys ty.values order w loadBuffer (block.getD []) with
  | some (.ok n) => some n
  | _ => none

/-- What is written of a node. -/
def written : Node K V → Bytes
  | .surface n => n.written ty.keys ty.values
  | .interior n => n.written ty.keys

/-- The size of the page of a node. -/
def pageSize (n : Node K V) : ℕ := (ty.written n.occupied).length

/-- Each load of a block gives the same node, if any: one that can be saved, behind the boot
values. -/
structure Settled (w : ℕ) (block : Option Bytes) : Prop where
  same : ∀ order, order ≠ 0 → ∀ loadBuffer,
    ty.page order loadBuffer w block = ty.page 1 (fun _ ↦ 0) w block
  above : (ty.page 1 (fun _ ↦ 0) w block).isSome → 32 < w
  fits : ∀ n, ty.page 1 (fun _ ↦ 0) w block = some n → n.Fits ty.traits 128

variable {ty} {order w : ℕ} {loadBuffer t : Memory} {block : Option Bytes} {n m : Node K V}

/-- A block that is missing or empty has no page. -/
theorem page_of_empty (h : block = none ∨ block = some []) :
    ty.page order loadBuffer w block = none := by
  have hnil : block.getD [] = [] := by
    rcases h with rfl | rfl <;> rfl
  rw [page, hnil, loadPage, if_pos rfl]

/-- A block that no load accepts. -/
theorem Settled.of_none (h : ∀ order loadBuffer, ty.page order loadBuffer w block = none) :
    ty.Settled w block where
  same order _ loadBuffer := (h order loadBuffer).trans (h 1 _).symm
  above := by
    rw [h]
    exact nofun
  fits n hn := by
    rw [h] at hn
    cases hn

/-- So it gives no node in any load. -/
theorem Settled.of_empty (h : block = none ∨ block = some []) : ty.Settled w block :=
  .of_none fun _ _ ↦ page_of_empty h

/-- A node that is loaded lies behind the boot values and fits the width of its fields. -/
theorem Settled.page (h : ty.Settled w block) (horder : order ≠ 0)
    (hn : ty.page order loadBuffer w block = some n) : 32 < w ∧ n.Fits ty.traits 128 := by
  rw [h.same order horder] at hn
  exact ⟨h.above (hn ▸ rfl), h.fits n hn⟩

/-! ### Boot values -/

/-- The first four bytes of a longer boot value are a negative size. -/
theorem size_of_coded {p : Bytes} (hp : Coded p) (hlen : 4 < p.length) :
    (BitVec.ofNat 32 (ofLeBytes (p.take 4))).toInt < 0 := by
  rcases hp with ⟨-⟩ | @⟨b₀, _, -, ⟨-⟩ | @⟨b₁, _, -, ⟨-⟩ | @⟨b₂, _, -, ⟨-⟩ | @⟨b₃, p, h₃, -⟩⟩⟩⟩
  iterate 4 simp at hlen
  have hsign : ¬ b₃.toNat ≤ 127 := not_le_of_more h₃
  have hlt := b₃.toNat_lt
  have hsize := ofLeBytes_lt [b₀, b₁, b₂]
  simp only [List.take_succ_cons, List.take_zero, ofLeBytes, List.length_cons, List.length_nil]
    at hsize ⊢
  rw [BitVec.toInt_eq_toNat_cond, BitVec.toNat_ofNat]
  omega

private theorem decompressFast_nil (dest : Memory) (d : ℤ) :
    Lz4.decompressFast [] dest d = none := by
  rw [Lz4.decompressFast]
  split
  · rfl
  · rw [Lz4.decodeLoop, Lz4.round]
    rfl

/-- A boot value is not the page of a node. -/
theorem page_of_coded {p : Bytes} (hp : Coded p) : ty.page order loadBuffer w (some p) = none := by
  have hne : p ≠ [] := hp.ne_nil
  rw [page, Option.getD_some, loadPage, if_neg hne, rDecompressLz4, if_neg hne]
  by_cases hshort : p.length < 4
  · rw [if_pos hshort]
    rfl
  rw [if_neg hshort]
  dsimp only
  by_cases hfour : p.length = 4
  · rw [List.drop_of_length_le hfour.le, decompressFast_nil]
    rfl
  have hneg := size_of_coded hp (by omega)
  cases Lz4.decompressFast (p.drop 4) loadBuffer
    (BitVec.ofNat 32 (ofLeBytes (p.take 4))).toInt with
  | none => rfl
  | some r =>
    rw [Option.map_some, Option.map_some]
    dsimp only
    rw [Int.toNat_of_nonpos hneg.le]
    rfl

/-- The block of a boot value has no page. -/
theorem page_writeSigned {v : ℤ} (hlow : -2 ^ 63 ≤ v) (hhigh : v < 2 ^ 63) :
    ty.page order loadBuffer w (some (writeSigned v)) = none :=
  page_of_coded (coded_writeSignedLoop 9 v (by omega) (by omega)).1

/-! ### Saved pages -/

/-- The children of a node do not matter for whether it can be saved. -/
theorem interior_save_eq {tr : Traits} {keys : Codec K} (hk : keys.RoundTrips) {n : Interior K}
    (hslots : n.keys.length ≤ tr.interiorslots) (hlevel : 0 < n.level ∧ n.level ≤ 128)
    (hsize : (n.written keys).length < 2 ^ 32) : n.save tr keys = .ok (some (n.written keys)) := by
  have hkeys : (n.keys.flatMap keys.store).length = (n.keys.map keys.storeSize).sum := by
    rw [List.length_flatMap]
    exact congrArg List.sum (List.map_congr_left fun x _ ↦ (hk.size x).symm)
  have hchildren : (n.childid.flatMap fun c ↦ writeSigned (signed c)).length =
      (n.childid.map fun c ↦ signedSize (signed c)).sum := by
    simp only [List.length_flatMap, length_writeSigned]
  have huse : n.storageUse keys = (n.written keys).length % 2 ^ 32 := by
    simp only [Interior.written, Interior.storageUse, List.length_append, length_writeSigned, hkeys,
      hchildren, Nat.add_assoc]
  rw [Interior.save, if_neg (by omega), if_neg (by omega), huse, if_pos (by omega)]

/-- A node that fits is saved, as what is written of it. -/
theorem save_occupied (h : n.Fits ty.traits 128) (hsize : ty.pageSize n < pageLimit) :
    n.occupied.save ty.traits ty.keys ty.values ty.unencoded =
      .ok (some (ty.written n.occupied)) := by
  cases n with
  | surface n => exact congrArg Except.ok (Surface.save_eq ty.keys_roundTrips ty.values_roundTrips)
  | interior n =>
    obtain ⟨hslots, hlevel⟩ := h
    refine interior_save_eq ty.keys_roundTrips hslots hlevel ?_
    exact hsize.trans (by decide)

/-- The block of a node that fits: a load reads what was written. -/
theorem exists_savePage (h : n.Fits ty.traits 128) (hsize : ty.pageSize n < pageLimit)
    (t : Memory) :
    ∃ block, savePage ty.traits ty.keys ty.values ty.unencoded t n.occupied = .ok (some block) ∧
      ∀ order loadBuffer w, ty.page order loadBuffer w (some block) =
        (readPage ty.traits ty.keys ty.values order w (ty.written n.occupied)).toOption := by
  have hsave := save_occupied h hsize
  have hwritten := save_ne_nil hsave
  obtain ⟨block, hblock, hload⟩ : ∃ block, compressBuffer t (ty.written n.occupied) = some block ∧
      ∀ loadBuffer, ∃ decoded, block ≠ [] ∧
        rDecompressLz4 loadBuffer block =
          some (((ty.written n.occupied).length : ℤ), decoded) ∧
        Stands decoded 0 (ty.written n.occupied) := by
    obtain ⟨block, -, hblock, -⟩ := decompress_compressBuffer hwritten hsize t t
    refine ⟨block, hblock, fun loadBuffer ↦ ?_⟩
    obtain ⟨block', decoded, hblock', hne, -, hrestore, hstands, -⟩ :=
      decompress_compressBuffer hwritten hsize t loadBuffer
    obtain rfl := Option.some.inj (hblock'.symm.trans hblock)
    exact ⟨decoded, hne, hrestore, hstands⟩
  refine ⟨block, savePage_of_save hsave hblock, fun order loadBuffer w ↦ ?_⟩
  obtain ⟨decoded, hne, hrestore, hstands⟩ := hload loadBuffer
  rw [page, Option.getD_some, loadPage, if_neg hne, hrestore, Option.map_some]
  dsimp only
  rw [Int.toNat_natCast, hstands]
  generalize readPage ty.traits ty.keys ty.values order w (ty.written n.occupied) = r
  cases r <;> rfl

/-- Of the order of the transaction a load checks that there is one. -/
theorem readPage_order (horder : order ≠ 0) (buffer : Bytes) :
    readPage ty.traits ty.keys ty.values order w buffer =
      readPage ty.traits ty.keys ty.values 1 w buffer := by
  have hcheck : reject (order = 0) LoadError.badTransaction =
      reject (1 = 0) LoadError.badTransaction := by
    rw [reject, if_neg horder]
    rfl
  simp only [readPage, Surface.load, Interior.load, hcheck]

/-- As many occupants as were written are read. -/
theorem length_interior_load {tr : Traits} {keys : Codec K} {k : Interior K} {count : ℕ}
    (hcount : count < 2 ^ 15) {rest rest' : Bytes}
    (h : Interior.load tr keys order (writeSigned count ++ rest) = .ok (k, rest')) :
    k.keys.length = count ∧ 0 < k.level ∧ k.level ≤ 128 := by
  simp only [Interior.load, bind_eq_ok] at h
  obtain ⟨r, hread, _, -, level, -, _, hlevel, ks, hks, _, -, h⟩ := h
  rw [read_writeSigned (by omega), Except.ok.injEq] at hread
  have hoccupants := Surface.toInt_occupants (show count < 2 ^ 16 by omega)
  rw [if_pos hcount] at hoccupants
  rw [← hread] at hks
  dsimp only at hks
  rw [hoccupants, Int.toNat_natCast] at hks
  have hlen := length_of_retrieveAll hks
  have hrange := reject_eq_ok.1 hlevel
  cases h
  exact ⟨hlen, by dsimp only; omega, by dsimp only; omega⟩

/-- A node that is read from a saved page fits too. -/
theorem fits_readPage (h : n.Fits ty.traits 128)
    (hread : readPage ty.traits ty.keys ty.values order w (ty.written n.occupied) = .ok m) :
    m.Fits ty.traits 128 := by
  have hslots := ty.slots_lt
  have hsurfaces := ty.traits.surfaces_le
  simp only [readPage, bind_eq_ok] at hread
  obtain ⟨r, hfirst, level, hlevel, hread⟩ := hread
  split at hread
  · obtain ⟨k, hload, hread⟩ := bind_eq_ok.1 hread
    cases hread
    exact Surface.length_load_le hload
  · next hne =>
    obtain ⟨k, hload, hread⟩ := bind_eq_ok.1 hread
    cases hread
    cases n with
    | surface n =>
      have hlt : n.kvs.length < 2 ^ 31 := by
        have : n.kvs.length ≤ ty.traits.surfaces := h
        omega
      have hwritten : ty.written (Node.occupied (.surface n)) = n.written ty.keys ty.values := rfl
      rw [hwritten, Surface.written, read_writeSigned hlt, Except.ok.injEq] at hfirst
      rw [← hfirst, read_zero, Except.ok.injEq] at hlevel
      exact absurd (congrArg Prod.fst hlevel).symm hne
    | interior n =>
      obtain ⟨hkeys, -⟩ := h
      have hcount : n.keys.length < 2 ^ 15 := by omega
      have hloaded := length_interior_load hcount hload
      exact ⟨hloaded.1 ▸ hkeys, hloaded.2⟩

/-- A saved page is settled. -/
theorem settled_of_saved (h : n.Fits ty.traits 128) (hw : 32 < w)
    (hblock : ∀ order loadBuffer, ty.page order loadBuffer w block =
      (readPage ty.traits ty.keys ty.values order w (ty.written n.occupied)).toOption) :
    ty.Settled w block where
  same order horder loadBuffer := by
    rw [hblock, hblock, readPage_order horder]
  above _ := hw
  fits m hm := by
    rw [hblock] at hm
    cases hread : readPage ty.traits ty.keys ty.values 1 w (ty.written n.occupied) with
    | error e =>
      rw [hread] at hm
      cases hm
    | ok k =>
      rw [hread] at hm
      cases hm
      exact fits_readPage h hread

/-- A node of the tree: it is saved whole, and its page has the width that it is read with. -/
structure Belongs (ty : TreeType K V) (w : ℕ) (n : Node K V) : Prop where
  occupied : n.occupied = n
  wellFormed : n.WellFormed ty.traits w
  narrow : ty.pageSize n < pageLimit → n.Narrow ty.keys

/-- A node of the tree is read back from the bytes it is written as. -/
theorem Belongs.readPage (h : ty.Belongs w n) (hfits : n.Fits ty.traits 128)
    (hsize : ty.pageSize n < pageLimit) (horder : order ≠ 0) :
    readPage ty.traits ty.keys ty.values order w (ty.written n.occupied) = .ok n := by
  have hnarrow := h.narrow hsize
  have hsave := save_occupied hfits hsize
  rw [h.occupied] at hsave ⊢
  have hround : n.RoundTrips ty.traits ty.keys ty.values ty.unencoded order w :=
    (Node.roundTrips_iff_narrow ty.keys_roundTrips ty.values_roundTrips horder n
      h.wellFormed).2 hnarrow
  exact readPage_of_save hnarrow hsave hround

end TreeType

/-! ### The nodes of a tree -/

section Trees

variable [LinearOrder K] [Inhabited K] {ty : TreeType K V} {tr : Traits} {s s' : Btree K V}
  {h lo : ℕ} {t : Shape K V h}

omit [LinearOrder K] [Inhabited K] in
/-- Every interior node has two children at least. -/
theorem Shape.Filled.two_pow_le (hf : t.Filled tr lo) (hlo : 1 ≤ lo) : 2 ^ h ≤ t.leaves.length := by
  induction h generalizing lo with
  | zero => exact le_rfl
  | succ h ih =>
    obtain ⟨w, cs, rfl⟩ := t.exists_branch
    obtain ⟨hlen, -, hcs⟩ := Shape.filled_branch.1 hf
    have hmin := Shape.two_le_minslots tr h
    have hall : ∀ m ∈ cs.map fun c ↦ c.leaves.length, 2 ^ h ≤ m := by
      intro m hm
      obtain ⟨c, hc, rfl⟩ := List.mem_map.1 hm
      exact ih (hcs c hc) (by omega)
    have hsum := List.card_nsmul_le_sum _ _ hall
    rw [List.length_map, nsmul_eq_mul, Nat.cast_id] at hsum
    rw [Shape.leaves_branch, List.length_flatMap, pow_succ, mul_comm]
    exact (Nat.mul_le_mul_right _ (by omega)).trans hsum

omit [LinearOrder K] [Inhabited K] in
/-- Distinct addresses that were given out are no more than these. -/
theorem Btree.LeafChain.length_le {L : List ℕ} (hc : Btree.LeafChain s L) :
    L.length ≤ s.storage.lastAddress := by
  have hsub : L ⊆ List.range' 1 s.storage.lastAddress := by
    intro w hw
    have hpos := hc.pos w hw
    have hbound := hc.bound w hw
    rw [List.mem_range'_1]
    omega
  have hle := (List.subperm_of_subset hc.nodup hsub).length_le
  rwa [List.length_range'] at hle

/-- A tree of 64-bit addresses has less than 64 levels above its leaves. -/
theorem Btree.Rooted.height_lt (ht : Btree.Rooted tr lo s t) (hlo : 1 ≤ lo)
    (hlast : s.storage.lastAddress < 2 ^ 64) : h < 64 := by
  have hlow := ht.filled.two_pow_le hlo
  have hhigh := ht.chain.length_le
  apply (Nat.pow_lt_pow_iff_right (a := 2) (by decide)).1
  omega

omit [LinearOrder K] [Inhabited K] in
/-- The neighbours of a leaf in the chain. -/
theorem Btree.LeafChain.neighbours {L : List ℕ} (hc : Btree.LeafChain s L) {w : ℕ} (hw : w ∈ L)
    {n : Surface K V} (hn : s.load w = some (.surface n)) :
    n.next ≤ s.storage.lastAddress ∧ n.preceding ≤ s.storage.lastAddress := by
  obtain ⟨A, B, rfl⟩ := List.append_of_mem hw
  obtain ⟨kvs, hcell⟩ := hc.linked.cell
  rw [hn] at hcell
  cases hcell
  constructor
  · cases B with
    | nil => exact Nat.zero_le _
    | cons b B =>
      apply hc.bound
      simp
  · rcases List.mem_cons.1 (List.getLastD_mem_cons (l := A) (a := 0)) with hzero | hmem
    · dsimp only
      omega
    · exact hc.bound _ (List.mem_append_left _ hmem)

omit [LinearOrder K] [Inhabited K] in
/-- No leaf has more pairs than slots. -/
theorem Shape.Filled.length_pairs_le (hf : t.Filled tr lo) :
    t.pairs.length ≤ tr.surfaces * t.leaves.length := by
  induction h generalizing lo with
  | zero =>
    obtain ⟨w, kvs, rfl⟩ := t.exists_leaf
    have hle := (Shape.filled_leaf.1 hf).2
    rwa [Shape.pairs_leaf, Shape.leaves_leaf, List.length_singleton, Nat.mul_one]
  | succ h ih =>
    obtain ⟨w, cs, rfl⟩ := t.exists_branch
    obtain ⟨-, -, hcs⟩ := Shape.filled_branch.1 hf
    rw [Shape.pairs_branch, Shape.leaves_branch, List.length_flatMap, List.length_flatMap,
      ← List.sum_map_mul_left]
    exact List.sum_le_sum fun c hc ↦ ih (hcs c hc)

omit [LinearOrder K] in
/-- The nodes below a root belong to the tree. -/
theorem Btree.Stored.belongs (hst : Btree.Stored s t) (hf : t.Filled ty.traits lo) (hlo : 1 ≤ lo)
    (hheight : h ≤ 128) (hpages : ∀ w ∈ t.pages, w < 2 ^ 31)
    (hleaf : ∀ w ∈ t.leaves, ∀ n, s.load w = some (.surface n) →
      n.next < 2 ^ 31 ∧ n.preceding < 2 ^ 31 ∧ n.next ≠ w) {w : ℕ} (hw : w ∈ t.pages) :
    ∃ n, s.load w = some n ∧ ty.Belongs w n := by
  have hslots := ty.slots_lt
  have hsurfaces := ty.traits.surfaces_le
  induction h generalizing lo with
  | zero =>
    obtain ⟨a, kvs, rfl⟩ := t.exists_leaf
    obtain rfl := List.mem_singleton.1 hw
    obtain ⟨next, preceding, hload⟩ := hst
    obtain ⟨hnext, hpreceding, hne⟩ := hleaf w List.mem_cons_self _ hload
    have hkvs : kvs.length ≤ ty.traits.surfaces := (Shape.filled_leaf.1 hf).2
    have hwidth : kvs.length < 2 ^ 15 := by omega
    refine ⟨_, hload, rfl, ⟨hkvs, ?_, hne, ?_, ?_⟩, fun _ ↦ ⟨hwidth, hnext, hpreceding⟩⟩
    · exact hwidth.trans (by decide)
    · exact hnext.trans (by decide)
    · exact hpreceding.trans (by decide)
  | succ h ih =>
    obtain ⟨a, cs, rfl⟩ := t.exists_branch
    obtain ⟨hload, hchildren⟩ := hst
    obtain ⟨hlen, hmax, hcs⟩ := Shape.filled_branch.1 hf
    rcases List.mem_cons.1 hw with rfl | hw
    · have hkeys := Shape.length_separators cs
      have hslotmax : ty.traits.slotmax (h + 1) = ty.traits.interiorslots := rfl
      have hoccupied : Node.occupied (V := V) (.interior
          ⟨h + 1, Shape.separators cs, cs.map Shape.addr⟩) =
          .interior ⟨h + 1, Shape.separators cs, cs.map Shape.addr⟩ := by
        simp only [Node.occupied]
        rw [List.take_of_length_le]
        rw [List.length_map]
        omega
      refine ⟨_, hload, hoccupied, ⟨?_, ?_, ?_, ?_, ?_⟩, fun hsize ↦ ⟨?_, ?_, ?_⟩⟩
      · show (Shape.separators cs).length ≤ _
        omega
      · show (Shape.separators cs).length < _
        omega
      · show (cs.map Shape.addr).length = (Shape.separators cs).length + 1
        rw [List.length_map]
        omega
      · show 0 < h + 1 ∧ h + 1 ≤ 128
        omega
      · intro c hc
        obtain ⟨child, hchild, rfl⟩ := List.mem_map.1 hc
        have hlt := hpages _ (List.mem_cons_of_mem _
          (List.mem_flatMap.2 ⟨child, hchild, Shape.addr_mem_pages child⟩))
        omega
      · show 0 < (Shape.separators cs).length
        omega
      · show (Shape.separators cs).length < _
        omega
      · have hpage : (ty.written (Node.occupied (.interior
            ⟨h + 1, Shape.separators cs, cs.map Shape.addr⟩))).length < pageLimit := hsize
        rw [hoccupied] at hpage
        exact hpage.trans (by decide)
    · obtain ⟨child, hchild, hw⟩ := List.mem_flatMap.1 hw
      have hmin := Shape.two_le_minslots ty.traits h
      refine ih (hchildren child hchild) (hcs child hchild) (by omega) (by omega) ?_ ?_ hw
      · intro v hv
        exact hpages v (List.mem_cons_of_mem _ (List.mem_flatMap.2 ⟨child, hchild, hv⟩))
      · intro v hv
        exact hleaf v (List.mem_flatMap.2 ⟨child, hchild, hv⟩)

namespace Btree

/-- The nodes below the root belong to the tree. -/
theorem Rooted.belongs (ht : Rooted ty.traits 1 s t) (hlast : s.storage.lastAddress < 2 ^ 31)
    {w : ℕ} (hw : w ∈ t.pages) : ∃ n, s.load w = some n ∧ ty.Belongs w n := by
  have hheight := ht.height_lt le_rfl (by omega)
  refine ht.stored.belongs ht.filled le_rfl (by omega) ?_ ?_ hw
  · intro v hv
    exact (ht.owned.bound v hv).trans_lt hlast
  · intro v hv n hn
    obtain ⟨hnext, hpreceding⟩ := ht.chain.neighbours hv hn
    exact ⟨hnext.trans_lt hlast, hpreceding.trans_lt hlast, ht.chain.unlooped v n hn⟩

/-- A tree with the same nodes below its root holds the same pairs. -/
theorem Holds.of_belonging {kvs : List (K × V)} (hs : Holds ty.traits s kvs)
    (hlast : s.storage.lastAddress < 2 ^ 31) (hroot : s'.root = s.root)
    (hsize : s'.stats.treeSize = s.stats.treeSize) (hunlooped : s'.Unlooped)
    (hload : ∀ w n, s.load w = some n → ty.Belongs w n →
      s'.load w = some n ∧ w ≤ s'.storage.lastAddress) : Holds ty.traits s' kvs := by
  obtain ⟨x, hx, hrep⟩ := hs
  have hsame : s.load = x.load := kept_alike.load hx
  refine ⟨{ s' with headsurface := x.headsurface, lastSurface := x.lastSurface },
    ⟨rfl, rfl, rfl, rfl, rfl⟩, ?_⟩
  cases hrep with
  | bare hb =>
    refine .bare ⟨⟨hroot.trans (hx.root.trans hb.root), ?_, ?_⟩, hb.headsurface⟩
    · exact ⟨trivial, List.nodup_nil, nofun, nofun, hb.chain.last, hunlooped⟩
    · exact hsize.trans ((congrArg _ hx.stats).trans hb.treeSize)
  | rooted t ht =>
    have hkept (w : ℕ) (hw : w ∈ t.pages) :
        s'.load w = x.load w ∧ w ≤ s'.storage.lastAddress := by
      obtain ⟨n, hn, hbelongs⟩ := ht.belongs (hx.storage ▸ hlast) hw
      obtain ⟨hload', hle⟩ := hload w n (hsame ▸ hn) hbelongs
      exact ⟨hload'.trans hn.symm, hle⟩
    refine .rooted t ⟨⟨hroot.trans (hx.root.trans ht.root), ht.stored.of_load_eq ?_, ht.filled,
      ht.sorted, ⟨ht.owned.count, ht.owned.pos, fun w hw ↦ (hkept w hw).2⟩, ?_, ?_⟩, ht.headsurface⟩
    · exact fun w hw ↦ (hkept w hw).1
    · refine ⟨ht.chain.linked.mono ?_, ht.chain.nodup, ht.chain.pos, ?_, ht.chain.last, hunlooped⟩
      · rintro w hw p n ⟨kvs, hcell⟩
        exact ⟨kvs, ((hkept w (Shape.leaves_subset_pages t hw)).1).trans hcell⟩
      · exact fun w hw ↦ (hkept w (Shape.leaves_subset_pages t hw)).2
    · exact hsize.trans ((congrArg _ hx.stats).trans ht.treeSize)

/-- The level of the root in a tree of 64-bit addresses. -/
theorem Holds.depth_le {kvs : List (K × V)} (hs : Holds ty.traits s kvs) (hroot : s.root ≠ 0)
    (hlast : s.storage.lastAddress < 2 ^ 64) : s.depth ≤ 64 := by
  obtain ⟨x, hx, hrep⟩ := hs
  have hdepth : s.depth = x.depth := by
    rw [depth, depth, kept_alike.load hx, hx.root]
  rw [hx.storage] at hlast
  rw [hx.root] at hroot
  cases hrep with
  | bare hb => exact absurd hb.root hroot
  | rooted t ht =>
    rw [hdepth, ht.depth]
    exact ht.height_lt le_rfl hlast

/-- The root and the number of pairs in a tree of 31-bit addresses are boot values. -/
theorem Holds.boot_lt {kvs : List (K × V)} (hs : Holds ty.traits s kvs)
    (hlast : s.storage.lastAddress < 2 ^ 31) : s.root < 2 ^ 63 ∧ s.stats.treeSize < 2 ^ 63 := by
  rw [hs.treeSize]
  obtain ⟨x, hx, hrep⟩ := hs
  rw [hx.storage] at hlast
  rw [hx.root]
  cases hrep with
  | bare hb =>
    rw [hb.root, List.length_nil]
    decide
  | rooted t ht =>
    have hpairs := ht.filled.length_pairs_le
    have hleaves := ht.chain.length_le
    have hslots := ty.slots_lt
    have hsurfaces := ty.traits.surfaces_le
    constructor
    · rw [ht.root]
      exact (ht.owned.bound _ (Shape.addr_mem_pages t)).trans_lt (hlast.trans (by decide))
    · calc t.pairs.length ≤ ty.traits.surfaces * t.leaves.length := hpairs
        _ ≤ 2 ^ 15 * 2 ^ 31 := Nat.mul_le_mul (by omega) (by omega)
        _ < 2 ^ 63 := by decide

end Btree

end Trees

end LibSpaces.Stx
