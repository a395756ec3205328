import LibSpaces.Stx.Removal

/-!
# The tree as an ordered map

`Represents` ties the state of a tree to the sorted pairs it holds. `insert_start` and `erase_one`
keep it and do to the pairs what the ordered map does.
-/

namespace LibSpaces.Stx.Btree

open LibSpaces.Base

variable {K V : Type} [LinearOrder K] [Inhabited K] {tr : Traits} {s s' s₁ s₂ : Btree K V}
  {h lo : ℕ} {key : K} {value : V} {kvs : List (K × V)}

/-- `t` is the tree below the root, whatever is remembered as its first leaf. -/
structure Grounded (tr : Traits) (lo : ℕ) (s : Btree K V) (t : Shape K V h) : Prop where
  root : s.root = t.addr
  stored : Stored s t
  filled : t.Filled tr lo
  sorted : Sorted t.pairs
  owned : Owned s t.pages
  chain : LeafChain s t.leaves
  treeSize : s.stats.treeSize = t.pairs.length

/-- `t` is the tree below the root, and its first leaf is remembered. -/
structure Rooted (tr : Traits) (lo : ℕ) (s : Btree K V) (t : Shape K V h) : Prop
    extends Grounded tr lo s t where
  headsurface : s.headsurface = t.leaves.headD 0

/-- There is no tree below the root. -/
structure Barren (s : Btree K V) : Prop where
  root : s.root = 0
  chain : LeafChain s []
  treeSize : s.stats.treeSize = 0

/-- There is no tree below the root, and no first leaf is remembered. -/
structure Bare (s : Btree K V) : Prop extends Barren s where
  headsurface : s.headsurface = 0

/-- The tree holds these pairs. A root has one occupant at least. -/
inductive Represents (tr : Traits) (s : Btree K V) : List (K × V) → Prop
  | bare (hs : Bare s) : Represents tr s []
  | rooted {h : ℕ} (t : Shape K V h) (ht : Rooted tr 1 s t) : Represents tr s t.pairs

/-- The tree holds these pairs, whatever it remembers as its first leaf. A tree that is opened again
may remember none, and no search looks there. -/
inductive Searchable (tr : Traits) (s : Btree K V) : List (K × V) → Prop
  | bare (hs : Barren s) : Searchable tr s []
  | rooted {h : ℕ} (t : Shape K V h) (ht : Grounded tr 1 s t) : Searchable tr s t.pairs

/-- A tree that represents a map can be searched. -/
theorem Represents.searchable (hs : Represents tr s kvs) : Searchable tr s kvs := by
  cases hs with
  | bare hs => exact .bare hs.toBarren
  | rooted t ht => exact .rooted t ht.toGrounded

/-- What an operation of the tree keeps of its storage and of what it knows about it. -/
structure Within (s s' : Btree K V) : Prop where
  pages : s'.storage.pages = s.storage.pages
  boot : s'.storage.boot = s.storage.boot
  lastAddress : s.storage.lastAddress ≤ s'.storage.lastAddress
  stats : s'.stats = { s.stats with treeSize := s'.stats.treeSize }
  tracked : s.Tracked → s'.Tracked
  modified : s.modified ⊆ s'.modified
  dirty : s' = s ∨ s'.modified ≠ []

omit [LinearOrder K] [Inhabited K] in
private theorem Extends.within {n : ℕ} (hk : Extends s s') (hd : s'.modified ≠ [])
    (root headsurface lastSurface : ℕ) :
    Within s { s' with
      root := root
      headsurface := headsurface
      lastSurface := lastSurface
      stats := { s'.stats with treeSize := n } } :=
  ⟨hk.pages, hk.boot, hk.lastAddress, by rw [hk.stats], hk.tracked, hk.modified, .inr hd⟩

/-- The depth of the tree is the number of its levels. -/
theorem Grounded.depth {t : Shape K V h} (ht : Grounded tr lo s t) : s.depth = h + 1 := by
  rw [Btree.depth, ht.root]
  have hst := ht.stored
  cases h with
  | zero =>
    obtain ⟨n, p, hload⟩ := hst
    rw [show s.load t.addr = _ from hload]
    rfl
  | succ h =>
    rw [show s.load t.addr = _ from hst.1]
    rfl

omit [LinearOrder K] [Inhabited K] in
/-- The root of a tree with nodes is a page. -/
theorem Rooted.root_ne {t : Shape K V h} (hr : s.root = t.addr) (ho : Owned s t.pages) :
    s.root ≠ 0 := hr ▸ (ho.pos _ (Shape.addr_mem_pages t)).ne'

/-! ### Insertion -/

/-- The tree gets its first leaf. -/
theorem ensureRoot_spec (hs : Bare s) :
    ∃ w, Rooted tr 0 s.ensureRoot (Shape.leaf w ([] : List (K × V))) := by
  have hroot : s.ensureRoot = { (s.allocate (.surface ⟨[], 0, 0⟩)).2 with
      lastSurface := s.storage.lastAddress + 1, headsurface := s.storage.lastAddress + 1,
      root := s.storage.lastAddress + 1 } := if_pos hs.root
  have hload (w : ℕ) : s.ensureRoot.load w =
      if w = s.storage.lastAddress + 1 then some (.surface ⟨[], 0, 0⟩) else s.load w :=
    hroot ▸ load_allocate _ w
  have hnew : s.ensureRoot.load (s.storage.lastAddress + 1) = some (.surface ⟨[], 0, 0⟩) := by
    rw [hload, if_pos rfl]
  refine ⟨s.storage.lastAddress + 1, ⟨hroot ▸ rfl, ⟨0, 0, hnew⟩,
    Shape.filled_leaf.2 ⟨le_rfl, Nat.zero_le _⟩, List.Pairwise.nil,
    ⟨fun w ↦ ?_, fun w hw ↦ ?_, fun w hw ↦ ?_⟩,
    ⟨⟨⟨[], hnew⟩, trivial⟩, ?_, fun w hw ↦ ?_, fun w hw ↦ ?_, hroot ▸ rfl, fun w n hn ↦ ?_⟩, ?_⟩,
    hroot ▸ rfl⟩
  · rw [Shape.pages_leaf, List.count_singleton]
    split <;> omega
  · rw [Shape.pages_leaf, List.mem_singleton] at hw
    omega
  · rw [Shape.pages_leaf, List.mem_singleton] at hw
    rw [hw, hroot]
    exact le_rfl
  · simp
  · rw [Shape.leaves_leaf, List.mem_singleton] at hw
    omega
  · rw [Shape.leaves_leaf, List.mem_singleton] at hw
    rw [hw, hroot]
    exact le_rfl
  · rw [hload] at hn
    split at hn
    · cases hn
      show 0 ≠ w
      omega
    · exact hs.chain.unlooped w n hn
  · rw [hroot]
    exact hs.treeSize

omit [LinearOrder K] in
/-- The level of a stored node is its height. -/
theorem Stored.level {t : Shape K V h} (ht : Stored s t) :
    ∃ n, s.load t.addr = some n ∧ n.level = h := by
  cases h with
  | zero =>
    obtain ⟨n, p, hload⟩ := ht
    exact ⟨_, hload, rfl⟩
  | succ h => exact ⟨_, ht.1, rfl⟩

omit [LinearOrder K] in
/-- The two halves of a split root get a new root above them. -/
theorem growRoot_spec {a b : Shape K V h} (hroot : s.root = a.addr)
    (hst : ∀ c ∈ [a, b], Stored s c) (hown : Owned s ([a, b].flatMap Shape.pages))
    (hc : LeafChain s ([a, b].flatMap Shape.leaves)) :
    ∃ s₁ w, s.growRoot a.maxKey b.addr = some { s₁ with root := w } ∧ Extends s s₁ ∧
      s₁.modified ≠ [] ∧ Stored s₁ (Shape.branch w [a, b]) ∧
      Owned s₁ (Shape.branch w [a, b]).pages ∧ LeafChain s₁ (Shape.branch w [a, b]).leaves ∧
      ∀ x ≤ s.storage.lastAddress, s₁.load x = s.load x := by
  obtain ⟨n, hn, hlevel⟩ := (hst a List.mem_cons_self).level
  obtain ⟨w, hw⟩ : ∃ w, w = s.storage.lastAddress + 1 := ⟨_, rfl⟩
  obtain ⟨s₀, hs₀⟩ : ∃ s₀, s₀ = (s.allocate (.interior ⟨h + 1, [a.maxKey], [a.addr, b.addr]⟩)).2 :=
    ⟨_, rfl⟩
  have hbound := hown.bound
  have hapages : a.addr ∈ [a, b].flatMap Shape.pages :=
    List.mem_flatMap.2 ⟨a, List.mem_cons_self, Shape.addr_mem_pages a⟩
  have haw := hbound _ hapages
  have hload (x : ℕ) : (s₀.put a.addr n).load x =
      if x = w then some (.interior ⟨h + 1, [a.maxKey], [a.addr, b.addr]⟩) else s.load x := by
    have h₀ (x : ℕ) : s₀.load x =
        if x = w then some (.interior ⟨h + 1, [a.maxKey], [a.addr, b.addr]⟩) else s.load x :=
      hs₀ ▸ hw ▸ load_allocate _ x
    rw [load_put_same, h₀]
    rw [h₀, if_neg (by omega), hn]
  have hkeep : Extends s (s₀.put a.addr n) :=
    (hs₀ ▸ extends_allocate _).trans (extends_put _ _)
  refine ⟨s₀.put a.addr n, w, ?_, hkeep, modified_put_ne_nil _ _,
    stored_branch.2 ⟨?_, fun c hc ↦ ?_⟩,
    ⟨fun x ↦ ?_, fun x hx ↦ ?_, fun x hx ↦ ?_⟩, ?_, fun x hx ↦ by rw [hload, if_neg (by omega)]⟩
  · rw [growRoot, hroot, hn, Option.bind_eq_bind, Option.bind_some, hlevel]
    have hchange : s₀.change a.addr = some (s₀.put a.addr n) := by
      refine change_eq ?_
      rw [hs₀, load_allocate_of_le haw, hn]
    subst hs₀ hw
    show Option.bind ((s.allocate _).2.change s.root) _ = _
    rw [hroot, hchange]
    rfl
  · rw [hload, if_pos rfl]
    rfl
  · refine (hst c hc).of_load_eq fun x hx ↦ ?_
    have := hbound x (List.mem_flatMap.2 ⟨c, hc, hx⟩)
    rw [hload, if_neg (by omega)]
  · rw [Shape.pages_branch, List.count_cons]
    have hone := hown.count x
    split
    next heq =>
      have hx : x ∉ [a, b].flatMap Shape.pages := fun hmem ↦ by
        have := hbound x hmem
        have := beq_iff_eq.1 heq
        omega
      rw [List.count_eq_zero.2 hx]
    next => omega
  · rcases List.mem_cons.1 hx with rfl | hx
    · omega
    · exact hown.pos x hx
  · have hlast : (s₀.put a.addr n).storage.lastAddress = w := by
      subst hs₀ hw
      rfl
    rcases List.mem_cons.1 hx with rfl | hx
    · exact hlast.ge
    · have := hbound x hx
      omega
  · refine hc.congr (fun x hx p n ⟨kvs, hcell⟩ ↦ ?_) (hs₀ ▸ rfl) hkeep.lastAddress fun x m hm ↦ ?_
    · have := hc.bound x hx
      exact ⟨kvs, by rw [hload, if_neg (by omega), hcell]⟩
    · rw [hload] at hm
      split at hm
      · cases hm
      · exact hc.unlooped x m hm

omit [LinearOrder K] [Inhabited K] in
/-- A tree keeps its own storage. -/
theorem Within.refl (s : Btree K V) : Within s s :=
  ⟨rfl, rfl, le_rfl, rfl, id, List.Subset.refl _, .inl rfl⟩

omit [LinearOrder K] [Inhabited K] in
/-- The relation is transitive. -/
theorem Within.trans (h : Within s s₁) (h' : Within s₁ s₂) : Within s s₂ where
  pages := h'.pages.trans h.pages
  boot := h'.boot.trans h.boot
  lastAddress := h.lastAddress.trans h'.lastAddress
  stats := by rw [h'.stats, h.stats]
  tracked := h'.tracked ∘ h.tracked
  modified := fun _ hx ↦ h'.modified (h.modified hx)
  dirty := h'.dirty.elim (fun heq ↦ heq ▸ h.dirty) .inr

/-- The state after the nodes were written: the root and the count are set. -/
theorem Rooted.mk' {t : Shape K V h} {w n : ℕ} (hw : w = t.addr) (hst : Stored s t)
    (hf : t.Filled tr lo) (hs : Sorted t.pairs) (ho : Owned s t.pages) (hc : LeafChain s t.leaves)
    (hhead : s.headsurface = t.leaves.headD 0) (hn : n = t.pairs.length) :
    Rooted tr lo { s with root := w, stats := { s.stats with treeSize := n } } t :=
  ⟨⟨hw, hst.of_load_eq fun _ _ ↦ rfl, hf, hs, ⟨ho.count, ho.pos, ho.bound⟩,
    ⟨hc.linked, hc.nodup, hc.pos, hc.bound, hc.last, hc.unlooped⟩, hn⟩, hhead⟩

/-- The tree below the root after a step that keeps its topmost page. -/
theorem Rooted.reshaped {t t' : Shape K V h} {lo' n : ℕ} (ht : Rooted tr lo s t)
    (hr : Reshaped [] s s₁ [t] [t']) (haddr : t'.addr = t.addr) (hf : t'.Filled tr lo')
    (hs : Sorted t'.pairs) (hn : n = t'.pairs.length) :
    Rooted tr lo' { s₁ with stats := { s₁.stats with treeSize := n } } t' := by
  have hown := hr.owned (by simpa using ht.owned)
  have hc := hr.chain [] [] (by simpa using ht.chain)
  refine Rooted.mk' (by rw [hr.keeps.root, ht.root, haddr])
    (hr.stored t' (List.mem_singleton_self _)) hf hs (by simpa using hown) (by simpa using hc) ?_ hn
  have hfirst := hr.first
  rw [List.flatMap_singleton, List.flatMap_singleton] at hfirst
  rw [hr.keeps.headsurface, ht.headsurface, List.headD_eq_head?_getD, List.headD_eq_head?_getD,
    hfirst]

/-- The iterator refers to a pair of a tree that holds these pairs, in a page that is registered. -/
def Refers (tr : Traits) (s : Btree K V) (i : Iterator) (kvs : List (K × V)) (p : K × V) : Prop :=
  ∃ h, ∃ t : Shape K V h, Rooted tr 1 s t ∧ t.pairs = kvs ∧ i.1 ∈ t.leaves ∧ i.1 ∈ s.modified ∧
    s.deref i = some p

/-- Where an iterator refers to a pair the tree represents its map. -/
theorem Refers.represents {i : Iterator} {p : K × V} (hr : Refers tr s i kvs p) :
    Represents tr s kvs := by
  obtain ⟨h, t, ht, rfl, -⟩ := hr
  exact .rooted t ht

/-- What an insertion leaves of the tree below the root. -/
theorem insertStart_of_rooted {t : Shape K V h} (ht : Rooted tr lo s.ensureRoot t)
    (hlo : h ≠ 0 → 1 ≤ lo) :
    ∃ s' i inserted v, s.insertStart tr key value = some (s', i, inserted) ∧
      Refers tr s' i (insertKey key value t.pairs) (key, v) ∧ Within s.ensureRoot s' ∧
      (inserted = true ↔ key ∉ t.pairs.map Prod.fst) := by
  obtain ⟨s₀, hs₀⟩ : ∃ s₀, s.ensureRoot = s₀ := ⟨_, rfl⟩
  rw [hs₀] at ht ⊢
  obtain ⟨s₁, r, ts, heq, hg⟩ := insertDescend_spec tr key value t (Nat.lt_succ_self h) ht.stored
    ht.filled hlo ht.sorted ht.owned (A := []) (B := []) (by simpa using ht.chain)
  have hstart : s.insertStart tr key value =
      (r.split.elim (some s₁) fun out ↦ s₁.growRoot out.1 out.2).bind fun s ↦
        some (if r.inserted then
          { s with stats := { s.stats with treeSize := s.stats.treeSize + 1 } } else s,
          r.iterator, r.inserted) := by
    rw [insertStart, hs₀, ht.depth, ht.root, heq]
    cases hsplit : r.split <;> simp only [Option.bind_eq_bind, Option.bind_some, hsplit] <;> rfl
  have hkeep := hg.reshaped.keeps
  have hsort : Sorted (ts.flatMap Shape.pairs) := hg.pairs ▸ ht.sorted.insertKey key value
  have hown : Owned s₁ (ts.flatMap Shape.pages) := hg.reshaped.owned (by simpa using ht.owned)
  have hc : LeafChain s₁ (ts.flatMap Shape.leaves) := by
    have := hg.reshaped.chain [] []
    simpa using this (by simpa using ht.chain)
  have hhead : s₁.headsurface = (ts.flatMap Shape.leaves).headD 0 := by
    rw [hkeep.headsurface, ht.headsurface, List.headD_eq_head?_getD, List.headD_eq_head?_getD,
      hg.reshaped.first, List.flatMap_singleton]
  -- the count follows the pairs
  obtain ⟨n, hn⟩ : ∃ n, n = (ts.flatMap Shape.pairs).length := ⟨_, rfl⟩
  have hcount : (if r.inserted then s₁.stats.treeSize + 1 else s₁.stats.treeSize) = n := by
    rw [hn, hg.pairs, hkeep.stats, ht.treeSize]
    split
    next hins => rw [length_insertKey (hg.inserted.1 hins)]
    next hins => rw [insertKey_of_mem (not_not.1 (mt hg.inserted.2 hins))]
  have hset (x : Btree K V) (hx : x.stats = s₁.stats) : (if r.inserted then
      { x with stats := { x.stats with treeSize := x.stats.treeSize + 1 } } else x) =
      { x with stats := { x.stats with treeSize := n } } := by
    rw [← hcount, hx]
    split
    · rfl
    · rw [← hx]
  obtain ⟨hleaf, v, hderef⟩ := hg.iterator
  have hnodes := hg.nodes
  rw [hstart]
  cases hsplit : r.split with
  | none =>
    rw [hsplit] at hnodes
    obtain ⟨t', rfl, haddr, hf⟩ := hnodes
    simp only [List.flatMap_singleton] at hsort hown hc hhead hn
    have hroot : s₁.root = t'.addr := by rw [hkeep.root, ht.root, haddr]
    have hrooted : Rooted tr 1 { s₁ with
        root := t'.addr, stats := { s₁.stats with treeSize := n } } t' :=
      Rooted.mk' rfl (hg.reshaped.stored t' (List.mem_singleton_self _))
        (hf.mono (le_max_right _ _)) hsort hown hc hhead hn
    have hpairs := hg.pairs
    rw [List.flatMap_singleton] at hpairs hleaf
    refine ⟨_, r.iterator, r.inserted, v, ?_,
      ⟨h, t', hrooted, hpairs, hleaf, hg.registered, hderef⟩, ?_, hg.inserted⟩
    · rw [Option.elim_none, Option.bind_some, hset s₁ rfl, ← hroot]
    · exact hkeep.within (List.ne_nil_of_mem hg.registered) t'.addr s₁.headsurface s₁.lastSurface
  | some out =>
    obtain ⟨k, w⟩ := out
    rw [hsplit] at hnodes
    obtain ⟨a, b, rfl, haddr, rfl, rfl, hfa, hfb⟩ := hnodes
    have hroot : s₁.root = a.addr := by rw [hkeep.root, ht.root, haddr]
    obtain ⟨s₂, w, hgrow, hkeep₂, hdirty₂, hst₂, hown₂, hc₂, hload₂⟩ :=
      growRoot_spec hroot hg.reshaped.stored hown hc
    have hfilled : (Shape.branch w [a, b]).Filled tr 1 := by
      have := tr.four_le_slotmax (h + 1)
      refine Shape.filled_branch.2 ⟨le_rfl, ?_, fun c hc ↦ ?_⟩
      · show 2 ≤ _
        omega
      · rcases List.mem_cons.1 hc with rfl | hc
        · exact hfa
        · exact List.mem_singleton.1 hc ▸ hfb
    have hrooted : Rooted tr 1 { s₂ with root := w, stats := { s₂.stats with treeSize := n } }
        (Shape.branch w [a, b]) :=
      Rooted.mk' rfl hst₂ hfilled hsort hown₂ hc₂ (hkeep₂.headsurface.trans hhead) hn
    refine ⟨_, r.iterator, r.inserted, v, ?_, ⟨h + 1, _, hrooted, hg.pairs, hleaf,
      hkeep₂.modified hg.registered, ?_⟩, ?_, hg.inserted⟩
    · show (s₁.growRoot a.maxKey b.addr).bind _ = _
      rw [hgrow, Option.bind_some, hset { s₂ with root := w } hkeep₂.stats]
    · have hbound := hown.bound _ (Shape.flatMap_leaves_subset _ hleaf)
      obtain ⟨m, hm, hget⟩ := exists_of_deref hderef
      exact (deref_eq ((hload₂ _ hbound).trans hm)).trans hget
    · exact (hkeep.trans hkeep₂).within hdirty₂ w s₂.headsurface s₂.lastSurface

/-- Insertion refines the one of the ordered map: a key that is there keeps its value, and the
iterator is at its pair. -/
theorem insertStart_spec (hs : Represents tr s kvs) (key : K) (value : V) :
    ∃ s' i inserted v, s.insertStart tr key value = some (s', i, inserted) ∧
      Refers tr s' i (insertKey key value kvs) (key, v) ∧ Within s s' ∧
      (inserted = true ↔ key ∉ kvs.map Prod.fst) := by
  cases hs with
  | bare hs =>
    obtain ⟨w, ht⟩ := ensureRoot_spec hs
    obtain ⟨s', i, inserted, v, heq, hrep, hwithin, hrest⟩ :=
      insertStart_of_rooted ht fun h0 ↦ absurd rfl h0
    have hensure : Within s s.ensureRoot := by
      have := (extends_allocate (s := s) (.surface ⟨[], 0, 0⟩)).within (n := s.stats.treeSize)
        (modified_put_ne_nil _ _) (s.storage.lastAddress + 1) (s.storage.lastAddress + 1)
        (s.storage.lastAddress + 1)
      rw [ensureRoot, if_pos hs.root]
      exact this
    exact ⟨s', i, inserted, v, heq, hrep, hensure.trans hwithin, hrest⟩
  | rooted t ht =>
    have hensure : s.ensureRoot = s := if_neg (Rooted.root_ne ht.root ht.owned)
    obtain ⟨s', i, inserted, v, heq, hrep, hwithin, hrest⟩ :=
      insertStart_of_rooted (hensure.symm ▸ ht) fun _ ↦ le_rfl
    exact ⟨s', i, inserted, v, heq, hrep, hensure ▸ hwithin, hrest⟩

/-! ### A write through an iterator -/

omit [LinearOrder K] in
private theorem lastKey_congr {l l' : List (K × V)} (hkeys : l'.map Prod.fst = l.map Prod.fst) :
    lastKey l' = lastKey l := by
  have hlen := congrArg List.length hkeys
  rw [List.length_map, List.length_map] at hlen
  rw [lastKey, lastKey, hkeys, hlen]

omit [LinearOrder K] in
/-- The pairs of one leaf get other values. -/
theorem reshaped_values {t : Shape K V h} {w n p : ℕ} {pairs pairs' : List (K × V)}
    (hst : Stored s t) (hown : Owned s t.pages) (hw : w ∈ t.leaves)
    (hload : s.load w = some (.surface ⟨pairs, n, p⟩))
    (hkeys : pairs'.map Prod.fst = pairs.map Prod.fst) :
    ∃ t' : Shape K V h, Reshaped [] s (s.put w (.surface ⟨pairs', n, p⟩)) [t] [t'] ∧
      t'.addr = t.addr ∧ t'.leaves = t.leaves ∧ (∀ lo, t.Filled tr lo → t'.Filled tr lo) ∧
      ∃ C D, t.pairs = C ++ (pairs ++ D) ∧ t'.pairs = C ++ (pairs' ++ D) := by
  induction h with
  | zero =>
    obtain ⟨l, kvs, rfl⟩ := t.exists_leaf
    obtain rfl : w = l := List.mem_singleton.1 hw
    obtain ⟨n', p', hload'⟩ : ∃ n p, s.load w = some (.surface ⟨kvs, n, p⟩) := hst
    rw [hload] at hload'
    cases hload'
    have hlen := congrArg List.length hkeys
    rw [List.length_map, List.length_map] at hlen
    refine ⟨Shape.leaf w pairs', reshaped_leaf hload, rfl, rfl, fun lo hf ↦ ?_,
      [], [], by simp, by simp⟩
    rw [Shape.filled_leaf] at hf ⊢
    rwa [hlen]
  | succ h ih =>
    obtain ⟨x, cs, rfl⟩ := t.exists_branch
    obtain ⟨hpage, hcs⟩ := stored_branch.1 hst
    obtain ⟨c, hc, hwc⟩ := List.mem_flatMap.1 hw
    obtain ⟨pre, post, rfl⟩ := List.append_of_mem hc
    have howncs := owned_children hown
    obtain ⟨c', hr, haddr, hleaves, hfilled, C, D, hpairs, hpairs'⟩ :=
      ih (hcs c hc) (owned_child howncs) hwc
    have hmax : c'.maxKey = c.maxKey := lastKey_congr (by
      simp only [hpairs, hpairs', List.map_append, hkeys])
    have hctx : Reshaped [] s (s.put w (.surface ⟨pairs', n, p⟩)) (pre ++ ([c] ++ post))
        (pre ++ ([c'] ++ post)) :=
      hr.context (fun d hd ↦ hcs d (by simp [hd])) (fun d hd ↦ hcs d (by simp [hd])) howncs
        fun y hy ↦ absurd hy List.not_mem_nil
    have hpage' := hctx.page hown hpage
    refine ⟨Shape.branch x (pre ++ c' :: post), Reshaped.branch (hctx.mono (List.nil_subset _)) hown
      (Only.refl _ _) ⟨_, hpage'⟩ ?_, rfl, ?_, fun lo hf ↦ ?_, pre.flatMap Shape.pairs ++ C,
      D ++ post.flatMap Shape.pairs, ?_, ?_⟩
    · show (s.put w _).load x = some (Node.interior ⟨h + 1, Shape.separators (pre ++ c' :: post),
        (pre ++ c' :: post).map Shape.addr⟩)
      rw [hpage', Shape.separators_congr (b := c') (c := c) fun _ ↦ hmax]
      simp only [List.map_append, List.map_cons, haddr]
    · simp only [Shape.leaves_branch, Shape.flatMap_mid, hleaves]
    · obtain ⟨hlo, hle, hds⟩ := Shape.filled_branch.1 hf
      rw [List.length_append, List.length_cons] at hlo hle
      refine Shape.filled_branch.2 ⟨by rwa [List.length_append, List.length_cons],
        by rwa [List.length_append, List.length_cons], fun d hd ↦ ?_⟩
      rw [List.mem_append, List.mem_cons] at hd
      rcases hd with hd | rfl | hd
      · exact hds d (by simp [hd])
      · exact hfilled _ (hds c hc)
      · exact hds d (by simp [hd])
    · simp only [Shape.pairs_branch, Shape.flatMap_mid, hpairs, List.append_assoc]
    · simp only [Shape.pairs_branch, Shape.flatMap_mid, hpairs', List.append_assoc]

omit [LinearOrder K] [Inhabited K] in
/-- A write to a page that is registered registers nothing, and `change` is not called. -/
theorem write_eq {w n p : ℕ} {k : K} {v value : V} {C D : List (K × V)}
    (hload : s.load w = some (.surface ⟨C ++ (k, v) :: D, n, p⟩)) (hmod : w ∈ s.modified) :
    s.write (w, C.length) value =
      some { s.put w (.surface ⟨C ++ (k, value) :: D, n, p⟩) with noted := s.noted } := by
  have hget : (C ++ (k, v) :: D)[C.length]? = some (k, v) := getElem?_length_append ..
  have hset : (C ++ (k, v) :: D).set C.length (k, value) = C ++ (k, value) :: D :=
    set_length_append ..
  rw [write, surfaceAt_eq hload, Option.bind_eq_bind, Option.bind_some]
  dsimp only
  rw [hget, Option.bind_eq_bind, Option.bind_some, hset, put, List.insert_of_mem hmod]
  rfl

omit [LinearOrder K] [Inhabited K] in
/-- What is noted of the last leaf is no part of the tree. -/
theorem only_noted (s : Btree K V) (noted : Noted) : Only [] s { s with noted := noted } :=
  ⟨⟨rfl, rfl, le_rfl, rfl, rfl, rfl, id, List.Subset.refl _, fun _ ↦ id⟩, rfl, rfl, fun _ _ ↦ rfl⟩

/-- A write through an iterator replaces the value of its key. -/
theorem write_spec {i : Iterator} {v : V} (hr : Refers tr s i kvs (key, v)) (value : V) :
    ∃ s', s.write i value = some s' ∧ Refers tr s' i (assignKey key value kvs) (key, value) ∧
      Within s s' := by
  obtain ⟨h, t, ht, rfl, hleaf, hmod, hderef⟩ := hr
  obtain ⟨w, slot⟩ := i
  obtain ⟨⟨pairs, n, p⟩, hload, hget⟩ := exists_of_deref hderef
  obtain ⟨hlt, hkv⟩ := List.getElem?_eq_some_iff.1 hget
  obtain ⟨C, D, rfl, rfl⟩ := Base.exists_split (Nat.le_of_lt hlt)
  rw [List.length_append] at hlt
  obtain ⟨q, D, rfl⟩ := List.exists_cons_of_length_pos (by omega : 0 < D.length)
  dsimp only at hkv
  simp only [List.getElem_append_right le_rfl, Nat.sub_self, List.getElem_cons_zero] at hkv
  subst hkv
  obtain ⟨t', hput, haddr, hleaves, hfilled, C', D', hpairs, hpairs'⟩ := reshaped_values
    ht.stored ht.owned hleaf hload
    (show (C ++ (key, value) :: D).map Prod.fst = (C ++ (key, v) :: D).map Prod.fst by simp)
  have hsort := ht.sorted
  have hassign : assignKey key value t.pairs = t'.pairs := by
    have hsplit : t.pairs = (C' ++ C) ++ (key, v) :: (D ++ D') := by
      simp only [hpairs, List.append_assoc, List.cons_append]
    rw [hsplit, sorted_append, sorted_cons] at hsort
    rw [hpairs', hsplit, assignKey_mid (fun p hp ↦ hsort.2.2 p hp _ List.mem_cons_self) hsort.2.1.1]
    simp only [List.append_assoc, List.cons_append]
  have hnoted := only_noted (s.put w (.surface ⟨C ++ (key, value) :: D, n, p⟩)) s.noted
  have hr := hput.then_only hnoted
  have hrooted := ht.reshaped (n := s.stats.treeSize) hr haddr (hfilled 1 ht.filled)
    (hassign ▸ ht.sorted.assignKey key value) (by
      rw [ht.treeSize, ← hassign, assignKey, List.length_map])
  refine ⟨_, write_eq hload hmod, ⟨h, t', hrooted, hassign.symm, hleaves ▸ hleaf,
    List.mem_insert_iff.2 (.inr hmod), ?_⟩, ?_⟩
  · have hload' : ({ s.put w (.surface ⟨C ++ (key, value) :: D, n, p⟩) with
        noted := s.noted } : Btree K V).load w =
          some (.surface ⟨C ++ (key, value) :: D, n, p⟩) := load_put_self _ _
    rw [deref_eq hload']
    exact getElem?_length_append ..
  · have hdirty := modified_put_ne_nil (s := s) w (.surface ⟨C ++ (key, value) :: D, n, p⟩)
    exact ((extends_put _ _).trans hnoted.keeps).within hdirty s.root s.headsurface s.lastSurface

/-! ### Removal -/

/-- `erase_one` starts without neighbours. -/
def topPlace : Place := ⟨0, 0, 0, 0, 0, 0⟩

/-- The tree after a removal below its root. -/
structure Shrunk (tr : Traits) (s s' : Btree K V) (pairs : List (K × V)) : Prop where
  represents : ∀ n, n = pairs.length →
    Represents tr { s' with stats := { s'.stats with treeSize := n } } pairs
  within : ∀ n, Within s { s' with stats := { s'.stats with treeSize := n } }
  treeSize : s'.stats.treeSize = s.stats.treeSize
  dirty : s'.modified ≠ []

omit [LinearOrder K] in
private theorem updateLastkey_top (o : Option K) :
    s.updateLastkey topPlace o = some (s, ⟨false, o, false⟩) := if_neg (not_not.2 rfl)

omit [LinearOrder K] in
/-- A leaf that is the root keeps any pair it has. -/
theorem balanceSurface_root {l n p : ℕ} {pairs : List (K × V)} {myres : Result K}
    (hload : s.load l = some (.surface ⟨pairs, n, p⟩)) (hroot : l = s.root) (hne : pairs ≠ []) :
    s.balanceSurface tr l topPlace myres = some (s, myres) := by
  unfold balanceSurface
  rw [surfaceAt_eq hload, Option.bind_eq_bind, Option.bind_some]
  exact if_neg fun h ↦ h.2 ⟨hroot, List.length_pos_of_ne_nil hne⟩

/-- The last pair of the tree goes with its leaf. -/
theorem eraseSurface_last (tr : Traits) (s : Btree K V) (v : V) (l n p : ℕ)
    (hslot : findLower [key] key = 0) :
    ∃ s₁ r, s₁ = s.put l (.surface ⟨[], n, p⟩) ∧
      s.eraseSurface tr l ⟨[(key, v)], n, p⟩ key topPlace =
        some ({ s₁ with root := 0, headsurface := 0, lastSurface := 0 }, r) ∧
      r.notFound = false := by
  have htwo := Shape.two_le_minslots tr 0
  refine ⟨_, Result.ok, rfl, ?_, rfl⟩
  have hslot' : findLower ([(key, v)].map Prod.fst) key = 0 := hslot
  rw [eraseSurface]
  dsimp only
  rw [hslot', if_neg (by simp [getKey])]
  refine (if_pos rfl).trans ?_
  show Option.bind ((s.put l (.surface ⟨[], n, p⟩)).updateLastkey topPlace none) _ = _
  rw [updateLastkey_top, Option.bind_some]
  show (s.put l _).balanceSurface tr l topPlace _ = _
  unfold balanceSurface
  rw [surfaceAt_eq (load_put_self _ _), Option.bind_eq_bind, Option.bind_some]
  exact (if_pos ⟨(by omega : 0 < tr.minslots 0), fun h ↦ absurd h.2 (Nat.not_succ_le_zero 0)⟩).trans
    (if_pos ⟨rfl, rfl⟩)

/-- A leaf that is the root keeps any pair it has; without one the tree is empty. -/
theorem eraseSurface_root {l n p : ℕ} {pairs : List (K × V)}
    (ht : Rooted tr 1 s (Shape.leaf l pairs)) (hload : s.load l = some (.surface ⟨pairs, n, p⟩)) :
    ∃ s' r, s.eraseSurface tr l ⟨pairs, n, p⟩ key topPlace = some (s', r) ∧
      (Missed s s' pairs key r ∨
        r.notFound = false ∧ key ∈ pairs.map Prod.fst ∧ Shrunk tr s s' (eraseKey key pairs)) := by
  obtain ⟨hlo, hmax⟩ := Shape.filled_leaf.1 ht.filled
  have hsort : Sorted pairs := ht.sorted
  have hsort' := hsort.eraseKey key
  obtain ⟨C, D, rfl, hslot, hC, ⟨hfound, v, D, rfl, hD⟩ | ⟨hnot, hD⟩⟩ := exists_leaf_cut hsort key
  · have hmem : key ∈ (C ++ (key, v) :: D).map Prod.fst := by simp
    rw [eraseKey_mid hC hD] at hsort' ⊢
    by_cases hne : C ++ D = []
    · obtain ⟨rfl, rfl⟩ := List.append_eq_nil_iff.1 hne
      obtain ⟨s₁, r, hs₁, heq, hr⟩ := eraseSurface_last tr s v l n p hslot.symm
      have hkeep : Extends s s₁ := hs₁ ▸ extends_put _ _
      have hdirty : s₁.modified ≠ [] := hs₁ ▸ modified_put_ne_nil _ _
      have hbare (m : ℕ) (hm : m = 0) : Bare ({ s₁ with
          root := 0, headsurface := 0, lastSurface := 0,
          stats := { s₁.stats with treeSize := m } } : Btree K V) := by
        refine ⟨⟨rfl, ⟨trivial, List.nodup_nil, nofun, nofun, rfl, fun w m hw ↦ ?_⟩, hm⟩, rfl⟩
        have hw' : s₁.load w = some (.surface m) := hw
        by_cases hwl : w = l
        · rw [hwl, hs₁, load_put_self] at hw'
          cases hw'
          have hne' : n ≠ l := ht.chain.unlooped l _ hload
          exact hwl ▸ hne'
        · rw [hs₁, load_put_ne _ hwl] at hw'
          exact ht.chain.unlooped w m hw'
      refine ⟨_, r, heq, .inr ⟨hr, hmem, ⟨fun m hm ↦ .bare (hbare m hm), fun m ↦ ?_, ?_, hdirty⟩⟩⟩
      · exact hkeep.within hdirty 0 0 0
      · rw [hkeep.stats]
    · obtain ⟨s₁, hs₁⟩ : ∃ s₁, s.put l (.surface ⟨C ++ D, n, p⟩) = s₁ := ⟨_, rfl⟩
      have hload₁ : s₁.load l = some (.surface ⟨C ++ D, n, p⟩) := hs₁ ▸ load_put_self _ _
      have hroot : s₁.root = l := hs₁ ▸ ht.root
      have hr : Reshaped [] s s₁ [Shape.leaf l (C ++ (key, v) :: D)] [Shape.leaf l (C ++ D)] :=
        hs₁ ▸ (Reshaped.refl [] fun t h ↦ List.mem_singleton.1 h ▸ ht.stored).then_leaf [] []
          (by simpa using ht.owned) hload
      have hdirty : s₁.modified ≠ [] := hs₁ ▸ modified_put_ne_nil _ _
      rw [List.length_append, List.length_cons] at hmax
      have hfilled : (Shape.leaf l (C ++ D)).Filled tr 1 := by
        refine Shape.filled_leaf.2 ⟨List.length_pos_of_ne_nil hne, ?_⟩
        rw [List.length_append]
        omega
      refine ⟨s₁, ⟨false, if D = [] then some (lastKey (C ++ D)) else none, false⟩, ?_,
        .inr ⟨rfl, hmem, ⟨fun m hm ↦ .rooted _ (ht.reshaped hr rfl hfilled hsort' hm), fun m ↦ ?_,
          hr.keeps.stats ▸ rfl, hdirty⟩⟩⟩
      · rw [eraseSurface_found hslot hfound hne, hs₁]
        split
        next k hk =>
          rw [updateLastkey_top, Option.bind_some, balanceSurface_root hload₁ hroot.symm hne, hk]
        next hk => rw [Option.bind_some, balanceSurface_root hload₁ hroot.symm hne, hk]; rfl
      · exact hr.keeps.within hdirty s₁.root s₁.headsurface s₁.lastSurface
  · obtain ⟨heq, hm⟩ := eraseSurface_missed hload hnot hC hD
    exact ⟨_, _, heq, .inl hm⟩

omit [LinearOrder K] in
/-- A node that is the root keeps any two children it has. -/
theorem balanceInterior_root {x level : ℕ} {keys : List K} {childid : List ℕ} {myres : Result K}
    (hload : s.load x = some (.interior ⟨level, keys, childid⟩)) (hroot : x = s.root)
    (hne : keys ≠ []) : s.balanceInterior tr x topPlace myres = some (s, myres) := by
  unfold balanceInterior
  rw [interiorAt_eq hload, Option.bind_eq_bind, Option.bind_some]
  exact if_neg fun h ↦ h.2 ⟨hroot, List.length_pos_of_ne_nil hne⟩

omit [LinearOrder K] in
/-- The only child of the root becomes the root. -/
theorem balanceInterior_last (tr : Traits) {x level y : ℕ} (myres : Result K)
    (hload : s.load x = some (.interior ⟨level, [], [y]⟩)) :
    s.balanceInterior tr x topPlace myres =
      some ({ s.put x (.interior ⟨level, [], [y]⟩) with root := y }, Result.ok) := by
  have htwo := Shape.two_le_minslots tr 1
  unfold balanceInterior
  rw [interiorAt_eq hload, Option.bind_eq_bind, Option.bind_some]
  exact (if_pos ⟨(by omega : 0 < tr.minslots 1), fun h ↦ absurd h.2 (Nat.not_succ_le_zero 0)⟩).trans
    (if_pos ⟨rfl, rfl⟩)

/-- Where a step leaves the root one child, that child can be the root. -/
theorem Rooted.only_child {t : Shape K V (h + 1)} {c : Shape K V h} {x level n : ℕ}
    (ht : Rooted tr lo s t) (hr : Reshaped [] s s₁ [t] [Shape.branch x [c]])
    (hload : s₁.load x = some (.interior ⟨level, [], [c.addr]⟩)) (honly : Only [x] s₁ s₂)
    (hload₂ : s₂.load x = some (.interior ⟨level, [], [c.addr]⟩)) (hf : c.Filled tr 1)
    (hsort : Sorted c.pairs) (hn : n = c.pairs.length) :
    Rooted tr 1 { s₂ with root := c.addr, stats := { s₂.stats with treeSize := n } } c := by
  have hown := hr.owned (by simpa using ht.owned)
  have hownc : Owned s₂ c.pages := by
    refine (Owned.of_count_le hown fun y ↦ ?_).mono honly.keeps.lastAddress
    simp only [List.flatMap_singleton, Shape.pages_branch]
    exact List.count_le_count_cons
  have hxc : x ∉ c.pages := by
    have := hown.count x
    simp only [List.flatMap_singleton, Shape.pages_branch, List.count_cons_self] at this
    exact List.count_eq_zero.1 (by omega)
  have hc : LeafChain s₂ c.leaves := by
    have := hr.chain [] [] (by simpa using ht.chain)
    simp only [List.flatMap_singleton, Shape.leaves_branch, List.nil_append, List.append_nil]
      at this
    exact this.of_only honly fun y hy ↦ List.mem_singleton.1 hy ▸ .interior hload hload₂
  have hcst : Stored s₂ c := by
    have := (stored_branch.1 (hr.stored _ (List.mem_singleton_self _))).2 c
      (List.mem_singleton_self c)
    exact this.of_load_eq fun y hy ↦ honly.load y fun hmem ↦
      hxc (List.mem_singleton.1 hmem ▸ hy)
  have hhead : s₂.headsurface = c.leaves.headD 0 := by
    have hfirst := hr.first
    simp only [List.flatMap_singleton, Shape.leaves_branch] at hfirst
    rw [honly.keeps.headsurface, hr.keeps.headsurface, ht.headsurface, List.headD_eq_head?_getD,
      List.headD_eq_head?_getD, hfirst]
  exact Rooted.mk' rfl hcst hf hsort hownc hc hhead hn

/-- The removal below a root that is an interior node. -/
theorem eraseOneDescend_root {x : ℕ} {ds : List (Shape K V h)}
    (ht : Rooted tr 1 s (Shape.branch x ds)) :
    ∃ s' r, eraseOneDescend tr (h + 2) s key x topPlace = some (s', r) ∧
      (Missed s s' (ds.flatMap Shape.pairs) key r ∨
        r.notFound = false ∧ key ∈ (ds.flatMap Shape.pairs).map Prod.fst ∧
          Shrunk tr s s' (eraseKey key (ds.flatMap Shape.pairs))) := by
  obtain ⟨hlo, hmax, hds⟩ := Shape.filled_branch.1 ht.filled
  obtain ⟨hload, hst⟩ := stored_branch.1 ht.stored
  have htwo := Shape.two_le_minslots tr h
  have hx : 0 < x := ht.owned.pos x List.mem_cons_self
  have hxroot : s.root = x := ht.root
  have hf : Family s x ds := ⟨hload, hst, ht.owned, [], [], by simpa using ht.chain⟩
  have hnot := not_mem_of_owned ht.owned
  have h0 : 0 ∉ (Shape.branch x ds).pages := fun hmem ↦ absurd (ht.owned.pos 0 hmem) (lt_irrefl 0)
  have hsort : Sorted (ds.flatMap Shape.pairs) := ht.sorted
  obtain ⟨s₁, r, slot, heq, hdone⟩ := eraseOneDescend_branch (h + 1) hf hds
    (List.ne_nil_of_length_pos (by omega)) hsort
    (⟨.inl rfl, .inl rfl, h0, h0⟩ : Between tr s (Shape.branch x ds) topPlace)
    fun pre d post below hdseq hbd hpd hbelow habove ↦ by
      subst hdseq
      have hd : d ∈ pre ++ d :: post := by simp
      refine eraseOneDescend_spec d (Nat.lt_succ_self h) hf hds
        ((Shape.sorted_flatMap.1 hsort).1 d hd) hbelow habove ?_ (fun hmem ↦ hnot ?_) hbd hpd
      · rw [List.length_append, List.length_cons] at hlo
        by_contra hnil
        rw [not_or, not_not, not_not] at hnil
        rw [hnil.1, hnil.2, List.length_nil] at hlo
        omega
      · exact List.mem_flatMap.2 ⟨d, hd, hxroot ▸ hmem⟩
  rcases hdone with hm | ⟨ds', he⟩
  · exact ⟨s₁, r, heq.trans (if_pos hm.notFound), .inl hm⟩
  rw [if_neg (by rw [he.found]; exact Bool.false_ne_true)] at heq
  obtain ⟨s₃, heq₃, honly, hlists, hlen, hlen'⟩ :=
    fixmerge_of_page he.page he.reshaped.stored he.filled
  have hr : Reshaped [] s s₃ [Shape.branch x ds] [Shape.branch x ds'] :=
    he.reshaped.branch ht.owned honly he.exists_interior hlists
  have hroot₃ : x = s₃.root := (hr.keeps.root.trans hxroot).symm
  have hdirty : s₃.modified ≠ [] := honly.keeps.dirty he.dirty
  have hsort' : Sorted (ds'.flatMap Shape.pairs) := he.pairs ▸ hsort.eraseKey key
  -- there is no parent to take a key
  obtain ⟨myres, heq', hmynf⟩ : ∃ myres : Result K, eraseOneDescend tr (h + 2) s key x topPlace =
      (if r.fixmerge then s₁.fixmerge x slot else some s₁).bind
        (fun s ↦ s.balanceInterior tr x topPlace myres) ∧ myres.notFound = false := by
    cases hlk : r.lastkey with
    | none =>
      rw [hlk] at heq
      exact ⟨_, heq, rfl⟩
    | some k =>
      rw [hlk] at heq
      exact ⟨_, heq.trans (congrArg (Option.bind · _) (updateLastkey_top _)), rfl⟩
  rw [heq₃, Option.bind_some] at heq'
  by_cases hone : ds'.length = 1
  · obtain ⟨c, rfl⟩ := List.length_eq_one_iff.1 hone
    have hlast := balanceInterior_last tr myres hlists
    obtain ⟨s₄, hs₄⟩ : ∃ s₄, s₃.put x (.interior ⟨h + 1, [], [c.addr]⟩) = s₄ := ⟨_, rfl⟩
    have honly₄ : Only [x] s₃ s₄ := hs₄ ▸ only_put _ _
    have hload₄ : s₄.load x = some (.interior ⟨h + 1, [], [c.addr]⟩) := hs₄ ▸ load_put_self _ _
    have hcpairs : c.pairs = eraseKey key (ds.flatMap Shape.pairs) := by
      have := he.pairs
      rwa [List.flatMap_singleton] at this
    refine ⟨{ s₄ with root := c.addr }, Result.ok, heq'.trans (hlast.trans (by rw [hs₄])),
      .inr ⟨rfl, he.mem, ⟨fun n hn ↦ ?_, fun n ↦ ?_, ?_, honly₄.keeps.dirty hdirty⟩⟩⟩
    · have hrooted : Rooted tr 1
          { s₄ with root := c.addr, stats := { s₄.stats with treeSize := n } } c :=
        ht.only_child hr hlists honly₄ hload₄
          ((he.filled c (List.mem_singleton_self c)).mono (by omega)) (by simpa using hsort')
          (hn.trans (congrArg _ hcpairs.symm))
      exact hcpairs ▸ .rooted c hrooted
    · exact (hr.keeps.trans honly₄.keeps).within (honly₄.keeps.dirty hdirty) c.addr s₄.headsurface
        s₄.lastSurface
    · show s₄.stats.treeSize = _
      rw [honly₄.keeps.stats, hr.keeps.stats]
  · have hne : Shape.separators ds' ≠ [] := List.ne_nil_of_length_pos (by
      rw [Shape.length_separators]
      omega)
    refine ⟨s₃, myres, heq'.trans (balanceInterior_root hlists hroot₃ hne), .inr ⟨hmynf, he.mem,
      ⟨fun n hn ↦ ?_, fun n ↦ ?_, hr.keeps.stats ▸ rfl, hdirty⟩⟩⟩
    · have hpairs : (Shape.branch x ds').pairs = eraseKey key (ds.flatMap Shape.pairs) := he.pairs
      have hrooted : Rooted tr 1 { s₃ with stats := { s₃.stats with treeSize := n } } _ :=
        ht.reshaped hr rfl (Shape.filled_branch.2 ⟨by omega, by omega, he.filled⟩) hsort'
          (hn.trans (congrArg _ hpairs.symm))
      exact hpairs ▸ .rooted _ hrooted
    · exact hr.keeps.within hdirty s₃.root s₃.headsurface s₃.lastSurface

/-- Registering pages changes nothing. -/
theorem Rooted.of_only {t : Shape K V h} (ht : Rooted tr lo s t) (ho : Only [] s s') :
    Rooted tr lo s' t := by
  refine ⟨⟨ho.keeps.root.trans ht.root, ht.stored.of_load_eq fun w _ ↦ ho.load w List.not_mem_nil,
    ht.filled, ht.sorted, ht.owned.mono ho.keeps.lastAddress, ht.chain.of_only ho nofun, ?_⟩,
    ho.keeps.headsurface.trans ht.headsurface⟩
  rw [ho.keeps.stats, ht.treeSize]

private theorem eraseOneDescend_rooted {t : Shape K V h} (ht : Rooted tr 1 s t) (key : K) :
    ∃ s' r, eraseOneDescend tr s.depth s key s.root topPlace = some (s', r) ∧
      (Missed s s' t.pairs key r ∨ r.notFound = false ∧ key ∈ t.pairs.map Prod.fst ∧
        Shrunk tr s s' (eraseKey key t.pairs)) := by
  rw [ht.depth, ht.root]
  cases h with
  | zero =>
    obtain ⟨l, pairs, rfl⟩ := t.exists_leaf
    obtain ⟨n, p, hload⟩ : ∃ n p, s.load l = some (.surface ⟨pairs, n, p⟩) := ht.stored
    obtain ⟨s', r, heq, hdone⟩ := eraseSurface_root ht hload
    refine ⟨s', r, ?_, hdone⟩
    rw [eraseOneDescend]
    show Option.bind (s.load l) _ = _
    rw [hload]
    exact heq
  | succ h =>
    obtain ⟨x, ds, rfl⟩ := t.exists_branch
    exact eraseOneDescend_root ht

/-- Removal refines the one of the ordered map. -/
theorem eraseOne_spec (hs : Represents tr s kvs) (key : K) :
    ∃ s' erased, s.eraseOne tr key = some (s', erased) ∧ Represents tr s' (eraseKey key kvs) ∧
      Within s s' ∧ (erased = true ↔ key ∈ kvs.map Prod.fst) := by
  cases hs with
  | bare hs =>
    refine ⟨s, false, if_pos hs.root, .bare hs, Within.refl s, ?_⟩
    simp
  | rooted t ht =>
    obtain ⟨s', r, heq, hdone⟩ := eraseOneDescend_rooted ht key
    have hstart : s.eraseOne tr key = if r.notFound then some (s', false) else
        some ({ s' with stats := { s'.stats with treeSize := s'.stats.treeSize - 1 } }, true) := by
      rw [eraseOne, if_neg (Rooted.root_ne ht.root ht.owned)]
      exact (congrArg (Option.bind · _) heq).trans rfl
    rw [hstart]
    rcases hdone with hm | ⟨hfound, hmem, hshrunk⟩
    · rw [if_pos hm.notFound, eraseKey_of_not_mem hm.not_mem]
      refine ⟨s', false, rfl, .rooted t (ht.of_only hm.only), ?_, by simpa using hm.not_mem⟩
      exact hm.only.keeps.within hm.dirty s'.root s'.headsurface s'.lastSurface
    · rw [if_neg (by rw [hfound]; exact Bool.false_ne_true)]
      refine ⟨_, true, rfl, hshrunk.represents _ ?_, hshrunk.within _, by simpa using hmem⟩
      have := ht.sorted.length_eraseKey hmem
      rw [hshrunk.treeSize, ht.treeSize]
      omega

end LibSpaces.Stx.Btree
