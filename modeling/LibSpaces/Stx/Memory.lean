import LibSpaces.Base.Chain
import LibSpaces.Stx.Shape

/-!
# Shapes in the memory of a B+ tree

`Stored` says that the memory holds a shape and `LeafChain` that leaves are linked in order.
`Reshaped` is what a step of an insertion or a removal does to the shapes of neighbouring
nodes, and that it leaves the rest alone: of the pages elsewhere only the links change.
-/

namespace LibSpaces.Stx

open LibSpaces.Base

/-- A node without its links. -/
def Node.core {K V : Type} : Node K V → Node K V
  | .surface n => .surface ⟨n.kvs, 0, 0⟩
  | .interior n => .interior n

namespace Btree

variable {K V : Type}

/-- What a node is apart from its links. -/
def coreAt (s : Btree K V) (w : ℕ) : Option (Node K V) := (s.load w).map Node.core

/-- The leaf at `w` lies between `p` and `n`. -/
def Cell (s : Btree K V) (w p n : ℕ) : Prop :=
  ∃ kvs, s.load w = some (.surface ⟨kvs, n, p⟩)

/-- No leaf is its own successor: `save` refuses such a node, `btree.h:2444–2447`. -/
def Unlooped (s : Btree K V) : Prop :=
  ∀ w n, s.load w = some (.surface n) → n.next ≠ w

/-- `leaves` are all the leaves, linked in order from the first to `last_surface`. -/
structure LeafChain (s : Btree K V) (leaves : List ℕ) : Prop where
  linked : Linked s.Cell 0 leaves 0
  nodup : leaves.Nodup
  pos : ∀ w ∈ leaves, 0 < w
  bound : ∀ w ∈ leaves, w ≤ s.storage.lastAddress
  last : s.lastSurface = leaves.getLastD 0
  unlooped : s.Unlooped

/-- The memory holds a shape. -/
def Stored [Inhabited K] (s : Btree K V) : {h : ℕ} → Shape K V h → Prop
  | 0, t => ∃ next preceding, s.load (Leaf.addr t) = some (.surface ⟨Leaf.kvs t, next, preceding⟩)
  | h + 1, t => s.load (Branch.addr t) = some (.interior
      ⟨h + 1, Shape.separators (Branch.children t), (Branch.children t).map Shape.addr⟩) ∧
      ∀ c ∈ Branch.children t, Stored s c

/-- The addresses allocated between two states. -/
def fresh (s s' : Btree K V) (w : ℕ) : ℕ :=
  if s.storage.lastAddress < w ∧ w ≤ s'.storage.lastAddress then 1 else 0

/-- No page occurs twice below the nodes and each one was given out by the storage. -/
structure Owned (s : Btree K V) (pages : List ℕ) : Prop where
  count : ∀ w, pages.count w ≤ 1
  pos : ∀ w ∈ pages, 0 < w
  bound : ∀ w ∈ pages, w ≤ s.storage.lastAddress

/-- A step that turns the shapes `ts` of neighbouring nodes into `ts'`. Besides their pages it
writes to those of `also`. -/
structure Reshaped [Inhabited K] (also : List ℕ) (s s' : Btree K V) {h : ℕ}
    (ts ts' : List (Shape K V h)) : Prop where
  keeps : Extends s s'
  stored : ∀ t ∈ ts', Stored s' t
  pages : ∀ w, (ts'.flatMap Shape.pages).count w ≤
    (ts.flatMap Shape.pages).count w + fresh s s' w
  frame : ∀ w ≤ s.storage.lastAddress, w ∉ also → w ∉ ts.flatMap Shape.pages →
    s'.coreAt w = s.coreAt w
  chain : ∀ A B, LeafChain s (A ++ (ts.flatMap Shape.leaves ++ B)) →
    LeafChain s' (A ++ (ts'.flatMap Shape.leaves ++ B))
  first : (ts'.flatMap Shape.leaves).head? = (ts.flatMap Shape.leaves).head?

section Core

variable {s s' : Btree K V} {w : ℕ}

private theorem load_surface_of_core {kvs : List (K × V)} {n p : ℕ}
    (hload : s.load w = some (.surface ⟨kvs, n, p⟩)) (hcore : s'.coreAt w = s.coreAt w) :
    ∃ n' p', s'.load w = some (.surface ⟨kvs, n', p'⟩) := by
  rw [coreAt, coreAt, hload, Option.map_some, Option.map_eq_some_iff] at hcore
  obtain ⟨node, hnode, heq⟩ := hcore
  cases node with
  | surface m =>
    simp only [Node.core, Node.surface.injEq, Surface.mk.injEq, and_true] at heq
    exact ⟨m.next, m.preceding, by rw [hnode, ← heq]⟩
  | interior m => cases heq

/-- An interior node has no links, so its core is all of it. -/
theorem load_interior_of_core {m : Interior K}
    (hload : s.load w = some (.interior m)) (hcore : s'.coreAt w = s.coreAt w) :
    s'.load w = some (.interior m) := by
  rw [coreAt, coreAt, hload, Option.map_some, Option.map_eq_some_iff] at hcore
  obtain ⟨node, hnode, heq⟩ := hcore
  cases node with
  | surface m => cases heq
  | interior m =>
    rw [hnode]
    exact congrArg some heq

/-- The core of a page depends on what is loaded from it only. -/
theorem coreAt_congr (h : s'.load w = s.load w) : s'.coreAt w = s.coreAt w := by
  rw [coreAt, coreAt, h]

/-- Pages stay owned when more are allocated. -/
theorem Owned.mono {pages : List ℕ} (ho : Owned s pages)
    (hle : s.storage.lastAddress ≤ s'.storage.lastAddress) : Owned s' pages :=
  ⟨ho.count, ho.pos, fun w hw ↦ (ho.bound w hw).trans hle⟩

/-- Fewer pages are owned where more are. -/
theorem Owned.of_count_le {pages pages' : List ℕ} (ho : Owned s pages)
    (hle : ∀ w, pages'.count w ≤ pages.count w) : Owned s pages' := by
  have hsub : ∀ w ∈ pages', w ∈ pages := fun w hw ↦
    List.count_pos_iff.1 ((List.count_pos_iff.2 hw).trans_le (hle w))
  exact ⟨fun w ↦ (hle w).trans (ho.count w), fun w hw ↦ ho.pos w (hsub w hw),
    fun w hw ↦ ho.bound w (hsub w hw)⟩

end Core

variable [Inhabited K] {s s' s₁ s₂ : Btree K V} {h : ℕ} {t : Shape K V h}
  {ts ts' ts₁ ts₂ cs cs' pre post : List (Shape K V h)} {also : List ℕ} {L A B : List ℕ}

/-- A leaf is stored where a page with its pairs is. -/
theorem stored_leaf {w : ℕ} {kvs : List (K × V)} : Stored s (Shape.leaf w kvs) ↔
    ∃ next preceding, s.load w = some (.surface ⟨kvs, next, preceding⟩) := Iff.rfl

/-- A branch is stored where its node is and its children are. -/
theorem stored_branch {w : ℕ} : Stored s (Shape.branch w cs) ↔
    s.load w = some (.interior ⟨h + 1, Shape.separators cs, cs.map Shape.addr⟩) ∧
      ∀ c ∈ cs, Stored s c := Iff.rfl

/-- The page of a stored shape can be loaded. -/
theorem Stored.exists_load (ht : Stored s t) : ∃ n, s.load t.addr = some n := by
  cases h with
  | zero =>
    obtain ⟨n, p, hload⟩ := ht
    exact ⟨_, hload⟩
  | succ h => exact ⟨_, ht.1⟩

/-! ### A stored shape depends on the cores of its pages -/

private theorem Stored.congr (ht : Stored s t) (hcore : ∀ w ∈ t.pages, s'.coreAt w = s.coreAt w) :
    Stored s' t := by
  induction h with
  | zero =>
    obtain ⟨n, p, hload⟩ := ht
    exact load_surface_of_core hload (hcore _ (Shape.addr_mem_pages t))
  | succ h ih =>
    refine ⟨load_interior_of_core ht.1 (hcore _ (Shape.addr_mem_pages t)), fun c hc ↦ ?_⟩
    refine ih (ht.2 c hc) fun w hw ↦ hcore w ?_
    exact List.mem_cons_of_mem _ (List.mem_flatMap.2 ⟨c, hc, hw⟩)

/-- A shape stays stored where its pages are loaded alike. -/
theorem Stored.of_load_eq (ht : Stored s t) (hload : ∀ w ∈ t.pages, s'.load w = s.load w) :
    Stored s' t :=
  ht.congr fun w hw ↦ coreAt_congr (hload w hw)

/-! ### Composition -/

omit [Inhabited K] in
/-- The pages of the children are owned where those of the branch are. -/
theorem owned_children {w : ℕ}
    (hown : Owned s (Shape.branch w cs).pages) : Owned s (cs.flatMap Shape.pages) :=
  hown.of_count_le fun x ↦ by
    rw [Shape.pages_branch]
    exact List.count_le_count_cons

omit [Inhabited K] in
/-- So are the pages of each child. -/
theorem owned_child {c : Shape K V h}
    (hown : Owned s ((pre ++ c :: post).flatMap Shape.pages)) : Owned s c.pages :=
  hown.of_count_le fun x ↦ by
    rw [Shape.flatMap_mid, List.count_append, List.count_append]
    omega

/-- The pages of the new shapes are old or fresh. -/
theorem Reshaped.mem_pages (hr : Reshaped also s s' ts ts') {w : ℕ}
    (hw : w ∈ ts'.flatMap Shape.pages) (hle : w ≤ s.storage.lastAddress) :
    w ∈ ts.flatMap Shape.pages := by
  have hcount := (List.count_pos_iff.2 hw).trans_le (hr.pages w)
  rw [fresh, if_neg (by omega), Nat.add_zero] at hcount
  exact List.count_pos_iff.1 hcount

/-- The pages stay owned. -/
theorem Reshaped.owned (hr : Reshaped also s s' ts ts') (ho : Owned s (ts.flatMap Shape.pages)) :
    Owned s' (ts'.flatMap Shape.pages) := by
  refine ⟨fun w ↦ ?_, fun w hw ↦ ?_, fun w hw ↦ ?_⟩
  · have hle := hr.pages w
    have hold := ho.count w
    by_cases hw : w ∈ ts.flatMap Shape.pages
    · rw [fresh, if_neg (by have := ho.bound w hw; omega)] at hle
      omega
    · rw [List.count_eq_zero.2 hw, fresh] at hle
      split at hle <;> omega
  · by_cases hle : w ≤ s.storage.lastAddress
    · exact ho.pos w (hr.mem_pages hw hle)
    · omega
  · by_contra hgt
    have hle := hr.keeps.lastAddress
    have hcount := (List.count_pos_iff.2 hw).trans_le (hr.pages w)
    have hnot : w ∉ ts.flatMap Shape.pages := fun hmem ↦ by
      have := ho.bound w hmem
      omega
    rw [List.count_eq_zero.2 hnot, fresh, if_neg (by omega)] at hcount
    omega

/-- One step after another. -/
theorem Reshaped.trans (hr : Reshaped also s s₁ ts ts₁) (hr' : Reshaped also s₁ s₂ ts₁ ts₂) :
    Reshaped also s s₂ ts ts₂ where
  keeps := hr.keeps.trans hr'.keeps
  stored := hr'.stored
  pages := by
    intro w
    have h1 := hr.pages w
    have h2 := hr'.pages w
    have hle := hr.keeps.lastAddress
    have hle' := hr'.keeps.lastAddress
    simp only [fresh] at h1 h2 ⊢
    split at h1 <;> split at h2 <;> split <;> omega
  frame := by
    intro w hw hnot hts
    have hts₁ : w ∉ ts₁.flatMap Shape.pages := fun hmem ↦ hts (hr.mem_pages hmem hw)
    rw [hr'.frame w (hw.trans hr.keeps.lastAddress) hnot hts₁, hr.frame w hw hnot hts]
  chain := fun A B hc ↦ hr'.chain A B (hr.chain A B hc)
  first := hr'.first.trans hr.first

/-- A step that does nothing. -/
theorem Reshaped.refl (also : List ℕ) (hs : ∀ t ∈ ts, Stored s t) : Reshaped also s s ts ts :=
  ⟨Extends.refl s, hs, fun _ ↦ Nat.le_add_right _ _, fun _ _ _ _ ↦ rfl, fun _ _ ↦ id, rfl⟩

/-- What happens to some neighbours happens to all the children they are among. -/
theorem Reshaped.context (hr : Reshaped also s s' ts ts')
    (hpre : ∀ t ∈ pre, Stored s t) (hpost : ∀ t ∈ post, Stored s t)
    (ho : Owned s ((pre ++ (ts ++ post)).flatMap Shape.pages))
    (halso : ∀ w ∈ also, w ∉ pre.flatMap Shape.pages ∧ w ∉ post.flatMap Shape.pages) :
    Reshaped also s s' (pre ++ (ts ++ post)) (pre ++ (ts' ++ post)) := by
  simp only [List.flatMap_append] at ho
  have hcount (w : ℕ) := ho.count w
  simp only [List.count_append] at hcount
  have hcore {w : ℕ} (hw : w ∈ pre.flatMap Shape.pages ∨ w ∈ post.flatMap Shape.pages) :
      s'.coreAt w = s.coreAt w := by
    refine hr.frame w (ho.bound w ?_) (fun hal ↦ ?_) fun hts ↦ ?_
    · rw [List.mem_append, List.mem_append]
      exact hw.imp_right .inr
    · exact hw.elim (halso w hal).1 (halso w hal).2
    · have h1 := hcount w
      have h2 := List.count_pos_iff.2 hts
      rcases hw with hw | hw <;> have h3 := List.count_pos_iff.2 hw <;> omega
  refine ⟨hr.keeps, ?_, ?_, ?_, ?_, ?_⟩
  · intro t ht
    rcases List.mem_append.1 ht with ht | ht
    · exact (hpre t ht).congr fun w hw ↦ hcore (.inl (List.mem_flatMap.2 ⟨t, ht, hw⟩))
    · rcases List.mem_append.1 ht with ht | ht
      · exact hr.stored t ht
      · exact (hpost t ht).congr fun w hw ↦ hcore (.inr (List.mem_flatMap.2 ⟨t, ht, hw⟩))
  · intro w
    have := hr.pages w
    simp only [List.flatMap_append, List.count_append]
    omega
  · intro w hw hal hnot
    simp only [List.flatMap_append, List.mem_append, not_or] at hnot
    exact hr.frame w hw hal hnot.2.1
  · intro A B hc
    have := hr.chain (A ++ pre.flatMap Shape.leaves) (post.flatMap Shape.leaves ++ B)
    simp only [List.flatMap_append, List.append_assoc] at hc this ⊢
    exact this hc
  · simp only [List.flatMap_append, List.head?_append, hr.first]

/-- A step may write to more pages than it does. -/
theorem Reshaped.mono {also' : List ℕ} (hr : Reshaped also s s' ts ts') (hsub : also ⊆ also') :
    Reshaped also' s s' ts ts' :=
  { hr with frame := fun w hw hnot ↦ hr.frame w hw fun hal ↦ hnot (hsub hal) }

/-! ### Writes to interior nodes -/

section Writes

omit [Inhabited K]

/-- A step that writes to the pages `ws` only and allocates none. -/
structure Only (ws : List ℕ) (s s' : Btree K V) : Prop where
  keeps : Extends s s'
  lastSurface : s'.lastSurface = s.lastSurface
  lastAddress : s'.storage.lastAddress = s.storage.lastAddress
  load : ∀ w ∉ ws, s'.load w = s.load w

/-- A step that does nothing. -/
theorem Only.refl (ws : List ℕ) (s : Btree K V) : Only ws s s :=
  ⟨Extends.refl s, rfl, rfl, fun _ _ ↦ rfl⟩

/-- Writing a node to a page. -/
theorem only_put (w : ℕ) (n : Node K V) : Only [w] s (s.put w n) :=
  ⟨extends_put w n, rfl, rfl, fun _ hx ↦ load_put_ne n (List.ne_of_not_mem_cons hx)⟩

/-- One step after another. -/
theorem Only.trans {ws : List ℕ} (h₁ : Only ws s s₁) (h₂ : Only ws s₁ s₂) : Only ws s s₂ :=
  ⟨h₁.keeps.trans h₂.keeps, h₂.lastSurface.trans h₁.lastSurface,
    h₂.lastAddress.trans h₁.lastAddress, fun w hw ↦ (h₂.load w hw).trans (h₁.load w hw)⟩

/-- A step may write to more pages than it does. -/
theorem Only.mono {ws ws' : List ℕ} (h₁ : Only ws s s₁) (hsub : ws ⊆ ws') : Only ws' s s₁ :=
  { h₁ with load := fun w hw ↦ h₁.load w fun hmem ↦ hw (hsub hmem) }

/-- Registering a page writes nothing. -/
theorem only_register {w : ℕ} {n : Node K V} (hload : s.load w = some n) :
    Only [] s (s.put w n) :=
  ⟨extends_put w n, rfl, rfl, fun x _ ↦ load_put_same hload x⟩

/-- The chain of leaves stays where their links and the last leaf do. -/
theorem LeafChain.congr (hc : LeafChain s L)
    (hcell : ∀ w ∈ L, ∀ p n, s.Cell w p n → s'.Cell w p n)
    (hlast : s'.lastSurface = s.lastSurface)
    (hle : s.storage.lastAddress ≤ s'.storage.lastAddress) (hu : s'.Unlooped) :
    LeafChain s' L :=
  ⟨hc.linked.mono hcell, hc.nodup, hc.pos, fun w hw ↦ (hc.bound w hw).trans hle,
    hlast.trans hc.last, hu⟩

private theorem LeafChain.not_mem (hc : LeafChain s L) {w : ℕ} {m : Interior K}
    (hload : s.load w = some (.interior m)) : w ∉ L := by
  intro hw
  obtain ⟨x, y, kvs, hcell⟩ := hc.linked.exists_cell hw
  rw [hload] at hcell
  cases hcell

/-- The page stays an interior node or a leaf with the same links. -/
def SameLinks (s s' : Btree K V) (w : ℕ) : Prop :=
  (∃ m m', s.load w = some (.interior m) ∧ s'.load w = some (.interior m')) ∨
    ∃ kvs kvs' n p, s.load w = some (.surface ⟨kvs, n, p⟩) ∧
      s'.load w = some (.surface ⟨kvs', n, p⟩)

/-- Interior nodes have no links to change. -/
theorem SameLinks.interior {w : ℕ} {m m' : Interior K} (hold : s.load w = some (.interior m))
    (hnew : s'.load w = some (.interior m')) : SameLinks s s' w := .inl ⟨m, m', hold, hnew⟩

/-- Writes that keep the links do not touch the chain. -/
theorem LeafChain.of_only {ws : List ℕ} (hc : LeafChain s L) (ho : Only ws s s')
    (hlinks : ∀ w ∈ ws, SameLinks s s' w) : LeafChain s' L := by
  refine hc.congr (fun w hw p n hcell ↦ ?_) ho.lastSurface ho.lastAddress.ge fun w n hload ↦ ?_
  · by_cases hmem : w ∈ ws
    · obtain ⟨kvs₀, hcell⟩ := hcell
      rcases hlinks w hmem with ⟨m, -, hm, -⟩ | ⟨kvs, kvs', n', p', hs, hs'⟩
      · exact absurd hw (hc.not_mem hm)
      · rw [hs] at hcell
        cases hcell
        exact ⟨kvs', hs'⟩
    · rwa [Cell, ho.load w hmem]
  · by_cases hmem : w ∈ ws
    · rcases hlinks w hmem with ⟨-, m, -, hm⟩ | ⟨kvs, kvs', n', p', hs, hs'⟩
      · rw [hm] at hload
        cases hload
      · rw [hs'] at hload
        cases hload
        exact hc.unlooped w ⟨kvs, n', p'⟩ hs
    · rw [ho.load w hmem] at hload
      exact hc.unlooped w n hload

end Writes

/-- A step that writes to no page may follow. -/
theorem Reshaped.then_only (hr : Reshaped also s s₁ ts ts') (ho : Only [] s₁ s₂) :
    Reshaped also s s₂ ts ts' := by
  have hload (w : ℕ) : s₂.load w = s₁.load w := ho.load w List.not_mem_nil
  refine ⟨hr.keeps.trans ho.keeps, fun t ht ↦ (hr.stored t ht).of_load_eq fun w _ ↦ hload w,
    fun w ↦ ?_, fun w hw hal hts ↦ ?_, fun A B hc ↦ ?_, hr.first⟩
  · have := hr.pages w
    rwa [fresh, ho.lastAddress]
  · rw [coreAt_congr (hload w)]
    exact hr.frame w hw hal hts
  · exact (hr.chain A B hc).of_only ho fun w hw ↦ absurd hw List.not_mem_nil

/-- The children of a node have been reshaped and its own page was written to match. -/
theorem Reshaped.branch {w : ℕ} (hr : Reshaped (w :: also) s s₁ cs cs')
    (hown : Owned s (Shape.branch w cs).pages) (ho : Only [w] s₁ s₂)
    (hold : ∃ m, s₁.load w = some (.interior m))
    (hpage : s₂.load w =
      some (.interior ⟨h + 1, Shape.separators cs', cs'.map Shape.addr⟩)) :
    Reshaped also s s₂ [Shape.branch w cs] [Shape.branch w cs'] := by
  have hbound : w ≤ s.storage.lastAddress := hown.bound w List.mem_cons_self
  have hw : w ∉ cs'.flatMap Shape.pages := fun hmem ↦ by
    have hcount := hown.count w
    have := List.count_pos_iff.2 (hr.mem_pages hmem hbound)
    rw [Shape.pages_branch, List.count_cons_self] at hcount
    omega
  have hload {x : ℕ} (hx : x ≠ w) : s₂.load x = s₁.load x :=
    ho.load x fun hmem ↦ hx (List.mem_singleton.1 hmem)
  refine ⟨hr.keeps.trans ho.keeps, ?_, fun x ↦ ?_, fun x hx hal hts ↦ ?_, fun A B hc ↦ ?_, ?_⟩
  · intro t ht
    rw [List.mem_singleton.1 ht]
    refine stored_branch.2 ⟨hpage, fun c hc ↦ (hr.stored c hc).of_load_eq fun x hx ↦ ?_⟩
    refine hload fun heq ↦ hw ?_
    exact heq ▸ List.mem_flatMap.2 ⟨c, hc, hx⟩
  · have := hr.pages x
    simp only [List.flatMap_singleton, Shape.pages_branch, List.count_cons, fresh,
      ho.lastAddress] at this ⊢
    omega
  · simp only [List.flatMap_singleton, Shape.pages_branch, List.mem_cons, not_or] at hts
    rw [coreAt_congr (hload hts.1)]
    exact hr.frame x hx (fun hmem ↦ (List.mem_cons.1 hmem).elim hts.1 hal) hts.2
  · simp only [List.flatMap_singleton, Shape.leaves_branch] at hc ⊢
    obtain ⟨m, hold⟩ := hold
    refine (hr.chain A B hc).of_only ho fun x hx ↦ ?_
    rw [List.mem_singleton.1 hx]
    exact .interior hold hpage
  · simpa only [List.flatMap_singleton, Shape.leaves_branch] using hr.first

/-- Writes that keep the links leave the leaves where they are. -/
theorem Only.reshaped {ws : List ℕ} (ho : Only ws s s') (hst : ∀ t ∈ ts', Stored s' t)
    (hpages : ∀ w, (ts'.flatMap Shape.pages).count w ≤ (ts.flatMap Shape.pages).count w)
    (hws : ∀ w ∈ ws, w ∈ also ∨ w ∈ ts.flatMap Shape.pages)
    (hlinks : ∀ w ∈ ws, SameLinks s s' w)
    (hleaves : ts'.flatMap Shape.leaves = ts.flatMap Shape.leaves) :
    Reshaped also s s' ts ts' := by
  refine ⟨ho.keeps, hst, fun w ↦ (hpages w).trans (Nat.le_add_right _ _), fun w _ hal hts ↦ ?_,
    fun A B hc ↦ ?_, by rw [hleaves]⟩
  · exact coreAt_congr (ho.load w fun hmem ↦ (hws w hmem).elim hal hts)
  · rw [hleaves]
    exact hc.of_only ho hlinks

/-- After a step the page of a node that is not among its own is written. -/
theorem Reshaped.then_other {w : ℕ} (hr : Reshaped also s s₁ ts ts') (ho : Only [w] s₁ s₂)
    (hal : w ∈ also) (hbound : w ≤ s.storage.lastAddress) (hnot : w ∉ ts.flatMap Shape.pages)
    (hlinks : SameLinks s₁ s₂ w) : Reshaped also s s₂ ts ts' := by
  have hnot' : w ∉ ts'.flatMap Shape.pages := fun hmem ↦ hnot (hr.mem_pages hmem hbound)
  refine hr.trans (ho.reshaped (fun t ht ↦ (hr.stored t ht).of_load_eq fun x hx ↦ ?_)
    (fun _ ↦ le_rfl) (fun x hx ↦ .inl (List.mem_singleton.1 hx ▸ hal))
    (fun x hx ↦ List.mem_singleton.1 hx ▸ hlinks) rfl)
  refine ho.load x fun hmem ↦ hnot' ?_
  rw [← List.mem_singleton.1 hmem]
  exact List.mem_flatMap.2 ⟨t, ht, hx⟩

/-- A step that allocates one page `nw` and writes to it and to `w` only. -/
structure Forked (w nw : ℕ) (s s' : Btree K V) : Prop where
  keeps : Extends s s'
  lastSurface : s'.lastSurface = s.lastSurface
  fresh : nw = s.storage.lastAddress + 1
  lastAddress : s'.storage.lastAddress = nw
  load : ∀ x, x ≠ w → x ≠ nw → s'.load x = s.load x

omit [Inhabited K] in
/-- Another write to one of the two pages. -/
theorem Forked.put {w nw : ℕ} (hf : Forked w nw s s₁) {x : ℕ} (hx : x = w ∨ x = nw)
    (n : Node K V) : Forked w nw s (s₁.put x n) :=
  ⟨hf.keeps.trans (extends_put x n), hf.lastSurface, hf.fresh, hf.lastAddress,
    fun y hyw hyn ↦ by
      rw [load_put_ne _ (hx.elim (fun h ↦ h ▸ hyw) fun h ↦ h ▸ hyn), hf.load y hyw hyn]⟩

omit [Inhabited K] in
private theorem LeafChain.of_forked {w nw : ℕ} (hc : LeafChain s L) (hf : Forked w nw s s')
    (hold : ∃ m, s.load w = some (.interior m)) (hw : ∃ m, s'.load w = some (.interior m))
    (hnw : ∃ m, s'.load nw = some (.interior m)) : LeafChain s' L := by
  obtain ⟨m, hm⟩ := hold
  have hle : s.storage.lastAddress ≤ s'.storage.lastAddress := hf.keeps.lastAddress
  refine hc.congr (fun x hx p n hcell ↦ ?_) hf.lastSurface hle fun x n hload ↦ ?_
  · have hxw : x ≠ w := fun heq ↦ hc.not_mem hm (heq ▸ hx)
    have hxn : x ≠ nw := by
      have := hc.bound x hx
      have := hf.fresh
      omega
    rwa [Cell, hf.load x hxw hxn]
  · by_cases hxw : x = w
    · obtain ⟨m', hm'⟩ := hw
      rw [hxw, hm'] at hload
      cases hload
    · by_cases hxn : x = nw
      · obtain ⟨m', hm'⟩ := hnw
        rw [hxn, hm'] at hload
        cases hload
      · rw [hf.load x hxw hxn] at hload
        exact hc.unlooped x n hload

/-- The children of a node have been reshaped and it was cut in two. -/
theorem Reshaped.fork {w nw : ℕ} {l r : List (Shape K V h)} (hr : Reshaped [w] s s₁ cs (l ++ r))
    (hown : Owned s (Shape.branch w cs).pages) (hf : Forked w nw s₁ s₂)
    (hold : ∃ m, s₁.load w = some (.interior m))
    (hw : s₂.load w = some (.interior ⟨h + 1, Shape.separators l, l.map Shape.addr⟩))
    (hnw : s₂.load nw = some (.interior ⟨h + 1, Shape.separators r, r.map Shape.addr⟩)) :
    Reshaped [] s s₂ [Shape.branch w cs] [Shape.branch w l, Shape.branch nw r] := by
  have hbound : w ≤ s.storage.lastAddress := hown.bound w List.mem_cons_self
  have hle := hr.keeps.lastAddress
  have hfresh := hf.fresh
  have hcount : ∀ x, (cs.flatMap Shape.pages).count x ≤ (Shape.branch w cs).pages.count x :=
    fun x ↦ by
      rw [Shape.pages_branch]
      exact List.count_le_count_cons
  have howned := hr.owned (hown.of_count_le hcount)
  have hnotw : w ∉ (l ++ r).flatMap Shape.pages := fun hmem ↦ by
    have hone := hown.count w
    have := List.count_pos_iff.2 (hr.mem_pages hmem hbound)
    rw [Shape.pages_branch, List.count_cons_self] at hone
    omega
  have hstored : ∀ c ∈ l ++ r, Stored s₂ c := fun c hc ↦
    (hr.stored c hc).of_load_eq fun x hx ↦ by
      have hmem := List.mem_flatMap.2 ⟨c, hc, hx⟩
      have := howned.bound x hmem
      exact hf.load x (fun heq ↦ hnotw (heq ▸ hmem)) (by omega)
  refine ⟨hr.keeps.trans hf.keeps, ?_, fun x ↦ ?_, fun x hx _ hts ↦ ?_, fun A B hc ↦ ?_, ?_⟩
  · intro t ht
    rcases List.mem_cons.1 ht with rfl | ht
    · exact stored_branch.2 ⟨hw, fun c hc ↦ hstored c (List.mem_append_left _ hc)⟩
    · rw [List.mem_singleton.1 ht]
      exact stored_branch.2 ⟨hnw, fun c hc ↦ hstored c (List.mem_append_right _ hc)⟩
  · have hpages := hr.pages x
    have hnew : fresh s s₁ x + (if nw = x then 1 else 0) ≤ fresh s s₂ x := by
      simp only [fresh, hf.lastAddress]
      split <;> split <;> split <;> omega
    simp only [List.flatMap_append, List.count_append] at hpages
    simp only [List.flatMap_cons, List.flatMap_nil, Shape.pages_branch, List.count_append,
      List.count_cons, List.count_nil, beq_iff_eq]
    omega
  · simp only [List.flatMap_singleton, Shape.pages_branch, List.mem_cons, not_or] at hts
    rw [coreAt_congr (hf.load x hts.1 (by omega))]
    exact hr.frame x hx (fun hmem ↦ hts.1 (List.mem_singleton.1 hmem)) hts.2
  · have := hr.chain A B
    simp only [List.flatMap_cons, List.flatMap_nil, List.append_nil, Shape.leaves_branch,
      List.flatMap_append] at hc this ⊢
    exact (this hc).of_forked hf hold ⟨_, hw⟩ ⟨_, hnw⟩
  · have := hr.first
    simpa only [List.flatMap_cons, List.flatMap_nil, List.append_nil, Shape.leaves_branch,
      List.flatMap_append] using this

end Btree

end LibSpaces.Stx
