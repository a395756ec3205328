import LibSpaces.Stx.Insertion

/-!
# What the balancing of two neighbours does to a tree

After a removal a node may have one occupant less than its minimum. It is merged with a
neighbour below the same parent or pairs are shifted between the two. A shift leaves the page
of the parent right; a merge leaves it with an empty child, which the caller takes out.
-/

namespace LibSpaces.Stx.Btree

open LibSpaces.Base

variable {K V : Type} [Inhabited K] {tr : Traits} {s s' s₁ s₂ : Btree K V} {h : ℕ}
  {A B : List ℕ}

/-! ### Two leaves -/

omit [Inhabited K] in
/-- The leaf `r` behind `l` is taken out of the chain. -/
theorem LeafChain.removeAfter {l r n p : ℕ} {kvs kvs' kvs₁ : List (K × V)}
    (hc : LeafChain s (A ++ l :: r :: B))
    (hl : s.load l = some (.surface ⟨kvs, r, p⟩)) (hr : s.load r = some (.surface ⟨kvs', n, l⟩))
    (hle : s.storage.lastAddress ≤ s₁.storage.lastAddress)
    (hl₁ : s₁.load l = some (.surface ⟨kvs₁, n, p⟩))
    (hr₁ : s₁.load r = some (.surface ⟨[], n, l⟩))
    (hnext : ∀ kvs' n' p', n ≠ 0 → s.load n = some (.surface ⟨kvs', n', p'⟩) →
      s₁.load n = some (.surface ⟨kvs', n', l⟩))
    (hother : ∀ x, x ≠ l → x ≠ r → (x = n → n = 0) → s₁.load x = s.load x)
    (hls : s₁.lastSurface = if n = 0 then l else s.lastSurface) :
    LeafChain s₁ (A ++ l :: B) := by
  have hnd := hc.nodup
  rw [List.nodup_append, List.nodup_cons, List.nodup_cons] at hnd
  obtain ⟨hndA, ⟨hlB, hrB, hndB⟩, hdis⟩ := hnd
  rw [List.mem_cons, not_or] at hlB
  have hc' : LeafChain s ((A ++ [l]) ++ r :: B) := by rwa [List.append_assoc]
  have hn : B.headD 0 = n := (hc'.linked.cell.unique hr).2
  have hsub : (A ++ l :: B).Sublist (A ++ l :: r :: B) :=
    (List.Sublist.refl A).append ((List.sublist_cons_self r B).cons_cons l)
  refine ⟨hc.linked.removeAfter ?_ ?_ ?_ ?_, hc.nodup.sublist hsub,
    fun x hx ↦ hc.pos x (hsub.subset hx), fun x hx ↦ (hc.bound x (hsub.subset hx)).trans hle,
    ?_, ?_⟩
  · intro c hcA x y hcell
    have hcn : c = n → n = 0 := by
      cases B with
      | nil => exact fun _ ↦ hn.symm
      | cons b B =>
        have hcb := hdis c hcA b (by simp)
        exact fun heq ↦ absurd (heq.trans hn.symm) hcb
    rwa [Cell, hother c (hdis c hcA l (by simp)) (hdis c hcA r (by simp)) hcn]
  · intro x hcell
    rw [(hcell.unique hl).1, hn]
    exact ⟨kvs₁, hl₁⟩
  · intro c hcB y hcell
    cases B with
    | nil => cases hcB
    | cons b B =>
      obtain rfl : b = c := Option.some.inj hcB
      obtain rfl : b = n := hn
      obtain ⟨kvs', hb⟩ := hcell
      exact ⟨kvs', hnext _ _ _ (hc.pos b (by simp)).ne' hb⟩
  · intro c hcB x y hcell
    cases B with
    | nil => cases hcB
    | cons b B =>
      obtain rfl : b = n := hn
      have hcmem : c ∈ b :: B := List.mem_cons_of_mem _ hcB
      have hcl : c ≠ l := fun heq ↦ hlB.2 (heq ▸ hcmem)
      have hcr : c ≠ r := fun heq ↦ hrB (heq ▸ hcmem)
      have hcb : c ≠ b := fun heq ↦ (List.nodup_cons.1 hndB).1 (heq ▸ hcB)
      rwa [Cell, hother c hcl hcr fun heq ↦ absurd heq hcb]
  · rw [hls]
    rcases hc'.next hr with ⟨rfl, hn0⟩ | ⟨B', kvs', n', rfl, hn0, -⟩
    · rw [if_pos hn0]
      simp
    · rw [if_neg hn0, hc.last]
      simp
  · intro x m hm
    by_cases hxl : x = l
    · subst hxl
      rw [hl₁] at hm
      cases hm
      show n ≠ x
      rcases hc'.next hr with ⟨-, hn0⟩ | ⟨B', kvs', n', rfl, -, -⟩
      · rw [hn0]
        exact (hc.pos x (by simp)).ne
      · exact fun heq ↦ hlB.2 (heq ▸ List.mem_cons_self)
    · by_cases hxr : x = r
      · subst hxr
        rw [hr₁] at hm
        cases hm
        have hne := hc.unlooped x _ hr
        exact hne
      · by_cases hxn : x = n ∧ n ≠ 0
        · obtain ⟨rfl, hn0⟩ := hxn
          rcases hc'.next hr with ⟨-, hn0'⟩ | ⟨B', kvs', n', -, -, hnload⟩
          · exact absurd hn0' hn0
          · have := hc.unlooped x _ hnload
            rw [hnext _ _ _ hn0 hnload] at hm
            cases hm
            exact this
        · rw [hother x hxl hxr fun heq ↦ by_contra fun h0 ↦ hxn ⟨heq, h0⟩] at hm
          exact hc.unlooped x m hm

/-- `merge_leaves` of two neighbours. -/
theorem mergeLeaves_spec {l r n p : ℕ} {kvs kvs' : List (K × V)}
    (hl : s.load l = some (.surface ⟨kvs, r, p⟩)) (hr : s.load r = some (.surface ⟨kvs', n, l⟩))
    (hc : LeafChain s (A ++ l :: r :: B)) :
    ∃ s', s.mergeLeaves l r = some s' ∧
      Reshaped [] s s' [Shape.leaf l kvs, Shape.leaf r kvs'] [Shape.leaf l (kvs ++ kvs')] ∧
      s'.load r = some (.surface ⟨[], n, l⟩) ∧
      ∀ x m, s.load x = some (.interior m) → s'.load x = some (.interior m) := by
  have hc' : LeafChain s ((A ++ [l]) ++ r :: B) := by rwa [List.append_assoc]
  have hlr : r ≠ l := hc.unlooped l _ hl
  have hnr : n ≠ r := hc.unlooped r _ hr
  have hnl : n ≠ l := fun heq ↦ by
    rcases hc'.next hr with ⟨-, hn0⟩ | ⟨B', -, -, rfl, -, -⟩
    · have := hc.pos l (by simp)
      omega
    · have := hc.nodup
      rw [heq, List.nodup_append, List.nodup_cons] at this
      exact this.2.1.1 (by simp)
  -- the state before the leaf behind the two is linked
  let sa := (s.put l (.surface ⟨kvs ++ kvs', n, p⟩)).put r (.surface ⟨[], n, l⟩)
  have hload_n : sa.load n = s.load n := (load_put_ne _ hnr).trans (load_put_ne _ hnl)
  obtain ⟨sc, hsc, hkeep, hlastA, hother, hnext, hls⟩ := exists_relinked (s := sa) (n := n) (x := l)
    ((hc'.next hr).imp And.right fun ⟨_, kvs₀, n₀, _, _, hnload⟩ ↦
      ⟨kvs₀, n₀, r, hload_n.trans hnload⟩)
  have hbelow {x : ℕ} (hxl : x ≠ l) (hxr : x ≠ r) (hxn : x = n → n = 0) : sc.load x = s.load x := by
    rw [hother x hxn, load_put_ne _ hxr, load_put_ne _ hxl]
  have hl' : sc.load l = some (.surface ⟨kvs ++ kvs', n, p⟩) := by
    rw [hother l fun heq ↦ absurd heq.symm hnl, load_put_ne _ hlr.symm, load_put_self]
  have hr' : sc.load r = some (.surface ⟨[], n, l⟩) := by
    rw [hother r fun heq ↦ absurd heq.symm hnr, load_put_self]
  have hn' {kvs₁ : List (K × V)} {n₁ p₁ : ℕ} (hn0 : n ≠ 0)
      (h₁ : s.load n = some (.surface ⟨kvs₁, n₁, p₁⟩)) :
      sc.load n = some (.surface ⟨kvs₁, n₁, l⟩) := by
    rw [hnext _ _ _ hn0 (hload_n.trans h₁)]
  have hkeeps : Extends s sc := ((extends_put _ _).trans (extends_put _ _)).trans hkeep
  refine ⟨sc, ?_, ⟨hkeeps, ?_, fun x ↦ ?_, fun x _ _ hx ↦ ?_, fun A B hc ↦ ?_, rfl⟩, hr', ?_⟩
  · rw [mergeLeaves, surfaceAt_eq hl]
    show Option.bind (s.surfaceAt r) _ = _
    rw [surfaceAt_eq hr]
    by_cases hn0 : n = 0
    · rw [if_pos hn0] at hsc
      exact (if_pos hn0).trans hsc
    · rw [if_neg hn0] at hsc
      exact (if_neg hn0).trans hsc
  · intro t ht
    rw [List.mem_singleton.1 ht]
    exact stored_leaf.2 ⟨n, p, hl'⟩
  · simp only [List.flatMap_cons, List.flatMap_nil, Shape.pages_leaf, List.count_append]
    omega
  · simp only [List.flatMap_cons, List.flatMap_nil, Shape.pages_leaf, List.mem_append,
      List.mem_singleton, List.not_mem_nil, or_false, not_or] at hx
    by_cases hxn : x = n ∧ n ≠ 0
    · obtain ⟨rfl, hn0⟩ := hxn
      rcases hc'.next hr with ⟨-, hn0'⟩ | ⟨B', kvs₀, n₀, -, -, hnload⟩
      · exact absurd hn0' hn0
      · rw [coreAt, coreAt, hn' hn0 hnload, hnload]
        rfl
    · exact coreAt_congr (hbelow hx.1 hx.2 fun heq ↦ by_contra fun h0 ↦ hxn ⟨heq, h0⟩)
  · exact hc.removeAfter hl hr hkeeps.lastAddress hl' hr' (fun _ _ _ hn0 h ↦ hn' hn0 h)
      (fun x hxl hxr hxn ↦ hbelow hxl hxr hxn) hls
  · intro x m hx
    rw [hbelow, hx]
    · rintro rfl
      rw [hl] at hx
      cases hx
    · rintro rfl
      rw [hr] at hx
      cases hx
    · rintro rfl
      by_contra hn0
      rcases hc'.next hr with ⟨-, hn0'⟩ | ⟨B', kvs₀, n₀, -, -, hnload⟩
      · exact hn0 hn0'
      · rw [hnload] at hx
        cases hx

/-! ### The children of a node -/

/-- The page of `w` lists these children. -/
def Lists (s : Btree K V) (w : ℕ) (cs : List (Shape K V h)) : Prop :=
  s.load w = some (.interior ⟨h + 1, Shape.separators cs, cs.map Shape.addr⟩)

/-- The page of `w` lists these children and behind one of them a page without occupants, at
`slot` or behind it. -/
def ListsEmptied (s : Btree K V) (w slot : ℕ) (cs : List (Shape K V h)) : Prop :=
  ∃ pre m post e k, cs = pre ++ m :: post ∧ (slot = pre.length ∨ slot = pre.length + 1) ∧
    s.load w = some (.interior ⟨h + 1, pre.map Shape.maxKey ++ k :: Shape.separators (m :: post),
      pre.map Shape.addr ++ m.addr :: e :: post.map Shape.addr⟩) ∧
    ∃ n, s.load e = some n ∧ n.occupants = 0

/-- A node and its children in the memory. -/
structure Family (s : Btree K V) (w : ℕ) (cs : List (Shape K V h)) : Prop where
  page : Lists s w cs
  stored : ∀ c ∈ cs, Stored s c
  owned : Owned s (w :: cs.flatMap Shape.pages)
  chain : ∃ A B, LeafChain s (A ++ (cs.flatMap Shape.leaves ++ B))

/-- What balancing does to the children of `w`, the one at `slot` being short of occupants. -/
structure Balanced (tr : Traits) (s s' : Btree K V) (w slot : ℕ) (cs cs' : List (Shape K V h))
    (merged : Bool) : Prop where
  reshaped : Reshaped [w] s s' cs cs'
  pairs : cs'.flatMap Shape.pairs = cs.flatMap Shape.pairs
  filled : ∀ c ∈ cs', c.Filled tr (tr.minslots h)
  page : if merged then ListsEmptied s' w slot cs' ∧ cs'.length + 1 = cs.length
    else Lists s' w cs' ∧ cs'.length = cs.length

private theorem Family.two_leaves {w l r : ℕ} {kvs kvs' : List (K × V)}
    {pre post : List (Shape K V 0)}
    (hf : Family s w (pre ++ Shape.leaf l kvs :: Shape.leaf r kvs' :: post)) :
    ∃ n p A B, s.load l = some (.surface ⟨kvs, r, p⟩) ∧ s.load r = some (.surface ⟨kvs', n, l⟩) ∧
      LeafChain s (A ++ l :: r :: B) := by
  obtain ⟨A, B, hc⟩ := hf.chain
  have hc' : LeafChain s ((A ++ pre.flatMap Shape.leaves) ++
      l :: r :: (post.flatMap Shape.leaves ++ B)) := by
    simpa only [List.flatMap_append, List.flatMap_cons, Shape.leaves_leaf, List.append_assoc,
      List.cons_append, List.nil_append] using hc
  obtain ⟨n, p, hl⟩ := hf.stored (Shape.leaf l kvs) (by simp)
  obtain ⟨n', p', hr⟩ := hf.stored (Shape.leaf r kvs') (by simp)
  have hn : r = n := (hc'.linked.cell.unique hl).2
  have hp : l = p' := by
    have hcut := (linked_append.1 hc'.linked).2.2
    exact (hcut.1.unique hr).1
  exact ⟨n', p, _, _, hn ▸ hl, hp ▸ hr, hc'⟩

/-- Two neighbouring leaves that fit one leaf become one. -/
theorem Family.mergeLeaves {w l r slot : ℕ} {kvs kvs' : List (K × V)}
    {pre post : List (Shape K V 0)}
    (hf : Family s w (pre ++ Shape.leaf l kvs :: Shape.leaf r kvs' :: post))
    (hfill : ∀ c ∈ pre ++ post, c.Filled tr (tr.minslots 0))
    (hmin : tr.minslots 0 ≤ kvs.length + kvs'.length)
    (hmax : kvs.length + kvs'.length ≤ tr.slotmax 0) (hkvs' : kvs' ≠ [])
    (hslot : slot = pre.length ∨ slot = pre.length + 1) :
    ∃ s', s.mergeLeaves l r = some s' ∧
      Balanced tr s s' w slot (pre ++ Shape.leaf l kvs :: Shape.leaf r kvs' :: post)
        (pre ++ Shape.leaf l (kvs ++ kvs') :: post) true := by
  obtain ⟨n, p, A, B, hl, hr, hc⟩ := hf.two_leaves
  obtain ⟨s', heq, hre, hempty, hint⟩ := mergeLeaves_spec hl hr hc
  have hctx : Reshaped [] s s' (pre ++ ([Shape.leaf l kvs, Shape.leaf r kvs'] ++ post))
      (pre ++ ([Shape.leaf l (kvs ++ kvs')] ++ post)) :=
    hre.context (fun c hc ↦ hf.stored c (by simp [hc])) (fun c hc ↦ hf.stored c (by simp [hc]))
      (hf.owned.of_count_le fun x ↦ List.count_le_count_cons) fun x hx ↦ absurd hx List.not_mem_nil
  refine ⟨s', heq, hctx.mono (List.nil_subset _), ?_, fun c hcs ↦ ?_, ?_, ?_⟩
  · simp only [List.flatMap_append, List.flatMap_cons, Shape.pairs_leaf, List.append_assoc]
  · rw [List.mem_append, List.mem_cons] at hcs
    rcases hcs with hcs | rfl | hcs
    · exact hfill c (List.mem_append_left _ hcs)
    · exact Shape.filled_leaf.2 ⟨by rwa [List.length_append], by rwa [List.length_append]⟩
    · exact hfill c (List.mem_append_right _ hcs)
  · refine ⟨pre, Shape.leaf l (kvs ++ kvs'), post, r, (Shape.leaf l kvs).maxKey, rfl, hslot, ?_,
      _, hempty, rfl⟩
    rw [hint w _ hf.page, Shape.separators_mid,
      Shape.separators_cons_congr (b := Shape.leaf r kvs') (c := Shape.leaf l (kvs ++ kvs'))
        fun _ ↦ ?_, List.map_append]
    · rfl
    · rw [Shape.maxKey, Shape.maxKey, Shape.pairs_leaf, Shape.pairs_leaf,
        Shape.lastKey_append hkvs']
  · simp only [List.length_append, List.length_cons]
    omega

omit [Inhabited K] in
private theorem count_le_flatMap {c : Shape K V h} {cs : List (Shape K V h)} (x : ℕ) (hc : c ∈ cs) :
    c.pages.count x ≤ (cs.flatMap Shape.pages).count x := by
  obtain ⟨pre, post, rfl⟩ := List.append_of_mem hc
  simp only [Shape.flatMap_mid, List.count_append]
  omega

/-- The other children stay stored while two neighbours and their parent are written. -/
theorem Family.stored_of_only {w : ℕ} {a b c : Shape K V h} {pre post : List (Shape K V h)}
    (hf : Family s w (pre ++ a :: b :: post)) (ho : Only [a.addr, b.addr, w] s s')
    (hc : c ∈ pre ∨ c ∈ post) : Stored s' c := by
  refine (hf.stored c (by simp; tauto)).of_load_eq fun x hx ↦ ho.load x fun hmem ↦ ?_
  have hcount := hf.owned.count x
  simp only [Shape.flatMap_mid, List.flatMap_cons, List.count_cons, List.count_append] at hcount
  have hcx := List.count_pos_iff.2 hx
  have hle : c.pages.count x ≤ (pre.flatMap Shape.pages).count x ∨
      c.pages.count x ≤ (post.flatMap Shape.pages).count x :=
    hc.imp (count_le_flatMap x) (count_le_flatMap x)
  simp only [List.mem_cons, List.not_mem_nil, or_false] at hmem
  rcases hmem with rfl | rfl | rfl
  · have := List.count_pos_iff.2 (Shape.addr_mem_pages a)
    omega
  · have := List.count_pos_iff.2 (Shape.addr_mem_pages b)
    omega
  · rw [if_pos (by simp)] at hcount
    omega

/-- Two neighbours get other occupants and the parent the largest key of the first: nothing but
their pages and that of the parent is written. -/
theorem Family.shift {w slot : ℕ} {a b a' b' : Shape K V h} {pre post : List (Shape K V h)}
    (hf : Family s w (pre ++ a :: b :: post))
    (hfill : ∀ c ∈ pre ++ post, c.Filled tr (tr.minslots h))
    (haddr : a'.addr = a.addr) (haddr' : b'.addr = b.addr)
    (hpairs : a'.pairs ++ b'.pairs = a.pairs ++ b.pairs) (hmax : b'.maxKey = b.maxKey)
    (hpages : ∀ x, a'.pages.count x + b'.pages.count x = a.pages.count x + b.pages.count x)
    (hleaves : a'.leaves ++ b'.leaves = a.leaves ++ b.leaves)
    (hfa : a'.Filled tr (tr.minslots h)) (hfb : b'.Filled tr (tr.minslots h))
    (ho : Only [a.addr, b.addr, w] s s') (hsa : Stored s' a') (hsb : Stored s' b')
    (hla : SameLinks s s' a.addr) (hlb : SameLinks s s' b.addr)
    (hw : s'.load w = some (.interior ⟨h + 1,
      (Shape.separators (pre ++ a :: b :: post)).set pre.length a'.maxKey,
      (pre ++ a :: b :: post).map Shape.addr⟩)) :
    Balanced tr s s' w slot (pre ++ a :: b :: post) (pre ++ a' :: b' :: post) false := by
  refine ⟨ho.reshaped ?_ ?_ ?_ ?_ ?_, ?_, ?_, ?_, ?_⟩
  · intro c hc
    rw [List.mem_append, List.mem_cons, List.mem_cons] at hc
    rcases hc with hc | rfl | rfl | hc
    · exact hf.stored_of_only ho (.inl hc)
    · exact hsa
    · exact hsb
    · exact hf.stored_of_only ho (.inr hc)
  · intro x
    have := hpages x
    simp only [Shape.flatMap_mid, List.flatMap_cons, List.count_append]
    omega
  · intro x hx
    simp only [List.mem_cons, List.not_mem_nil, or_false] at hx
    rcases hx with rfl | rfl | rfl
    · exact .inr (List.mem_flatMap.2 ⟨a, by simp, Shape.addr_mem_pages a⟩)
    · exact .inr (List.mem_flatMap.2 ⟨b, by simp, Shape.addr_mem_pages b⟩)
    · exact .inl (List.mem_singleton_self _)
  · intro x hx
    simp only [List.mem_cons, List.not_mem_nil, or_false] at hx
    rcases hx with rfl | rfl | rfl
    · exact hla
    · exact hlb
    · exact .interior hf.page hw
  · simp only [Shape.flatMap_mid, List.flatMap_cons]
    rw [← List.append_assoc a'.leaves, hleaves, List.append_assoc]
  · simp only [Shape.flatMap_mid, List.flatMap_cons]
    rw [← List.append_assoc a'.pairs, hpairs, List.append_assoc]
  · intro c hc
    rw [List.mem_append, List.mem_cons, List.mem_cons] at hc
    rcases hc with hc | rfl | rfl | hc
    · exact hfill c (List.mem_append_left _ hc)
    · exact hfa
    · exact hfb
    · exact hfill c (List.mem_append_right _ hc)
  · show s'.load w = _
    rw [hw, Shape.separators_set fun _ ↦ hmax]
    simp only [List.map_append, List.map_cons, haddr, haddr']
  · simp only [List.length_append, List.length_cons]

/-! ### Pairs and children are shifted -/

omit [Inhabited K] in
/-- Three pages are written. -/
theorem only_put₃ {x y z : ℕ} (m m' m'' : Node K V) :
    Only [x, y, z] s (((s.put x m).put y m').put z m'') :=
  (((only_put x m).mono (by simp)).trans ((only_put y m').mono (by simp))).trans
    ((only_put z m'').mono (by simp))

omit [Inhabited K] in
private theorem load_put₃ {x y z : ℕ} (hxy : x ≠ y) (hxz : x ≠ z) (hyz : y ≠ z)
    (m m' m'' : Node K V) :
    (((s.put x m).put y m').put z m'').load x = some m ∧
      (((s.put x m).put y m').put z m'').load y = some m' ∧
      (((s.put x m).put y m').put z m'').load z = some m'' := by
  refine ⟨?_, ?_, load_put_self _ _⟩
  · rw [load_put_ne _ hxz, load_put_ne _ hxy, load_put_self]
  · rw [load_put_ne _ hyz, load_put_self]

/-- Two neighbours and their parent are different pages. -/
theorem Family.ne {w : ℕ} {a b : Shape K V h} {pre post : List (Shape K V h)}
    (hf : Family s w (pre ++ a :: b :: post)) :
    a.addr ≠ b.addr ∧ a.addr ≠ w ∧ b.addr ≠ w := by
  have hcount (x : ℕ) := hf.owned.count x
  simp only [Shape.flatMap_mid, List.flatMap_cons, List.count_cons, List.count_append] at hcount
  have ha := List.count_pos_iff.2 (Shape.addr_mem_pages a)
  have hb := List.count_pos_iff.2 (Shape.addr_mem_pages b)
  refine ⟨fun heq ↦ ?_, fun heq ↦ ?_, fun heq ↦ ?_⟩
  · have := hcount b.addr
    rw [heq] at ha
    omega
  · have := hcount a.addr
    rw [if_pos (by simp [heq])] at this
    omega
  · have := hcount b.addr
    rw [if_pos (by simp [heq])] at this
    omega

private theorem Family.interior {w : ℕ} {cs : List (Shape K V h)} (hf : Family s w cs) :
    s.interiorAt w = some ⟨h + 1, Shape.separators cs, cs.map Shape.addr⟩ := interiorAt_eq hf.page

/-- `shift_left_surface` of a leaf that has one pair too few and one that has more than it needs. -/
theorem Family.shiftLeftSurface {w l r slot : ℕ} {kvs kvs' : List (K × V)}
    {pre post : List (Shape K V 0)}
    (hf : Family s w (pre ++ Shape.leaf l kvs :: Shape.leaf r kvs' :: post))
    (hfill : ∀ c ∈ pre ++ post, c.Filled tr (tr.minslots 0))
    (hfew : kvs.length < tr.minslots 0) (hlo : tr.minslots 0 ≤ kvs.length + 1)
    (hmany : tr.minslots 0 < kvs'.length) (hmax : kvs'.length ≤ tr.slotmax 0) :
    ∃ s' cs', s.shiftLeftSurface l r w pre.length = some (s', none) ∧
      Balanced tr s s' w slot (pre ++ Shape.leaf l kvs :: Shape.leaf r kvs' :: post) cs' false := by
  obtain ⟨n, p, A, B, hl, hr, -⟩ := hf.two_leaves
  obtain ⟨hlr, hlw, hrw⟩ := hf.ne
  obtain ⟨m, hm⟩ : ∃ m, (kvs'.length - kvs.length) / 2 = m := ⟨_, rfl⟩
  have htake : kvs'.take m ++ kvs'.drop m = kvs' := List.take_append_drop m kvs'
  have hdrop : kvs'.drop m ≠ [] := List.ne_nil_of_length_pos (by rw [List.length_drop]; omega)
  have hkey : pre.length < (Shape.separators
      (pre ++ Shape.leaf l kvs :: Shape.leaf r kvs' :: post)).length := by
    rw [Shape.length_separators, List.length_append, List.length_cons, List.length_cons]
    omega
  obtain ⟨hl', hr', hw'⟩ := load_put₃ (s := s) hlr hlw hrw
    (.surface ⟨kvs ++ kvs'.take m, r, p⟩) (.surface ⟨kvs'.drop m, n, l⟩)
    (.interior ⟨1, (Shape.separators (pre ++ Shape.leaf l kvs :: Shape.leaf r kvs' :: post)).set
      pre.length (lastKey (kvs ++ kvs'.take m)),
      (pre ++ Shape.leaf l kvs :: Shape.leaf r kvs' :: post).map Shape.addr⟩)
  refine ⟨_, pre ++ Shape.leaf l (kvs ++ kvs'.take m) :: Shape.leaf r (kvs'.drop m) :: post, ?_,
    hf.shift hfill rfl rfl ?_ ?_ (fun _ ↦ rfl) rfl ?_ ?_ (only_put₃ _ _ _) ⟨r, p, hl'⟩ ⟨n, l, hr'⟩
      (.inr ⟨_, _, _, _, hl, hl'⟩) (.inr ⟨_, _, _, _, hr, hr'⟩) hw'⟩
  · rw [Btree.shiftLeftSurface, surfaceAt_eq hl]
    show Option.bind (s.surfaceAt r) _ = _
    rw [surfaceAt_eq hr]
    show Option.bind (s.interiorAt w) _ = _
    rw [hf.interior]
    dsimp only [Option.bind_some]
    rw [if_pos hkey, hm]
    rfl
  · simp only [Shape.pairs_leaf, List.append_assoc, htake]
  · rw [Shape.maxKey, Shape.maxKey, Shape.pairs_leaf, Shape.pairs_leaf]
    conv_rhs => rw [← htake, Shape.lastKey_append hdrop]
  · rw [Shape.filled_leaf, List.length_append, List.length_take]
    omega
  · rw [Shape.filled_leaf, List.length_drop]
    omega

/-- `shift_right_surface` of a leaf that has more pairs than it needs and one that has too few. -/
theorem Family.shiftRightSurface {w l r slot : ℕ} {kvs kvs' : List (K × V)}
    {pre post : List (Shape K V 0)}
    (hf : Family s w (pre ++ Shape.leaf l kvs :: Shape.leaf r kvs' :: post))
    (hfill : ∀ c ∈ pre ++ post, c.Filled tr (tr.minslots 0))
    (hfew : kvs'.length < tr.minslots 0) (hlo : tr.minslots 0 ≤ kvs'.length + 1) (hne : kvs' ≠ [])
    (hmany : tr.minslots 0 < kvs.length) (hmax : kvs.length ≤ tr.slotmax 0) :
    ∃ s' cs', s.shiftRightSurface l r w pre.length = some s' ∧
      Balanced tr s s' w slot (pre ++ Shape.leaf l kvs :: Shape.leaf r kvs' :: post) cs' false := by
  obtain ⟨n, p, A, B, hl, hr, -⟩ := hf.two_leaves
  obtain ⟨hlr, hlw, hrw⟩ := hf.ne
  obtain ⟨m, hm⟩ : ∃ m, kvs.length - (kvs.length - kvs'.length) / 2 = m := ⟨_, rfl⟩
  have htake : kvs.take m ++ kvs.drop m = kvs := List.take_append_drop m kvs
  obtain ⟨hr', hl', hw'⟩ := load_put₃ (s := s) hlr.symm hrw hlw
    (.surface ⟨kvs.drop m ++ kvs', n, l⟩) (.surface ⟨kvs.take m, r, p⟩)
    (.interior ⟨1, (Shape.separators (pre ++ Shape.leaf l kvs :: Shape.leaf r kvs' :: post)).set
      pre.length (lastKey (kvs.take m)),
      (pre ++ Shape.leaf l kvs :: Shape.leaf r kvs' :: post).map Shape.addr⟩)
  refine ⟨_, pre ++ Shape.leaf l (kvs.take m) :: Shape.leaf r (kvs.drop m ++ kvs') :: post, ?_,
    hf.shift hfill rfl rfl ?_ ?_ (fun _ ↦ rfl) rfl ?_ ?_ ((only_put₃ _ _ _).mono ?_) ⟨r, p, hl'⟩
      ⟨n, l, hr'⟩ (.inr ⟨_, _, _, _, hl, hl'⟩) (.inr ⟨_, _, _, _, hr, hr'⟩) hw'⟩
  · rw [Btree.shiftRightSurface, surfaceAt_eq hl]
    show Option.bind (s.surfaceAt r) _ = _
    rw [surfaceAt_eq hr]
    show Option.bind (s.interiorAt w) _ = _
    rw [hf.interior]
    dsimp only [Option.bind_some]
    rw [hm]
    rfl
  · simp only [Shape.pairs_leaf, ← List.append_assoc, htake]
  · rw [Shape.maxKey, Shape.maxKey, Shape.pairs_leaf, Shape.pairs_leaf, Shape.lastKey_append hne]
  · rw [Shape.filled_leaf, List.length_take]
    omega
  · rw [Shape.filled_leaf, List.length_append, List.length_drop]
    omega
  · intro x
    simp only [List.mem_cons, Shape.addr_leaf]
    tauto

/-! ### Two interior nodes -/

/-- The children of two neighbours. -/
theorem Family.two_branches {w l r : ℕ} {cs ds : List (Shape K V h)}
    {pre post : List (Shape K V (h + 1))}
    (hf : Family s w (pre ++ Shape.branch l cs :: Shape.branch r ds :: post)) :
    s.load l = some (.interior ⟨h + 1, Shape.separators cs, cs.map Shape.addr⟩) ∧
      s.load r = some (.interior ⟨h + 1, Shape.separators ds, ds.map Shape.addr⟩) ∧
      (∀ c ∈ cs ++ ds, Stored s c) ∧
      ∀ c ∈ cs ++ ds, ∀ x ∈ c.pages, x ≠ l ∧ x ≠ r ∧ x ≠ w := by
  have hl := stored_branch.1 (hf.stored (Shape.branch l cs) (by simp))
  have hr := stored_branch.1 (hf.stored (Shape.branch r ds) (by simp))
  have hcount (x : ℕ) := hf.owned.count x
  simp only [Shape.flatMap_mid, List.flatMap_cons, List.count_cons, List.count_append,
    Shape.pages_branch] at hcount
  refine ⟨hl.1, hr.1, fun c hc ↦ (List.mem_append.1 hc).elim (hl.2 c) (hr.2 c), ?_⟩
  intro c hc x hx
  have hpos := List.count_pos_iff.2 hx
  have hle := count_le_flatMap x hc
  rw [List.flatMap_append, List.count_append] at hle
  have := hcount x
  refine ⟨?_, ?_, ?_⟩
  all_goals
    rintro rfl
    simp only [beq_self_eq_true, if_true] at this
    omega

/-- Children of the two nodes stay stored while the nodes and their parent are written. -/
theorem Stored.of_only {x y z : ℕ} {c : Shape K V h} (hc : Stored s c)
    (ho : Only [x, y, z] s s') (hne : ∀ u ∈ c.pages, u ≠ x ∧ u ≠ y ∧ u ≠ z) : Stored s' c := by
  refine hc.of_load_eq fun u hu ↦ ho.load u fun hmem ↦ ?_
  obtain ⟨hx, hy, hz⟩ := hne u hu
  simp only [List.mem_cons, List.not_mem_nil, or_false] at hmem
  tauto

/-- `merge_interior` of two neighbours whose children fit into one node. -/
theorem Family.mergeInterior {w l r slot : ℕ} {cs ds : List (Shape K V h)}
    {pre post : List (Shape K V (h + 1))}
    (hf : Family s w (pre ++ Shape.branch l cs :: Shape.branch r ds :: post))
    (hfill : ∀ c ∈ pre ++ post, c.Filled tr (tr.minslots (h + 1)))
    (hcs : ∀ c ∈ cs ++ ds, c.Filled tr (tr.minslots h)) (hcsne : cs ≠ []) (hdsne : ds ≠ [])
    (hmin : tr.minslots (h + 1) + 1 ≤ cs.length + ds.length)
    (hmax : cs.length + ds.length ≤ tr.slotmax (h + 1) + 1)
    (hslot : slot = pre.length ∨ slot = pre.length + 1) :
    ∃ s', s.mergeInterior l r w pre.length = some s' ∧
      Balanced tr s s' w slot (pre ++ Shape.branch l cs :: Shape.branch r ds :: post)
        (pre ++ Shape.branch l (cs ++ ds) :: post) true := by
  obtain ⟨hl, hr, hstored, hpages⟩ := hf.two_branches
  obtain ⟨hlr, hlw, hrw⟩ := hf.ne
  simp only [Shape.addr_branch] at hlr hlw hrw
  have hne : ∀ c ∈ cs ++ ds, c.pairs ≠ [] := fun c hc ↦
    (hcs c hc).pairs_ne_nil (le_trans (by decide) (Shape.two_le_minslots tr h))
  have hkeys : Shape.separators cs ++ (Shape.branch l cs).maxKey :: Shape.separators ds =
      Shape.separators (cs ++ ds) :=
    Shape.separators_merge (fun c hc ↦ hne c (List.mem_append_left _ hc)) hcsne hdsne
  obtain ⟨s', hs'⟩ : ∃ s', (s.put l (.interior ⟨h + 1, Shape.separators (cs ++ ds),
      (cs ++ ds).map Shape.addr⟩)).put r (.interior ⟨h + 1, [], ds.map Shape.addr⟩) = s' := ⟨_, rfl⟩
  have ho : Only [l, r, w] s s' := hs' ▸
    ((only_put l _).mono (by simp)).trans ((only_put r _).mono (by simp))
  have hl' : s'.load l = some (.interior ⟨h + 1, Shape.separators (cs ++ ds),
      (cs ++ ds).map Shape.addr⟩) := by rw [← hs', load_put_ne _ hlr, load_put_self]
  have hr' : s'.load r = some (.interior ⟨h + 1, [], ds.map Shape.addr⟩) := by
    rw [← hs', load_put_self]
  have hw' : s'.load w = s.load w := by
    rw [← hs', load_put_ne _ hrw.symm, load_put_ne _ hlw.symm]
  have hmerged : Stored s' (Shape.branch l (cs ++ ds)) :=
    stored_branch.2 ⟨hl', fun c hc ↦ (hstored c hc).of_only ho (hpages c hc)⟩
  refine ⟨s', ?_, ho.reshaped ?_ ?_ ?_ ?_ ?_, ?_, ?_, ?_, ?_⟩
  · rw [Btree.mergeInterior, interiorAt_eq hl]
    show Option.bind (s.interiorAt r) _ = _
    rw [interiorAt_eq hr]
    show Option.bind (s.interiorAt w) _ = _
    rw [hf.interior]
    dsimp only [Option.bind_some]
    rw [Shape.getKey_separators_mid, hkeys, ← List.map_append]
    exact congrArg some hs'
  · intro c hc
    rw [List.mem_append, List.mem_cons] at hc
    rcases hc with hc | rfl | hc
    · exact hf.stored_of_only ho (.inl hc)
    · exact hmerged
    · exact hf.stored_of_only ho (.inr hc)
  · intro x
    simp only [List.flatMap_cons, List.count_append, Shape.pages_branch, List.count_cons,
      List.flatMap_append]
    omega
  · intro x hx
    simp only [List.mem_cons, List.not_mem_nil, or_false] at hx
    rcases hx with rfl | rfl | rfl
    · exact .inr (List.mem_flatMap.2 ⟨Shape.branch x cs, by simp, List.mem_cons_self⟩)
    · exact .inr (List.mem_flatMap.2 ⟨Shape.branch x ds, by simp, List.mem_cons_self⟩)
    · exact .inl (List.mem_singleton_self _)
  · intro x hx
    simp only [List.mem_cons, List.not_mem_nil, or_false] at hx
    rcases hx with rfl | rfl | rfl
    · exact .interior hl hl'
    · exact .interior hr hr'
    · exact .interior hf.page (hw'.trans hf.page)
  · simp only [List.flatMap_cons, Shape.leaves_branch, List.flatMap_append, List.append_assoc]
  · simp only [List.flatMap_cons, Shape.pairs_branch, List.flatMap_append, List.append_assoc]
  · intro c hc
    rw [List.mem_append, List.mem_cons] at hc
    rcases hc with hc | rfl | hc
    · exact hfill c (List.mem_append_left _ hc)
    · exact Shape.filled_branch.2 ⟨by rwa [List.length_append], by rwa [List.length_append], hcs⟩
    · exact hfill c (List.mem_append_right _ hc)
  · have hmaxKey : (Shape.branch r ds).maxKey = (Shape.branch l (cs ++ ds)).maxKey := by
      have hdsp : ds.flatMap Shape.pairs ≠ [] := by
        obtain ⟨d, hd⟩ := List.exists_mem_of_ne_nil _ hdsne
        obtain ⟨p, hp⟩ := List.exists_mem_of_ne_nil _ (hne d (List.mem_append_right _ hd))
        exact List.ne_nil_of_mem (List.mem_flatMap.2 ⟨d, hd, hp⟩)
      rw [Shape.maxKey, Shape.maxKey, Shape.pairs_branch, Shape.pairs_branch, List.flatMap_append,
        Shape.lastKey_append hdsp]
    refine ⟨pre, Shape.branch l (cs ++ ds), post, r, (Shape.branch l cs).maxKey, rfl, hslot, ?_,
      _, hr', rfl⟩
    rw [hw', hf.page, Shape.separators_mid, Shape.separators_cons_congr fun _ ↦ hmaxKey,
      List.map_append]
    rfl
  · simp only [List.length_append, List.length_cons]
    omega

/-- The key between two nodes when children have moved from one to the other. -/
theorem maxKey_branch_take {w : ℕ} {cs : List (Shape K V h)} {m : ℕ}
    (hne : ∀ c ∈ cs, c.pairs ≠ []) (hm : 0 < m) (hlt : m < cs.length) :
    (Shape.branch w (cs.take m)).maxKey = getKey (Shape.separators cs) (m - 1) := by
  obtain ⟨m, rfl⟩ : ∃ i, m = i + 1 := ⟨m - 1, by omega⟩
  rw [List.take_succ_eq_append_getElem (by omega),
    Shape.maxKey_branch_concat (hne _ (List.getElem_mem _)),
    Nat.add_sub_cancel, Shape.getKey_separators hlt]

omit [Inhabited K] in
/-- A child that is filled has pairs. -/
theorem pairs_ne_nil_of_filled {c : Shape K V h} (hc : c.Filled tr (tr.minslots h)) :
    c.pairs ≠ [] := hc.pairs_ne_nil (le_trans (by decide) (Shape.two_le_minslots tr h))

private theorem maxKey_branch_append {w : ℕ} {cs ds : List (Shape K V h)}
    (hne : ∀ c ∈ ds, c.pairs ≠ []) (hds : ds ≠ []) (w' : ℕ) :
    (Shape.branch w (cs ++ ds)).maxKey = (Shape.branch w' ds).maxKey := by
  obtain ⟨ds, d, rfl⟩ := (List.eq_nil_or_concat' ds).resolve_left hds
  have hd := hne d (List.mem_append_right _ (List.mem_singleton_self d))
  rw [← List.append_assoc, Shape.maxKey_branch_concat hd, Shape.maxKey_branch_concat hd]

/-- The children of two neighbours are divided between them in another way. -/
theorem Family.redistribute {w l r slot : ℕ} {cs ds cs' ds' : List (Shape K V h)}
    {pre post : List (Shape K V (h + 1))}
    (hf : Family s w (pre ++ Shape.branch l cs :: Shape.branch r ds :: post))
    (hfill : ∀ c ∈ pre ++ post, c.Filled tr (tr.minslots (h + 1)))
    (hcs : ∀ c ∈ cs ++ ds, c.Filled tr (tr.minslots h)) (heq : cs' ++ ds' = cs ++ ds)
    (hdsne : ds ≠ []) (hmin : tr.minslots (h + 1) + 1 ≤ cs'.length)
    (hmax : cs'.length ≤ tr.slotmax (h + 1) + 1) (hmin' : tr.minslots (h + 1) + 1 ≤ ds'.length)
    (hmax' : ds'.length ≤ tr.slotmax (h + 1) + 1) (ho : Only [l, r, w] s s')
    (hl : s'.load l = some (.interior ⟨h + 1, Shape.separators cs', cs'.map Shape.addr⟩))
    (hr : s'.load r = some (.interior ⟨h + 1, Shape.separators ds', ds'.map Shape.addr⟩))
    (hw : s'.load w = some (.interior ⟨h + 2,
      (Shape.separators (pre ++ Shape.branch l cs :: Shape.branch r ds :: post)).set pre.length
        (Shape.branch l cs').maxKey,
      (pre ++ Shape.branch l cs :: Shape.branch r ds :: post).map Shape.addr⟩)) :
    Balanced tr s s' w slot (pre ++ Shape.branch l cs :: Shape.branch r ds :: post)
      (pre ++ Shape.branch l cs' :: Shape.branch r ds' :: post) false := by
  obtain ⟨hl₀, hr₀, hstored, hpages⟩ := hf.two_branches
  have hsub : ∀ c ∈ cs', c ∈ cs ++ ds := fun c hc ↦ heq ▸ List.mem_append_left _ hc
  have hsub' : ∀ c ∈ ds', c ∈ cs ++ ds := fun c hc ↦ heq ▸ List.mem_append_right _ hc
  have hkept : ∀ c ∈ cs ++ ds, Stored s' c :=
    fun c hc ↦ (hstored c hc).of_only ho (hpages c hc)
  have hdsne' : ds' ≠ [] := List.ne_nil_of_length_pos (by omega)
  have hmaxKey : (Shape.branch r ds').maxKey = (Shape.branch r ds).maxKey := by
    have hpairs (c : Shape K V h) (hc : c ∈ cs ++ ds) := pairs_ne_nil_of_filled (hcs c hc)
    have hmax₁ : (Shape.branch r (cs' ++ ds')).maxKey = (Shape.branch r ds').maxKey :=
      maxKey_branch_append (fun c hc ↦ hpairs c (hsub' c hc)) hdsne' r
    have hmax₀ : (Shape.branch r (cs ++ ds)).maxKey = (Shape.branch r ds).maxKey :=
      maxKey_branch_append (fun c hc ↦ hpairs c (List.mem_append_right _ hc)) hdsne r
    exact hmax₁.symm.trans (heq ▸ hmax₀)
  refine hf.shift hfill rfl rfl ?_ hmaxKey (fun x ↦ ?_) ?_
    (Shape.filled_branch.2 ⟨hmin, hmax, fun c hc ↦ hcs c (hsub c hc)⟩)
    (Shape.filled_branch.2 ⟨hmin', hmax', fun c hc ↦ hcs c (hsub' c hc)⟩) ho
    (stored_branch.2 ⟨hl, fun c hc ↦ hkept c (hsub c hc)⟩)
    (stored_branch.2 ⟨hr, fun c hc ↦ hkept c (hsub' c hc)⟩)
    (.interior hl₀ hl) (.interior hr₀ hr) hw
  · rw [Shape.pairs_branch, Shape.pairs_branch, ← List.flatMap_append, heq, List.flatMap_append]
    rfl
  · have hcount := congrArg (fun l ↦ (l.flatMap Shape.pages).count x) heq
    simp only [List.flatMap_append, List.count_append] at hcount
    simp only [Shape.pages_branch, List.count_cons]
    omega
  · rw [Shape.leaves_branch, Shape.leaves_branch, ← List.flatMap_append, heq, List.flatMap_append]
    rfl

/-- `shift_left_interior` of a node that has one child too few and one that has more than it
needs. -/
theorem Family.shiftLeftInterior {w l r slot : ℕ} {cs ds : List (Shape K V h)}
    {pre post : List (Shape K V (h + 1))}
    (hf : Family s w (pre ++ Shape.branch l cs :: Shape.branch r ds :: post))
    (hfill : ∀ c ∈ pre ++ post, c.Filled tr (tr.minslots (h + 1)))
    (hcs : ∀ c ∈ cs ++ ds, c.Filled tr (tr.minslots h))
    (hfew : cs.length < tr.minslots (h + 1) + 1) (hlo : tr.minslots (h + 1) ≤ cs.length)
    (hmany : tr.minslots (h + 1) + 1 < ds.length) (hmax : ds.length ≤ tr.slotmax (h + 1) + 1) :
    ∃ s' cs', s.shiftLeftInterior l r w pre.length = some s' ∧
      Balanced tr s s' w slot
        (pre ++ Shape.branch l cs :: Shape.branch r ds :: post) cs' false := by
  obtain ⟨hl, hr, -, -⟩ := hf.two_branches
  obtain ⟨hlr, hlw, hrw⟩ := hf.ne
  simp only [Shape.addr_branch] at hlr hlw hrw
  have htwo := Shape.two_le_minslots tr (h + 1)
  obtain ⟨m, hm⟩ : ∃ m, (ds.length - 1 - (cs.length - 1)) / 2 = m := ⟨_, rfl⟩
  have hne : ∀ c ∈ cs ++ ds, c.pairs ≠ [] := fun c hc ↦ pairs_ne_nil_of_filled (hcs c hc)
  have htakene : ds.take m ≠ [] := List.ne_nil_of_length_pos (by rw [List.length_take]; omega)
  have hcsne : cs ≠ [] := List.ne_nil_of_length_pos (by omega)
  have hsub : ∀ c ∈ ds.take m, c ∈ cs ++ ds :=
    fun c hc ↦ List.mem_append_right _ (List.mem_of_mem_take hc)
  have hkeys : Shape.separators cs ++ (Shape.branch l cs).maxKey ::
      (Shape.separators ds).take (m - 1) = Shape.separators (cs ++ ds.take m) := by
    rw [← Shape.separators_merge (fun c hc ↦ hne c (List.mem_append_left _ hc)) hcsne htakene,
      ← Shape.separators_take (by omega), Nat.sub_add_cancel (by omega)]
  have hkey : getKey (Shape.separators ds) (m - 1) = (Shape.branch l (cs ++ ds.take m)).maxKey := by
    rw [maxKey_branch_append (fun c hc ↦ hne c (hsub c hc)) htakene r,
      maxKey_branch_take (fun c hc ↦ hne c (List.mem_append_right _ hc)) (by omega) (by omega)]
  obtain ⟨hl', hr', hw'⟩ := load_put₃ (s := s) hlr hlw hrw
    (.interior ⟨h + 1, Shape.separators (cs ++ ds.take m), (cs ++ ds.take m).map Shape.addr⟩)
    (.interior ⟨h + 1, Shape.separators (ds.drop m), (ds.drop m).map Shape.addr⟩)
    (.interior ⟨h + 2, (Shape.separators
      (pre ++ Shape.branch l cs :: Shape.branch r ds :: post)).set pre.length
        (Shape.branch l (cs ++ ds.take m)).maxKey,
      (pre ++ Shape.branch l cs :: Shape.branch r ds :: post).map Shape.addr⟩)
  have hlen : (cs ++ ds.take m).length = cs.length + m := by
    rw [List.length_append, List.length_take]
    omega
  have hlen' : (ds.drop m).length = ds.length - m := List.length_drop
  refine ⟨_, _, ?_, hf.redistribute hfill hcs ?_ (List.ne_nil_of_length_pos (by omega)) (by omega)
    (by omega) (by omega) (by omega) (only_put₃ _ _ _) hl' hr' hw'⟩
  · rw [Btree.shiftLeftInterior, interiorAt_eq hl]
    show Option.bind (s.interiorAt r) _ = _
    rw [interiorAt_eq hr]
    show Option.bind (s.interiorAt w) _ = _
    rw [hf.interior]
    dsimp only [Option.bind_some]
    rw [Shape.length_separators, Shape.length_separators, hm, Shape.getKey_separators_mid, hkeys,
      hkey, ← List.map_take, ← List.map_append, ← List.map_drop, ← Shape.separators_drop]
    rfl
  · rw [List.append_assoc, List.take_append_drop]

/-- `shift_right_interior` of a node that has more children than it needs and one that has one too
few. -/
theorem Family.shiftRightInterior {w l r slot : ℕ} {cs ds : List (Shape K V h)}
    {pre post : List (Shape K V (h + 1))}
    (hf : Family s w (pre ++ Shape.branch l cs :: Shape.branch r ds :: post))
    (hfill : ∀ c ∈ pre ++ post, c.Filled tr (tr.minslots (h + 1)))
    (hcs : ∀ c ∈ cs ++ ds, c.Filled tr (tr.minslots h))
    (hfew : ds.length < tr.minslots (h + 1) + 1) (hlo : tr.minslots (h + 1) ≤ ds.length)
    (hmany : tr.minslots (h + 1) + 1 < cs.length) (hmax : cs.length ≤ tr.slotmax (h + 1) + 1) :
    ∃ s' cs', s.shiftRightInterior l r w pre.length = some s' ∧
      Balanced tr s s' w slot
        (pre ++ Shape.branch l cs :: Shape.branch r ds :: post) cs' false := by
  obtain ⟨hl, hr, -, -⟩ := hf.two_branches
  obtain ⟨hlr, hlw, hrw⟩ := hf.ne
  simp only [Shape.addr_branch] at hlr hlw hrw
  have htwo := Shape.two_le_minslots tr (h + 1)
  obtain ⟨m, hm⟩ : ∃ m, cs.length - 1 - (cs.length - 1 - (ds.length - 1)) / 2 = m := ⟨_, rfl⟩
  have hne : ∀ c ∈ cs ++ ds, c.pairs ≠ [] := fun c hc ↦ pairs_ne_nil_of_filled (hcs c hc)
  have hdropne : cs.drop (m + 1) ≠ [] :=
    List.ne_nil_of_length_pos (by rw [List.length_drop]; omega)
  have hdsne : ds ≠ [] := List.ne_nil_of_length_pos (by omega)
  have hsub : ∀ c ∈ cs.drop (m + 1), c ∈ cs ++ ds :=
    fun c hc ↦ List.mem_append_left _ (List.mem_of_mem_drop hc)
  have hparent : (Shape.branch l cs).maxKey = (Shape.branch l (cs.drop (m + 1))).maxKey := by
    conv_lhs => rw [← List.take_append_drop (m + 1) cs]
    rw [maxKey_branch_append (fun c hc ↦ hne c (hsub c hc)) hdropne l]
  have hkeys : (Shape.separators cs).drop (m + 1) ++
      (Shape.branch l cs).maxKey :: Shape.separators ds =
        Shape.separators (cs.drop (m + 1) ++ ds) := by
    rw [hparent, ← Shape.separators_drop,
      Shape.separators_merge (fun c hc ↦ hne c (hsub c hc)) hdropne hdsne]
  have hkey : getKey (Shape.separators cs) m = (Shape.branch l (cs.take (m + 1))).maxKey := by
    rw [maxKey_branch_take (fun c hc ↦ hne c (List.mem_append_left _ hc)) (by omega) (by omega),
      Nat.add_sub_cancel]
  obtain ⟨hr', hl', hw'⟩ := load_put₃ (s := s) hlr.symm hrw hlw
    (.interior ⟨h + 1, Shape.separators (cs.drop (m + 1) ++ ds),
      (cs.drop (m + 1) ++ ds).map Shape.addr⟩)
    (.interior ⟨h + 1, Shape.separators (cs.take (m + 1)), (cs.take (m + 1)).map Shape.addr⟩)
    (.interior ⟨h + 2, (Shape.separators
      (pre ++ Shape.branch l cs :: Shape.branch r ds :: post)).set pre.length
        (Shape.branch l (cs.take (m + 1))).maxKey,
      (pre ++ Shape.branch l cs :: Shape.branch r ds :: post).map Shape.addr⟩)
  have hlen : (cs.take (m + 1)).length = m + 1 := by
    rw [List.length_take]
    omega
  have hlen' : (cs.drop (m + 1) ++ ds).length = cs.length - (m + 1) + ds.length := by
    rw [List.length_append, List.length_drop]
  refine ⟨_, _, ?_, hf.redistribute hfill hcs ?_ hdsne (by omega) (by omega) (by omega) (by omega)
    ((only_put₃ _ _ _).mono fun x hx ↦ ?_) hl' hr' hw'⟩
  · rw [Btree.shiftRightInterior, interiorAt_eq hl]
    show Option.bind (s.interiorAt r) _ = _
    rw [interiorAt_eq hr]
    show Option.bind (s.interiorAt w) _ = _
    rw [hf.interior]
    dsimp only [Option.bind_some]
    rw [Shape.length_separators, Shape.length_separators, hm, Shape.getKey_separators_mid, hkeys,
      hkey, ← List.map_take, ← List.map_drop, ← List.map_append, ← Shape.separators_take (by omega)]
    rfl
  · rw [← List.append_assoc, List.take_append_drop]
  · simp only [List.mem_cons] at hx ⊢
    tauto

end LibSpaces.Stx.Btree
