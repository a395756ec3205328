import LibSpaces.Stx.Operations

/-!
# The shape of a B+ tree

A `Shape` is what the pages below a node add up to. All leaves lie at the same depth by its
type; the keys of an interior node are read off its children: the largest key below each child
but the last. A search descends to the one child around its key.
-/

namespace LibSpaces.Stx

open LibSpaces.Base

/-- A leaf: its address and its pairs. -/
structure Leaf (K V : Type) where
  addr : ℕ
  kvs : List (K × V)

/-- An interior node over children of type `C`. -/
structure Branch (C : Type) where
  addr : ℕ
  children : List C

/-- A tree of height `h`. -/
def Shape (K V : Type) : ℕ → Type
  | 0 => Leaf K V
  | h + 1 => Branch (Shape K V h)

namespace Shape

variable {K V : Type} {h : ℕ}

/-- A leaf with its address and pairs. -/
def leaf (w : ℕ) (kvs : List (K × V)) : Shape K V 0 := Leaf.mk w kvs

/-- A node over several children. -/
def branch (w : ℕ) (cs : List (Shape K V h)) : Shape K V (h + 1) := Branch.mk w cs

/-- The address of the uppermost node. -/
def addr : {h : ℕ} → Shape K V h → ℕ
  | 0, t => Leaf.addr t
  | _ + 1, t => Branch.addr t

/-- The pairs, in the order of the leaves. -/
def pairs : {h : ℕ} → Shape K V h → List (K × V)
  | 0, t => Leaf.kvs t
  | _ + 1, t => (Branch.children t).flatMap pairs

/-- The addresses of the leaves. -/
def leaves : {h : ℕ} → Shape K V h → List ℕ
  | 0, t => [Leaf.addr t]
  | _ + 1, t => (Branch.children t).flatMap leaves

/-- The addresses of all nodes. -/
def pages : {h : ℕ} → Shape K V h → List ℕ
  | 0, t => [Leaf.addr t]
  | _ + 1, t => Branch.addr t :: (Branch.children t).flatMap pages

/-- Every node has at least its minimum of occupants, the topmost one at least `lo`, and none
more than fit. -/
def Filled (tr : Traits) : {h : ℕ} → ℕ → Shape K V h → Prop
  | 0, lo, t => lo ≤ (Leaf.kvs t).length ∧ (Leaf.kvs t).length ≤ tr.slotmax 0
  | h + 1, lo, t => lo + 1 ≤ (Branch.children t).length ∧
      (Branch.children t).length ≤ tr.slotmax (h + 1) + 1 ∧
      ∀ c ∈ Branch.children t, Filled tr (tr.minslots h) c

variable {w : ℕ} {kvs : List (K × V)} {cs pre post : List (Shape K V h)} {t c : Shape K V h}
  {tr : Traits} {lo : ℕ}

/-- The address of a leaf. -/
@[simp] theorem addr_leaf : (leaf w kvs).addr = w := rfl

/-- The address of a branch. -/
@[simp] theorem addr_branch : (branch w cs).addr = w := rfl

/-- The pairs of a leaf. -/
@[simp] theorem pairs_leaf : (leaf w kvs).pairs = kvs := rfl

/-- The pairs of a branch are those of its children. -/
@[simp] theorem pairs_branch : (branch w cs).pairs = cs.flatMap pairs := rfl

/-- A leaf is its only leaf. -/
@[simp] theorem leaves_leaf : (leaf w kvs).leaves = [w] := rfl

/-- The leaves of a branch are those of its children. -/
@[simp] theorem leaves_branch : (branch w cs).leaves = cs.flatMap leaves := rfl

/-- A leaf has one page. -/
@[simp] theorem pages_leaf : (leaf w kvs).pages = [w] := rfl

/-- A branch has its own page and those of its children. -/
@[simp] theorem pages_branch : (branch w cs).pages = w :: cs.flatMap pages := rfl

/-- A shape of height 0 is a leaf. -/
theorem exists_leaf (t : Shape K V 0) : ∃ w kvs, t = leaf w kvs := ⟨_, _, rfl⟩

/-- Every other shape is a branch. -/
theorem exists_branch (t : Shape K V (h + 1)) : ∃ w cs, t = branch w cs := ⟨_, _, rfl⟩

/-- A leaf is filled by its number of pairs. -/
theorem filled_leaf : Filled tr lo (leaf w kvs) ↔
    lo ≤ kvs.length ∧ kvs.length ≤ tr.slotmax 0 := Iff.rfl

/-- A branch is filled by its number of children, each of them filled. -/
theorem filled_branch : Filled tr lo (branch w cs) ↔ lo + 1 ≤ cs.length ∧
    cs.length ≤ tr.slotmax (h + 1) + 1 ∧ ∀ c ∈ cs, Filled tr (tr.minslots h) c := Iff.rfl

/-- The address is one of the pages. -/
theorem addr_mem_pages (t : Shape K V h) : t.addr ∈ t.pages := by
  cases h with
  | zero => exact List.mem_singleton_self _
  | succ h => exact List.mem_cons_self

/-- The leaves are pages. -/
theorem leaves_subset_pages (t : Shape K V h) : t.leaves ⊆ t.pages := by
  induction h with
  | zero => exact List.Subset.refl _
  | succ h ih =>
    intro w hw
    obtain ⟨c, hc, hwc⟩ := List.mem_flatMap.1 hw
    exact List.mem_cons_of_mem _ (List.mem_flatMap.2 ⟨c, hc, ih c hwc⟩)

/-- So are those of several shapes. -/
theorem flatMap_leaves_subset (cs : List (Shape K V h)) : cs.flatMap leaves ⊆ cs.flatMap pages := by
  intro w hw
  obtain ⟨c, hc, hwc⟩ := List.mem_flatMap.1 hw
  exact List.mem_flatMap.2 ⟨c, hc, leaves_subset_pages c hwc⟩

/-- A node below the root has two occupants at least. -/
theorem two_le_minslots (tr : Traits) (h : ℕ) : 2 ≤ tr.minslots h := by
  have := tr.four_le_slotmax h
  rw [Traits.minslots]
  omega

/-- A shape is filled for every lower bound below its own. -/
theorem Filled.mono {lo' : ℕ} (ht : Filled tr lo t) (hle : lo' ≤ lo) : Filled tr lo' t := by
  cases h with
  | zero => exact ⟨hle.trans ht.1, ht.2⟩
  | succ h => exact ⟨(Nat.succ_le_succ hle).trans ht.1, ht.2⟩

/-- A filled shape has pairs. -/
theorem Filled.pairs_ne_nil (ht : Filled tr lo t) (hlo : 1 ≤ lo) : t.pairs ≠ [] := by
  induction h generalizing lo with
  | zero => exact List.ne_nil_of_length_pos (hlo.trans ht.1)
  | succ h ih =>
    obtain ⟨w, cs⟩ := t
    obtain ⟨hlen, -, hcs⟩ := ht
    obtain ⟨c, cs, rfl⟩ := List.exists_cons_of_length_pos (Nat.lt_of_lt_of_le (Nat.succ_pos _) hlen)
    have hc : c.pairs ≠ [] :=
      ih (hcs c List.mem_cons_self) (le_trans (by decide) (two_le_minslots tr h))
    intro hnil
    exact hc (List.append_eq_nil_iff.1 (show c.pairs ++ cs.flatMap pairs = [] from hnil)).1

/-! ### The children of an interior node -/

/-- What is collected from the children, one of them taken apart. -/
theorem flatMap_mid {α : Type} (f : Shape K V h → List α) (pre : List (Shape K V h))
    (c : Shape K V h) (post : List (Shape K V h)) :
    (pre ++ c :: post).flatMap f = pre.flatMap f ++ (f c ++ post.flatMap f) := by
  rw [List.flatMap_append, List.flatMap_cons]

/-- The children around the one a search descends to. -/
structure Around (cs : List (Shape K V h)) (slot : ℕ) (pre : List (Shape K V h))
    (c : Shape K V h) (post : List (Shape K V h)) : Prop where
  eq : cs = pre ++ c :: post
  slot : pre.length = slot

/-- The slot of a child has its address. -/
theorem Around.getD_addr {slot : ℕ} (ha : Around cs slot pre c post) :
    (cs.map addr).getD slot 0 = c.addr := by
  rw [ha.eq, ← ha.slot, List.map_append, List.getD_append_right _ _ _ _ (by rw [List.length_map]),
    List.length_map, Nat.sub_self]
  rfl

section Keys

variable [Inhabited K]

/-- The largest key. -/
def maxKey (t : Shape K V h) : K := lastKey t.pairs

/-- The keys of an interior node with these children. -/
def separators (cs : List (Shape K V h)) : List K := cs.dropLast.map maxKey

/-- There is one separator less than children. -/
theorem length_separators (cs : List (Shape K V h)) : (separators cs).length = cs.length - 1 := by
  rw [separators, List.length_map, List.length_dropLast]

/-- The separators of two groups, with the largest key of the first group between them. -/
theorem separators_append (hpost : post ≠ []) :
    separators (pre ++ post) = pre.map maxKey ++ separators post := by
  rw [separators, List.dropLast_append_of_ne_nil hpost, List.map_append, separators]

private theorem separators_cons (hcs : cs ≠ []) :
    separators (c :: cs) = c.maxKey :: separators cs := by
  rw [separators, List.dropLast_cons_of_ne_nil hcs, List.map_cons, separators]

/-- The separator between two neighbouring children. -/
theorem separators_mid (pre : List (Shape K V h)) (c d : Shape K V h) (post : List (Shape K V h)) :
    separators (pre ++ c :: d :: post) = pre.map maxKey ++ c.maxKey :: separators (d :: post) := by
  rw [separators_append (List.cons_ne_nil _ _), separators_cons (List.cons_ne_nil _ _)]

/-- The last child leaves no key. -/
theorem separators_cons_congr {b : Shape K V h} (hmax : post ≠ [] → b.maxKey = c.maxKey) :
    separators (b :: post) = separators (c :: post) := by
  cases post with
  | nil => rfl
  | cons d post =>
    rw [separators_cons (List.cons_ne_nil _ _), separators_cons (List.cons_ne_nil _ _),
      hmax (List.cons_ne_nil _ _)]

/-- A child may be replaced by one with the same largest key. -/
theorem separators_congr {b : Shape K V h} (hmax : post ≠ [] → b.maxKey = c.maxKey) :
    separators (pre ++ b :: post) = separators (pre ++ c :: post) := by
  rw [separators_append (List.cons_ne_nil _ _), separators_append (List.cons_ne_nil _ _),
    separators_cons_congr hmax]

/-- A child split in two leaves one more key. -/
theorem separators_insertIdx {a b : Shape K V h} (hmax : post ≠ [] → b.maxKey = c.maxKey) :
    (separators (pre ++ c :: post)).insertIdx pre.length a.maxKey =
      separators (pre ++ a :: b :: post) := by
  rw [separators_mid, ← separators_congr hmax, separators_append (List.cons_ne_nil _ _),
    ← List.length_map (f := maxKey), insertIdx_length_append]

/-- The key between two neighbours is written. -/
theorem separators_set {a b a' b' : Shape K V h} (hmax : post ≠ [] → b'.maxKey = b.maxKey) :
    (separators (pre ++ a :: b :: post)).set pre.length a'.maxKey =
      separators (pre ++ a' :: b' :: post) := by
  rw [separators_mid, separators_mid, separators_cons_congr hmax, ← List.length_map (f := maxKey),
    set_length_append]

/-- The separators of the first children. -/
theorem separators_take {m : ℕ} (hm : m < cs.length) :
    separators (cs.take (m + 1)) = (separators cs).take m := by
  rw [separators, separators, ← List.map_take, List.dropLast_eq_take, List.dropLast_eq_take,
    List.take_take, List.take_take, List.length_take]
  congr 2
  omega

/-- The separators of the last children. -/
theorem separators_drop {m : ℕ} : separators (cs.drop m) = (separators cs).drop m := by
  rw [separators, separators, ← List.map_drop, List.dropLast_eq_take, List.dropLast_eq_take,
    List.drop_take, List.length_drop]
  congr 2
  omega

private theorem lastKey_concat (A : List (K × V)) (p : K × V) : lastKey (A ++ [p]) = p.1 := by
  rw [lastKey, getKey, List.length_append, List.length_singleton, Nat.add_sub_cancel,
    List.map_append, List.getD_append_right _ _ _ _ (by rw [List.length_map]), List.length_map,
    Nat.sub_self]
  rfl

/-- The last key is the one of the second part. -/
theorem lastKey_append {A B : List (K × V)} (hB : B ≠ []) : lastKey (A ++ B) = lastKey B := by
  obtain ⟨B, b, rfl⟩ := (List.eq_nil_or_concat' B).resolve_left hB
  rw [← List.append_assoc, lastKey_concat, lastKey_concat]

/-- The last key belongs to a pair. -/
theorem exists_lastKey (hkvs : kvs ≠ []) : ∃ p ∈ kvs, p.1 = lastKey kvs := by
  obtain ⟨A, p, rfl⟩ := (List.eq_nil_or_concat' kvs).resolve_left hkvs
  exact ⟨p, List.mem_append_right _ (List.mem_singleton_self p), (lastKey_concat A p).symm⟩

/-- The largest key of a branch is the one of its last child. -/
theorem maxKey_branch_concat (hc : c.pairs ≠ []) :
    (branch w (cs ++ [c])).maxKey = c.maxKey := by
  rw [maxKey, pairs_branch, List.flatMap_append, List.flatMap_singleton, lastKey_append hc, maxKey]

/-- A separator is the largest key of the child before it. -/
theorem getKey_separators {i : ℕ} (hi : i + 1 < cs.length) :
    getKey (separators cs) i = (cs[i]).maxKey := by
  have hlen : i < (separators cs).length := by rw [length_separators]; omega
  rw [getKey, List.getD_eq_getElem _ _ hlen]
  simp only [separators, List.getElem_map, List.getElem_dropLast]

private theorem exists_around {slot : ℕ} (hcs : cs ≠ []) (hslot : slot ≤ (separators cs).length) :
    ∃ pre c post, Around cs slot pre c post := by
  have hpos := List.length_pos_of_ne_nil hcs
  rw [length_separators] at hslot
  have hlt : slot < cs.length := by omega
  refine ⟨cs.take slot, cs[slot], cs.drop (slot + 1), ?_, ?_⟩
  · rw [← List.drop_eq_getElem_cons hlt, List.take_append_drop]
  · rw [List.length_take, min_eq_left hlt.le]

private theorem Around.maxKey_pre {slot : ℕ} (ha : Around cs slot pre c post) {d : Shape K V h}
    (hd : d ∈ pre) : ∃ i < slot, getKey (separators cs) i = d.maxKey := by
  obtain ⟨i, hi, rfl⟩ := List.getElem_of_mem hd
  have hslot := ha.slot
  have hlen : cs.length = pre.length + (post.length + 1) := by
    rw [ha.eq, List.length_append, List.length_cons]
  refine ⟨i, by omega, ?_⟩
  rw [getKey_separators (by omega)]
  simp only [ha.eq, List.getElem_append_left hi]

private theorem Around.maxKey_child {slot : ℕ} (ha : Around cs slot pre c post)
    (hpost : post ≠ []) :
    slot < (separators cs).length ∧ getKey (separators cs) slot = c.maxKey := by
  have hpos := List.length_pos_of_ne_nil hpost
  have hslot := ha.slot
  have hlen : cs.length = pre.length + (post.length + 1) := by
    rw [ha.eq, List.length_append, List.length_cons]
  refine ⟨by rw [length_separators]; omega, ?_⟩
  rw [getKey_separators (by omega)]
  simp only [ha.eq, ← hslot, List.getElem_append_right le_rfl, Nat.sub_self,
    List.getElem_cons_zero]

/-- So it is for a child between others. -/
theorem getKey_separators_mid (pre : List (Shape K V h)) (a b : Shape K V h)
    (post : List (Shape K V h)) :
    getKey (separators (pre ++ a :: b :: post)) pre.length = a.maxKey := by
  rw [separators_mid, getKey, ← List.length_map (f := maxKey), getD_length_append]

/-- The keys of two neighbours and the one between them are those of both together. -/
theorem separators_merge {ds : List (Shape K V h)} (hne : ∀ c ∈ cs, c.pairs ≠ []) (hcs : cs ≠ [])
    (hds : ds ≠ []) :
    separators cs ++ (branch w cs).maxKey :: separators ds = separators (cs ++ ds) := by
  obtain ⟨cs, c, rfl⟩ := (List.eq_nil_or_concat' cs).resolve_left hcs
  have hc := hne c (List.mem_append_right _ (List.mem_singleton_self c))
  rw [maxKey_branch_concat hc, separators_append hds, separators, List.dropLast_concat,
    List.map_append, List.map_singleton, List.append_assoc, List.singleton_append]

end Keys

/-! ### The order of the keys -/

variable [LinearOrder K] {key : K}

/-- A key that is not above the last one does not become the last one. -/
theorem lastKey_insertKey [Inhabited K] {v : V} (hkvs : kvs ≠ []) (hle : key ≤ lastKey kvs) :
    lastKey (insertKey key v kvs) = lastKey kvs := by
  by_cases hmem : key ∈ kvs.map Prod.fst
  · rw [insertKey_of_mem hmem]
  · obtain ⟨A, p, rfl⟩ := (List.eq_nil_or_concat' kvs).resolve_left hkvs
    rw [lastKey_concat] at hle ⊢
    have hlt : key < p.1 := lt_of_le_of_ne hle fun heq ↦ hmem (by simp [heq])
    have hp : [p].filter (fun q : K × V ↦ decide (key < q.1)) = [p] := by
      refine List.filter_eq_self.2 fun q hq ↦ ?_
      rw [List.mem_singleton.1 hq]
      exact decide_eq_true hlt
    rw [insertKey, if_neg hmem, List.filter_append, List.filter_append, hp, ← List.cons_append,
      ← List.append_assoc, lastKey_concat]

/-- The pairs of the children are sorted where each child's are and the children follow each other.
-/
theorem sorted_flatMap : Sorted (cs.flatMap pairs) ↔
    (∀ c ∈ cs, Sorted c.pairs) ∧
      cs.Pairwise fun c d ↦ ∀ p ∈ c.pairs, ∀ q ∈ d.pairs, p.1 < q.1 := List.pairwise_flatMap

variable [Inhabited K]

/-- No key is above the last one. -/
theorem le_lastKey (hs : Sorted kvs) {p : K × V} (hp : p ∈ kvs) : p.1 ≤ lastKey kvs := by
  obtain ⟨A, q, rfl⟩ := (List.eq_nil_or_concat' kvs).resolve_left (List.ne_nil_of_mem hp)
  rw [lastKey_concat]
  rcases List.mem_append.1 hp with hA | hq
  · exact ((sorted_append.1 hs).2.2 p hA q (List.mem_singleton_self q)).le
  · rw [List.mem_singleton.1 hq]

/-- The separators are sorted. -/
theorem separators_sorted (hne : ∀ c ∈ cs, c.pairs ≠ []) (hs : Sorted (cs.flatMap pairs)) :
    (separators cs).Pairwise (· < ·) := by
  refine List.pairwise_map.2 (List.Pairwise.sublist (List.dropLast_sublist cs) ?_)
  refine (sorted_flatMap.1 hs).2.imp_of_mem fun {c d} hc hd hlt ↦ ?_
  obtain ⟨p, hp, hpc⟩ := exists_lastKey (hne c hc)
  obtain ⟨q, hq, hqd⟩ := exists_lastKey (hne d hd)
  rw [maxKey, maxKey, ← hpc, ← hqd]
  exact hlt p hp q hq

/-- A child with a key `q` that is not less than `key` has only larger keys behind it. -/
private theorem above_of_child (hs : Sorted ((pre ++ c :: post).flatMap pairs))
    (hc : c.pairs ≠ []) (hle : post ≠ [] → key ≤ c.maxKey) :
    Above (post.flatMap pairs) key := by
  intro p hp
  obtain ⟨d, hd, -⟩ := List.mem_flatMap.1 hp
  obtain ⟨q, hq, hqc⟩ := exists_lastKey hc
  rw [flatMap_mid, sorted_append, sorted_append] at hs
  refine (hle (List.ne_nil_of_mem hd)).trans_lt ?_
  rw [maxKey, ← hqc]
  exact hs.2.1.2.2 q hq p hp

/-- The child `find_lower` descends to has only smaller keys before it and larger keys behind
it. -/
theorem exists_child_lower (hcs : cs ≠ []) (hne : ∀ c ∈ cs, c.pairs ≠ [])
    (hs : Sorted (cs.flatMap pairs)) (key : K) :
    ∃ pre c post, Around cs (findLower (separators cs) key) pre c post ∧
      Below (pre.flatMap pairs) key ∧ Above (post.flatMap pairs) key ∧
      (post ≠ [] → key ≤ c.maxKey) := by
  have hcut : CutLower (separators cs) key _ := findLower_cut (separators_sorted hne hs)
  obtain ⟨pre, c, post, ha⟩ := exists_around hcs hcut.le
  have hle : post ≠ [] → key ≤ c.maxKey := fun hpost ↦ by
    obtain ⟨hlt, hkey⟩ := ha.maxKey_child hpost
    exact hkey ▸ hcut.after _ le_rfl hlt
  refine ⟨pre, c, post, ha, ?_, ?_, hle⟩
  · intro p hp
    obtain ⟨d, hd, hpd⟩ := List.mem_flatMap.1 hp
    obtain ⟨i, hi, hkey⟩ := ha.maxKey_pre hd
    have hmem : d ∈ cs := ha.eq ▸ List.mem_append_left _ hd
    exact (le_lastKey ((sorted_flatMap.1 hs).1 d hmem) hpd).trans_lt
      (hkey.symm.trans_lt (hcut.before i hi))
  · have hmem : c ∈ cs := ha.eq ▸ List.mem_append_right _ List.mem_cons_self
    exact above_of_child (ha.eq ▸ hs) (hne c hmem) hle

/-- The child `find_upper` descends to has only keys up to `key` before it, and a larger key of
its own unless it is the last one. -/
theorem exists_child_upper (hcs : cs ≠ []) (hne : ∀ c ∈ cs, c.pairs ≠ [])
    (hs : Sorted (cs.flatMap pairs)) (key : K) :
    ∃ pre c post, Around cs (findUpper (separators cs) key) pre c post ∧
      (∀ p ∈ pre.flatMap pairs, p.1 ≤ key) ∧ (post ≠ [] → key < c.maxKey) := by
  have hcut : CutUpper (separators cs) key _ := findUpper_cut (separators_sorted hne hs)
  obtain ⟨pre, c, post, ha⟩ := exists_around hcs hcut.le
  refine ⟨pre, c, post, ha, ?_, ?_⟩
  · intro p hp
    obtain ⟨d, hd, hpd⟩ := List.mem_flatMap.1 hp
    obtain ⟨i, hi, hkey⟩ := ha.maxKey_pre hd
    have hmem : d ∈ cs := ha.eq ▸ List.mem_append_left _ hd
    exact (le_lastKey ((sorted_flatMap.1 hs).1 d hmem) hpd).trans
      (hkey.symm.trans_le (hcut.before i hi))
  · intro hpost
    obtain ⟨hlt, hkey⟩ := ha.maxKey_child hpost
    exact hkey ▸ hcut.after _ le_rfl hlt

end Shape

end LibSpaces.Stx
