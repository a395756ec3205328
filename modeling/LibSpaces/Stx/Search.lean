import Mathlib.Algebra.Order.Group.Nat
import Mathlib.Algebra.Order.BigOperators.Group.List
import LibSpaces.Stx.Represents

/-!
# Searches in a tree

A search descends to the one leaf around its key. What `find`, `lower_bound` and `upper_bound`
return is what the ordered map returns, and the leaves from `headsurface` on hold the pairs in
order.
-/

namespace LibSpaces.Stx.Btree

open LibSpaces.Base

variable {K V : Type} [LinearOrder K] [Inhabited K] {tr : Traits} {s : Btree K V} {h lo : ℕ}
  {key : K} {kvs : List (K × V)}

/-! ### The descent -/

/-- A search in a node: the keys before its slot satisfy `before`, the others do not. -/
structure Cuts (search : List K → K → ℕ) (before : K → Prop) (key : K) : Prop where
  leaf : ∀ keys : List K, keys.Pairwise (· < ·) → search keys key ≤ keys.length ∧
    (∀ i < search keys key, before (getKey keys i)) ∧
    ∀ i, search keys key ≤ i → i < keys.length → ¬ before (getKey keys i)
  child : ∀ {V : Type} {h : ℕ} (cs : List (Shape K V h)), cs ≠ [] → (∀ c ∈ cs, c.pairs ≠ []) →
    Sorted (cs.flatMap Shape.pairs) → ∃ pre c post,
      Shape.Around cs (search (Shape.separators cs) key) pre c post ∧
      (∀ p ∈ pre.flatMap Shape.pairs, before p.1) ∧ (post ≠ [] → ¬ before c.maxKey)

/-- The lower search cuts at the keys below. -/
theorem cuts_lower (key : K) : Cuts findLower (· < key) key where
  leaf keys hs := by
    have hcut : CutLower keys key (findLower keys key) := findLower_cut hs
    exact ⟨hcut.le, hcut.before, fun i hi hik ↦ not_lt.2 (hcut.after i hi hik)⟩
  child cs hcs hne hs := by
    obtain ⟨pre, c, post, ha, hbelow, -, hle⟩ := Shape.exists_child_lower hcs hne hs key
    exact ⟨pre, c, post, ha, hbelow, fun hpost ↦ not_lt.2 (hle hpost)⟩

/-- The upper search cuts at the keys that are not above. -/
theorem cuts_upper (key : K) : Cuts findUpper (· ≤ key) key where
  leaf keys hs := by
    have hcut : CutUpper keys key (findUpper keys key) := findUpper_cut hs
    exact ⟨hcut.le, hcut.before, fun i hi hik ↦ not_le.2 (hcut.after i hi hik)⟩
  child cs hcs hne hs := by
    obtain ⟨pre, c, post, ha, hle, hlt⟩ := Shape.exists_child_upper hcs hne hs key
    exact ⟨pre, c, post, ha, hle, fun hpost ↦ not_le.2 (hlt hpost)⟩

/-- The leaf a search ends in and the pairs on both sides of it. -/
structure Around (s : Btree K V) (before : K → Prop) (t : Shape K V h) (w : ℕ) (n : Surface K V)
    (A B : List (K × V)) : Prop where
  mem : w ∈ t.leaves
  load : s.load w = some (.surface n)
  eq : t.pairs = A ++ (n.kvs ++ B)
  ne_nil : n.kvs ≠ []
  left : ∀ p ∈ A, before p.1
  right : B ≠ [] → ¬ before (lastKey n.kvs)
  last : B = [] → w = t.leaves.getLastD 0

omit [LinearOrder K] [Inhabited K] in
/-- A filled shape has a leaf. -/
theorem leaves_ne_nil {t : Shape K V h} (hf : t.Filled tr lo) : t.leaves ≠ [] := by
  induction h generalizing lo with
  | zero => exact List.cons_ne_nil _ _
  | succ h ih =>
    obtain ⟨x, cs, rfl⟩ := t.exists_branch
    obtain ⟨hlen, -, hcs⟩ := Shape.filled_branch.1 hf
    obtain ⟨c, hc⟩ := List.exists_mem_of_length_pos (by omega : 0 < cs.length)
    obtain ⟨w, hw⟩ := List.exists_mem_of_ne_nil _ (ih (hcs c hc))
    exact List.ne_nil_of_mem (List.mem_flatMap.2 ⟨c, hc, hw⟩)

/-- The descent ends at the leaf in which the cut is, with what lies before and behind it. -/
theorem findSurface_spec {search : List K → K → ℕ} {before : K → Prop}
    (hcut : Cuts search before key) {t : Shape K V h} {fuel : ℕ} (hfuel : h < fuel)
    (hst : Stored s t) (hf : t.Filled tr lo) (hlo : 1 ≤ lo) (hs : Sorted t.pairs) :
    ∃ w n A B, s.findSurface search key fuel t.addr = some (w, n) ∧ Around s before t w n A B := by
  induction h generalizing fuel lo with
  | zero =>
    obtain ⟨fuel, rfl⟩ : ∃ f, fuel = f + 1 := ⟨fuel - 1, by omega⟩
    obtain ⟨w, kvs, rfl⟩ := t.exists_leaf
    obtain ⟨n, p, hload⟩ : ∃ n p, s.load w = some (.surface ⟨kvs, n, p⟩) := hst
    refine ⟨w, ⟨kvs, n, p⟩, [], [], ?_, List.mem_singleton_self w, hload, by simp,
      List.ne_nil_of_length_pos (hlo.trans hf.1), nofun, fun hne ↦ absurd rfl hne, fun _ ↦ rfl⟩
    rw [findSurface, Shape.addr_leaf, hload]
    rfl
  | succ h ih =>
    obtain ⟨fuel, rfl⟩ : ∃ f, fuel = f + 1 := ⟨fuel - 1, by omega⟩
    obtain ⟨x, cs, rfl⟩ := t.exists_branch
    obtain ⟨hload, hcs⟩ := stored_branch.1 hst
    obtain ⟨hlen, -, hfilled⟩ := Shape.filled_branch.1 hf
    have hne : ∀ c ∈ cs, c.pairs ≠ [] := fun c hc ↦ pairs_ne_nil_of_filled (hfilled c hc)
    obtain ⟨pre, c, post, ha, hpre, hpost⟩ :=
      hcut.child cs (List.ne_nil_of_length_pos (by omega)) hne hs
    have hc : c ∈ cs := ha.eq ▸ List.mem_append_right _ List.mem_cons_self
    obtain ⟨w, n, A, B, heq, haround⟩ := ih (Nat.lt_of_succ_lt_succ hfuel) (hcs c hc) (hfilled c hc)
      (le_trans (by decide) (Shape.two_le_minslots tr h)) ((Shape.sorted_flatMap.1 hs).1 c hc)
    have hpostne : post ≠ [] → post.flatMap Shape.pairs ≠ [] := fun hpost ↦ by
      obtain ⟨d, hd⟩ := List.exists_mem_of_ne_nil _ hpost
      have hd' : d ∈ cs := ha.eq ▸ List.mem_append_right _ (List.mem_cons_of_mem _ hd)
      obtain ⟨p, hp⟩ := List.exists_mem_of_ne_nil _ (hne d hd')
      exact List.ne_nil_of_mem (List.mem_flatMap.2 ⟨d, hd, hp⟩)
    refine ⟨w, n, pre.flatMap Shape.pairs ++ A, B ++ post.flatMap Shape.pairs, ?_,
      List.mem_flatMap.2 ⟨c, hc, haround.mem⟩, haround.load, ?_, haround.ne_nil,
      fun p hp ↦ (List.mem_append.1 hp).elim (hpre p) (haround.left p), fun hB ↦ ?_, fun hB ↦ ?_⟩
    · rw [findSurface, Shape.addr_branch, hload]
      show findSurface s search key fuel
        ((cs.map Shape.addr).getD (search (Shape.separators cs) key) 0) = _
      rw [ha.getD_addr, heq]
    · rw [Shape.pairs_branch, ha.eq, Shape.flatMap_mid, haround.eq]
      simp only [List.append_assoc]
    · by_cases hB' : B = []
      · subst hB'
        have hcm : c.maxKey = lastKey n.kvs := by
          have hce := haround.eq
          rw [List.append_nil] at hce
          rw [Shape.maxKey, hce, Shape.lastKey_append haround.ne_nil]
        refine hcm ▸ hpost fun hnil ↦ hB ?_
        rw [hnil]
        rfl
      · exact haround.right hB'
    · obtain ⟨hB', hpost'⟩ := List.append_eq_nil_iff.1 hB
      have hnil : post = [] := by_contra fun hne ↦ hpostne hne hpost'
      obtain ⟨L, l, hl⟩ := (List.eq_nil_or_concat' c.leaves).resolve_left
        (leaves_ne_nil (hfilled c hc))
      rw [haround.last hB', Shape.leaves_branch, ha.eq, hnil, List.flatMap_append,
        List.flatMap_singleton, hl, ← List.append_assoc, List.getLastD_concat, List.getLastD_concat]

/-! ### What a search returns -/

omit [LinearOrder K] [Inhabited K] in
/-- The first pair that is not `before`. -/
theorem find?_around {before : K → Prop} [DecidablePred before] {A B C D : List (K × V)}
    (hA : ∀ p ∈ A, before p.1) (hC : ∀ p ∈ C, before p.1) (hD : ∀ p ∈ D, ¬ before p.1)
    (hB : D = [] → B = []) :
    (A ++ ((C ++ D) ++ B)).find? (fun p ↦ decide (¬ before p.1)) = D.head? := by
  have hnone {l : List (K × V)} (hl : ∀ p ∈ l, before p.1) :
      l.find? (fun p ↦ decide (¬ before p.1)) = none :=
    List.find?_eq_none.2 fun p hp ↦ by simpa using hl p hp
  rw [List.find?_append, List.find?_append, List.find?_append, hnone hA, hnone hC, Option.none_or,
    Option.none_or]
  cases D with
  | nil => rw [hB rfl]; rfl
  | cons d D =>
    rw [List.find?_cons_of_pos (by simpa using hD d List.mem_cons_self)]
    rfl

/-- Where a search in the pairs of a leaf cuts them. -/
theorem Cuts.exists_split {search : List K → K → ℕ} {before : K → Prop}
    (hcut : Cuts search before key) (hs : Sorted kvs) :
    ∃ C D, kvs = C ++ D ∧ C.length = search (kvs.map Prod.fst) key ∧ (∀ p ∈ C, before p.1) ∧
      ∀ p ∈ D, ¬ before p.1 := by
  obtain ⟨hle, hbefore, hafter⟩ := hcut.leaf (kvs.map Prod.fst) (List.pairwise_map.2 hs)
  generalize search (kvs.map Prod.fst) key = slot at hle hbefore hafter ⊢
  rw [List.length_map] at hle hafter
  obtain ⟨C, D, rfl, rfl⟩ := Base.exists_split hle
  refine ⟨C, D, rfl, rfl, fun p hp ↦ ?_, fun p hp ↦ ?_⟩
  · obtain ⟨i, hi, rfl⟩ := List.getElem_of_mem hp
    have := hbefore i hi
    rwa [getKey_map_fst (by rw [List.length_append]; omega), List.getElem_append_left hi] at this
  · obtain ⟨i, hi, rfl⟩ := List.getElem_of_mem hp
    have hlt : C.length + i < (C ++ D).length := by rw [List.length_append]; omega
    have := hafter (C.length + i) (Nat.le_add_right _ _) hlt
    rw [getKey_map_fst hlt, List.getElem_append_right (Nat.le_add_right _ _)] at this
    simpa using this

/-- The iterator refers to the pair, or to the end where there is none. -/
def Finds (s : Btree K V) (i : Iterator) (o : Option (K × V)) : Prop :=
  match o with
  | some p => s.deref i = some p
  | none => s.endIterator = some i

omit [LinearOrder K] [Inhabited K] in
/-- The end of an empty tree. -/
theorem endIterator_of_barren (hs : Barren s) : s.endIterator = some (0, 0) := if_pos hs.chain.last

private theorem Grounded.endIterator {t : Shape K V h} {w : ℕ} {n : Surface K V}
    (ht : Grounded tr lo s t)
    (hw : w = t.leaves.getLastD 0) (hload : s.load w = some (.surface n)) (hne : w ≠ 0) :
    s.endIterator = some (w, n.kvs.length) := by
  have hlast : s.lastSurface = w := ht.chain.last.trans hw.symm
  rw [Btree.endIterator, hlast, if_neg hne, surfaceAt_eq hload]
  rfl

private theorem Grounded.exists_end {t : Shape K V h} (ht : Grounded tr lo s t) :
    ∃ i, s.endIterator = some i := by
  obtain ⟨L, l, hl⟩ := (List.eq_nil_or_concat' t.leaves).resolve_left (leaves_ne_nil ht.filled)
  have hmem : l ∈ t.leaves := hl ▸ List.mem_append_right _ (List.mem_singleton_self l)
  obtain ⟨p, n, kvs, hload⟩ := ht.chain.linked.exists_cell hmem
  exact ⟨_, ht.endIterator (by rw [hl, List.getLastD_concat]) hload (ht.chain.pos l hmem).ne'⟩

/-- The leaf a search ends in, cut at the slot it finds. -/
theorem Grounded.exists_cut {search : List K → K → ℕ} {before : K → Prop} [DecidablePred before]
    {t : Shape K V h} (ht : Grounded tr 1 s t) (hcut : Cuts search before key) :
    ∃ w n C D, s.findSurface search key s.depth s.root = some (w, n) ∧
      s.load w = some (.surface n) ∧ n.kvs = C ++ D ∧
      C.length = search (n.kvs.map Prod.fst) key ∧
      t.pairs.find? (fun p ↦ decide (¬ before p.1)) = D.head? ∧
      Finds s (w, C.length) D.head? := by
  obtain ⟨w, n, A, B, heq, haround⟩ :=
    findSurface_spec hcut (Nat.lt_add_one h) ht.stored ht.filled le_rfl ht.sorted
  rw [← ht.depth, ← ht.root] at heq
  have hs : Sorted n.kvs := by
    have := ht.sorted
    rw [haround.eq, sorted_append, sorted_append] at this
    exact this.2.1.1
  obtain ⟨C, D, hCD, hslot, hC, hD⟩ := hcut.exists_split hs
  have hB : D = [] → B = [] := fun hnil ↦ by
    by_contra hB
    obtain ⟨p, hp, hkey⟩ := Shape.exists_lastKey haround.ne_nil
    rw [hCD, hnil, List.append_nil] at hp
    exact haround.right hB (hkey ▸ hC p hp)
  refine ⟨w, n, C, D, heq, haround.load, hCD, hslot, ?_, ?_⟩
  · rw [haround.eq, hCD, find?_around haround.left hC hD hB]
  · cases D with
    | nil =>
      have hw : w = t.leaves.getLastD 0 := haround.last (hB rfl)
      have hne : w ≠ 0 := by
        obtain ⟨L, l, hl⟩ :=
          (List.eq_nil_or_concat' t.leaves).resolve_left (leaves_ne_nil ht.filled)
        rw [hw, hl, List.getLastD_concat]
        exact (ht.chain.pos l (hl ▸ List.mem_append_right _ (List.mem_singleton_self l))).ne'
      rw [List.append_nil] at hCD
      exact hCD ▸ ht.endIterator hw haround.load hne
    | cons d D =>
      show s.deref (w, C.length) = some d
      rw [deref_eq haround.load, hCD, getElem?_length_append]

private theorem bound_spec {search : List K → K → ℕ} {before : K → Prop} [DecidablePred before]
    (hs : Searchable tr s kvs) (hcut : Cuts search before key) :
    ∃ i, s.bound search key = some i ∧ Finds s i (kvs.find? fun p ↦ decide (¬ before p.1)) := by
  cases hs with
  | bare hs =>
    exact ⟨_, (if_pos hs.root).trans (endIterator_of_barren hs), endIterator_of_barren hs⟩
  | rooted t ht =>
    obtain ⟨w, n, C, D, heq, -, -, hslot, hfind, hfinds⟩ := ht.exists_cut hcut
    refine ⟨(w, C.length), ?_, hfind ▸ hfinds⟩
    rw [bound, if_neg (Rooted.root_ne ht.root ht.owned), heq, hslot]
    rfl

/-- `lower_bound` finds what it finds in the ordered map. -/
theorem lowerBound_spec (hs : Searchable tr s kvs) (key : K) :
    ∃ i, s.lowerBound key = some i ∧ Finds s i (Base.lowerBound key kvs) := by
  have hbound := bound_spec hs (cuts_lower key)
  simp only [not_lt] at hbound
  exact hbound

/-- So does `upper_bound`. -/
theorem upperBound_spec (hs : Searchable tr s kvs) (key : K) :
    ∃ i, s.upperBound key = some i ∧ Finds s i (Base.upperBound key kvs) := by
  have hbound := bound_spec hs (cuts_upper key)
  simp only [not_le] at hbound
  exact hbound

/-- So does `find`. -/
theorem find_spec (hs : Searchable tr s kvs) (key : K) :
    ∃ i, s.find key = some i ∧ Finds s i (findKey key kvs) := by
  cases hs with
  | bare hs =>
    exact ⟨_, (if_pos hs.root).trans (endIterator_of_barren hs), endIterator_of_barren hs⟩
  | rooted t ht =>
    obtain ⟨w, n, C, D, heq, hload, hCD, hslot, hfind, hfinds⟩ := ht.exists_cut (cuts_lower key)
    simp only [not_lt] at hfind
    have hlower : Base.lowerBound key t.pairs = D.head? := hfind
    have hstart : s.find key = if C.length < n.kvs.length ∧
        key = getKey (n.kvs.map Prod.fst) C.length then some (w, C.length) else s.endIterator := by
      rw [Btree.find, if_neg (Rooted.root_ne ht.root ht.owned), heq, hslot]
      rfl
    obtain ⟨e, he⟩ := ht.exists_end
    rw [hstart, ht.sorted.findKey_eq, hlower, hCD]
    cases D with
    | nil =>
      rw [if_neg (by simp), he]
      exact ⟨e, rfl, he⟩
    | cons d D =>
      have hlt : C.length < (C ++ d :: D).length := by simp
      have hkey : getKey ((C ++ d :: D).map Prod.fst) C.length = d.1 := by
        rw [getKey_map_fst hlt]
        simp
      rw [hkey, List.head?_cons]
      by_cases hd : d.1 = key
      · rw [if_pos ⟨hlt, hd.symm⟩, Option.filter_some_pos (by simpa using hd)]
        exact ⟨_, rfl, hfinds⟩
      · rw [if_neg fun h ↦ hd h.2.symm, Option.filter_some_neg (by simpa using hd), he]
        exact ⟨e, rfl, he⟩

/-! ### The pairs in order -/

omit [LinearOrder K] [Inhabited K] in
private theorem mapM_addr {f : ℕ → Option (List (K × V))} {cs : List (Shape K V h)}
    (hf : ∀ c ∈ cs, f c.addr = some c.pairs) :
    (cs.map Shape.addr).mapM f = some (cs.map Shape.pairs) := by
  induction cs with
  | nil => rfl
  | cons c cs ih =>
    rw [List.map_cons, List.mapM_cons, hf c List.mem_cons_self,
      ih fun d hd ↦ hf d (List.mem_cons_of_mem _ hd)]
    rfl

omit [LinearOrder K] in
private theorem Stored.inorder {t : Shape K V h} {fuel : ℕ} (hfuel : h < fuel) (hst : Stored s t) :
    s.inorder fuel t.addr = some t.pairs := by
  induction h generalizing fuel with
  | zero =>
    obtain ⟨fuel, rfl⟩ : ∃ f, fuel = f + 1 := ⟨fuel - 1, by omega⟩
    obtain ⟨w, kvs, rfl⟩ := t.exists_leaf
    obtain ⟨n, p, hload⟩ : ∃ n p, s.load w = some (.surface ⟨kvs, n, p⟩) := hst
    rw [Btree.inorder, Shape.addr_leaf, hload]
    rfl
  | succ h ih =>
    obtain ⟨fuel, rfl⟩ : ∃ f, fuel = f + 1 := ⟨fuel - 1, by omega⟩
    obtain ⟨x, cs, rfl⟩ := t.exists_branch
    obtain ⟨hload, hcs⟩ := stored_branch.1 hst
    rw [Btree.inorder, Shape.addr_branch, hload]
    show Option.bind ((cs.map Shape.addr).mapM (Btree.inorder s fuel)) _ = _
    rw [mapM_addr fun c hc ↦ ih (Nat.lt_of_succ_lt_succ hfuel) (hcs c hc)]
    rfl

/-- The pairs below the root. -/
theorem held_spec (hs : Searchable tr s kvs) : s.held = some kvs := by
  cases hs with
  | bare hs => exact if_pos hs.root
  | rooted t ht =>
    rw [held, if_neg (Rooted.root_ne ht.root ht.owned), ht.depth, ht.root,
      ht.stored.inorder (Nat.lt_add_one _)]

/-- The pairs of the leaf at an address. -/
def kvsAt (s : Btree K V) (w : ℕ) : List (K × V) := ((s.surfaceAt w).map Surface.kvs).getD []

/-- The pairs from `begin` to `end`. A leaf has a pair, so there are no more leaves than pairs. -/
def items (s : Btree K V) : Option (List (K × V)) := s.walk (s.stats.treeSize + 1) s.headsurface

omit [LinearOrder K] [Inhabited K] in
/-- The pairs at the address of a leaf are its pairs. -/
theorem kvsAt_eq {w : ℕ} {n : Surface K V} (hload : s.load w = some (.surface n)) :
    s.kvsAt w = n.kvs := by
  rw [kvsAt, surfaceAt_eq hload]
  rfl

omit [LinearOrder K] in
/-- The pairs of a stored shape, read leaf by leaf. -/
theorem Stored.flatMap_kvsAt {t : Shape K V h} (hst : Stored s t) :
    t.leaves.flatMap s.kvsAt = t.pairs := by
  induction h with
  | zero =>
    obtain ⟨w, kvs, rfl⟩ := t.exists_leaf
    obtain ⟨n, p, hload⟩ : ∃ n p, s.load w = some (.surface ⟨kvs, n, p⟩) := hst
    rw [Shape.leaves_leaf, List.flatMap_singleton, kvsAt_eq hload, Shape.pairs_leaf]
  | succ h ih =>
    obtain ⟨x, cs, rfl⟩ := t.exists_branch
    rw [Shape.leaves_branch, Shape.pairs_branch, List.flatMap_assoc]
    exact List.flatMap_congr fun c hc ↦ ih ((stored_branch.1 hst).2 c hc)

omit [LinearOrder K] [Inhabited K] in
/-- There are no more leaves than pairs. -/
theorem length_leaves_le {t : Shape K V h} (hf : t.Filled tr lo) (hlo : 1 ≤ lo) :
    t.leaves.length ≤ t.pairs.length := by
  induction h generalizing lo with
  | zero => exact hlo.trans hf.1
  | succ h ih =>
    obtain ⟨x, cs, rfl⟩ := t.exists_branch
    have hcs := (Shape.filled_branch.1 hf).2.2
    rw [Shape.leaves_branch, Shape.pairs_branch, List.length_flatMap, List.length_flatMap]
    exact List.sum_le_sum
      fun c hc ↦ ih (hcs c hc) (le_trans (by decide) (Shape.two_le_minslots tr h))

omit [LinearOrder K] [Inhabited K] in
/-- A walk along linked leaves. -/
theorem walk_linked {L : List ℕ} {p fuel : ℕ} (hL : Linked s.Cell p L 0) (hpos : ∀ w ∈ L, 0 < w)
    (hfuel : L.length ≤ fuel) : s.walk fuel (L.headD 0) = some (L.flatMap s.kvsAt) := by
  induction L generalizing p fuel with
  | nil => cases fuel <;> rfl
  | cons w L ih =>
    obtain ⟨fuel, rfl⟩ : ∃ f, fuel = f + 1 := ⟨fuel - 1, by rw [List.length_cons] at hfuel; omega⟩
    obtain ⟨⟨kvs, hload⟩, hrest⟩ := linked_cons.1 hL
    have hw : w ≠ 0 := (hpos w List.mem_cons_self).ne'
    have htail := ih hrest (fun v hv ↦ hpos v (List.mem_cons_of_mem _ hv))
      (Nat.le_of_succ_le_succ hfuel)
    rw [walk, List.headD_cons, if_neg hw, surfaceAt_eq hload, Option.bind_eq_bind, Option.bind_some]
    show Option.bind (s.walk fuel (L.headD 0)) _ = _
    rw [htail, List.flatMap_cons, kvsAt_eq hload]
    rfl

/-- The pairs along the leaves. -/
theorem items_spec (hs : Represents tr s kvs) : s.items = some kvs := by
  cases hs with
  | bare hs =>
    rw [items, hs.headsurface]
    rfl
  | rooted t ht =>
    have hlen := length_leaves_le ht.filled le_rfl
    rw [items, ht.headsurface, ht.treeSize,
      walk_linked ht.chain.linked ht.chain.pos (by omega), ht.stored.flatMap_kvsAt]

/-- The size is the number of pairs. -/
theorem treeSize_spec (hs : Searchable tr s kvs) : s.stats.treeSize = kvs.length := by
  cases hs with
  | bare hs => exact hs.treeSize
  | rooted t ht => exact ht.treeSize

/-- The pairs of a searchable tree are sorted. -/
theorem Searchable.sorted (hs : Searchable tr s kvs) : Sorted kvs := by
  cases hs with
  | bare hs => exact List.Pairwise.nil
  | rooted t ht => exact ht.sorted

end LibSpaces.Stx.Btree
