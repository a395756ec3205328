import LibSpaces.Base.Slots
import LibSpaces.Stx.Memory

/-!
# What an insertion does to a tree

`insert_descend` puts the pair below a node that is stored and leaves one or two neighbouring
nodes in its place, each with room for its minimum of occupants. The proof follows the
recursion: the leaf first, then an interior node around the child that was descended to.
-/

namespace LibSpaces.Stx.Btree

open LibSpaces.Base

/-! ### A leaf and its links -/

section Leaf

variable {K V : Type} [Inhabited K] {s s' s₁ : Btree K V} {w n p : ℕ} {kvs kvs' : List (K × V)}
  {A B : List ℕ}

/-- Writing the pairs of a leaf keeps its links. -/
theorem reshaped_leaf (hload : s.load w = some (.surface ⟨kvs, n, p⟩)) :
    Reshaped [] s (s.put w (.surface ⟨kvs', n, p⟩)) [Shape.leaf w kvs] [Shape.leaf w kvs'] := by
  refine ⟨extends_put _ _, ?_, fun x ↦ Nat.le_add_right _ _, ?_, fun A B hc ↦ ?_, rfl⟩
  · intro t ht
    rw [List.mem_singleton.1 ht]
    exact stored_leaf.2 ⟨n, p, load_put_self _ _⟩
  · intro x _ _ hx
    rw [List.flatMap_singleton, Shape.pages_leaf, List.mem_singleton] at hx
    exact coreAt_congr (load_put_ne _ hx)
  · refine hc.congr (fun x _ p' n' hcell ↦ ?_) rfl le_rfl fun x m hm ↦ ?_
    · by_cases hx : x = w
      · subst hx
        obtain ⟨kvs₀, hcell⟩ := hcell
        rw [hload] at hcell
        cases hcell
        exact ⟨kvs', load_put_self _ _⟩
      · rwa [Cell, load_put_ne _ hx]
    · by_cases hx : x = w
      · subst hx
        rw [load_put_self] at hm
        cases hm
        exact hc.unlooped x ⟨kvs, n, p⟩ hload
      · rw [load_put_ne _ hx] at hm
        exact hc.unlooped x m hm

/-- After a step, the pairs of one of its leaves are written. -/
theorem Reshaped.then_leaf {also : List ℕ} {ts : List (Shape K V 0)}
    (pre post : List (Shape K V 0))
    (hr : Reshaped also s s₁ ts (pre ++ Shape.leaf w kvs :: post))
    (ho : Owned s (ts.flatMap Shape.pages)) (hload : s₁.load w = some (.surface ⟨kvs, n, p⟩)) :
    Reshaped also s (s₁.put w (.surface ⟨kvs', n, p⟩)) ts (pre ++ Shape.leaf w kvs' :: post) := by
  have hpre : ∀ t ∈ pre, Stored s₁ t := fun t ht ↦ hr.stored t (List.mem_append_left _ ht)
  have hpost : ∀ t ∈ post, Stored s₁ t := fun t ht ↦
    hr.stored t (List.mem_append_right _ (List.mem_cons_of_mem _ ht))
  refine hr.trans (Reshaped.mono ?_ (List.nil_subset _))
  exact (reshaped_leaf hload).context hpre hpost (hr.owned ho)
    fun x hx ↦ absurd hx List.not_mem_nil

omit [Inhabited K] in
/-- A leaf has one pair of links. -/
theorem Cell.unique {p' n' : ℕ} (hcell : s.Cell w p' n')
    (hload : s.load w = some (.surface ⟨kvs, n, p⟩)) : p' = p ∧ n' = n := by
  obtain ⟨kvs₀, hcell⟩ := hcell
  rw [hload] at hcell
  cases hcell
  exact ⟨rfl, rfl⟩

omit [Inhabited K] in
/-- The leaf behind `w`, if there is one. -/
theorem LeafChain.next (hc : LeafChain s (A ++ w :: B))
    (hload : s.load w = some (.surface ⟨kvs, n, p⟩)) :
    B = [] ∧ n = 0 ∨
      ∃ B' kvs' n', B = n :: B' ∧ n ≠ 0 ∧ s.load n = some (.surface ⟨kvs', n', w⟩) := by
  have hn := (hc.linked.cell.unique hload).2
  cases B with
  | nil => exact .inl ⟨rfl, hn.symm⟩
  | cons b B =>
    obtain rfl : b = n := hn
    refine .inr ⟨B, ?_⟩
    obtain ⟨-, -, ⟨kvs', hb⟩, -⟩ := linked_append.1 hc.linked
    have hpos : 0 < b :=
      hc.pos b (List.mem_append_right _ (List.mem_cons_of_mem _ List.mem_cons_self))
    exact ⟨kvs', _, rfl, hpos.ne', hb⟩

omit [Inhabited K] in
/-- A new leaf `nw` is linked in behind `w`. -/
theorem LeafChain.insertAfter {nw : ℕ} {kvs₁ kvs₂ : List (K × V)} (hc : LeafChain s (A ++ w :: B))
    (hload : s.load w = some (.surface ⟨kvs, n, p⟩)) (hnw : nw = s.storage.lastAddress + 1)
    (hlast : s₁.storage.lastAddress = nw)
    (hw : s₁.load w = some (.surface ⟨kvs₁, nw, p⟩))
    (hnew : s₁.load nw = some (.surface ⟨kvs₂, n, w⟩))
    (hnext : ∀ kvs' n' p', n ≠ 0 → s.load n = some (.surface ⟨kvs', n', p'⟩) →
      s₁.load n = some (.surface ⟨kvs', n', nw⟩))
    (hother : ∀ x, x ≠ w → x ≠ nw → (x = n → n = 0) → s₁.load x = s.load x)
    (hls : s₁.lastSurface = if n = 0 then nw else s.lastSurface) :
    LeafChain s₁ (A ++ w :: nw :: B) := by
  have hnd := hc.nodup
  rw [List.nodup_append, List.nodup_cons] at hnd
  obtain ⟨hndA, ⟨hwB, hndB⟩, hdis⟩ := hnd
  have hne {x : ℕ} (hx : x ∈ A ++ w :: B) : x ≠ nw := by
    have := hc.bound x hx
    omega
  have hn := (hc.linked.cell.unique hload).2
  have hpos {x : ℕ} (hx : x ∈ A ++ w :: B) : 0 < x := hc.pos x hx
  have hperm : (A ++ w :: nw :: B).Perm (nw :: (A ++ w :: B)) := by
    rw [List.append_cons, List.append_cons A w B]
    exact List.perm_middle
  refine ⟨hc.linked.insertAfter ?_ ?_ ?_ ?_ ?_, ?_, ?_, ?_, ?_, ?_⟩
  · intro c hcA x y hcell
    have hcw : c ≠ w := hdis c hcA w List.mem_cons_self
    have hcn : c = n → n = 0 := by
      cases B with
      | nil => exact fun _ ↦ hn.symm
      | cons b B =>
        have hcb := hdis c hcA b (List.mem_cons_of_mem _ List.mem_cons_self)
        exact fun heq ↦ absurd (heq.trans hn.symm) hcb
    rwa [Cell, hother c hcw (hne (List.mem_append_left _ hcA)) hcn]
  · intro x hcell
    rw [(hcell.unique hload).1]
    exact ⟨kvs₁, hw⟩
  · rw [hn]
    exact ⟨kvs₂, hnew⟩
  · intro c hcB y hcell
    cases B with
    | nil => cases hcB
    | cons b B =>
      obtain rfl : b = c := Option.some.inj hcB
      obtain rfl : b = n := hn
      obtain ⟨kvs', hb⟩ := hcell
      exact ⟨kvs', hnext _ _ _ (hpos (List.mem_append_right _ (by simp))).ne' hb⟩
  · intro c hcB x y hcell
    cases B with
    | nil => cases hcB
    | cons b B =>
      obtain rfl : b = n := hn
      have hcmem : c ∈ b :: B := List.mem_cons_of_mem _ hcB
      have hcw : c ≠ w := fun heq ↦ hwB (heq ▸ hcmem)
      have hcb : c ≠ b := fun heq ↦ (List.nodup_cons.1 hndB).1 (heq ▸ hcB)
      rwa [Cell, hother c hcw (hne (List.mem_append_right _ (List.mem_cons_of_mem _ hcmem)))
        fun heq ↦ absurd heq hcb]
  · exact hperm.nodup_iff.2 (List.nodup_cons.2 ⟨fun hmem ↦ hne hmem rfl, hc.nodup⟩)
  · intro x hx
    rcases List.mem_cons.1 (hperm.mem_iff.1 hx) with rfl | hx
    · omega
    · exact hpos hx
  · intro x hx
    rcases List.mem_cons.1 (hperm.mem_iff.1 hx) with rfl | hx
    · exact hlast.ge
    · have := hc.bound x hx
      omega
  · rw [hls]
    rcases hc.next hload with ⟨rfl, hn0⟩ | ⟨B', kvs', n', rfl, hn0, -⟩
    · rw [if_pos hn0]
      simp
    · rw [if_neg hn0, hc.last]
      simp
  · intro x m hm
    by_cases hxw : x = w
    · subst hxw
      rw [hw] at hm
      cases hm
      exact (hne (List.mem_append_right _ List.mem_cons_self)).symm
    by_cases hxn : x = nw
    · subst hxn
      rw [hnew] at hm
      cases hm
      rcases hc.next hload with ⟨rfl, hn0⟩ | ⟨B', kvs', n', rfl, hn0, -⟩
      · show n ≠ x
        omega
      · exact hne (List.mem_append_right _ (by simp))
    by_cases hxnext : x = n ∧ n ≠ 0
    · obtain ⟨rfl, hn0⟩ := hxnext
      rcases hc.next hload with ⟨rfl, hn0'⟩ | ⟨B', kvs', n', rfl, -, hnload⟩
      · exact absurd hn0' hn0
      · have hunlooped := hc.unlooped x _ hnload
        rw [hnext _ _ _ hn0 hnload] at hm
        cases hm
        exact hunlooped
    · rw [hother x hxw hxn fun heq ↦ by_contra fun h0 ↦ hxnext ⟨heq, h0⟩] at hm
      exact hc.unlooped x m hm

omit [Inhabited K] in
/-- The leaf `n` gets another one before it. Where there is none, the other one is the last. -/
theorem exists_relinked {x : ℕ}
    (hnext : n = 0 ∨ ∃ kvs n' p', s.load n = some (.surface ⟨kvs, n', p'⟩)) :
    ∃ s', (if n = 0 then some { s with lastSurface := x } else s.setPreceding n x) = some s' ∧
      Extends s s' ∧ s'.storage.lastAddress = s.storage.lastAddress ∧
      (∀ y, (y = n → n = 0) → s'.load y = s.load y) ∧
      (∀ kvs n' p', n ≠ 0 → s.load n = some (.surface ⟨kvs, n', p'⟩) →
        s'.load n = some (.surface ⟨kvs, n', x⟩)) ∧
      s'.lastSurface = if n = 0 then x else s.lastSurface := by
  by_cases hn0 : n = 0
  · exact ⟨{ s with lastSurface := x }, if_pos hn0, extends_lastSurface _, rfl, fun _ _ ↦ rfl,
      fun _ _ _ h ↦ absurd hn0 h, (if_pos hn0).symm⟩
  · obtain ⟨kvs, n', p', hload⟩ := hnext.resolve_left hn0
    refine ⟨_, (if_neg hn0).trans (setPreceding_eq hload), extends_put _ _, rfl,
      fun y hy ↦ load_put_ne _ fun heq ↦ hn0 (hy heq), fun kvs₀ n₀ p₀ _ h₀ ↦ ?_,
      (if_neg hn0).symm⟩
    rw [hload] at h₀
    cases h₀
    exact load_put_self _ _

/-- The two halves of a split leaf. -/
theorem splitSurfaceNode_spec (hload : s.load w = some (.surface ⟨kvs, n, p⟩))
    (hbound : w ≤ s.storage.lastAddress) (hc : LeafChain s (A ++ w :: B)) :
    ∃ s₁ nw, s.splitSurfaceNode w = some (s₁, lastKey (kvs.take (kvs.length / 2)), nw) ∧
      Reshaped [] s s₁ [Shape.leaf w kvs]
        [Shape.leaf w (kvs.take (kvs.length / 2)), Shape.leaf nw (kvs.drop (kvs.length / 2))] ∧
      s₁.load w = some (.surface ⟨kvs.take (kvs.length / 2), nw, p⟩) ∧
      s₁.load nw = some (.surface ⟨kvs.drop (kvs.length / 2), n, w⟩) ∧ nw ≠ w := by
  obtain ⟨nw, hnw⟩ : ∃ nw, nw = s.storage.lastAddress + 1 := ⟨_, rfl⟩
  let sc := s.put w (.surface ⟨kvs, n, p⟩)
  let sa := (sc.allocate (.surface ⟨kvs.drop (kvs.length / 2), n, w⟩)).2
  have hsa (x : ℕ) : sa.load x =
      if x = nw then some (.surface ⟨kvs.drop (kvs.length / 2), n, w⟩) else s.load x := by
    rw [← load_put_same hload x]
    exact hnw ▸ load_allocate _ x
  have hload_n (hn0 : n ≠ 0) : sa.load n = s.load n := by
    rcases hc.next hload with ⟨-, hn0'⟩ | ⟨B', -, -, rfl, -, -⟩
    · exact absurd hn0' hn0
    · have := hc.bound n (by simp)
      rw [hsa, if_neg (by omega)]
  -- the state before the old leaf is written
  obtain ⟨sb, hsb, hkeep, hlastA, hother, hnext, hls⟩ :=
    exists_relinked (s := sa) (n := n) (x := nw)
    ((hc.next hload).imp And.right fun ⟨_, kvs', n', _, hn0, hnload⟩ ↦
      ⟨kvs', n', w, (hload_n hn0).trans hnload⟩)
  have hnew : (sb.put w (.surface ⟨kvs.take (kvs.length / 2), nw, p⟩)).load nw =
      some (.surface ⟨kvs.drop (kvs.length / 2), n, w⟩) := by
    have hnnw : nw = n → n = 0 := fun heq ↦ by
      rcases hc.next hload with ⟨-, hn0⟩ | ⟨B', kvs', n', rfl, -, -⟩
      · exact hn0
      · have := hc.bound n (by simp)
        omega
    rw [load_put_ne _ (by omega), hother nw hnnw, hsa, if_pos rfl]
  refine ⟨sb.put w (.surface ⟨kvs.take (kvs.length / 2), nw, p⟩), nw, ?_, ?_, load_put_self _ _,
    hnew, by omega⟩
  · subst hnw
    rw [splitSurfaceNode, surfaceAt_eq hload, change_eq hload]
    by_cases hn0 : n = 0
    · rw [if_pos hn0] at hsb
      cases hsb
      exact if_pos hn0
    · rw [if_neg hn0] at hsb
      refine (if_neg hn0).trans ?_
      show Option.bind (sa.setPreceding n (s.storage.lastAddress + 1)) _ = _
      rw [hsb]
      rfl
  · have hload₁ {x : ℕ} (hxw : x ≠ w) (hxnw : x ≠ nw) (hxn : x = n → n = 0) :
        (sb.put w (.surface ⟨kvs.take (kvs.length / 2), nw, p⟩)).load x = s.load x := by
      rw [load_put_ne _ hxw, hother x hxn, hsa, if_neg hxnw]
    have hnext₁ {kvs' : List (K × V)} {n' p' : ℕ} (hn0 : n ≠ 0)
        (hnload : s.load n = some (.surface ⟨kvs', n', p'⟩)) :
        (sb.put w (.surface ⟨kvs.take (kvs.length / 2), nw, p⟩)).load n =
          some (.surface ⟨kvs', n', nw⟩) := by
      rw [load_put_ne _ (hc.unlooped w _ hload),
        hnext _ _ _ hn0 ((hload_n hn0).trans hnload)]
    have hkeeps : Extends s sb := ((extends_put w _).trans (extends_allocate _)).trans hkeep
    refine ⟨hkeeps.trans (extends_put _ _), ?_, fun x ↦ ?_, ?_, ?_, rfl⟩
    · intro t ht
      rcases List.mem_cons.1 ht with rfl | ht
      · exact stored_leaf.2 ⟨nw, p, load_put_self _ _⟩
      · rw [List.mem_singleton.1 ht]
        exact stored_leaf.2 ⟨n, w, hnew⟩
    · have hfresh : fresh s (sb.put w (.surface ⟨kvs.take (kvs.length / 2), nw, p⟩)) nw = 1 :=
        if_pos ⟨by omega, (hlastA.trans hnw.symm).ge⟩
      have hle : (if nw = x then 1 else 0) ≤
          fresh s (sb.put w (.surface ⟨kvs.take (kvs.length / 2), nw, p⟩)) x := by
        split
        next heq => rw [← heq, hfresh]
        next => exact Nat.zero_le _
      simp only [List.flatMap_cons, List.flatMap_nil, Shape.pages_leaf, List.count_append,
        List.count_nil, List.count_singleton, beq_iff_eq]
      omega
    · intro x hx _ hxw
      rw [List.flatMap_singleton, Shape.pages_leaf, List.mem_singleton] at hxw
      by_cases hxn : x = n ∧ n ≠ 0
      · obtain ⟨rfl, hn0⟩ := hxn
        rcases hc.next hload with ⟨-, hn0'⟩ | ⟨B', kvs', n', -, -, hnload⟩
        · exact absurd hn0' hn0
        · rw [coreAt, coreAt, hnext₁ hn0 hnload, hnload]
          rfl
      · exact coreAt_congr (hload₁ hxw (by omega) fun heq ↦ by_contra fun h0 ↦ hxn ⟨heq, h0⟩)
    · intro A B hc
      exact hc.insertAfter hload hnw (hlastA.trans hnw.symm) (load_put_self _ _) hnew
        (fun _ _ _ hn0 h ↦ hnext₁ hn0 h) (fun x hxw hxnw hxn ↦ hload₁ hxw hxnw hxn) hls

end Leaf

/-! ### Insertion into a leaf -/

variable {K V : Type} [LinearOrder K] [Inhabited K] {tr : Traits} {s s' s₁ s₂ : Btree K V}
  {h lo : ℕ} {key : K} {value : V} {A B : List ℕ}

/-- What is left of the shape `t`, whose topmost node had at least `lo` occupants, by an
insertion below it. -/
structure Grown (tr : Traits) (lo : ℕ) (s s' : Btree K V) (t : Shape K V h) (key : K) (value : V)
    (r : Inserted K) (ts : List (Shape K V h)) : Prop where
  reshaped : Reshaped [] s s' [t] ts
  pairs : ts.flatMap Shape.pairs = insertKey key value t.pairs
  inserted : r.inserted = true ↔ key ∉ t.pairs.map Prod.fst
  iterator : r.iterator.1 ∈ ts.flatMap Shape.leaves ∧ ∃ v, s'.deref r.iterator = some (key, v)
  registered : r.iterator.1 ∈ s'.modified
  nodes : match r.split with
    | none => ∃ t', ts = [t'] ∧ t'.addr = t.addr ∧ t'.Filled tr (max lo 1)
    | some (k, w) => ∃ a b, ts = [a, b] ∧ a.addr = t.addr ∧ b.addr = w ∧ a.maxKey = k ∧
        a.Filled tr (tr.minslots h) ∧ b.Filled tr (tr.minslots h)

omit [LinearOrder K] [Inhabited K] in
/-- A place in a loaded leaf is at the pair of its slot. -/
theorem deref_eq {w i : ℕ} {n : Surface K V} (hload : s.load w = some (.surface n)) :
    s.deref (w, i) = n.kvs[i]? := by
  rw [deref, surfaceAt_eq hload, Option.bind_eq_bind, Option.bind_some]

omit [LinearOrder K] [Inhabited K] in
/-- A place that is at a pair is a slot of a loaded leaf. -/
theorem exists_of_deref {i : Iterator} {p : K × V} (hd : s.deref i = some p) :
    ∃ n, s.load i.1 = some (.surface n) ∧ n.kvs[i.2]? = some p := by
  rw [deref, surfaceAt] at hd
  cases hload : s.load i.1 with
  | none => simp [hload] at hd
  | some node =>
    cases node with
    | interior m => simp [hload] at hd
    | surface n => exact ⟨n, rfl, by simpa [hload] using hd⟩

section Surface

variable {w n p : ℕ} {kvs C D : List (K × V)} {v : V}

/-- The key is there: the leaf is registered and stays as it is. -/
theorem insertSurface_found (hload : s.load w = some (.surface ⟨C ++ (key, v) :: D, n, p⟩))
    (hf : (Shape.leaf w (C ++ (key, v) :: D)).Filled tr lo)
    (hslot : C.length = findLower ((C ++ (key, v) :: D).map Prod.fst) key)
    (hfound : findLower ((C ++ (key, v) :: D).map Prod.fst) key < (C ++ (key, v) :: D).length ∧
      key = getKey ((C ++ (key, v) :: D).map Prod.fst)
        (findLower ((C ++ (key, v) :: D).map Prod.fst) key)) :
    ∃ s' r ts, s.insertSurface tr w ⟨C ++ (key, v) :: D, n, p⟩ key value = some (s', r) ∧
      Grown tr lo s s' (Shape.leaf w (C ++ (key, v) :: D)) key value r ts := by
  obtain ⟨hlo, hmax⟩ := Shape.filled_leaf.1 hf
  have hmem : key ∈ ((C ++ (key, v) :: D).map Prod.fst) := by simp
  refine ⟨s.put w (.surface ⟨C ++ (key, v) :: D, n, p⟩), ⟨(w, C.length), false, none⟩,
    [Shape.leaf w (C ++ (key, v) :: D)], ?_, ?_, ?_, ?_, ?_, ?_, ?_⟩
  · rw [insertSurface, if_pos hfound, change_eq hload, hslot]
    rfl
  · refine (Reshaped.refl [] fun t ht ↦ ?_).then_only (only_register hload)
    rw [List.mem_singleton.1 ht]
    exact stored_leaf.2 ⟨n, p, hload⟩
  · rw [List.flatMap_singleton, Shape.pairs_leaf, insertKey_of_mem hmem]
  · exact ⟨fun hf ↦ absurd hf Bool.false_ne_true, fun hno ↦ absurd hmem hno⟩
  · refine ⟨List.mem_singleton_self _, v, ?_⟩
    rw [deref_eq (load_put_self _ _)]
    exact getElem?_length_append _ _ _
  · exact List.mem_insert_self
  · exact ⟨_, rfl, rfl,
      Shape.filled_leaf.2 ⟨max_le hlo (List.length_pos_of_ne_nil (by simp)), hmax⟩⟩

section Missing

variable (hload : s.load w = some (.surface ⟨C ++ D, n, p⟩))
  (hf : (Shape.leaf w (C ++ D)).Filled tr lo)
  (hslot : C.length = findLower ((C ++ D).map Prod.fst) key) (hC : Below C key) (hD : Above D key)
  (hnot : ¬(findLower ((C ++ D).map Prod.fst) key < (C ++ D).length ∧
    key = getKey ((C ++ D).map Prod.fst) (findLower ((C ++ D).map Prod.fst) key)))

include hload hf hslot hC hD hnot

/-- The pair goes into a leaf with room. -/
theorem insertSurface_room (hroom : (C ++ D).length ≠ tr.surfaces) :
    ∃ s' r ts, s.insertSurface tr w ⟨C ++ D, n, p⟩ key value = some (s', r) ∧
      Grown tr lo s s' (Shape.leaf w (C ++ D)) key value r ts := by
  obtain ⟨hlo, hmax⟩ := Shape.filled_leaf.1 hf
  refine ⟨s.put w (.surface ⟨C ++ (key, value) :: D, n, p⟩), ⟨(w, C.length), true, none⟩,
    [Shape.leaf w (C ++ (key, value) :: D)], ?_, reshaped_leaf hload, ?_, ?_, ?_,
    List.mem_insert_self, ?_⟩
  · rw [insertSurface, if_neg hnot, if_neg hroom, ← hslot, insertIdx_length_append]
    rfl
  · rw [List.flatMap_singleton, Shape.pairs_leaf, Shape.pairs_leaf, insertKey_mid hC hD]
  · exact ⟨fun _ ↦ hC.not_mem_append hD, fun _ ↦ rfl⟩
  · refine ⟨List.mem_singleton_self _, value, ?_⟩
    rw [deref_eq (load_put_self _ _)]
    exact getElem?_length_append _ _ _
  · refine ⟨_, rfl, rfl, Shape.filled_leaf.2 ⟨?_, ?_⟩⟩
    all_goals
      simp only [Traits.slotmax, List.length_append, List.length_cons] at hlo hmax hroom ⊢
      omega

omit hf
variable (ho : Owned s [w]) (hc : LeafChain s (A ++ w :: B))
  (hfull : (C ++ D).length = tr.surfaces)

include ho hc hfull

/-- A full leaf is split, and the pair goes to the new leaf. -/
theorem insertSurface_right (hside : (C ++ D).length / 2 ≤ C.length) :
    ∃ s' r ts, s.insertSurface tr w ⟨C ++ D, n, p⟩ key value = some (s', r) ∧
      Grown tr lo s s' (Shape.leaf w (C ++ D)) key value r ts := by
  obtain ⟨s₁, nw, hsplit, hr, hw₁, hnw₁, hne⟩ :=
    splitSurfaceNode_spec hload (ho.bound w (List.mem_singleton_self w)) hc
  have hown : Owned s ([Shape.leaf w (C ++ D)].flatMap Shape.pages) := ho
  have hfour := tr.four_le_surfaces
  obtain ⟨mid, hmid⟩ : ∃ mid, (C ++ D).length / 2 = mid := ⟨_, rfl⟩
  rw [hmid] at hsplit hr hw₁ hnw₁ hside
  rw [List.length_append] at hmid
  have htake : ((C ++ D).take mid).length = mid := by
    rw [List.length_take, List.length_append]
    omega
  have hdrop : (C ++ D).drop mid = C.drop mid ++ D := List.drop_append_of_le_length hside
  have hlen : (C.drop mid).length = C.length - mid := List.length_drop
  refine ⟨s₁.put nw (.surface ⟨C.drop mid ++ (key, value) :: D, n, w⟩),
    ⟨(nw, C.length - mid), true, some (lastKey ((C ++ D).take mid), nw)⟩,
    [Shape.leaf w ((C ++ D).take mid), Shape.leaf nw (C.drop mid ++ (key, value) :: D)],
    ?_, hr.then_leaf [_] [] hown hnw₁, ?_, ?_, ?_, List.mem_insert_self, ?_⟩
  · rw [insertSurface, if_neg hnot, if_pos hfull, hsplit, ← hslot]
    simp only [Option.bind_eq_bind, Option.bind_some, surfaceAt_eq hw₁, surfaceAt_eq hnw₁]
    rw [htake, if_pos hside, hdrop, ← hlen, insertIdx_length_append]
    rfl
  · rw [Shape.pairs_leaf, insertKey_mid hC hD]
    show (C ++ D).take mid ++ (C.drop mid ++ (key, value) :: D ++ []) = _
    rw [List.take_append_of_le_length hside, List.append_nil, ← List.append_assoc,
      List.take_append_drop]
  · exact ⟨fun _ ↦ hC.not_mem_append hD, fun _ ↦ rfl⟩
  · refine ⟨List.mem_cons_of_mem _ (List.mem_singleton_self _), value, ?_⟩
    rw [deref_eq (load_put_self _ _), ← hlen]
    exact getElem?_length_append _ _ _
  · rw [List.length_append] at hfull
    refine ⟨_, _, rfl, rfl, rfl, rfl, Shape.filled_leaf.2 ⟨?_, ?_⟩, Shape.filled_leaf.2 ⟨?_, ?_⟩⟩
    all_goals
      simp only [htake, Traits.minslots, Traits.slotmax, List.length_append, hlen,
        List.length_cons]
      omega

/-- A full leaf is split, and the pair stays in the old leaf. -/
theorem insertSurface_left (hside : C.length < (C ++ D).length / 2) :
    ∃ s' r ts, s.insertSurface tr w ⟨C ++ D, n, p⟩ key value = some (s', r) ∧
      Grown tr lo s s' (Shape.leaf w (C ++ D)) key value r ts := by
  obtain ⟨s₁, nw, hsplit, hr, hw₁, hnw₁, hne⟩ :=
    splitSurfaceNode_spec hload (ho.bound w (List.mem_singleton_self w)) hc
  have hown : Owned s ([Shape.leaf w (C ++ D)].flatMap Shape.pages) := ho
  have hfour := tr.four_le_surfaces
  obtain ⟨mid, hmid⟩ : ∃ mid, (C ++ D).length / 2 = mid := ⟨_, rfl⟩
  rw [hmid] at hsplit hr hw₁ hnw₁ hside
  rw [List.length_append] at hmid
  have hcut : (C ++ D).take mid = C ++ D.take (mid - C.length) := by
    rw [List.take_append, List.take_of_length_le hside.le]
  have hdrop : (C ++ D).drop mid = D.drop (mid - C.length) := by
    rw [List.drop_append, List.drop_of_length_le hside.le, List.nil_append]
  have hlen : (D.take (mid - C.length)).length = mid - C.length := by
    rw [List.length_take]
    omega
  have hne : D.take (mid - C.length) ≠ [] := List.ne_nil_of_length_pos (by omega)
  rw [hcut] at hsplit hr hw₁
  rw [hdrop] at hr hnw₁
  refine ⟨s₁.put w (.surface ⟨C ++ (key, value) :: D.take (mid - C.length), nw, p⟩),
    ⟨(w, C.length), true, some (lastKey (C ++ D.take (mid - C.length)), nw)⟩,
    [Shape.leaf w (C ++ (key, value) :: D.take (mid - C.length)),
      Shape.leaf nw (D.drop (mid - C.length))],
    ?_, hr.then_leaf [] [_] hown hw₁, ?_, ?_, ?_, List.mem_insert_self, ?_⟩
  · rw [insertSurface, if_neg hnot, if_pos hfull, hsplit, ← hslot]
    simp only [Option.bind_eq_bind, Option.bind_some, surfaceAt_eq hw₁]
    have hleft : ¬C.length ≥ (C ++ D.take (mid - C.length)).length := by
      rw [List.length_append, hlen]
      omega
    have hlast : C.length ≠ (C ++ (key, value) :: D.take (mid - C.length)).length - 1 := by
      rw [List.length_append, List.length_cons, hlen]
      omega
    rw [if_neg hleft, insertIdx_length_append, if_neg hlast]
    rfl
  · rw [Shape.pairs_leaf, insertKey_mid hC hD]
    show C ++ (key, value) :: D.take (mid - C.length) ++ (D.drop (mid - C.length) ++ []) = _
    rw [List.append_nil, List.append_assoc, List.cons_append, List.take_append_drop]
  · exact ⟨fun _ ↦ hC.not_mem_append hD, fun _ ↦ rfl⟩
  · refine ⟨List.mem_cons_self, value, ?_⟩
    rw [deref_eq (load_put_self _ _)]
    exact getElem?_length_append _ _ _
  · rw [List.length_append] at hfull
    refine ⟨_, _, rfl, rfl, rfl, ?_, Shape.filled_leaf.2 ⟨?_, ?_⟩, Shape.filled_leaf.2 ⟨?_, ?_⟩⟩
    · rw [Shape.maxKey, Shape.pairs_leaf, Shape.lastKey_append (List.cons_ne_nil _ _),
        Shape.lastKey_append hne, ← List.singleton_append, Shape.lastKey_append hne]
    all_goals
      simp only [Traits.minslots, Traits.slotmax, List.length_append, hlen, List.length_cons,
        List.length_drop]
      omega

end Missing

private theorem insertSurface_spec (hload : s.load w = some (.surface ⟨kvs, n, p⟩))
    (hs : Sorted kvs)
    (hf : (Shape.leaf w kvs).Filled tr lo) (ho : Owned s [w]) (hc : LeafChain s (A ++ w :: B)) :
    ∃ s' r ts, s.insertSurface tr w ⟨kvs, n, p⟩ key value = some (s', r) ∧
      Grown tr lo s s' (Shape.leaf w kvs) key value r ts := by
  obtain ⟨C, D, rfl, hslot, hC, ⟨hfound, v, D, rfl, hD⟩ | ⟨hnot, hD⟩⟩ := exists_leaf_cut hs key
  · exact insertSurface_found hload hf hslot hfound
  by_cases hfull : (C ++ D).length = tr.surfaces
  · by_cases hside : (C ++ D).length / 2 ≤ C.length
    · exact insertSurface_right hload hslot hC hD hnot ho hc hfull hside
    · exact insertSurface_left hload hslot hC hD hnot ho hc hfull (not_le.1 hside)
  · exact insertSurface_room hload hf hslot hC hD hnot hfull

end Surface

/-! ### Insertion into an interior node -/

/-- Where `split_interior_node` cuts the keys. -/
def splitMid (occupants addslot : ℕ) : ℕ :=
  if addslot ≤ occupants / 2 ∧ occupants / 2 > occupants - (occupants / 2 + 1)
  then occupants / 2 - 1 else occupants / 2

omit [LinearOrder K] in
private theorem splitInteriorNode_spec {w : ℕ} {m : Interior K}
    (hload : s.load w = some (.interior m)) (addslot : ℕ) (hbound : w ≤ s.storage.lastAddress) :
    ∃ s₁ nw, s.splitInteriorNode w addslot =
        some (s₁, getKey m.keys (splitMid m.keys.length addslot), nw) ∧
      Forked w nw s s₁ ∧ nw ≠ w ∧
      s₁.load w = some (.interior ⟨m.level, m.keys.take (splitMid m.keys.length addslot),
        m.childid.take (splitMid m.keys.length addslot + 1)⟩) ∧
      s₁.load nw = some (.interior ⟨m.level, m.keys.drop (splitMid m.keys.length addslot + 1),
        m.childid.drop (splitMid m.keys.length addslot + 1)⟩) := by
  have hne : s.storage.lastAddress + 1 ≠ w := by omega
  let right : Node K V := .interior ⟨m.level,
    m.keys.drop (splitMid m.keys.length addslot + 1),
    m.childid.drop (splitMid m.keys.length addslot + 1)⟩
  refine ⟨(s.allocate right).2.put w _, s.storage.lastAddress + 1, ?_, ?_, hne,
    load_put_self _ _, ?_⟩
  · rw [splitInteriorNode, interiorAt_eq hload]
    rfl
  · refine ⟨(extends_allocate _).trans (extends_put _ _), rfl, rfl, rfl, fun x hxw hxn ↦ ?_⟩
    rw [load_put_ne _ hxw, load_allocate, if_neg hxn]
  · rw [load_put_ne _ hne, load_allocate, if_pos rfl]

omit [LinearOrder K] [Inhabited K] in
private theorem putChild_eq {w slot nc : ℕ} {k : K} {m : Interior K}
    (hload : s.load w = some (.interior m)) :
    s.putChild w slot k nc = some (s.put w (.interior
      ⟨m.level, m.keys.insertIdx slot k, m.childid.insertIdx (slot + 1) nc⟩)) := by
  rw [putChild, interiorAt_eq hload]
  rfl

omit [LinearOrder K] in
private theorem insertChild_room {w slot nc : ℕ} {k : K} {m : Interior K}
    (hload : s.load w = some (.interior m)) (hroom : m.keys.length ≠ tr.interiorslots) :
    s.insertChild tr w slot k nc = some (s.put w (.interior
      ⟨m.level, m.keys.insertIdx slot k, m.childid.insertIdx (slot + 1) nc⟩), none) := by
  rw [insertChild, interiorAt_eq hload]
  refine (if_neg hroom).trans ?_
  rw [putChild_eq hload]
  rfl

omit [LinearOrder K] in
/-- A full node is cut as if the child had been put into it before. -/
theorem insertChild_full {w : ℕ} {m : Interior K} (slot nc : ℕ) (k : K)
    (hload : s.load w = some (.interior m)) (hbound : w ≤ s.storage.lastAddress)
    (hfull : m.keys.length = tr.interiorslots) (hids : m.childid.length = m.keys.length + 1)
    (hslot : slot ≤ m.keys.length) :
    ∃ s₁ nw mid, s.insertChild tr w slot k nc =
        some (s₁, some (getKey (m.keys.insertIdx slot k) mid, nw)) ∧
      Forked w nw s s₁ ∧
      s₁.load w = some (.interior ⟨m.level, (m.keys.insertIdx slot k).take mid,
        (m.childid.insertIdx (slot + 1) nc).take (mid + 1)⟩) ∧
      s₁.load nw = some (.interior ⟨m.level, (m.keys.insertIdx slot k).drop (mid + 1),
        (m.childid.insertIdx (slot + 1) nc).drop (mid + 1)⟩) ∧
      tr.minslots 1 ≤ mid ∧ mid + tr.minslots 1 ≤ m.keys.length := by
  have hfour := tr.four_le_interiorslots
  obtain ⟨s₁, nw, hsplit, hf, hne, hw, hnw⟩ := splitInteriorNode_spec hload slot hbound
  obtain ⟨mid, hmid⟩ : ∃ mid, splitMid m.keys.length slot = mid := ⟨_, rfl⟩
  rw [hmid] at hsplit hw hnw
  have hmin : tr.minslots 1 = m.keys.length / 2 := by rw [Traits.minslots, Traits.slotmax, hfull]
  have hmid' : slot ≤ m.keys.length / 2 ∧ m.keys.length / 2 > m.keys.length -
      (m.keys.length / 2 + 1) ∧ mid = m.keys.length / 2 - 1 ∨
      ¬ (slot ≤ m.keys.length / 2 ∧ m.keys.length / 2 > m.keys.length -
        (m.keys.length / 2 + 1)) ∧ mid = m.keys.length / 2 := by
    rw [← hmid, splitMid]
    split
    next h => exact .inl ⟨h.1, h.2, rfl⟩
    next h => exact .inr ⟨h, rfl⟩
  have hlt : mid < m.keys.length := by omega
  have htake : (m.keys.take mid).length = mid := by
    rw [List.length_take]
    omega
  have hstart : s.insertChild tr w slot k nc =
      if slot = mid + 1 ∧ mid < m.keys.length - (mid + 1) then
        some ((s₁.put w (.interior ⟨m.level, m.keys.take mid ++ [getKey m.keys mid],
            m.childid.take (mid + 1) ++ [(m.childid.drop (mid + 1)).getD 0 0]⟩)).put nw
            (.interior ⟨m.level, m.keys.drop (mid + 1), (m.childid.drop (mid + 1)).set 0 nc⟩),
          some (k, nw))
      else if slot ≥ mid + 1 then
        (s₁.putChild nw (slot - (mid + 1)) k nc).bind
          fun s ↦ some (s, some (getKey m.keys mid, nw))
      else (s₁.putChild w slot k nc).bind fun s ↦ some (s, some (getKey m.keys mid, nw)) := by
    rw [insertChild, interiorAt_eq hload]
    refine (if_pos hfull).trans ?_
    rw [hsplit]
    simp only [Option.bind_eq_bind, Option.bind_some, interiorAt_eq hw, interiorAt_eq hnw, htake,
      List.length_drop]
    rfl
  have hids' : slot + 1 ≤ m.childid.length := by omega
  by_cases hspecial : slot = mid + 1 ∧ mid < m.keys.length - (mid + 1)
  · rw [if_pos hspecial] at hstart
    obtain ⟨rfl, hlt'⟩ := hspecial
    have hkey : k = getKey (m.keys.insertIdx (mid + 1) k) (mid + 1) :=
      (getD_insertIdx_self _ hslot _).symm
    have hids₀ := drop_eq_getD_cons (i := mid + 1) hids' 0
    refine ⟨_, nw, mid + 1, hstart.trans (congrArg (fun k' ↦ some (_, some (k', nw))) hkey),
      (hf.put (.inl rfl) _).put (.inr rfl) _, ?_, ?_, ?_, ?_⟩
    · rw [load_put_ne _ hne.symm, load_put_self, take_insertIdx_of_le _ hslot le_rfl,
        take_insertIdx_of_le _ hids' le_rfl, getKey, take_append_getD hlt, hids₀,
        List.getD_cons_zero, take_append_getD hids']
    · rw [load_put_self, drop_insertIdx_succ _ hslot le_rfl, drop_insertIdx_of_le _ hids' le_rfl,
        hids₀, List.set_cons_zero, Nat.sub_self, List.insertIdx_zero]
    · omega
    · omega
  · rw [if_neg hspecial] at hstart
    by_cases hge : slot ≥ mid + 1
    · rw [if_pos hge, putChild_eq hnw, Option.bind_some] at hstart
      have hkey : getKey m.keys mid = getKey (m.keys.insertIdx slot k) mid :=
        (getD_insertIdx_of_lt _ hslot hge _).symm
      refine ⟨_, nw, mid, hstart.trans (congrArg (fun k' ↦ some (_, some (k', nw))) hkey),
        hf.put (.inr rfl) _, ?_, ?_, ?_, ?_⟩
      · rw [load_put_ne _ hne.symm, hw, take_insertIdx_of_le _ hslot (by omega),
          take_insertIdx_of_le _ hids' (by omega)]
      · rw [load_put_self, drop_insertIdx_of_le _ hslot hge,
          drop_insertIdx_of_le _ hids' (by omega), Nat.sub_add_comm hge]
      · omega
      · omega
    · rw [if_neg hge, putChild_eq hw, Option.bind_some] at hstart
      have hkey : getKey m.keys mid = getKey (m.keys.insertIdx slot k) (mid + 1) :=
        (getD_insertIdx_succ _ hslot (by omega) _).symm
      refine ⟨_, nw, mid + 1, hstart.trans (congrArg (fun k' ↦ some (_, some (k', nw))) hkey),
        hf.put (.inl rfl) _, ?_, ?_, ?_, ?_⟩
      · rw [load_put_self, take_insertIdx_succ _ hslot (by omega),
          take_insertIdx_succ _ hids' (by omega)]
      · rw [load_put_ne _ hne, hnw, drop_insertIdx_succ _ hslot (by omega),
          drop_insertIdx_succ _ hids' (by omega)]
      · omega
      · omega

omit [LinearOrder K] in
/-- The page of a node while something below it is reshaped. -/
theorem Reshaped.page {w : ℕ} {cs cs' : List (Shape K V h)} (hr : Reshaped [] s s₁ cs cs')
    (hown : Owned s (Shape.branch w cs).pages) {m : Interior K}
    (hload : s.load w = some (.interior m)) : s₁.load w = some (.interior m) := by
  refine load_interior_of_core hload (hr.frame w (hown.bound w List.mem_cons_self)
    List.not_mem_nil fun hmem ↦ ?_)
  have hone := hown.count w
  have := List.count_pos_iff.2 hmem
  rw [Shape.pages_branch, List.count_cons_self] at hone
  omega

/-- What is left of a node, with at least `lo` keys, whose children became `cs'`. -/
structure Widened (tr : Traits) (lo w : ℕ) (s s₁ s₂ : Btree K V) (cs cs' : List (Shape K V h))
    (split : Option (K × ℕ)) (ts : List (Shape K V (h + 1))) : Prop where
  reshaped : Reshaped [] s s₂ [Shape.branch w cs] ts
  keeps : Extends s₁ s₂
  pairs : ts.flatMap Shape.pairs = cs'.flatMap Shape.pairs
  leaves : ts.flatMap Shape.leaves = cs'.flatMap Shape.leaves
  surface : ∀ x n, x ≤ s₁.storage.lastAddress → s₁.load x = some (.surface n) →
    s₂.load x = some (.surface n)
  nodes : match split with
    | none => ∃ t', ts = [t'] ∧ t'.addr = w ∧ t'.Filled tr (max lo 1)
    | some (k, nw) => ∃ l r, ts = [l, r] ∧ l.addr = w ∧ r.addr = nw ∧ l.maxKey = k ∧
        l.Filled tr (tr.minslots (h + 1)) ∧ r.Filled tr (tr.minslots (h + 1))

section Widening

variable {w slot nc : ℕ} {k : K} {cs cs' : List (Shape K V h)}
  (hr : Reshaped [] s s₁ cs cs') (hown : Owned s (Shape.branch w cs).pages)
  (hload : s.load w = some (.interior ⟨h + 1, Shape.separators cs, cs.map Shape.addr⟩))
  (hfilled : ∀ d ∈ cs', d.Filled tr (tr.minslots h))
  (hkeys : (Shape.separators cs).insertIdx slot k = Shape.separators cs')
  (hids : (cs.map Shape.addr).insertIdx (slot + 1) nc = cs'.map Shape.addr)
  (hlen : cs'.length = cs.length + 1)

include hr hown hload hfilled hkeys hids hlen

omit [LinearOrder K] in
/-- A node with room takes the child. -/
theorem insertChild_widened (hlo : lo + 1 ≤ cs.length) (hmax : cs.length ≤ tr.slotmax (h + 1) + 1)
    (hroom : (Shape.separators cs).length ≠ tr.interiorslots) :
    ∃ s₂ split ts, s₁.insertChild tr w slot k nc = some (s₂, split) ∧
      Widened tr lo w s s₁ s₂ cs cs' split ts := by
  have hpage := hr.page hown hload
  have hslotmax : tr.slotmax (h + 1) = tr.interiorslots := rfl
  refine ⟨_, none, [Shape.branch w cs'], insertChild_room hpage hroom, ?_, extends_put _ _, ?_, ?_,
    fun x n _ hsurf ↦ ?_, _, rfl, rfl, Shape.filled_branch.2 ⟨by omega, ?_, hfilled⟩⟩
  · refine Reshaped.branch (hr.mono (List.nil_subset _)) hown (only_put _ _) ⟨_, hpage⟩ ?_
    rw [load_put_self, hkeys, hids]
  · rw [List.flatMap_singleton, Shape.pairs_branch]
  · rw [List.flatMap_singleton, Shape.leaves_branch]
  · have hxw : x ≠ w := fun heq ↦ by
      rw [heq, hpage] at hsurf
      cases hsurf
    rw [load_put_ne _ hxw, hsurf]
  · rw [Shape.length_separators] at hroom
    omega

omit [LinearOrder K] in
/-- A full node is split around the child. -/
theorem insertChild_forked (hslot : slot < cs.length)
    (hfull : (Shape.separators cs).length = tr.interiorslots) :
    ∃ s₂ split ts, s₁.insertChild tr w slot k nc = some (s₂, split) ∧
      Widened tr lo w s s₁ s₂ cs cs' split ts := by
  have hpage := hr.page hown hload
  have hslotmax : tr.slotmax (h + 1) = tr.interiorslots := rfl
  have hmin : tr.minslots 1 = tr.minslots (h + 1) := rfl
  have htwo := Shape.two_le_minslots tr (h + 1)
  obtain ⟨s₂, nw, mid, heq, hfork, hw, hnw, hmid, hmid'⟩ :=
    insertChild_full slot nc k hpage
      ((hown.bound w List.mem_cons_self).trans hr.keeps.lastAddress) hfull
      (by rw [List.length_map, Shape.length_separators]; omega)
      (by rw [Shape.length_separators]; omega)
  dsimp only at heq hw hnw hmid'
  rw [hkeys] at heq hw hnw
  rw [hids] at hw hnw
  rw [Shape.length_separators] at hmid' hfull
  have hmidlt : mid + 1 < cs'.length := by omega
  have hsplit : cs'.take (mid + 1) ++ cs'.drop (mid + 1) = cs' := List.take_append_drop _ _
  have hkey : (Shape.branch w (cs'.take (mid + 1))).maxKey =
      getKey (Shape.separators cs') mid := by
    have hne := (hfilled _ (List.getElem_mem (by omega : mid < cs'.length))).pairs_ne_nil
      (le_trans (by decide) (Shape.two_le_minslots tr h))
    rw [← List.take_append_getElem (by omega : mid < cs'.length),
      Shape.maxKey_branch_concat hne, Shape.getKey_separators hmidlt]
  refine ⟨s₂, _, [Shape.branch w (cs'.take (mid + 1)), Shape.branch nw (cs'.drop (mid + 1))], heq,
    ?_, hfork.keeps, ?_, ?_, fun x n hx hsurf ↦ ?_, _, _, rfl, rfl, rfl, hkey,
    Shape.filled_branch.2 ⟨?_, ?_, fun d hd ↦ hfilled d (List.mem_of_mem_take hd)⟩,
    Shape.filled_branch.2 ⟨?_, ?_, fun d hd ↦ hfilled d (List.mem_of_mem_drop hd)⟩⟩
  · refine Reshaped.fork (hsplit.symm ▸ hr.mono (List.nil_subset _)) hown hfork ⟨_, hpage⟩ ?_ ?_
    · rw [hw, Shape.separators_take (by omega), List.map_take]
    · rw [hnw, Shape.separators_drop, List.map_drop]
  · conv_rhs => rw [← hsplit]
    simp only [List.flatMap_cons, List.flatMap_nil, List.append_nil, Shape.pairs_branch,
      List.flatMap_append]
  · conv_rhs => rw [← hsplit]
    simp only [List.flatMap_cons, List.flatMap_nil, List.append_nil, Shape.leaves_branch,
      List.flatMap_append]
  · have hxw : x ≠ w := fun heq ↦ by
      rw [heq, hpage] at hsurf
      cases hsurf
    have := hfork.fresh
    rw [hfork.load x hxw (by omega), hsurf]
  · rw [List.length_take]
    omega
  · rw [List.length_take]
    omega
  · rw [List.length_drop]
    omega
  · rw [List.length_drop]
    omega

end Widening

omit [LinearOrder K] in
/-- The child of a node was split: the node takes the new one. -/
theorem insertChild_spec {w : ℕ} {pre post : List (Shape K V h)} {a b c : Shape K V h}
    {cs : List (Shape K V h)} (hr : Reshaped [] s s₁ cs (pre ++ a :: b :: post))
    (hcs : cs = pre ++ c :: post)
    (hown : Owned s (Shape.branch w cs).pages) (hf : (Shape.branch w cs).Filled tr lo)
    (hload : s.load w = some (.interior ⟨h + 1, Shape.separators cs, cs.map Shape.addr⟩))
    (haddr : a.addr = c.addr) (hmax : post ≠ [] → b.maxKey = c.maxKey)
    (ha : a.Filled tr (tr.minslots h)) (hb : b.Filled tr (tr.minslots h)) :
    ∃ s₂ split ts, s₁.insertChild tr w pre.length a.maxKey b.addr = some (s₂, split) ∧
      Widened tr lo w s s₁ s₂ cs (pre ++ a :: b :: post) split ts := by
  have hkeys : (Shape.separators cs).insertIdx pre.length a.maxKey =
      Shape.separators (pre ++ a :: b :: post) := by
    rw [hcs, Shape.separators_insertIdx hmax]
  have hids : (cs.map Shape.addr).insertIdx (pre.length + 1) b.addr =
      (pre ++ a :: b :: post).map Shape.addr := by
    have := insertIdx_length_append (pre.map Shape.addr ++ [c.addr]) (post.map Shape.addr) b.addr
    simpa [hcs, haddr] using this
  have hfilled : ∀ d ∈ pre ++ a :: b :: post, d.Filled tr (tr.minslots h) := fun d hd ↦ by
    rw [List.mem_append, List.mem_cons, List.mem_cons] at hd
    rcases hd with hd | rfl | rfl | hd
    · exact hf.2.2 d (hcs ▸ List.mem_append_left _ hd)
    · exact ha
    · exact hb
    · exact hf.2.2 d (hcs ▸ List.mem_append_right _ (List.mem_cons_of_mem _ hd))
  have hlen : (pre ++ a :: b :: post).length = cs.length + 1 := by
    rw [hcs]
    simp only [List.length_append, List.length_cons]
    omega
  obtain ⟨hlo, hmaxlen, -⟩ := Shape.filled_branch.1 hf
  by_cases hfull : (Shape.separators cs).length = tr.interiorslots
  · refine insertChild_forked hr hown hload hfilled hkeys hids hlen ?_ hfull
    rw [hcs, List.length_append, List.length_cons]
    omega
  · exact insertChild_widened hr hown hload hfilled hkeys hids hlen hlo hmaxlen hfull

section Above

variable {w : ℕ} {cs pre post ts : List (Shape K V h)} {c : Shape K V h} {r : Inserted K}

/-- The children of a node after an insertion below one of them. -/
theorem Grown.children (hg : Grown tr lo s s₁ c key value r ts) (ha : cs = pre ++ c :: post)
    (hcs : ∀ d ∈ cs, Stored s d) (hown : Owned s (cs.flatMap Shape.pages)) :
    Reshaped [] s s₁ cs (pre ++ (ts ++ post)) := by
  subst ha
  have hr : Reshaped [] s s₁ (pre ++ ([c] ++ post)) (pre ++ (ts ++ post)) :=
    hg.reshaped.context (fun d hd ↦ hcs d (List.mem_append_left _ hd))
      (fun d hd ↦ hcs d (List.mem_append_right _ (List.mem_cons_of_mem _ hd)))
      hown fun x hx ↦ absurd hx List.not_mem_nil
  exact hr

private theorem Grown.pairs_children (hg : Grown tr lo s s₁ c key value r ts)
    (ha : cs = pre ++ c :: post)
    (hbelow : Below (pre.flatMap Shape.pairs) key) (habove : Above (post.flatMap Shape.pairs) key) :
    (pre ++ (ts ++ post)).flatMap Shape.pairs = insertKey key value (cs.flatMap Shape.pairs) := by
  rw [ha, Shape.flatMap_mid, insertKey_append hbelow habove, ← hg.pairs,
    List.flatMap_append, List.flatMap_append]

private theorem Grown.inserted_children (hg : Grown tr lo s s₁ c key value r ts)
    (ha : cs = pre ++ c :: post) (hbelow : Below (pre.flatMap Shape.pairs) key)
    (habove : Above (post.flatMap Shape.pairs) key) :
    r.inserted = true ↔ key ∉ (cs.flatMap Shape.pairs).map Prod.fst := by
  rw [hg.inserted, ha, Shape.flatMap_mid, hbelow.mem_append_iff habove]

variable (hload : s.load w = some (.interior ⟨h + 1, Shape.separators cs, cs.map Shape.addr⟩))
  (hcs : ∀ d ∈ cs, Stored s d) (hf : (Shape.branch w cs).Filled tr lo)
  (hown : Owned s (Shape.branch w cs).pages) (ha : cs = pre ++ c :: post)
  (hbelow : Below (pre.flatMap Shape.pairs) key) (habove : Above (post.flatMap Shape.pairs) key)
  (hle : post ≠ [] → key ≤ c.maxKey) (hg : Grown tr (tr.minslots h) s s₁ c key value r ts)

include hload hcs hf hown ha hbelow habove hle hg

/-- The node keeps its children where the one below did not split. -/
theorem Grown.parent (hlo : 1 ≤ lo) (hsplit : r.split = none) :
    ∃ ts', Grown tr lo s s₁ (Shape.branch w cs) key value r ts' := by
  obtain ⟨hlen, hmaxlen, hfilled⟩ := Shape.filled_branch.1 hf
  have hr := hg.children ha hcs (owned_children hown)
  have hpage := hr.page hown hload
  have hpairs := hg.pairs_children ha hbelow habove
  have hnodes := hg.nodes
  rw [hsplit] at hnodes
  obtain ⟨c', rfl, haddr, hfc⟩ := hnodes
  have hne : c.pairs ≠ [] :=
    (hfilled c (ha ▸ List.mem_append_right _ List.mem_cons_self)).pairs_ne_nil
    (le_trans (by decide) (Shape.two_le_minslots tr h))
  have hlast : post ≠ [] → c'.maxKey = c.maxKey := fun hpost ↦ by
    have hpairs := hg.pairs
    rw [List.flatMap_singleton] at hpairs
    rw [Shape.maxKey, hpairs, Shape.lastKey_insertKey hne (hle hpost), Shape.maxKey]
  have hcount : cs.length = (pre ++ ([c'] ++ post)).length := by rw [ha]; simp
  obtain ⟨hit, v, hderef⟩ := hg.iterator
  refine ⟨[Shape.branch w (pre ++ ([c'] ++ post))], ?_, ?_,
    hg.inserted_children ha hbelow habove, ⟨?_, v, hderef⟩, hg.registered, ?_⟩
  · refine Reshaped.branch (hr.mono (List.nil_subset _)) hown (Only.refl _ _) ⟨_, hpage⟩ ?_
    rw [hpage]
    show some (Node.interior ⟨h + 1, Shape.separators cs, cs.map Shape.addr⟩) =
      some (Node.interior ⟨h + 1, Shape.separators (pre ++ c' :: post),
        (pre ++ c' :: post).map Shape.addr⟩)
    rw [Shape.separators_congr hlast, ha, List.map_append, List.map_append, List.map_cons,
      List.map_cons, haddr]
  · rw [List.flatMap_singleton, Shape.pairs_branch, hpairs]
    rfl
  · rw [List.flatMap_singleton, Shape.leaves_branch, List.flatMap_append, List.flatMap_append]
    exact List.mem_append_right _ (List.mem_append_left _ hit)
  · rw [hsplit]
    refine ⟨_, rfl, rfl, Shape.filled_branch.2 ⟨by omega, by omega, fun d hd ↦ ?_⟩⟩
    rcases List.mem_append.1 hd with hd | hd
    · exact hfilled d (ha ▸ List.mem_append_left _ hd)
    · rcases List.mem_cons.1 hd with rfl | hd
      · exact hfc.mono (le_max_left _ _)
      · exact hfilled d (ha ▸ List.mem_append_right _ (List.mem_cons_of_mem _ hd))

/-- The node takes the neighbour of the one below that has split. It is registered once more. -/
theorem Grown.parent_split {k : K} {nc : ℕ} (hsplit : r.split = some (k, nc)) :
    ∃ s₂ split ts', ((s₁.change nc).bind fun s ↦ s.insertChild tr w pre.length k nc) =
        some (s₂, split) ∧
      Grown tr lo s s₂ (Shape.branch w cs) key value { r with split := split } ts' := by
  obtain ⟨hlen, hmaxlen, hfilled⟩ := Shape.filled_branch.1 hf
  have hr := hg.children ha hcs (owned_children hown)
  have hpairs := hg.pairs_children ha hbelow habove
  have hnodes := hg.nodes
  rw [hsplit] at hnodes
  obtain ⟨a, b, rfl, haddr, rfl, rfl, hfa, hfb⟩ := hnodes
  have htwo := le_trans (by decide : 1 ≤ 2) (Shape.two_le_minslots tr h)
  have hne : c.pairs ≠ [] :=
    (hfilled c (ha ▸ List.mem_append_right _ List.mem_cons_self)).pairs_ne_nil htwo
  have hmax : post ≠ [] → b.maxKey = c.maxKey := fun hpost ↦ by
    have hpairs := hg.pairs
    rw [List.flatMap_cons, List.flatMap_singleton] at hpairs
    rw [Shape.maxKey, ← Shape.lastKey_append (hfb.pairs_ne_nil htwo), hpairs,
      Shape.lastKey_insertKey hne (hle hpost), Shape.maxKey]
  obtain ⟨nb, hb⟩ : ∃ n, s₁.load b.addr = some n :=
    (hg.reshaped.stored b (List.mem_cons_of_mem _ (List.mem_singleton_self _))).exists_load
  obtain ⟨s₂, split, ts, heq₂, hr₂, hkeep₂, hpairs₂, hleaves₂, hsurf, hnodes₂⟩ :=
    insertChild_spec (hr.then_only (only_register hb)) ha hown hf hload haddr hmax hfa hfb
  obtain ⟨hit, v, hderef⟩ := hg.iterator
  have hleaf : r.iterator.1 ∈ (pre ++ ([a, b] ++ post)).flatMap Shape.leaves := by
    rw [List.flatMap_append, List.flatMap_append]
    exact List.mem_append_right _ (List.mem_append_left _ hit)
  refine ⟨s₂, split, ts, ?_, hr₂, ?_, hg.inserted_children ha hbelow habove, ⟨?_, v, ?_⟩,
    hkeep₂.modified (List.mem_insert_iff.2 (.inr hg.registered)), hnodes₂⟩
  · rw [change_eq hb, Option.bind_some, heq₂]
  · rw [hpairs₂]
    exact hpairs
  · rw [hleaves₂]
    exact hleaf
  · obtain ⟨n, hn, hget⟩ := exists_of_deref hderef
    have hbound := (hr.owned (owned_children hown)).bound _ (Shape.flatMap_leaves_subset _ hleaf)
    have hload₂ := hsurf r.iterator.1 n hbound (by rw [load_put_same hb, hn])
    exact (deref_eq hload₂).trans hget

end Above

/-- `insert_descend` on a stored shape. The induction is on the height; the chain of leaves is
the one around the shape. -/
theorem insertDescend_spec (tr : Traits) (key : K) (value : V) (t : Shape K V h) {fuel : ℕ}
    (hfuel : h < fuel) (hst : Stored s t) (hf : t.Filled tr lo) (hlo : h ≠ 0 → 1 ≤ lo)
    (hs : Sorted t.pairs) (hown : Owned s t.pages) (hc : LeafChain s (A ++ (t.leaves ++ B))) :
    ∃ s' r ts, insertDescend tr fuel s t.addr key value = some (s', r) ∧
      Grown tr lo s s' t key value r ts := by
  induction h generalizing fuel lo s A B with
  | zero =>
    obtain ⟨fuel, rfl⟩ : ∃ f, fuel = f + 1 := ⟨fuel - 1, by omega⟩
    obtain ⟨w, kvs⟩ := t
    obtain ⟨n, p, hload⟩ := hst
    obtain ⟨s', r, ts, heq, hg⟩ := insertSurface_spec hload hs hf hown hc
    refine ⟨s', r, ts, ?_, hg⟩
    rw [insertDescend]
    show Option.bind (s.load w) _ = _
    rw [hload]
    exact heq
  | succ h ih =>
    obtain ⟨fuel, rfl⟩ : ∃ f, fuel = f + 1 := ⟨fuel - 1, by omega⟩
    obtain ⟨w, cs⟩ := t
    obtain ⟨hload, hcs⟩ := hst
    obtain ⟨hlen, hmaxlen, hfilled⟩ := Shape.filled_branch.1 hf
    have htwo := le_trans (by decide : 1 ≤ 2) (Shape.two_le_minslots tr h)
    have hne : ∀ c ∈ cs, c.pairs ≠ [] := fun c hc ↦ (hfilled c hc).pairs_ne_nil htwo
    have hlo' := hlo (Nat.succ_ne_zero h)
    obtain ⟨pre, c, post, ha, hbelow, habove, hle⟩ :=
      Shape.exists_child_lower (List.ne_nil_of_length_pos (by omega)) hne hs key
    have hmem : c ∈ cs := ha.eq ▸ List.mem_append_right _ List.mem_cons_self
    have hc' : LeafChain s ((A ++ pre.flatMap Shape.leaves) ++
        (c.leaves ++ (post.flatMap Shape.leaves ++ B))) := by
      have := hc
      simp only [Shape.leaves, ha.eq, Shape.flatMap_mid] at this
      simpa only [List.append_assoc] using this
    obtain ⟨s₁, r, ts, heq, hg⟩ := ih c (Nat.lt_of_succ_lt_succ hfuel) (hcs c hmem)
      (hfilled c hmem) (fun _ ↦ htwo) ((Shape.sorted_flatMap.1 hs).1 c hmem)
      (owned_child (ha.eq ▸ owned_children hown)) hc'
    have hstart : insertDescend tr (fuel + 1) s w key value =
        match r.split with
        | none => some (s₁, r)
        | some (k, nc) => ((s₁.change nc).bind fun s ↦ s.insertChild tr w pre.length k nc).bind
            fun x ↦ some (x.1, { r with split := x.2 }) := by
      rw [insertDescend]
      show Option.bind (s.load w) _ = _
      rw [hload]
      show Option.bind (insertDescend tr fuel s
        ((cs.map Shape.addr).getD (findLower (Shape.separators cs) key) 0) key value) _ = _
      rw [ha.getD_addr, heq, Option.bind_some, ha.slot]
      dsimp only
      cases r.split with
      | none => rfl
      | some out => exact (Option.bind_assoc _ _ _).symm
    show ∃ s' r ts, insertDescend tr (fuel + 1) s w key value = some (s', r) ∧ _
    rw [hstart]
    cases hsplit : r.split with
    | none =>
      obtain ⟨ts', hg'⟩ :=
        hg.parent hload hcs hf hown ha.eq hbelow habove hle hlo' hsplit
      exact ⟨s₁, r, ts', rfl, hg'⟩
    | some out =>
      obtain ⟨s₂, split, ts', heq₂, hg'⟩ :=
        hg.parent_split hload hcs hf hown ha.eq hbelow habove hle hsplit
      refine ⟨s₂, { r with split := split }, ts', ?_, hg'⟩
      show ((s₁.change out.2).bind fun s ↦ s.insertChild tr w pre.length out.1 out.2).bind _ = _
      rw [heq₂]
      rfl

end LibSpaces.Stx.Btree
