import LibSpaces.Stx.Underflow

/-!
# What a removal does to a tree

`erase_one_descend` of a child of `w` removes a pair below it, repairs the keys above it and
balances the child with a neighbour below `w`. Where it merges two children the page of `w` still
lists both: the caller takes the empty one out. The proof follows the recursion, each child
within the family of its parent.
-/

namespace LibSpaces.Stx.Btree

open LibSpaces.Base

variable {K V : Type} [LinearOrder K] [Inhabited K] {tr : Traits} {s s' s₁ s₂ : Btree K V} {h : ℕ}
  {w : ℕ} {pre post cs cs' : List (Shape K V h)} {c c' : Shape K V h}

/-! ### The page of the parent -/

omit [LinearOrder K] in
/-- A family stays one while its children are reshaped. -/
theorem Family.reshaped (hf : Family s w cs) (hr : Reshaped [w] s s' cs cs')
    (hpage : Lists s' w cs') : Family s' w cs' := by
  have hbound : w ≤ s.storage.lastAddress := hf.owned.bound w List.mem_cons_self
  have hcs : Owned s (cs.flatMap Shape.pages) :=
    hf.owned.of_count_le fun x ↦ List.count_le_count_cons
  have hown := hr.owned hcs
  have hone := hf.owned.count w
  rw [List.count_cons_self] at hone
  have hw : w ∉ cs'.flatMap Shape.pages := fun hmem ↦ by
    have := List.count_pos_iff.2 (hr.mem_pages hmem hbound)
    omega
  refine ⟨hpage, hr.stored, ⟨fun x ↦ ?_, fun x hx ↦ ?_, fun x hx ↦ ?_⟩, ?_⟩
  · by_cases hx : x = w
    · rw [hx, List.count_cons_self, List.count_eq_zero.2 hw]
    · rw [List.count_cons_of_ne (Ne.symm hx)]
      exact hown.count x
  · rcases List.mem_cons.1 hx with rfl | hx
    · exact hf.owned.pos x List.mem_cons_self
    · exact hown.pos x hx
  · rcases List.mem_cons.1 hx with rfl | hx
    · exact hbound.trans hr.keeps.lastAddress
    · exact hown.bound x hx
  · obtain ⟨A, B, hc⟩ := hf.chain
    exact ⟨A, B, hr.chain A B hc⟩

omit [LinearOrder K] [Inhabited K] in
/-- The page of a branch is none of its children's. -/
theorem not_mem_of_owned (hown : Owned s (w :: cs.flatMap Shape.pages)) :
    w ∉ cs.flatMap Shape.pages := fun hmem ↦ by
  have hone := hown.count w
  have := List.count_pos_iff.2 hmem
  rw [List.count_cons_self] at hone
  omega

omit [LinearOrder K] in
/-- The parent takes the new last key of a child or hands it up. -/
theorem updateLastkey_spec {place : Place} (hp : Placed w pre post place) (hw : w ≠ 0)
    (hpage : Lists s w (pre ++ c :: post)) (haddr : c'.addr = c.addr) :
    ∃ s' r, s.updateLastkey place (some c'.maxKey) = some (s', r) ∧ Only [w] s s' ∧
      Lists s' w (pre ++ c' :: post) ∧ r.notFound = false ∧ r.fixmerge = false ∧
      ∀ k, r.lastkey = some k ↔ post = [] ∧ k = c'.maxKey := by
  have hids : (pre ++ c' :: post).map Shape.addr = (pre ++ c :: post).map Shape.addr := by
    simp only [List.map_append, List.map_cons, haddr]
  have hparent : place.parent ≠ 0 := hp.parent ▸ hw
  have hload : s.interiorAt place.parent = some ⟨h + 1, Shape.separators (pre ++ c :: post),
      (pre ++ c :: post).map Shape.addr⟩ := hp.parent ▸ interiorAt_eq hpage
  have hstart : s.updateLastkey place (some c'.maxKey) =
      if place.parentslot < (Shape.separators (pre ++ c :: post)).length then
        some (s.put place.parent (.interior ⟨h + 1,
          (Shape.separators (pre ++ c :: post)).set place.parentslot c'.maxKey,
          (pre ++ c :: post).map Shape.addr⟩), Result.ok)
      else some (s, ⟨false, some c'.maxKey, false⟩) := by
    unfold updateLastkey
    rw [if_pos hparent, hload]
    rfl
  rw [hstart, hp.parentslot, Shape.length_separators, hp.parent]
  cases post with
  | nil =>
    rw [if_neg (by simp)]
    refine ⟨s, _, rfl, Only.refl _ _, ?_, rfl, rfl, fun k ↦ ?_⟩
    · rw [Lists, hids, Shape.separators_congr (b := c') (c := c) fun hne ↦ absurd rfl hne]
      exact hpage
    · exact ⟨fun hk ↦ ⟨rfl, (Option.some.inj hk).symm⟩, fun hk ↦ congrArg some hk.2.symm⟩
  | cons d post =>
    rw [if_pos (by simp)]
    refine ⟨_, _, rfl, only_put _ _, ?_, rfl, rfl, fun k ↦ ?_⟩
    · rw [Lists, load_put_self, hids,
        Shape.separators_set fun _ ↦ rfl]
    · exact ⟨nofun, fun hk ↦ absurd hk.1 (List.cons_ne_nil _ _)⟩

omit [LinearOrder K] in
private theorem Stored.exists_occupied (hst : Stored s c) (hf : c.Filled tr (tr.minslots h)) :
    ∃ n, s.load c.addr = some n ∧ n.occupants ≠ 0 := by
  have htwo := Shape.two_le_minslots tr h
  cases h with
  | zero =>
    obtain ⟨n, p, hload⟩ := hst
    refine ⟨_, hload, ?_⟩
    have := hf.1
    show (Leaf.kvs c).length ≠ 0
    omega
  | succ h =>
    refine ⟨_, hst.1, ?_⟩
    have := hf.1
    have hkeys := Shape.length_separators (Branch.children c)
    show (Shape.separators (Branch.children c)).length ≠ 0
    omega

omit [LinearOrder K] in
private theorem set_separators_self (pre : List (Shape K V h)) (m : Shape K V h)
    (post : List (Shape K V h)) :
    (Shape.separators (pre ++ m :: post)).set pre.length m.maxKey =
      Shape.separators (pre ++ m :: post) := by
  cases post with
  | nil =>
    refine List.set_eq_of_length_le ?_
    rw [Shape.length_separators, List.length_append, List.length_singleton, Nat.add_sub_cancel]
  | cons d post => exact Shape.separators_set fun _ ↦ rfl

omit [LinearOrder K] in
/-- The empty child is taken out. The key a parent of leaves writes again is there already. -/
theorem fixmerge_spec {slot : ℕ} (hpage : ListsEmptied s w slot cs) (hst : ∀ c ∈ cs, Stored s c)
    (hfill : ∀ c ∈ cs, c.Filled tr (tr.minslots h)) :
    ∃ s', s.fixmerge w slot = some s' ∧ Only [w] s s' ∧ Lists s' w cs := by
  obtain ⟨pre, m, post, e, k, rfl, hslot, hload, ne, hne, hempty⟩ := hpage
  have hm : m ∈ pre ++ m :: post := by simp
  obtain ⟨nm, hnm, hoccupied⟩ := (hst m hm).exists_occupied (hfill m hm)
  have hkeys : (pre.map Shape.maxKey ++ k :: Shape.separators (m :: post)).eraseIdx pre.length =
      Shape.separators (pre ++ m :: post) := by
    rw [← List.length_map (f := Shape.maxKey), eraseIdx_length_append,
      Shape.separators_append (List.cons_ne_nil _ _)]
  have hids : (pre.map Shape.addr ++ m.addr :: e :: post.map Shape.addr).eraseIdx
      (pre.length + 1) = (pre ++ m :: post).map Shape.addr := by
    have := eraseIdx_length_append (pre.map Shape.addr ++ [m.addr]) (post.map Shape.addr) e
    simpa using this
  -- either of the two children leads to the slot of the empty one
  obtain ⟨n, hn, hslot'⟩ : ∃ n, s.load
      ((pre.map Shape.addr ++ m.addr :: e :: post.map Shape.addr).getD slot 0) = some n ∧
      (if n.occupants ≠ 0 then slot + 1 else slot) = pre.length + 1 := by
    rcases hslot with rfl | rfl
    · refine ⟨nm, ?_, if_pos hoccupied⟩
      rwa [← List.length_map (f := Shape.addr), getD_length_append]
    · refine ⟨ne, ?_, if_neg (not_not.2 hempty)⟩
      have := getD_length_append (pre.map Shape.addr ++ [m.addr]) (post.map Shape.addr) e 0
      rw [List.length_append, List.length_map, List.length_singleton, List.append_assoc] at this
      exact (congrArg s.load this).trans hne
  have hmaddr : ((pre ++ m :: post).map Shape.addr).getD (pre.length + 1 - 1) 0 = m.addr := by
    rw [Nat.add_sub_cancel, List.map_append, ← List.length_map (f := Shape.addr)]
    exact getD_length_append ..
  refine ⟨s.put w (.interior ⟨h + 1, Shape.separators (pre ++ m :: post),
    (pre ++ m :: post).map Shape.addr⟩), ?_, only_put _ _, load_put_self _ _⟩
  rw [fixmerge, interiorAt_eq hload, Option.bind_eq_bind, Option.bind_some, hn]
  simp only [Option.bind_eq_bind, Option.bind_some]
  rw [hslot', Nat.add_sub_cancel, hkeys, hids]
  cases h with
  | succ h => rw [if_neg (by omega), Option.pure_def]
  | zero =>
    obtain ⟨x, kvs, rfl⟩ := m.exists_leaf
    obtain ⟨n, p, hx⟩ : ∃ n p, s.load x = some (.surface ⟨kvs, n, p⟩) := hst (Shape.leaf x kvs) hm
    rw [Nat.add_sub_cancel] at hmaddr
    rw [if_pos rfl, hmaddr, Shape.addr_leaf, surfaceAt_eq hx, Option.bind_some, Option.pure_def]
    have := set_separators_self pre (Shape.leaf x kvs) post
    rw [Shape.maxKey, Shape.pairs_leaf] at this
    rw [this]

/-! ### A pair is removed below one child -/

/-- What a removal hands up of the last key below a node. -/
structure LastKey (o : Option K) (before after : List (K × V)) : Prop where
  changed : ∀ k, o = some k → k = lastKey after
  kept : o = none → lastKey after = lastKey before

omit [LinearOrder K] in
private theorem updateLastkey_of_child {place : Place} {o : Option K} (hp : Placed w pre post place)
    (hw : w ≠ 0) (hpage : Lists s w (pre ++ c :: post)) (haddr : c'.addr = c.addr)
    (ho : LastKey o c.pairs c'.pairs) :
    ∃ s' r, (match o with
        | some k => s.updateLastkey place (some k)
        | none => some (s, Result.ok)) = some (s', r) ∧
      Only [w] s s' ∧ Lists s' w (pre ++ c' :: post) ∧ r.notFound = false ∧ r.fixmerge = false ∧
      ∀ k, r.lastkey = some k ↔ post = [] ∧ o = some k := by
  cases o with
  | none =>
    refine ⟨s, Result.ok, rfl, Only.refl _ _, ?_, rfl, rfl, fun k ↦ ⟨nofun, fun hk ↦ nomatch hk.2⟩⟩
    rw [Lists, Shape.separators_congr (b := c') (c := c) fun _ ↦ ho.kept rfl, List.map_append,
      List.map_cons, haddr, ← List.map_cons, ← List.map_append]
    exact hpage
  | some k =>
    obtain rfl : k = c'.maxKey := ho.changed k rfl
    obtain ⟨s', r, heq, honly, hpage', hfound, hfix, hlast⟩ :=
      updateLastkey_spec hp hw hpage haddr
    refine ⟨s', r, heq, honly, hpage', hfound, hfix, fun k ↦ (hlast k).trans ?_⟩
    exact and_congr_right
      fun _ ↦ ⟨fun hk ↦ congrArg some hk.symm, fun hk ↦ (Option.some.inj hk).symm⟩

/-- What the removal of `key` below the child of `w` at `slot` leaves of the children. -/
structure Erased (tr : Traits) (s s' : Btree K V) (w slot : ℕ) (cs cs' : List (Shape K V h))
    (key : K) (r : Result K) : Prop where
  reshaped : Reshaped [w] s s' cs cs'
  mem : key ∈ (cs.flatMap Shape.pairs).map Prod.fst
  pairs : cs'.flatMap Shape.pairs = eraseKey key (cs.flatMap Shape.pairs)
  filled : ∀ c ∈ cs', c.Filled tr (tr.minslots h)
  page : if r.fixmerge then ListsEmptied s' w slot cs' ∧ cs'.length + 1 = cs.length
    else Lists s' w cs' ∧ cs'.length = cs.length
  lastkey : LastKey r.lastkey (cs.flatMap Shape.pairs) (cs'.flatMap Shape.pairs)
  found : r.notFound = false
  dirty : s'.modified ≠ []

omit [LinearOrder K] in
/-- The last key below the children is that of the child unless there are others behind it. -/
theorem LastKey.flatMap {o o' : Option K} (ho : LastKey o c.pairs c'.pairs) (hne : c.pairs ≠ [])
    (hne' : c'.pairs ≠ []) (hpost : ∀ d ∈ post, d.pairs ≠ [])
    (ho' : ∀ k, o' = some k ↔ post = [] ∧ o = some k) :
    LastKey o' ((pre ++ c :: post).flatMap Shape.pairs)
      ((pre ++ c' :: post).flatMap Shape.pairs) := by
  cases post with
  | nil =>
    obtain rfl : o' = o := Option.ext fun k ↦ (ho' k).trans (and_iff_right rfl)
    simp only [Shape.flatMap_mid, List.flatMap_nil, List.append_nil]
    refine ⟨fun k hk ↦ ?_, fun hk ↦ ?_⟩
    · rw [Shape.lastKey_append hne']
      exact ho.changed k hk
    · rw [Shape.lastKey_append hne, Shape.lastKey_append hne']
      exact ho.kept hk
  | cons d post =>
    have hd : (d :: post).flatMap Shape.pairs ≠ [] := by
      obtain ⟨p, hp⟩ := List.exists_mem_of_ne_nil _ (hpost d List.mem_cons_self)
      exact List.ne_nil_of_mem (List.mem_flatMap.2 ⟨d, List.mem_cons_self, hp⟩)
    refine ⟨fun k hk ↦ absurd ((ho' k).1 hk).1 (List.cons_ne_nil _ _), fun _ ↦ ?_⟩
    simp only [Shape.flatMap_mid, ← List.append_assoc]
    rw [Shape.lastKey_append hd, Shape.lastKey_append hd]

/-- The child has changed and was balanced. -/
theorem Balanced.erased {key : K} {o : Option K} {r : Result K}
    (hb : Balanced tr s₁ s' w pre.length (pre ++ c' :: post) cs' r.fixmerge)
    (hr : Reshaped [w] s s₁ (pre ++ c :: post) (pre ++ c' :: post))
    (hbelow : Below (pre.flatMap Shape.pairs) key) (habove : Above (post.flatMap Shape.pairs) key)
    (hmem : key ∈ c.pairs.map Prod.fst) (hpairs : c'.pairs = eraseKey key c.pairs)
    (hne' : c'.pairs ≠ []) (hpost : ∀ d ∈ post, d.pairs ≠ []) (ho : LastKey o c.pairs c'.pairs)
    (hlast : ∀ k, r.lastkey = some k ↔ post = [] ∧ o = some k) (hfound : r.notFound = false)
    (hdirty : s₁.modified ≠ []) :
    Erased tr s s' w pre.length (pre ++ c :: post) cs' key r := by
  have hlen : (pre ++ c :: post).length = (pre ++ c' :: post).length := by
    rw [List.length_append, List.length_append, List.length_cons, List.length_cons]
  refine ⟨hr.trans hb.reshaped, ?_, ?_, hb.filled, ?_, ?_, hfound, hb.reshaped.keeps.dirty hdirty⟩
  · rw [Shape.flatMap_mid, List.map_append, List.map_append]
    exact List.mem_append_right _ (List.mem_append_left _ hmem)
  · rw [hb.pairs, Shape.flatMap_mid, Shape.flatMap_mid, eraseKey_append hbelow habove, hpairs]
  · rw [hlen]
    exact hb.page
  · rw [hb.pairs]
    exact ho.flatMap (fun hnil ↦ by simp [hnil] at hmem) hne' hpost hlast

/-! ### The leaf -/

/-- A removal that has not found its key registers pages only. -/
structure Missed (s s' : Btree K V) (pairs : List (K × V)) (key : K) (r : Result K) : Prop where
  only : Only [] s s'
  not_mem : key ∉ pairs.map Prod.fst
  notFound : r.notFound = true
  dirty : s'.modified ≠ []

omit [LinearOrder K] in
/-- The pages of the neighbours of a node are there. -/
theorem Between.loads {t : Shape K V h} {place : Place} (hb : Between tr s t place)
    (hkeep : Extends s s') : (place.left = 0 ∨ (s'.load place.left).isSome) ∧
      (place.right = 0 ∨ (s'.load place.right).isSome) := by
  have hload {x : ℕ} (hx : Neighbour tr s h x) : x = 0 ∨ (s'.load x).isSome := by
    rcases hx with hx | ⟨t, rfl, hst, -⟩
    · exact .inl hx
    · obtain ⟨n, hn⟩ := hst.exists_load
      exact .inr (hkeep.loads _ (Option.isSome_iff_exists.2 ⟨n, hn⟩))
  exact ⟨hload hb.left, hload hb.right⟩

/-- A key that is not in the leaf: nothing but the registration of the page happens. -/
theorem eraseSurface_missed {l n p : ℕ} {C D : List (K × V)} {place : Place} {key : K}
    (hload : s.load l = some (.surface ⟨C ++ D, n, p⟩))
    (hnot : ¬ (findLower ((C ++ D).map Prod.fst) key < (C ++ D).length ∧
      key = getKey ((C ++ D).map Prod.fst) (findLower ((C ++ D).map Prod.fst) key)))
    (hC : Below C key) (hD : Above D key) :
    s.eraseSurface tr l ⟨C ++ D, n, p⟩ key place =
        some (s.put l (.surface ⟨C ++ D, n, p⟩), ⟨true, none, false⟩) ∧
      Missed s (s.put l (.surface ⟨C ++ D, n, p⟩)) (C ++ D) key ⟨true, none, false⟩ := by
  refine ⟨?_, only_register hload, ?_, rfl, modified_put_ne_nil _ _⟩
  · have hmissed :
        findLower ((C ++ D).map Prod.fst) key ≥ (C ++ D).length ∨
          key ≠ getKey ((C ++ D).map Prod.fst) (findLower ((C ++ D).map Prod.fst) key) := by
      by_contra hcon
      rw [not_or, not_le, not_not] at hcon
      exact hnot hcon
    rw [eraseSurface]
    dsimp only
    rw [if_pos hmissed, change_eq hload]
    rfl
  · exact hC.not_mem_append hD

/-- A key of the leaf: its pair goes, the separator above is updated where it was the last one, and
the leaf is balanced. -/
theorem eraseSurface_found {l n p : ℕ} {C D : List (K × V)} {place : Place} {key : K} {v : V}
    (hslot : C.length = findLower ((C ++ (key, v) :: D).map Prod.fst) key)
    (hfound : findLower ((C ++ (key, v) :: D).map Prod.fst) key < (C ++ (key, v) :: D).length ∧
      key = getKey ((C ++ (key, v) :: D).map Prod.fst)
        (findLower ((C ++ (key, v) :: D).map Prod.fst) key)) (hne : C ++ D ≠ []) :
    s.eraseSurface tr l ⟨C ++ (key, v) :: D, n, p⟩ key place =
      (match if D = [] then some (lastKey (C ++ D)) else none with
        | some k => (s.put l (.surface ⟨C ++ D, n, p⟩)).updateLastkey place (some k)
        | none => some (s.put l (.surface ⟨C ++ D, n, p⟩), Result.ok)).bind
        fun x ↦ x.1.balanceSurface tr l place x.2 := by
  have herase : (C ++ (key, v) :: D).eraseIdx C.length = C ++ D := eraseIdx_length_append ..
  have hfound' :
      ¬(findLower ((C ++ (key, v) :: D).map Prod.fst) key ≥ (C ++ (key, v) :: D).length ∨
      key ≠ getKey ((C ++ (key, v) :: D).map Prod.fst)
        (findLower ((C ++ (key, v) :: D).map Prod.fst) key)) := by
    rw [not_or, not_le, not_not]
    exact hfound
  have hlen : C.length = (C ++ D).length ↔ D = [] := by
    rw [List.length_append, ← List.length_eq_zero_iff]
    omega
  have hpos : (C ++ D).length ≥ 1 := List.length_pos_of_ne_nil hne
  rw [eraseSurface]
  dsimp only
  rw [if_neg hfound', ← hslot, herase]
  by_cases hD : D = []
  · rw [if_pos hD]
    refine (if_pos (hlen.2 hD)).trans ?_
    rw [if_pos hpos]
    rfl
  · rw [if_neg hD]
    exact if_neg (hlen.not.2 hD)

private theorem eraseSurface_spec {l n p : ℕ} {kvs : List (K × V)} {pre post : List (Shape K V 0)}
    {place : Place} {key : K} (hf : Family s w (pre ++ Shape.leaf l kvs :: post))
    (hload : s.load l = some (.surface ⟨kvs, n, p⟩))
    (hfill : ∀ c ∈ pre ++ Shape.leaf l kvs :: post, c.Filled tr (tr.minslots 0))
    (hs : Sorted kvs) (hbelow : Below (pre.flatMap Shape.pairs) key)
    (habove : Above (post.flatMap Shape.pairs) key) (hne : pre ≠ [] ∨ post ≠ [])
    (hroot : l ≠ s.root) (hb : Between tr s (Shape.leaf l kvs) place)
    (hp : Placed w pre post place) :
    ∃ s' r, s.eraseSurface tr l ⟨kvs, n, p⟩ key place = some (s', r) ∧
      (Missed s s' kvs key r ∨
        ∃ cs', Erased tr s s' w pre.length (pre ++ Shape.leaf l kvs :: post) cs' key r) := by
  have htwo := Shape.two_le_minslots tr 0
  obtain ⟨hlo, hmax⟩ := Shape.filled_leaf.1 (hfill (Shape.leaf l kvs) (by simp))
  obtain ⟨C, D, rfl, hslot, hC, ⟨hfound, v, D, rfl, hD⟩ | ⟨hnot, hD⟩⟩ := exists_leaf_cut hs key
  · have hpost : ∀ d ∈ post, d.pairs ≠ [] :=
      fun d hd ↦ pairs_ne_nil_of_filled (hfill d (by simp [hd]))
    rw [List.length_append, List.length_cons] at hlo hmax
    have hlen : (C ++ D).length = C.length + D.length := List.length_append
    have hkvs' : C ++ D ≠ [] := List.ne_nil_of_length_pos (by omega)
    have hw : w ≠ 0 := (hf.owned.pos w List.mem_cons_self).ne'
    have hnot := not_mem_of_owned hf.owned
    have hlw : w ≠ l := by
      rintro rfl
      exact hnot (List.mem_flatMap.2
        ⟨Shape.leaf w (C ++ (key, v) :: D), by simp, List.mem_singleton_self w⟩)
    obtain ⟨s₁, hs₁⟩ : ∃ s₁, s.put l (.surface ⟨C ++ D, n, p⟩) = s₁ := ⟨_, rfl⟩
    have hstored := hf.stored (Shape.leaf l (C ++ (key, v) :: D)) (by simp)
    have hown : Owned s ((pre ++ Shape.leaf l (C ++ (key, v) :: D) :: post).flatMap Shape.pages) :=
      hf.owned.of_count_le fun x ↦ List.count_le_count_cons
    have hleaf : Reshaped [] s s₁ [Shape.leaf l (C ++ (key, v) :: D)] [Shape.leaf l (C ++ D)] :=
      hs₁ ▸ (Reshaped.refl [] fun t ht ↦ List.mem_singleton.1 ht ▸ hstored).then_leaf [] []
        (by simpa using owned_child hown) hload
    have hchanged : Reshaped [w] s s₁ (pre ++ ([Shape.leaf l (C ++ (key, v) :: D)] ++ post))
        (pre ++ ([Shape.leaf l (C ++ D)] ++ post)) :=
      (hleaf.context (fun c hc ↦ hf.stored c (by simp [hc])) (fun c hc ↦ hf.stored c (by simp [hc]))
        hown fun x hx ↦ absurd hx List.not_mem_nil).mono (List.nil_subset _)
    have hpage : Lists s₁ w (pre ++ Shape.leaf l (C ++ (key, v) :: D) :: post) := by
      rw [Lists, ← hs₁, load_put_ne _ hlw]
      exact hf.page
    -- the last key of the leaf has changed if nothing is left behind the removed pair
    obtain ⟨o, hoD⟩ : ∃ o, (if D = [] then some (lastKey (C ++ D)) else none) = o := ⟨_, rfl⟩
    have ho : LastKey o (C ++ (key, v) :: D) (C ++ D) := by
      subst hoD
      split
      next hD => exact ⟨fun k hk ↦ (Option.some.inj hk).symm, nofun⟩
      next hD =>
        refine ⟨nofun, fun _ ↦ ?_⟩
        rw [Shape.lastKey_append hD, Shape.lastKey_append (List.cons_ne_nil _ _),
          ← List.singleton_append, Shape.lastKey_append hD]
    obtain ⟨s₂, r₂, heq, honly, hpage₂, hnf, hfix, hlast⟩ :=
      updateLastkey_of_child hp hw hpage
        (show (Shape.leaf l (C ++ D)).addr = (Shape.leaf l (C ++ (key, v) :: D)).addr from rfl) ho
    have hr : Reshaped [w] s s₂ (pre ++ ([Shape.leaf l (C ++ (key, v) :: D)] ++ post))
        (pre ++ ([Shape.leaf l (C ++ D)] ++ post)) :=
      hchanged.then_other honly (List.mem_singleton_self w)
        (hf.owned.bound w List.mem_cons_self) hnot (.interior hpage hpage₂)
    obtain ⟨hleft, hright⟩ := hb.loads hr.keeps
    obtain ⟨s₃, r, cs', heq', hbal, hlastkey, hnotFound⟩ :=
      balanceSurface_spec (hf.reshaped hr hpage₂) hp hleft hright
        (fun c hc ↦ hfill c (mem_cons_between _ hc)) (by omega) (by omega) hne
        (hr.keeps.root ▸ hroot) hfix
    refine ⟨s₃, r, ?_, .inr ⟨cs', hbal.erased (o := o) hr hbelow habove ?_ ?_ hkvs' hpost ho ?_ ?_
      ?_⟩⟩
    · rw [eraseSurface_found hslot hfound hkvs', hoD, hs₁, heq]
      exact heq'
    · simp
    · exact (eraseKey_mid hC hD).symm
    · rw [hlastkey]
      exact hlast
    · rw [hnotFound, hnf]
    · exact honly.keeps.dirty (hs₁ ▸ modified_put_ne_nil _ _)
  · obtain ⟨heq, hm⟩ := eraseSurface_missed hload hnot hC hD
    exact ⟨_, _, heq, .inl hm⟩

/-! ### The nodes above -/

section Above

variable {x slot : ℕ} {ds ds' : List (Shape K V h)} {key : K} {r : Result K}

omit [LinearOrder K] in
private theorem ListsEmptied.of_only (hp : ListsEmptied s x slot ds) (ho : Only [w] s s')
    (hx : x ≠ w) (hw : ∃ n, s.load w = some n ∧ n.occupants ≠ 0) : ListsEmptied s' x slot ds := by
  obtain ⟨pre, m, post, e, k, heq, hslot, hload, n, hn, hempty⟩ := hp
  have he : e ≠ w := by
    rintro rfl
    obtain ⟨n', hn', hoccupied⟩ := hw
    rw [hn] at hn'
    exact hoccupied (Option.some.inj hn' ▸ hempty)
  refine ⟨pre, m, post, e, k, heq, hslot, ?_, n, ?_, hempty⟩
  · rw [ho.load x fun hmem ↦ hx (List.mem_singleton.1 hmem), hload]
  · rw [ho.load e fun hmem ↦ he (List.mem_singleton.1 hmem), hn]

omit [LinearOrder K] in
/-- The page of a node lists its children again. -/
theorem fixmerge_of_page {merged : Bool} {n : ℕ}
    (hpage : if merged then ListsEmptied s x slot ds ∧ ds.length + 1 = n
      else Lists s x ds ∧ ds.length = n)
    (hst : ∀ d ∈ ds, Stored s d) (hfill : ∀ d ∈ ds, d.Filled tr (tr.minslots h)) :
    ∃ s', (if merged then s.fixmerge x slot else some s) = some s' ∧ Only [x] s s' ∧
      Lists s' x ds ∧ n ≤ ds.length + 1 ∧ ds.length ≤ n := by
  cases merged with
  | true =>
    obtain ⟨s', heq, honly, hlists⟩ := fixmerge_spec hpage.1 hst hfill
    have hlen : ds.length + 1 = n := hpage.2
    exact ⟨s', heq, honly, hlists, by omega, by omega⟩
  | false =>
    have hlen : ds.length = n := hpage.2
    exact ⟨s, rfl, Only.refl _ _, hpage.1, by omega, by omega⟩

/-- The node above is still an interior node. -/
theorem Erased.exists_interior (he : Erased tr s s' w slot cs cs' key r) :
    ∃ m, s'.load w = some (.interior m) := by
  have hpage := he.page
  split at hpage
  · obtain ⟨⟨_, _, _, _, _, -, -, hload, -⟩, -⟩ := hpage
    exact ⟨_, hload⟩
  · exact ⟨_, hpage.1⟩

/-- What follows in a node after the removal below its child. -/
theorem Erased.parent {place : Place} {pre post : List (Shape K V (h + 1))}
    (he : Erased tr s s₁ x slot ds ds' key r)
    (hf : Family s w (pre ++ Shape.branch x ds :: post))
    (hfill : ∀ c ∈ pre ++ Shape.branch x ds :: post, c.Filled tr (tr.minslots (h + 1)))
    (hbelow : Below (pre.flatMap Shape.pairs) key) (habove : Above (post.flatMap Shape.pairs) key)
    (hne : pre ≠ [] ∨ post ≠ []) (hroot : x ≠ s.root)
    (hb : Between tr s (Shape.branch x ds) place) (hp : Placed w pre post place) :
    ∃ s' r', ((match r.lastkey with
        | some k => s₁.updateLastkey place (some k)
        | none => some (s₁, Result.ok)).bind fun y ↦
          (if r.fixmerge then y.1.fixmerge x slot else some y.1).bind fun s ↦
            s.balanceInterior tr x place y.2) = some (s', r') ∧
      ∃ cs', Erased tr s s' w pre.length (pre ++ Shape.branch x ds :: post) cs' key r' := by
  have htwo := Shape.two_le_minslots tr (h + 1)
  obtain ⟨hlo, hmax, hds⟩ := Shape.filled_branch.1 (hfill (Shape.branch x ds) (by simp))
  have hpost : ∀ d ∈ post, d.pairs ≠ [] :=
    fun d hd ↦ pairs_ne_nil_of_filled (hfill d (by simp [hd]))
  have hw : w ≠ 0 := (hf.owned.pos w List.mem_cons_self).ne'
  have hbound : w ≤ s.storage.lastAddress := hf.owned.bound w List.mem_cons_self
  have hnot := not_mem_of_owned hf.owned
  have hnot' : w ∉ (Shape.branch x ds).pages := fun hmem ↦
    hnot (List.mem_flatMap.2 ⟨Shape.branch x ds, by simp, hmem⟩)
  rw [Shape.pages_branch, List.mem_cons, not_or] at hnot'
  have hown : Owned s ((pre ++ Shape.branch x ds :: post).flatMap Shape.pages) :=
    hf.owned.of_count_le fun x ↦ List.count_le_count_cons
  have hpage : Lists s₁ w (pre ++ Shape.branch x ds :: post) :=
    load_interior_of_core hf.page (he.reshaped.frame w hbound
      (fun hmem ↦ hnot'.1 (List.mem_singleton.1 hmem)) hnot'.2)
  have hoccupied : ∃ n, s₁.load w = some n ∧ n.occupants ≠ 0 := by
    refine ⟨_, hpage, ?_⟩
    have hlen : (pre ++ Shape.branch x ds :: post).length = pre.length + (post.length + 1) := by
      rw [List.length_append, List.length_cons]
    have hpos := hne.imp List.length_pos_of_ne_nil List.length_pos_of_ne_nil
    show (Shape.separators _).length ≠ 0
    rw [Shape.length_separators]
    omega
  have hds' : w ∉ ds'.flatMap Shape.pages := fun hmem ↦
    hnot'.2 (he.reshaped.mem_pages hmem hbound)
  -- the key above, then the page of the node itself
  obtain ⟨s₂, r₂, heq₂, honly₂, hpage₂, hnf, hfix, hlast⟩ := updateLastkey_of_child
    hp hw hpage (show (Shape.branch x ds').addr = (Shape.branch x ds).addr from rfl) he.lastkey
  have hx : x ≠ w := Ne.symm hnot'.1
  have hpage' : if r.fixmerge then ListsEmptied s₂ x slot ds' ∧ ds'.length + 1 = ds.length
      else Lists s₂ x ds' ∧ ds'.length = ds.length := by
    have hpage' := he.page
    by_cases hfix : r.fixmerge = true
    · rw [if_pos hfix] at hpage' ⊢
      exact ⟨hpage'.1.of_only honly₂ hx hoccupied, hpage'.2⟩
    · rw [if_neg hfix] at hpage' ⊢
      rw [Lists, honly₂.load x fun hmem ↦ hx (List.mem_singleton.1 hmem)]
      exact hpage'
  have hst₂ : ∀ d ∈ ds', Stored s₂ d := fun d hd ↦
    (he.reshaped.stored d hd).of_load_eq fun y hy ↦ honly₂.load y fun hmem ↦ hds'
      (List.mem_singleton.1 hmem ▸ List.mem_flatMap.2 ⟨d, hd, hy⟩)
  obtain ⟨s₃, heq₃, honly₃, hlists, hlen, hlen'⟩ := fixmerge_of_page hpage' hst₂ he.filled
  have hr : Reshaped [w] s s₃ (pre ++ ([Shape.branch x ds] ++ post))
      (pre ++ ([Shape.branch x ds'] ++ post)) := by
    have hchildren : Reshaped [x, w] s s₂ ds ds' :=
      (he.reshaped.mono (List.cons_subset_cons x (List.nil_subset _))).then_other honly₂ (by simp)
        hbound hnot'.2 (.interior hpage hpage₂)
    obtain ⟨m, hm⟩ := he.exists_interior
    have hx : s₂.load x = some (.interior m) := by
      rw [honly₂.load x fun hmem ↦ hnot'.1 (List.mem_singleton.1 hmem).symm, hm]
    refine (hchildren.branch (owned_child hown) honly₃ ⟨m, hx⟩ hlists).context
      (fun c hc ↦ hf.stored c (by simp [hc])) (fun c hc ↦ hf.stored c (by simp [hc])) hown
      fun y hy ↦ ?_
    rw [List.mem_singleton.1 hy]
    simp only [Shape.flatMap_mid, List.mem_append, not_or] at hnot
    exact ⟨hnot.1, hnot.2.2⟩
  have hpage₃ : Lists s₃ w (pre ++ Shape.branch x ds' :: post) := by
    rw [Lists, honly₃.load w fun hmem ↦ hnot'.1 (List.mem_singleton.1 hmem)]
    exact hpage₂
  obtain ⟨hleft, hright⟩ := hb.loads hr.keeps
  obtain ⟨s₄, r', cs', heq₄, hbal, hlastkey, hnotFound⟩ :=
    balanceInterior_spec (hf.reshaped hr hpage₃) hp hleft hright
      (fun c hc ↦ hfill c (mem_cons_between _ hc)) he.filled (by omega) (by omega) hne
      (hr.keeps.root ▸ hroot) hfix
  have hds'ne : (Shape.branch x ds').pairs ≠ [] := by
    obtain ⟨d, hd⟩ := List.exists_mem_of_length_pos (by omega : 0 < ds'.length)
    obtain ⟨p, hp⟩ := List.exists_mem_of_ne_nil _ (pairs_ne_nil_of_filled (he.filled d hd))
    exact List.ne_nil_of_mem (List.mem_flatMap.2 ⟨d, hd, hp⟩)
  refine ⟨s₄, r', ?_, cs', hbal.erased (o := r.lastkey) hr hbelow habove he.mem he.pairs
    hds'ne hpost he.lastkey ?_ ?_ ?_⟩
  · rw [heq₂, Option.bind_some, heq₃, Option.bind_some, heq₄]
  · rw [hlastkey]
    exact hlast
  · rw [hnotFound, hnf]
  · exact honly₃.keeps.dirty (honly₂.keeps.dirty he.dirty)

/-- The descent into one child, if the removal below each child does what it is to do. -/
theorem eraseOneDescend_branch (fuel : ℕ) {place : Place} (hf : Family s x ds)
    (hfill : ∀ d ∈ ds, d.Filled tr (tr.minslots h)) (hne : ds ≠ [])
    (hs : Sorted (ds.flatMap Shape.pairs)) (hb : Between tr s (Shape.branch x ds) place)
    (ih : ∀ pre d post below, ds = pre ++ d :: post → Between tr s d below →
      Placed x pre post below → Below (pre.flatMap Shape.pairs) key →
      Above (post.flatMap Shape.pairs) key → ∃ s' r,
        eraseOneDescend tr fuel s key d.addr below = some (s', r) ∧
        (Missed s s' d.pairs key r ∨ ∃ ds', Erased tr s s' x pre.length ds ds' key r)) :
    ∃ s₁ r slot, eraseOneDescend tr (fuel + 1) s key x place =
        (if r.notFound then some (s₁, r) else
          (match r.lastkey with
            | some k => s₁.updateLastkey place (some k)
            | none => some (s₁, Result.ok)).bind fun y ↦
              (if r.fixmerge then y.1.fixmerge x slot else some y.1).bind fun s ↦
                s.balanceInterior tr x place y.2) ∧
      (Missed s s₁ (ds.flatMap Shape.pairs) key r ∨ ∃ ds', Erased tr s s₁ x slot ds ds' key r) := by
  obtain ⟨pre, d, post, ha, hbelow, habove, -⟩ := Shape.exists_child_lower hne
    (fun d hd ↦ pairs_ne_nil_of_filled (hfill d hd)) hs key
  obtain ⟨below, hplace, hbd, hpd⟩ := childPlace_spec hb ha hf.stored hfill hf.owned
  obtain ⟨s₁, r, heq, hdone⟩ := ih pre d post below ha.eq hbd hpd hbelow habove
  refine ⟨s₁, r, pre.length, ?_, ?_⟩
  · rw [eraseOneDescend]
    show Option.bind (s.load x) _ = _
    rw [hf.page, Option.bind_some]
    dsimp only
    rw [hplace, Option.bind_eq_bind, Option.bind_some, ha.getD_addr, heq, ← ha.slot]
    obtain ⟨notFound, lastkey, fixmerge⟩ := r
    cases notFound with
    | true => rfl
    | false => cases lastkey <;> cases fixmerge <;> rfl
  · refine hdone.imp_left fun hm ↦ ⟨hm.only, ?_, hm.notFound, hm.dirty⟩
    rw [ha.eq, Shape.flatMap_mid, hbelow.mem_append_iff habove]
    exact hm.not_mem

end Above

/-- `erase_one_descend` of a child of `w`. The induction is on the height of the child. -/
theorem eraseOneDescend_spec {key : K} (c : Shape K V h) {fuel : ℕ} {place : Place}
    (hfuel : h < fuel) (hf : Family s w (pre ++ c :: post))
    (hfill : ∀ d ∈ pre ++ c :: post, d.Filled tr (tr.minslots h)) (hs : Sorted c.pairs)
    (hbelow : Below (pre.flatMap Shape.pairs) key) (habove : Above (post.flatMap Shape.pairs) key)
    (hne : pre ≠ [] ∨ post ≠ []) (hroot : s.root ∉ c.pages) (hb : Between tr s c place)
    (hp : Placed w pre post place) :
    ∃ s' r, eraseOneDescend tr fuel s key c.addr place = some (s', r) ∧
      (Missed s s' c.pairs key r ∨
        ∃ cs', Erased tr s s' w pre.length (pre ++ c :: post) cs' key r) := by
  have haddr : c.addr ≠ s.root := fun heq ↦ hroot (heq ▸ Shape.addr_mem_pages c)
  have hstored := hf.stored c (by simp)
  have hfilled := hfill c (by simp)
  induction h generalizing fuel w s place with
  | zero =>
    obtain ⟨fuel, rfl⟩ : ∃ f, fuel = f + 1 := ⟨fuel - 1, by omega⟩
    obtain ⟨l, kvs, rfl⟩ := c.exists_leaf
    obtain ⟨n, p, hload⟩ : ∃ n p, s.load l = some (.surface ⟨kvs, n, p⟩) := hstored
    obtain ⟨s', r, heq, hdone⟩ :=
      eraseSurface_spec hf hload hfill hs hbelow habove hne haddr hb hp
    refine ⟨s', r, ?_, hdone⟩
    rw [eraseOneDescend]
    show Option.bind (s.load l) _ = _
    rw [hload]
    exact heq
  | succ h ih =>
    obtain ⟨fuel, rfl⟩ : ∃ f, fuel = f + 1 := ⟨fuel - 1, by omega⟩
    obtain ⟨x, ds, rfl⟩ := c.exists_branch
    obtain ⟨hlo, -, hds⟩ := Shape.filled_branch.1 hfilled
    obtain ⟨hload, hst⟩ := stored_branch.1 hstored
    have htwo := Shape.two_le_minslots tr (h + 1)
    have hown : Owned s ((pre ++ Shape.branch x ds :: post).flatMap Shape.pages) :=
      hf.owned.of_count_le fun x ↦ List.count_le_count_cons
    have hfx : Family s x ds := by
      refine ⟨hload, hst, owned_child hown, ?_⟩
      obtain ⟨A, B, hc⟩ := hf.chain
      refine ⟨A ++ pre.flatMap Shape.leaves, post.flatMap Shape.leaves ++ B, ?_⟩
      simpa only [Shape.flatMap_mid, Shape.leaves_branch, List.append_assoc] using hc
    have hroot' : ∀ d ∈ ds, s.root ∉ d.pages := fun d hd hmem ↦
      hroot (List.mem_cons_of_mem _ (List.mem_flatMap.2 ⟨d, hd, hmem⟩))
    obtain ⟨s₁, r, slot, heq, hdone⟩ := eraseOneDescend_branch fuel hfx hds
      (List.ne_nil_of_length_pos (by omega)) hs hb
      fun pre d post below hdseq hbd hpd hbelow habove ↦ by
        subst hdseq
        have hd : d ∈ pre ++ d :: post := by simp
        refine ih d (by omega) hfx hds ((Shape.sorted_flatMap.1 hs).1 d hd)
          hbelow habove ?_ (hroot' d hd) hbd hpd
          (fun heq ↦ hroot' d hd (heq ▸ Shape.addr_mem_pages d))
          (hst d hd) (hds d hd)
        rw [List.length_append, List.length_cons] at hlo
        by_contra hnil
        rw [not_or, not_not, not_not] at hnil
        rw [hnil.1, hnil.2, List.length_nil] at hlo
        omega
    rcases hdone with hm | ⟨ds', he⟩
    · refine ⟨s₁, r, heq.trans (if_pos hm.notFound), .inl hm⟩
    · obtain ⟨s', r', heq', hdone'⟩ := he.parent hf hfill hbelow habove hne haddr hb hp
      refine ⟨s', r', heq.trans ((if_neg ?_).trans heq'), .inr hdone'⟩
      rw [he.found]
      exact Bool.false_ne_true

end LibSpaces.Stx.Btree
