import LibSpaces.Stx.Balance

/-!
# The underflow of a node

`erase_one_descend`, `src/src/stx/btree.h:6068–6137,6150–6173,6218–6294`, balances a node that is
short of occupants with a neighbour. The neighbours may lie below other parents; the node it is
balanced with is always one below its own parent.
-/

namespace LibSpaces.Stx.Btree

open LibSpaces.Base

variable {K V : Type} [LinearOrder K] [Inhabited K] {tr : Traits} {s s' s₁ s₂ : Btree K V} {h : ℕ}

/-! ### The neighbours of a node -/

/-- The address of a node on the same level, if there is one. -/
def Neighbour (tr : Traits) (s : Btree K V) (h x : ℕ) : Prop :=
  x = 0 ∨ ∃ t : Shape K V h, t.addr = x ∧ Stored s t ∧ t.Filled tr (tr.minslots h)

/-- The place of a node: its neighbours, whose parents are not below it. -/
structure Between (tr : Traits) (s : Btree K V) (t : Shape K V h) (place : Place) : Prop where
  left : Neighbour tr s h place.left
  right : Neighbour tr s h place.right
  leftparent : place.leftparent ∉ t.pages
  rightparent : place.rightparent ∉ t.pages

/-- The place of the child `c` of `w` between its siblings. -/
structure Placed (w : ℕ) (pre post : List (Shape K V h)) (place : Place) : Prop where
  parent : place.parent = w
  parentslot : place.parentslot = pre.length
  leftparent : place.leftparent = w ↔ pre ≠ []
  rightparent : place.rightparent = w ↔ post ≠ []
  left : ∀ l ∈ pre.getLast?, place.left = l.addr
  right : ∀ r ∈ post.head?, place.right = r.addr

omit [LinearOrder K] in
/-- The left neighbour of a first child is the last but one child of the left neighbour of its
parent. -/
theorem Neighbour.leftChild {x : ℕ} (hx : Neighbour tr s (h + 1) x) :
    ∃ y, (if x = 0 then some 0 else do
      let l ← s.interiorAt x
      some (l.childid.getD (l.keys.length - 1) 0)) = some y ∧ Neighbour tr s h y := by
  rcases hx with rfl | ⟨t, rfl, hst, hf⟩
  · exact ⟨0, rfl, .inl rfl⟩
  split
  · exact ⟨0, rfl, .inl rfl⟩
  obtain ⟨x, ds⟩ := t
  obtain ⟨hload, hds⟩ := stored_branch.1 hst
  obtain ⟨hlen, -, hfilled⟩ := Shape.filled_branch.1 hf
  have htwo := Shape.two_le_minslots tr (h + 1)
  have hlt : ds.length - 1 - 1 < ds.length := by omega
  refine ⟨(ds[ds.length - 1 - 1]).addr, ?_, .inr ⟨_, rfl, hds _ (List.getElem_mem hlt),
    hfilled _ (List.getElem_mem hlt)⟩⟩
  show Option.bind (s.interiorAt x) _ = _
  rw [interiorAt_eq hload, Option.bind_some, Shape.length_separators,
    List.getD_eq_getElem _ _ (by rwa [List.length_map]), List.getElem_map]

omit [LinearOrder K] in
/-- The right neighbour of a last child is the first child of the right neighbour of its parent. -/
theorem Neighbour.rightChild {x : ℕ} (hx : Neighbour tr s (h + 1) x) :
    ∃ y, (if x = 0 then some 0 else do
      let r ← s.interiorAt x
      some (r.childid.getD 0 0)) = some y ∧ Neighbour tr s h y := by
  rcases hx with rfl | ⟨t, rfl, hst, hf⟩
  · exact ⟨0, rfl, .inl rfl⟩
  split
  · exact ⟨0, rfl, .inl rfl⟩
  obtain ⟨x, ds⟩ := t
  obtain ⟨hload, hds⟩ := stored_branch.1 hst
  obtain ⟨hlen, -, hfilled⟩ := Shape.filled_branch.1 hf
  have hlt : 0 < ds.length := by omega
  refine ⟨(ds[0]).addr, ?_, .inr ⟨_, rfl, hds _ (List.getElem_mem hlt),
    hfilled _ (List.getElem_mem hlt)⟩⟩
  show Option.bind (s.interiorAt x) _ = _
  rw [interiorAt_eq hload, Option.bind_some, List.getD_eq_getElem _ _ (by rwa [List.length_map]),
    List.getElem_map]

private theorem ite_bind {α β : Type} {c d : Prop} [Decidable c] [Decidable d] (a e : ℕ)
    (o : Option α) (g : α → ℕ) (f : ℕ → Option β) :
    (if c then if d then (some a).bind f else o.bind fun l ↦ (some (g l)).bind f
      else (some e).bind f) =
      (if c then if d then some a else o.bind fun l ↦ some (g l) else some e).bind f := by
  split
  · split
    · rfl
    · rw [Option.bind_assoc]
  · rfl

omit [LinearOrder K] in
/-- The node left of a child is its sibling, or the last child of the node left of the parent. -/
theorem leftNeighbour_spec {w slot : ℕ} {cs pre post : List (Shape K V h)} {c : Shape K V h}
    {place : Place} (hb : Between tr s (Shape.branch w cs) place)
    (ha : Shape.Around cs slot pre c post) (hst : ∀ d ∈ cs, Stored s d)
    (hfill : ∀ d ∈ cs, d.Filled tr (tr.minslots h)) :
    ∃ y, (if slot = 0 then
        if place.left = 0 then some 0 else do
          let l ← s.interiorAt place.left
          some (l.childid.getD (l.keys.length - 1) 0)
      else some ((cs.map Shape.addr).getD (slot - 1) 0)) = some y ∧ Neighbour tr s h y ∧
        ∀ l ∈ pre.getLast?, y = l.addr := by
  have hslot := ha.slot
  have heq := ha.eq
  rcases List.eq_nil_or_concat' pre with rfl | ⟨pre', l, rfl⟩
  · obtain ⟨y, hy, hyn⟩ := hb.left.leftChild
    have hzero : slot = 0 := hslot.symm
    rw [if_pos hzero]
    exact ⟨y, hy, hyn, nofun⟩
  · have hl : l ∈ cs := by simp [heq]
    refine ⟨l.addr, ?_, .inr ⟨l, rfl, hst l hl, hfill l hl⟩, fun d hd ↦ ?_⟩
    · rw [if_neg (by simp [← hslot]), ← hslot, heq, List.append_assoc, List.map_append,
        List.length_append, List.length_singleton, Nat.add_sub_cancel,
        ← List.length_map (f := Shape.addr)]
      exact congrArg some (getD_length_append ..)
    · rw [List.getLast?_concat] at hd
      rw [Option.some.inj hd]

omit [LinearOrder K] in
/-- The node right of a child is its sibling, or the first child of the node right of the
parent. -/
theorem rightNeighbour_spec {w slot : ℕ} {cs pre post : List (Shape K V h)} {c : Shape K V h}
    {place : Place} (hb : Between tr s (Shape.branch w cs) place)
    (ha : Shape.Around cs slot pre c post) (hst : ∀ d ∈ cs, Stored s d)
    (hfill : ∀ d ∈ cs, d.Filled tr (tr.minslots h))
    (hkeys : slot = (Shape.separators cs).length ↔ post = []) :
    ∃ z, (if slot = (Shape.separators cs).length then
        if place.right = 0 then some 0 else do
          let r ← s.interiorAt place.right
          some (r.childid.getD 0 0)
      else some ((cs.map Shape.addr).getD (slot + 1) 0)) = some z ∧ Neighbour tr s h z ∧
        ∀ r ∈ post.head?, z = r.addr := by
  have hslot := ha.slot
  have heq := ha.eq
  cases post with
  | nil =>
    obtain ⟨z, hz, hzn⟩ := hb.right.rightChild
    rw [if_pos (hkeys.2 rfl)]
    exact ⟨z, hz, hzn, nofun⟩
  | cons r post =>
    have hr : r ∈ cs := by simp [heq]
    refine ⟨r.addr, ?_, .inr ⟨r, rfl, hst r hr, hfill r hr⟩, fun d hd ↦ ?_⟩
    · have hmap : cs.map Shape.addr =
          (pre ++ [c]).map Shape.addr ++ r.addr :: post.map Shape.addr := by simp [heq]
      rw [if_neg (by simp [hkeys]), hmap,
        show slot + 1 = ((pre ++ [c]).map Shape.addr).length by simp [hslot]]
      exact congrArg some (getD_length_append ..)
    · rw [Option.some.inj hd]

omit [LinearOrder K] in
/-- The place of a child below a node that has a place. -/
theorem childPlace_spec {w slot : ℕ} {cs pre post : List (Shape K V h)} {c : Shape K V h}
    {place : Place} (hb : Between tr s (Shape.branch w cs) place)
    (ha : Shape.Around cs slot pre c post) (hst : ∀ d ∈ cs, Stored s d)
    (hfill : ∀ d ∈ cs, d.Filled tr (tr.minslots h))
    (hown : Owned s (Shape.branch w cs).pages) :
    ∃ below, s.childPlace w ⟨h + 1, Shape.separators cs, cs.map Shape.addr⟩ slot place =
      some below ∧ Between tr s c below ∧ Placed w pre post below := by
  have hslot := ha.slot
  have heq := ha.eq
  have hlen : cs.length = pre.length + (post.length + 1) := by
    rw [heq, List.length_append, List.length_cons]
  have hkeys : slot = (Shape.separators cs).length ↔ post = [] := by
    rw [Shape.length_separators, ← List.length_eq_zero_iff]
    omega
  have hzero : slot = 0 ↔ pre = [] := by rw [← hslot, List.length_eq_zero_iff]
  obtain ⟨y, hy, hyn, hyl⟩ := leftNeighbour_spec hb ha hst hfill
  obtain ⟨z, hz, hzn, hzr⟩ := rightNeighbour_spec hb ha hst hfill hkeys
  have hc : c ∈ cs := by simp [heq]
  have hcs : ∀ x ∈ c.pages, x ∈ (Shape.branch w cs).pages := fun x hx ↦
    List.mem_cons_of_mem _ (List.mem_flatMap.2 ⟨c, hc, hx⟩)
  have hw : w ∉ c.pages := fun hmem ↦ by
    have hone := hown.count w
    have hin : w ∈ cs.flatMap Shape.pages := List.mem_flatMap.2 ⟨c, hc, hmem⟩
    have := List.count_pos_iff.2 hin
    rw [Shape.pages_branch, List.count_cons_self] at hone
    omega
  have hleftw : place.leftparent ≠ w := fun hlw ↦ hb.leftparent (hlw ▸ List.mem_cons_self)
  have hrightw : place.rightparent ≠ w := fun hrw ↦ hb.rightparent (hrw ▸ List.mem_cons_self)
  refine ⟨⟨y, z, if slot = 0 then place.leftparent else w,
    if slot = (Shape.separators cs).length then place.rightparent else w, w, slot⟩, ?_,
    ⟨hyn, hzn, ?_, ?_⟩, ⟨rfl, hslot.symm, ?_, ?_, hyl, hzr⟩⟩
  · unfold childPlace
    refine (ite_bind ..).trans ?_
    refine (congrArg (Option.bind · _) hy).trans ?_
    refine (ite_bind ..).trans ?_
    exact (congrArg (Option.bind · _) hz).trans rfl
  · dsimp only
    split
    · exact fun hmem ↦ hb.leftparent (hcs _ hmem)
    · exact hw
  · dsimp only
    split
    · exact fun hmem ↦ hb.rightparent (hcs _ hmem)
    · exact hw
  · dsimp only
    split
    · next h0 => exact iff_of_false hleftw (not_not.2 (hzero.1 h0))
    · next h0 => exact iff_of_true rfl (hzero.not.1 h0)
  · dsimp only
    split
    · next h0 => exact iff_of_false hrightw (not_not.2 (hkeys.1 h0))
    · next h0 => exact iff_of_true rfl (hkeys.not.1 h0)

/-! ### Which node resolves the underflow -/

omit [LinearOrder K] [Inhabited K] in
/-- It is one below the same parent: one with room, or one that can spare an occupant. -/
theorem chooseBalance_spec (least : ℕ) {w : ℕ} {pre post : List (Shape K V h)} {place : Place}
    {left right : Option ℕ} (hp : Placed w pre post place) (hne : pre ≠ [] ∨ post ≠ [])
    (hleft : pre ≠ [] → left.isSome) (hright : post ≠ [] → right.isSome) :
    match chooseBalance least place left right with
    | .mergeLeft => pre ≠ [] ∧ ∃ a, left = some a ∧ a ≤ least
    | .mergeRight => post ≠ [] ∧ ∃ b, right = some b ∧ b ≤ least
    | .shiftLeft => post ≠ [] ∧ ∃ b, right = some b ∧ least < b
    | .shiftRight => pre ≠ [] ∧ ∃ a, left = some a ∧ least < a := by
  have hl := hp.leftparent
  have hr := hp.rightparent
  have hparent := hp.parent
  obtain ⟨P, hP⟩ : ∃ P : Prop, P = (pre ≠ []) := ⟨_, rfl⟩
  obtain ⟨Q, hQ⟩ : ∃ Q : Prop, Q = (post ≠ []) := ⟨_, rfl⟩
  rw [← hP] at hne hleft hl ⊢
  rw [← hQ] at hne hright hr ⊢
  unfold chooseBalance
  rw [hparent]
  clear hP hQ hp
  -- a node without neighbour counts as one with few occupants
  by_cases hQw : Q
  · obtain ⟨b, rfl⟩ := Option.isSome_iff_exists.1 (hright hQw)
    have hrw := hr.2 hQw
    by_cases hPw : P
    · obtain ⟨a, rfl⟩ := Option.isSome_iff_exists.1 (hleft hPw)
      have hlw := hl.2 hPw
      by_cases ha : a ≤ least <;> by_cases hb : b ≤ least <;> simp [ha, hb, hlw, hrw, hPw, hQw]
      · omega
      · omega
      · by_cases hab : a ≤ b
        · rw [if_pos hab]
          exact not_le.1 hb
        · rw [if_neg hab]
          exact not_le.1 ha
    · have hlw : place.leftparent ≠ w := fun heq ↦ hPw (hl.1 heq)
      have hne' : place.leftparent ≠ place.rightparent := hrw ▸ hlw
      rcases left with _ | a
      · by_cases hb : b ≤ least <;> simp [hb, hlw, hne', hQw]
        omega
      · by_cases ha : a ≤ least <;> by_cases hb : b ≤ least <;>
          simp [ha, hb, hlw, hrw, hQw] <;> omega
  · have hPw := hne.resolve_right hQw
    obtain ⟨a, rfl⟩ := Option.isSome_iff_exists.1 (hleft hPw)
    have hlw := hl.2 hPw
    have hrw : place.rightparent ≠ w := fun heq ↦ hQw (hr.1 heq)
    have hne' : w ≠ place.rightparent := hrw.symm
    rcases right with _ | b
    · by_cases ha : a ≤ least <;> simp [ha, hlw, hne', hPw]
      omega
    · by_cases ha : a ≤ least <;> by_cases hb : b ≤ least <;>
        simp [ha, hb, hlw, hne', hrw, hPw] <;> omega

/-! ### Balancing -/

/-- A member of a list stays one when another is put in. -/
theorem mem_cons_between {α : Type} {c : α} (d : α) {pre post : List α}
    (hc : c ∈ pre ++ post) : c ∈ pre ++ d :: post :=
  (List.mem_append.1 hc).elim (List.mem_append_left _) fun h ↦
    List.mem_append_right _ (List.mem_cons_of_mem _ h)

omit [LinearOrder K] [Inhabited K] in
/-- What `get_occupants` of a sibling returns, and that it does not fail elsewhere. -/
theorem neighbour_spec {x : ℕ} (hload : x = 0 ∨ (s.load x).isSome) :
    ∃ o, s.neighbour x = some o ∧
      (x ≠ 0 → o.isSome ∧ ∀ n, s.load x = some n → o = some n.occupants) := by
  unfold neighbour
  by_cases hx : x = 0
  · rw [if_pos hx]
    exact ⟨none, rfl, fun h0 ↦ absurd hx h0⟩
  · obtain ⟨n, hn⟩ := Option.isSome_iff_exists.1 (hload.resolve_left hx)
    rw [if_neg hx, hn]
    refine ⟨_, rfl, fun _ ↦ ⟨rfl, fun m hm ↦ ?_⟩⟩
    rw [Option.some.inj hm]

omit [LinearOrder K] in
/-- A node that is not short is left alone. -/
theorem Family.balanced {w slot : ℕ} {cs : List (Shape K V h)} (hf : Family s w cs)
    (hfill : ∀ c ∈ cs, c.Filled tr (tr.minslots h)) : Balanced tr s s w slot cs cs false :=
  ⟨.refl _ hf.stored, rfl, hfill, hf.page, rfl⟩

omit [LinearOrder K] [Inhabited K] in
private theorem Placed.exists_left {w : ℕ} {pre post : List (Shape K V h)} {place : Place}
    (hp : Placed w pre post place) (hpre : pre ≠ []) :
    ∃ pre' l, pre = pre' ++ [l] ∧ place.left = l.addr ∧ place.leftparent = w ∧
      place.parentslot - 1 = pre'.length := by
  have hlp := hp.leftparent.2 hpre
  have hslot := hp.parentslot
  have hleft := hp.left
  obtain ⟨pre', l, rfl⟩ := (List.eq_nil_or_concat' pre).resolve_left hpre
  refine ⟨pre', l, rfl, hleft l (by simp), hlp, ?_⟩
  rw [hslot, List.length_append, List.length_singleton, Nat.add_sub_cancel]

omit [LinearOrder K] [Inhabited K] in
private theorem Placed.exists_right {w : ℕ} {pre post : List (Shape K V h)} {place : Place}
    (hp : Placed w pre post place) (hpost : post ≠ []) :
    ∃ r post', post = r :: post' ∧ place.right = r.addr ∧ place.rightparent = w := by
  have hrp := hp.rightparent.2 hpost
  have hright := hp.right
  obtain ⟨r, post', rfl⟩ := List.exists_cons_of_ne_nil hpost
  exact ⟨r, post', rfl, hright r rfl, hrp⟩

omit [LinearOrder K] in
/-- The occupants of the two neighbours, as far as they are siblings. -/
theorem Family.neighbours {w : ℕ} {pre post : List (Shape K V h)} {c : Shape K V h}
    {place : Place} (hf : Family s w (pre ++ c :: post)) (hp : Placed w pre post place)
    (hleft : place.left = 0 ∨ (s.load place.left).isSome)
    (hright : place.right = 0 ∨ (s.load place.right).isSome) (hne : pre ≠ [] ∨ post ≠ []) :
    ∃ left right, s.neighbour place.left = some left ∧ s.neighbour place.right = some right ∧
      ¬ (place.left = 0 ∧ place.right = 0) ∧ (pre ≠ [] → left.isSome) ∧
      (post ≠ [] → right.isSome) ∧
      (∀ l ∈ pre.getLast?, ∀ n, s.load l.addr = some n → left = some n.occupants) ∧
      ∀ r ∈ post.head?, ∀ n, s.load r.addr = some n → right = some n.occupants := by
  obtain ⟨left, hl, hl'⟩ := neighbour_spec hleft
  obtain ⟨right, hr, hr'⟩ := neighbour_spec hright
  have hpos : ∀ d ∈ pre ++ c :: post, d.addr ≠ 0 := fun d hd ↦
    (hf.owned.pos _ (List.mem_cons_of_mem _
      (List.mem_flatMap.2 ⟨d, hd, Shape.addr_mem_pages d⟩))).ne'
  have hpre : ∀ l ∈ pre.getLast?, place.left ≠ 0 := fun l hl ↦
    hp.left l hl ▸ hpos l (List.mem_append_left _ (List.mem_of_mem_getLast? hl))
  have hpost : ∀ r ∈ post.head?, place.right ≠ 0 := fun r hr ↦
    hp.right r hr ▸ hpos r
      (List.mem_append_right _ (List.mem_cons_of_mem _ (List.mem_of_mem_head? hr)))
  have hpre' : pre ≠ [] → place.left ≠ 0 := fun h ↦ hpre _ (List.getLast?_eq_some_getLast h)
  have hpost' : post ≠ [] → place.right ≠ 0 := fun h ↦ hpost _ (List.head?_eq_some_head h)
  refine ⟨left, right, hl, hr, fun h0 ↦ ?_, fun h ↦ (hl' (hpre' h)).1, fun h ↦ (hr' (hpost' h)).1,
    fun l hmem n hn ↦ ?_, fun r hmem n hn ↦ ?_⟩
  · exact hne.elim (fun h ↦ hpre' h h0.1) fun h ↦ hpost' h h0.2
  · exact (hl' (hpre l hmem)).2 n (hp.left l hmem ▸ hn)
  · exact (hr' (hpost r hmem)).2 n (hp.right r hmem ▸ hn)

section Siblings

variable {w a : ℕ} {place : Place}

omit [LinearOrder K] in
/-- The left neighbour of a leaf, by what `get_occupants` of it returns. -/
theorem Family.left_leaf {pre post : List (Shape K V 0)} {c : Shape K V 0}
    (hf : Family s w (pre ++ c :: post)) (hp : Placed w pre post place) (hpre : pre ≠ [])
    (hfill : ∀ c ∈ pre ++ post, c.Filled tr (tr.minslots 0))
    (ha : ∀ l ∈ pre.getLast?, ∀ n, s.load l.addr = some n → some a = some n.occupants) :
    ∃ pre' x kvs, pre = pre' ++ [Shape.leaf x kvs] ∧ place.left = x ∧ place.leftparent = w ∧
      place.parentslot - 1 = pre'.length ∧ a = kvs.length ∧ tr.minslots 0 ≤ kvs.length ∧
      kvs.length ≤ tr.slotmax 0 := by
  obtain ⟨pre', c', rfl, hx, hxw, hslot⟩ := hp.exists_left hpre
  obtain ⟨x, kvs, rfl⟩ := c'.exists_leaf
  obtain ⟨n, p, hload⟩ := hf.stored (Shape.leaf x kvs) (by simp)
  exact ⟨pre', x, kvs, rfl, hx, hxw, hslot, Option.some.inj (ha _ (by simp) _ hload),
    Shape.filled_leaf.1 (hfill (Shape.leaf x kvs) (by simp))⟩

omit [LinearOrder K] in
private theorem Family.right_leaf {pre post : List (Shape K V 0)} {c : Shape K V 0}
    (hf : Family s w (pre ++ c :: post)) (hp : Placed w pre post place) (hpost : post ≠ [])
    (hfill : ∀ c ∈ pre ++ post, c.Filled tr (tr.minslots 0))
    (ha : ∀ r ∈ post.head?, ∀ n, s.load r.addr = some n → some a = some n.occupants) :
    ∃ x kvs post', post = Shape.leaf x kvs :: post' ∧ place.right = x ∧ place.rightparent = w ∧
      a = kvs.length ∧ tr.minslots 0 ≤ kvs.length ∧ kvs.length ≤ tr.slotmax 0 := by
  obtain ⟨c', post', rfl, hx, hxw⟩ := hp.exists_right hpost
  obtain ⟨x, kvs, rfl⟩ := c'.exists_leaf
  obtain ⟨n, p, hload⟩ := hf.stored (Shape.leaf x kvs) (by simp)
  exact ⟨x, kvs, post', rfl, hx, hxw, Option.some.inj (ha _ rfl _ hload),
    Shape.filled_leaf.1 (hfill (Shape.leaf x kvs) (by simp))⟩

omit [LinearOrder K] in
/-- The left neighbour of an interior node. -/
theorem Family.left_branch {pre post : List (Shape K V (h + 1))} {c : Shape K V (h + 1)}
    (hf : Family s w (pre ++ c :: post)) (hp : Placed w pre post place) (hpre : pre ≠ [])
    (hfill : ∀ c ∈ pre ++ post, c.Filled tr (tr.minslots (h + 1)))
    (ha : ∀ l ∈ pre.getLast?, ∀ n, s.load l.addr = some n → some a = some n.occupants) :
    ∃ pre' y ds, pre = pre' ++ [Shape.branch y ds] ∧ place.left = y ∧ place.leftparent = w ∧
      place.parentslot - 1 = pre'.length ∧ a = ds.length - 1 ∧
      tr.minslots (h + 1) + 1 ≤ ds.length ∧ ds.length ≤ tr.slotmax (h + 1) + 1 ∧
      ∀ d ∈ ds, d.Filled tr (tr.minslots h) := by
  obtain ⟨pre', c', rfl, hx, hxw, hslot⟩ := hp.exists_left hpre
  obtain ⟨y, ds, rfl⟩ := c'.exists_branch
  have hload := (stored_branch.1 (hf.stored (Shape.branch y ds) (by simp))).1
  have hcount := Option.some.inj (ha (Shape.branch y ds) (by simp) _ hload)
  exact ⟨pre', y, ds, rfl, hx, hxw, hslot, hcount.trans (Shape.length_separators ds),
    Shape.filled_branch.1 (hfill (Shape.branch y ds) (by simp))⟩

omit [LinearOrder K] in
private theorem Family.right_branch {pre post : List (Shape K V (h + 1))} {c : Shape K V (h + 1)}
    (hf : Family s w (pre ++ c :: post)) (hp : Placed w pre post place) (hpost : post ≠ [])
    (hfill : ∀ c ∈ pre ++ post, c.Filled tr (tr.minslots (h + 1)))
    (ha : ∀ r ∈ post.head?, ∀ n, s.load r.addr = some n → some a = some n.occupants) :
    ∃ y ds post', post = Shape.branch y ds :: post' ∧ place.right = y ∧ place.rightparent = w ∧
      a = ds.length - 1 ∧ tr.minslots (h + 1) + 1 ≤ ds.length ∧
      ds.length ≤ tr.slotmax (h + 1) + 1 ∧ ∀ d ∈ ds, d.Filled tr (tr.minslots h) := by
  obtain ⟨c', post', rfl, hx, hxw⟩ := hp.exists_right hpost
  obtain ⟨y, ds, rfl⟩ := c'.exists_branch
  have hload := (stored_branch.1 (hf.stored (Shape.branch y ds) (by simp))).1
  have hcount := Option.some.inj (ha (Shape.branch y ds) rfl _ hload)
  exact ⟨y, ds, post', rfl, hx, hxw, hcount.trans (Shape.length_separators ds),
    Shape.filled_branch.1 (hfill (Shape.branch y ds) (by simp))⟩

end Siblings

section Start

variable {w n p : ℕ} {kvs : List (K × V)} {place : Place} {myres : Result K}
  {left right : Option ℕ}

omit [LinearOrder K] in
private theorem balanceSurface_full (hload : s.load w = some (.surface ⟨kvs, n, p⟩))
    (hfull : ¬ kvs.length < tr.minslots 0) :
    s.balanceSurface tr w place myres = some (s, myres) := by
  unfold balanceSurface
  rw [surfaceAt_eq hload, Option.bind_eq_bind, Option.bind_some]
  exact if_neg fun hr ↦ hfull hr.1

omit [LinearOrder K] in
private theorem balanceSurface_short (hload : s.load w = some (.surface ⟨kvs, n, p⟩))
    (hshort : kvs.length < tr.minslots 0) (hroot : w ≠ s.root)
    (hnone : ¬ (place.left = 0 ∧ place.right = 0)) (hl : s.neighbour place.left = some left)
    (hr : s.neighbour place.right = some right) :
    s.balanceSurface tr w place myres =
      match chooseBalance (tr.minslots 0) place left right with
      | .mergeLeft => (s.mergeLeaves place.left w).bind fun s ↦ some (s, myres.withFixmerge)
      | .mergeRight => (s.mergeLeaves w place.right).bind fun s ↦ some (s, myres.withFixmerge)
      | .shiftLeft => (s.shiftLeftSurface w place.right place.rightparent place.parentslot).bind
          fun x ↦ some (x.1, { myres with lastkey := x.2 <|> myres.lastkey })
      | .shiftRight =>
        (s.shiftRightSurface place.left w place.leftparent (place.parentslot - 1)).bind
          fun s ↦ some (s, myres) := by
  unfold balanceSurface
  rw [surfaceAt_eq hload, Option.bind_eq_bind, Option.bind_some]
  refine (if_pos ⟨hshort, fun hr ↦ hroot hr.1⟩).trans ((if_neg hnone).trans ?_)
  rw [hl, hr]
  rfl

end Start

omit [LinearOrder K] in
/-- The underflow of a leaf below `w`. -/
theorem balanceSurface_spec {w l : ℕ} {kvs : List (K × V)} {pre post : List (Shape K V 0)}
    {place : Place} {myres : Result K} (hf : Family s w (pre ++ Shape.leaf l kvs :: post))
    (hp : Placed w pre post place) (hleft : place.left = 0 ∨ (s.load place.left).isSome)
    (hright : place.right = 0 ∨ (s.load place.right).isSome)
    (hfill : ∀ c ∈ pre ++ post, c.Filled tr (tr.minslots 0)) (hlo : tr.minslots 0 ≤ kvs.length + 1)
    (hmax : kvs.length ≤ tr.slotmax 0) (hne : pre ≠ [] ∨ post ≠ []) (hroot : l ≠ s.root)
    (hfix : myres.fixmerge = false) :
    ∃ s' r cs', s.balanceSurface tr l place myres = some (s', r) ∧
      Balanced tr s s' w pre.length (pre ++ Shape.leaf l kvs :: post) cs' r.fixmerge ∧
      r.lastkey = myres.lastkey ∧ r.notFound = myres.notFound := by
  obtain ⟨n, p, hload⟩ : ∃ n p, s.load l = some (.surface ⟨kvs, n, p⟩) :=
    hf.stored (Shape.leaf l kvs) (by simp)
  obtain ⟨left, right, hl, hr, hnone, hls, hrs, hl', hr'⟩ := hf.neighbours hp hleft hright hne
  have htwo := Shape.two_le_minslots tr 0
  have hhalf : tr.minslots 0 * 2 ≤ tr.slotmax 0 := Nat.div_mul_le_self _ _
  by_cases hshort : kvs.length < tr.minslots 0
  · rw [balanceSurface_short hload hshort hroot hnone hl hr]
    have hspec := chooseBalance_spec (tr.minslots 0) hp hne hls hrs
    generalize chooseBalance (tr.minslots 0) place left right = b at hspec ⊢
    cases b with
    | mergeLeft =>
      obtain ⟨hpre, a, rfl, ha⟩ := hspec
      obtain ⟨pre, x, kvs₀, rfl, hx, -, -, rfl, hmin₀, hmax₀⟩ := hf.left_leaf hp hpre hfill hl'
      rw [List.append_assoc] at hf hfill
      obtain ⟨s', heq, hb⟩ := hf.mergeLeaves
        (fun c hc ↦ hfill c (mem_cons_between _ hc)) (by omega) (by omega)
        (List.ne_nil_of_length_pos (by omega)) (.inr rfl)
      refine ⟨s', myres.withFixmerge, pre ++ Shape.leaf x (kvs₀ ++ kvs) :: post, ?_, ?_, rfl, rfl⟩
      · show (s.mergeLeaves place.left l).bind _ = _
        rw [hx]
        exact congrArg (Option.bind · _) heq
      · rw [List.append_assoc, List.length_append]
        exact hb
    | mergeRight =>
      obtain ⟨hpost, a, rfl, ha⟩ := hspec
      obtain ⟨x, kvs₀, post, rfl, hx, -, rfl, hmin₀, hmax₀⟩ := hf.right_leaf hp hpost hfill hr'
      obtain ⟨s', heq, hb⟩ := hf.mergeLeaves
        (fun c hc ↦ hfill c (mem_cons_between _ hc)) (by omega) (by omega)
        (List.ne_nil_of_length_pos (by omega)) (.inl rfl)
      refine ⟨s', myres.withFixmerge, pre ++ Shape.leaf l (kvs ++ kvs₀) :: post, ?_, hb, rfl, rfl⟩
      show (s.mergeLeaves l place.right).bind _ = _
      rw [hx]
      exact congrArg (Option.bind · _) heq
    | shiftLeft =>
      obtain ⟨hpost, a, rfl, ha⟩ := hspec
      obtain ⟨x, kvs₀, post, rfl, hx, hxw, rfl, -, hmax₀⟩ := hf.right_leaf hp hpost hfill hr'
      obtain ⟨s', cs', heq, hb⟩ := hf.shiftLeftSurface
        (fun c hc ↦ hfill c (mem_cons_between _ hc)) hshort hlo ha hmax₀
      refine ⟨s', { myres with lastkey := none <|> myres.lastkey }, cs', ?_, ?_, rfl, rfl⟩
      · show (s.shiftLeftSurface l place.right place.rightparent place.parentslot).bind _ = _
        rw [hx, hxw, hp.parentslot]
        exact congrArg (Option.bind · _) heq
      · show Balanced tr s s' w _ _ cs' myres.fixmerge
        rw [hfix]
        exact hb
    | shiftRight =>
      obtain ⟨hpre, a, rfl, ha⟩ := hspec
      obtain ⟨pre, x, kvs₀, rfl, hx, hxw, hslot, rfl, -, hmax₀⟩ := hf.left_leaf hp hpre hfill hl'
      rw [List.append_assoc] at hf hfill
      obtain ⟨s', cs', heq, hb⟩ := hf.shiftRightSurface
        (fun c hc ↦ hfill c (mem_cons_between _ hc)) hshort hlo
        (List.ne_nil_of_length_pos (by omega)) ha hmax₀
      refine ⟨s', myres, cs', ?_, ?_, rfl, rfl⟩
      · show (s.shiftRightSurface place.left l place.leftparent (place.parentslot - 1)).bind _ = _
        rw [hx, hxw, hslot]
        exact congrArg (Option.bind · _) heq
      · rw [hfix, List.append_assoc, List.length_append]
        exact hb
  · refine ⟨s, myres, pre ++ Shape.leaf l kvs :: post, ?_, ?_, rfl, rfl⟩
    · exact balanceSurface_full hload hshort
    · rw [hfix]
      refine hf.balanced fun c hc ↦ ?_
      rw [List.mem_append, List.mem_cons] at hc
      rcases hc with hc | rfl | hc
      · exact hfill c (List.mem_append_left _ hc)
      · exact Shape.filled_leaf.2 ⟨not_lt.1 hshort, hmax⟩
      · exact hfill c (List.mem_append_right _ hc)

section Start

variable {w level : ℕ} {keys : List K} {childid : List ℕ} {place : Place} {myres : Result K}
  {left right : Option ℕ}

omit [LinearOrder K] in
private theorem balanceInterior_full (hload : s.load w = some (.interior ⟨level, keys, childid⟩))
    (hfull : ¬ keys.length < tr.minslots 1) :
    s.balanceInterior tr w place myres = some (s, myres) := by
  unfold balanceInterior
  rw [interiorAt_eq hload, Option.bind_eq_bind, Option.bind_some]
  exact if_neg fun hr ↦ hfull hr.1

omit [LinearOrder K] in
private theorem balanceInterior_short (hload : s.load w = some (.interior ⟨level, keys, childid⟩))
    (hshort : keys.length < tr.minslots 1) (hroot : w ≠ s.root)
    (hnone : ¬ (place.left = 0 ∧ place.right = 0)) (hl : s.neighbour place.left = some left)
    (hr : s.neighbour place.right = some right) :
    s.balanceInterior tr w place myres =
      match chooseBalance (tr.minslots 1) place left right with
      | .mergeLeft => (s.mergeInterior place.left w place.leftparent (place.parentslot - 1)).bind
          fun s ↦ some (s, myres.withFixmerge)
      | .mergeRight => (s.mergeInterior w place.right place.rightparent place.parentslot).bind
          fun s ↦ some (s, myres.withFixmerge)
      | .shiftLeft => (s.shiftLeftInterior w place.right place.rightparent place.parentslot).bind
          fun s ↦ some (s, myres)
      | .shiftRight =>
        (s.shiftRightInterior place.left w place.leftparent (place.parentslot - 1)).bind
          fun s ↦ some (s, myres) := by
  unfold balanceInterior
  rw [interiorAt_eq hload, Option.bind_eq_bind, Option.bind_some]
  refine (if_pos ⟨hshort, fun hr ↦ hroot hr.1⟩).trans ((if_neg hnone).trans ?_)
  rw [hl, hr]
  rfl

end Start

omit [LinearOrder K] in
/-- The underflow of an interior node below `w`. -/
theorem balanceInterior_spec {w x : ℕ} {ds : List (Shape K V h)}
    {pre post : List (Shape K V (h + 1))} {place : Place} {myres : Result K}
    (hf : Family s w (pre ++ Shape.branch x ds :: post)) (hp : Placed w pre post place)
    (hleft : place.left = 0 ∨ (s.load place.left).isSome)
    (hright : place.right = 0 ∨ (s.load place.right).isSome)
    (hfill : ∀ c ∈ pre ++ post, c.Filled tr (tr.minslots (h + 1)))
    (hds : ∀ d ∈ ds, d.Filled tr (tr.minslots h)) (hlo : tr.minslots (h + 1) ≤ ds.length)
    (hmax : ds.length ≤ tr.slotmax (h + 1) + 1) (hne : pre ≠ [] ∨ post ≠ []) (hroot : x ≠ s.root)
    (hfix : myres.fixmerge = false) :
    ∃ s' r cs', s.balanceInterior tr x place myres = some (s', r) ∧
      Balanced tr s s' w pre.length (pre ++ Shape.branch x ds :: post) cs' r.fixmerge ∧
      r.lastkey = myres.lastkey ∧ r.notFound = myres.notFound := by
  have hload : s.load x = some (.interior ⟨h + 1, Shape.separators ds, ds.map Shape.addr⟩) :=
    (hf.stored (Shape.branch x ds) (by simp)).1
  obtain ⟨left, right, hl, hr, hnone, hls, hrs, hl', hr'⟩ := hf.neighbours hp hleft hright hne
  have htwo := Shape.two_le_minslots tr (h + 1)
  have hhalf : tr.minslots (h + 1) * 2 ≤ tr.slotmax (h + 1) := Nat.div_mul_le_self _ _
  have hmin : tr.minslots 1 = tr.minslots (h + 1) := rfl
  have hdsne : ds ≠ [] := List.ne_nil_of_length_pos (by omega)
  have hkeys := Shape.length_separators ds
  by_cases hshort : (Shape.separators ds).length < tr.minslots 1
  · rw [balanceInterior_short hload hshort hroot hnone hl hr]
    have hspec := chooseBalance_spec (tr.minslots 1) hp hne hls hrs
    generalize chooseBalance (tr.minslots 1) place left right = b at hspec ⊢
    cases b with
    | mergeLeft =>
      obtain ⟨hpre, a, rfl, ha⟩ := hspec
      obtain ⟨pre, y, ds₀, rfl, hx, hxw, hslot, rfl, hmin₀, hmax₀, hds₀⟩ :=
        hf.left_branch hp hpre hfill hl'
      rw [List.append_assoc] at hf hfill
      obtain ⟨s', heq, hb⟩ := hf.mergeInterior
        (fun c hc ↦ hfill c (mem_cons_between _ hc))
        (fun c hc ↦ (List.mem_append.1 hc).elim (hds₀ c) (hds c))
        (List.ne_nil_of_length_pos (by omega)) hdsne (by omega) (by omega) (.inr rfl)
      refine ⟨s', myres.withFixmerge, pre ++ Shape.branch y (ds₀ ++ ds) :: post, ?_, ?_, rfl, rfl⟩
      · show (s.mergeInterior place.left x place.leftparent (place.parentslot - 1)).bind _ = _
        rw [hx, hxw, hslot]
        exact congrArg (Option.bind · _) heq
      · rw [List.append_assoc, List.length_append]
        exact hb
    | mergeRight =>
      obtain ⟨hpost, a, rfl, ha⟩ := hspec
      obtain ⟨y, ds₀, post, rfl, hx, hxw, rfl, hmin₀, hmax₀, hds₀⟩ :=
        hf.right_branch hp hpost hfill hr'
      obtain ⟨s', heq, hb⟩ := hf.mergeInterior
        (fun c hc ↦ hfill c (mem_cons_between _ hc))
        (fun c hc ↦ (List.mem_append.1 hc).elim (hds c) (hds₀ c)) hdsne
        (List.ne_nil_of_length_pos (by omega)) (by omega) (by omega) (.inl rfl)
      refine ⟨s', myres.withFixmerge, pre ++ Shape.branch x (ds ++ ds₀) :: post, ?_, hb, rfl, rfl⟩
      show (s.mergeInterior x place.right place.rightparent place.parentslot).bind _ = _
      rw [hx, hxw, hp.parentslot]
      exact congrArg (Option.bind · _) heq
    | shiftLeft =>
      obtain ⟨hpost, a, rfl, ha⟩ := hspec
      obtain ⟨y, ds₀, post, rfl, hx, hxw, rfl, hmin₀, hmax₀, hds₀⟩ :=
        hf.right_branch hp hpost hfill hr'
      obtain ⟨s', cs', heq, hb⟩ := hf.shiftLeftInterior
        (fun c hc ↦ hfill c (mem_cons_between _ hc))
        (fun c hc ↦ (List.mem_append.1 hc).elim (hds c) (hds₀ c)) (by omega) hlo (by omega)
        hmax₀
      refine ⟨s', myres, cs', ?_, ?_, rfl, rfl⟩
      · show (s.shiftLeftInterior x place.right place.rightparent place.parentslot).bind _ = _
        rw [hx, hxw, hp.parentslot]
        exact congrArg (Option.bind · _) heq
      · rw [hfix]
        exact hb
    | shiftRight =>
      obtain ⟨hpre, a, rfl, ha⟩ := hspec
      obtain ⟨pre, y, ds₀, rfl, hx, hxw, hslot, rfl, hmin₀, hmax₀, hds₀⟩ :=
        hf.left_branch hp hpre hfill hl'
      rw [List.append_assoc] at hf hfill
      obtain ⟨s', cs', heq, hb⟩ := hf.shiftRightInterior
        (fun c hc ↦ hfill c (mem_cons_between _ hc))
        (fun c hc ↦ (List.mem_append.1 hc).elim (hds₀ c) (hds c)) (by omega) hlo (by omega)
        hmax₀
      refine ⟨s', myres, cs', ?_, ?_, rfl, rfl⟩
      · show (s.shiftRightInterior place.left x place.leftparent (place.parentslot - 1)).bind _ = _
        rw [hx, hxw, hslot]
        exact congrArg (Option.bind · _) heq
      · rw [hfix, List.append_assoc, List.length_append]
        exact hb
  · refine ⟨s, myres, pre ++ Shape.branch x ds :: post, balanceInterior_full hload hshort, ?_,
      rfl, rfl⟩
    rw [hfix]
    refine hf.balanced fun c hc ↦ ?_
    rw [List.mem_append, List.mem_cons] at hc
    rcases hc with hc | rfl | hc
    · exact hfill c (List.mem_append_left _ hc)
    · exact Shape.filled_branch.2 ⟨by omega, hmax, hds⟩
    · exact hfill c (List.mem_append_right _ hc)

end LibSpaces.Stx.Btree
