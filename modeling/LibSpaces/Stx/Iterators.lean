import LibSpaces.Base.Places
import LibSpaces.Stx.MapRuns

/-!
# Iterators

The steps and jumps of `btree::iterator`, `src/src/stx/btree.h:2846–2944,3229–3258,3301–3393`.
There is no outcome where a node behind the iterator is not there. Sums of a slot and a distance
stay below 2⁶³. Check points, reference counts and the low memory check are left out.
-/

namespace LibSpaces.Stx.Btree

open LibSpaces.Base

variable {K V : Type}

section Source

variable (s : Btree K V)

/-- `begin`, `btree.h:4903–4907`. -/
def beginIterator : Iterator := (s.headsurface, 0)

/-- The node behind an iterator. A null reference has none. -/
def current (i : Iterator) : Option (Surface K V) := if i.1 = 0 then none else s.surfaceAt i.1

/-- `operator++`, `btree.h:3301–3332`. -/
def next (i : Iterator) : Option Iterator := do
  let n ← s.current i
  if i.2 + 1 < n.kvs.length then return (i.1, i.2 + 1)
  else if n.next ≠ 0 then return (n.next, 0)
  else return (i.1, n.kvs.length)

/-- `operator--`, `btree.h:3368–3393`. -/
def prev (i : Iterator) : Option Iterator := do
  let n ← s.current i
  if 0 < i.2 then return (i.1, i.2 - 1)
  else if n.preceding ≠ 0 then
    let m ← s.surfaceAt n.preceding
    return (n.preceding, m.kvs.length - 1)
  else return (i.1, 0)

/-- The loop of `_advance`, `btree.h:2865–2888`. -/
def advanceLoop (finish : Iterator) : ℕ → Iterator → ℕ → Option Iterator
  | 0, _, _ => none
  | fuel + 1, (w, slot), remaining => do
    let n ← s.surfaceAt w
    if slot + remaining < n.kvs.length then return (w, slot + remaining)
    else if n.next ≠ 0 then
      let remaining := remaining - (n.kvs.length - slot)
      if n.next = finish.1 then return (n.next, min remaining finish.2)
      else advanceLoop finish fuel (n.next, 0) remaining
    else return (w, n.kvs.length)

/-- `_advance`, `btree.h:2846–2893`. A leaf has a pair, so there are no more leaves than pairs. -/
def advance (i : Iterator) (count : ℤ) (finish : Iterator) : Option Iterator :=
  if i.1 = 0 then some i
  else if finish.1 = i.1 then some (i.1, min (i.2 + count.natAbs) finish.2)
  else s.advanceLoop finish (s.stats.treeSize + 1) i count.natAbs

/-- The loop of `_retreat`, `btree.h:2915–2940`. -/
def retreatLoop (start : Iterator) : ℕ → Iterator → ℕ → Option Iterator
  | 0, _, _ => none
  | fuel + 1, (w, slot), remaining =>
    if remaining = 0 then some (w, slot)
    else do
      let n ← s.surfaceAt w
      if remaining < slot then return (w, slot - remaining)
      else if n.preceding ≠ 0 then
        if n.preceding = start.1 then return (n.preceding, start.2)
        else
          let m ← s.surfaceAt n.preceding
          retreatLoop start fuel (n.preceding, m.kvs.length - 1) (remaining - slot)
      else return (w, n.kvs.length)

/-- `_retreat`, `btree.h:2901–2944`. -/
def retreat (i : Iterator) (count : ℤ) (start : Iterator) : Option Iterator :=
  if i.1 = 0 then some i
  else if start.1 = i.1 then some (i.1, start.2)
  else s.retreatLoop start (s.stats.treeSize + 1) i count.natAbs

/-- `operator+=`, `btree.h:3247–3253`; `iterator()` is `(0, 0)`. -/
def addAssign (i : Iterator) (count : ℤ) : Option Iterator :=
  if 0 ≤ count then s.advance i count (0, 0) else s.retreat i (-count) (0, 0)

/-- `operator-=`, `btree.h:3234–3240`. -/
def subAssign (i : Iterator) (count : ℤ) : Option Iterator :=
  if 0 < count then s.retreat i count (0, 0) else s.advance i (-count) (0, 0)

/-- The loop of `count`, `btree.h:3283–3291`. -/
def countLoop (last : ℕ) : ℕ → ℕ → UInt64 → Option UInt64
  | 0, _, _ => none
  | fuel + 1, w, total =>
    if w = 0 ∨ w = last then some total
    else do
      let n ← s.surfaceAt w
      countLoop last fuel n.next (total + .ofNat n.kvs.length)

/-- `count`, `btree.h:3276–3299`. -/
def count (i j : Iterator) : Option UInt64 :=
  (s.countLoop j.1 (s.stats.treeSize + 1) i.1 0).map fun total ↦ total + .ofNat j.2 - .ofNat i.2

/-- The leftmost leaf below a node. -/
def firstLeaf : ℕ → ℕ → ℕ
  | 0, w => w
  | fuel + 1, w =>
    match s.load w with
    | some (.interior interior) => firstLeaf fuel (interior.childid.headD 0)
    | _ => w

/-- The place of the first element. `begin` is there where the first leaf is remembered. -/
def firstPlace : Iterator := if s.root = 0 then (0, 0) else (s.firstLeaf s.depth s.root, 0)

/-- Steps one after the other, none where an iterator has arrived. -/
def steps (step : Iterator → Option Iterator) (stop : Iterator → Prop) [DecidablePred stop] :
    ℕ → Iterator → Option Iterator
  | 0, i => some i
  | n + 1, i => if stop i then some i else (step i).bind (steps step stop n)

/-- Applications of `++` that stop at `end`. -/
def stepsNext (n : ℕ) (i : Iterator) : Option Iterator :=
  steps s.next (fun i ↦ s.endIterator = some i) n i

/-- Applications of `--` that stop at the first element. -/
def stepsPrev (n : ℕ) (i : Iterator) : Option Iterator :=
  steps s.prev (fun i ↦ i = s.firstPlace) n i

/-- The positions of iterators, from the first element to `end`. -/
inductive Position : Iterator → Prop
  | first : Position s.firstPlace
  | next {i j : Iterator} (hi : Position i) (h : s.next i = some j) : Position j

/-- An iterator is reached from another one by a number of applications of `++`, none of them at
`end`. -/
inductive Ahead : Iterator → ℕ → Iterator → Prop
  | refl (i : Iterator) : Ahead i 0 i
  | next {i j l : Iterator} {n : ℕ} (hend : s.endIterator ≠ some i) (h : s.next i = some j)
    (hj : Ahead j n l) : Ahead i (n + 1) l

end Source

variable [LinearOrder K] [Inhabited K] {tr : Traits} {s : Btree K V} {h lo : ℕ} {t : Shape K V h}
  {kvs : List (K × V)} {i j : Iterator} {k w slot remaining fuel : ℕ} {A B : List ℕ}

/-! ### The places of the pairs -/

omit [LinearOrder K] in
private theorem Stored.kvsAt_ne_nil {t : Shape K V h} (hst : Stored s t) (hf : t.Filled tr lo)
    (hlo : 1 ≤ lo) : ∀ w ∈ t.leaves, s.kvsAt w ≠ [] := by
  induction h generalizing lo with
  | zero =>
    obtain ⟨w, kvs, rfl⟩ := t.exists_leaf
    obtain ⟨n, p, hload⟩ : ∃ n p, s.load w = some (.surface ⟨kvs, n, p⟩) := hst
    intro v hv
    rw [Shape.leaves_leaf, List.mem_singleton] at hv
    rw [hv, kvsAt_eq hload]
    exact List.ne_nil_of_length_pos (hlo.trans hf.1)
  | succ h ih =>
    obtain ⟨x, cs, rfl⟩ := t.exists_branch
    intro v hv
    obtain ⟨c, hc, hv⟩ := List.mem_flatMap.1 hv
    exact ih ((stored_branch.1 hst).2 c hc) ((Shape.filled_branch.1 hf).2.2 c hc)
      (le_trans (by decide) (Shape.two_le_minslots tr h)) v hv

/-- A leaf of the tree with its neighbours. -/
structure LeafAt (s : Btree K V) (A : List ℕ) (w : ℕ) (B : List ℕ) (n : Surface K V) : Prop where
  surfaceAt : s.surfaceAt w = some n
  kvs : s.kvsAt w = n.kvs
  next : n.next = B.headD 0
  preceding : n.preceding = A.getLastD 0
  pos : 0 < n.kvs.length

private theorem Grounded.exists_leaf (ht : Grounded tr 1 s t) (hL : t.leaves = A ++ w :: B) :
    w ≠ 0 ∧ ∃ n, LeafAt s A w B n := by
  have hw : w ∈ t.leaves := hL ▸ List.mem_append_right _ List.mem_cons_self
  obtain ⟨kvs, hload⟩ := (hL ▸ ht.chain.linked).cell
  have hne := ht.stored.kvsAt_ne_nil ht.filled le_rfl w hw
  rw [kvsAt_eq hload] at hne
  exact ⟨(ht.chain.pos w hw).ne', _, surfaceAt_eq hload, kvsAt_eq hload, rfl, rfl,
    List.length_pos_of_ne_nil hne⟩

/-! ### Steps -/

/-- The pairs are counted along the leaves. -/
theorem Grounded.length_flatMap (ht : Grounded tr lo s t) :
    (t.leaves.flatMap s.kvsAt).length = t.pairs.length := by
  rw [ht.stored.flatMap_kvsAt]

/-- A place is at the pair of its number. -/
theorem Grounded.deref_spec (ht : Grounded tr 1 s t) (hi : Locates s.kvsAt t.leaves k i) :
    s.deref i = t.pairs[k]? := by
  rw [← ht.stored.flatMap_kvsAt, hi.getElem?]
  obtain ⟨A, B, hL, -, -⟩ := hi
  obtain ⟨-, n, hsurface, hkvs, -⟩ := ht.exists_leaf hL
  rw [deref, hsurface, hkvs]
  rfl

/-- A step forward leads to the place of the next pair, or stays at the end. -/
theorem Grounded.next_spec (ht : Grounded tr 1 s t) (hi : Locates s.kvsAt t.leaves k i) :
    ∃ j, s.next i = some j ∧ Locates s.kvsAt t.leaves (min (k + 1) t.pairs.length) j := by
  have hle := hi.le
  have htotal := ht.length_flatMap
  obtain ⟨A, B, hL, hk, hslot⟩ := hi
  obtain ⟨hi, n, hsurface, hkvs, hnext, -, hpos⟩ := ht.exists_leaf hL
  rw [hkvs] at hslot
  rw [htotal] at hle
  have hsum := hL ▸ htotal
  rw [length_flatMap_mid, hkvs] at hsum
  simp only [Btree.next, current, if_neg hi, hsurface, Option.bind_eq_bind, Option.bind_some,
    Option.pure_def]
  split
  · next hlt =>
    refine ⟨_, rfl, A, B, hL, ?_, .inl (hkvs ▸ hlt)⟩
    dsimp only
    omega
  · next hge =>
    cases B with
    | nil =>
      rw [List.headD_nil] at hnext
      rw [if_neg (not_not.2 hnext)]
      refine ⟨_, rfl, A, [], hL, ?_, .inr ⟨rfl, by rw [hkvs]⟩⟩
      rw [List.flatMap_nil, List.length_nil] at hsum
      dsimp only
      omega
    | cons b B =>
      have hL' : t.leaves = (A ++ [i.1]) ++ b :: B := by rw [hL, List.append_assoc]; rfl
      obtain ⟨hb, m, -, hkvs', -, -, hpos'⟩ := ht.exists_leaf hL'
      rw [List.headD_cons] at hnext
      rw [if_pos (hnext ▸ hb), hnext]
      refine ⟨_, rfl, A ++ [i.1], B, hL', ?_, .inl (hkvs' ▸ hpos')⟩
      have hlt := hslot.resolve_right fun hor ↦ absurd hor.1 (List.cons_ne_nil _ _)
      rw [List.flatMap_append, List.flatMap_singleton, List.length_append, hkvs]
      dsimp only
      omega

/-- A step back leads to the place of the pair before, or stays at the first. -/
theorem Grounded.prev_spec (ht : Grounded tr 1 s t) (hi : Locates s.kvsAt t.leaves k i) :
    ∃ j, s.prev i = some j ∧ Locates s.kvsAt t.leaves (k - 1) j := by
  obtain ⟨A, B, hL, hk, hslot⟩ := hi
  obtain ⟨hi, n, hsurface, hkvs, -, hpreceding, hpos⟩ := ht.exists_leaf hL
  rw [hkvs] at hslot
  have hle : i.2 ≤ n.kvs.length := by rcases hslot with hslot | ⟨-, hslot⟩ <;> omega
  simp only [Btree.prev, current, if_neg hi, hsurface, Option.bind_eq_bind, Option.bind_some,
    Option.pure_def]
  split
  · next hlt =>
    refine ⟨_, rfl, A, B, hL, ?_, .inl ?_⟩
    · dsimp only
      omega
    · rw [hkvs]
      dsimp only
      omega
  · next hzero =>
    rcases List.eq_nil_or_concat' A with rfl | ⟨A, a, rfl⟩
    · rw [List.getLastD_nil] at hpreceding
      rw [if_neg (not_not.2 hpreceding)]
      refine ⟨_, rfl, [], B, hL, ?_, .inl (hkvs ▸ hpos)⟩
      rw [List.flatMap_nil, List.length_nil] at hk ⊢
      dsimp only
      omega
    · have hL' : t.leaves = A ++ a :: (i.1 :: B) := by rw [hL, List.append_assoc]; rfl
      obtain ⟨ha, m, hsurface', hkvs', -, -, hpos'⟩ := ht.exists_leaf hL'
      rw [List.getLastD_concat] at hpreceding
      rw [hpreceding, if_pos ha, hsurface', Option.bind_some]
      refine ⟨_, rfl, A, i.1 :: B, hL', ?_, .inl ?_⟩
      · rw [List.flatMap_append, List.flatMap_singleton, List.length_append, hkvs'] at hk
        dsimp only
        omega
      · rw [hkvs']
        exact Nat.sub_lt hpos' Nat.one_pos

/-- `end` is the place behind all pairs. -/
theorem Grounded.locates_endIterator (ht : Grounded tr 1 s t) (hend : s.endIterator = some i) :
    Locates s.kvsAt t.leaves t.pairs.length i := by
  obtain ⟨L, l, hl⟩ := (List.eq_nil_or_concat' t.leaves).resolve_left (leaves_ne_nil ht.filled)
  obtain ⟨hne, n, hsurface, hkvs, -⟩ := ht.exists_leaf hl
  have hlast : s.lastSurface = l := ht.chain.last.trans (by rw [hl, List.getLastD_concat])
  rw [Btree.endIterator, hlast, if_neg hne, hsurface] at hend
  cases hend
  have hat : Locates s.kvsAt (L ++ [l]) ((L ++ [l]).flatMap s.kvsAt).length
      (l, (s.kvsAt l).length) := locates_end
  rwa [← hl, ht.length_flatMap, hkvs] at hat

omit [LinearOrder K] in
private theorem Stored.firstLeaf_eq {t : Shape K V h} (hst : Stored s t) (hf : t.Filled tr lo)
    (hfuel : h ≤ fuel) : s.firstLeaf fuel t.addr = t.leaves.headD 0 := by
  induction h generalizing lo fuel with
  | zero =>
    obtain ⟨w, kvs, rfl⟩ := t.exists_leaf
    obtain ⟨n, p, hload⟩ : ∃ n p, s.load w = some (.surface ⟨kvs, n, p⟩) := hst
    cases fuel with
    | zero => rfl
    | succ fuel =>
      rw [firstLeaf, Shape.addr_leaf, hload]
      rfl
  | succ h ih =>
    obtain ⟨fuel, rfl⟩ : ∃ f, fuel = f + 1 := ⟨fuel - 1, by omega⟩
    obtain ⟨x, cs, rfl⟩ := t.exists_branch
    obtain ⟨hload, hcs⟩ := stored_branch.1 hst
    obtain ⟨hlen, -, hfilled⟩ := Shape.filled_branch.1 hf
    obtain ⟨c, cs, rfl⟩ := List.exists_cons_of_length_pos (show 0 < cs.length by omega)
    have hc := hfilled c List.mem_cons_self
    obtain ⟨l, L, hl⟩ := List.exists_cons_of_ne_nil (leaves_ne_nil hc)
    rw [firstLeaf, Shape.addr_branch, hload, Shape.leaves_branch, List.flatMap_cons, hl]
    show s.firstLeaf fuel c.addr = l
    rw [ih (hcs c List.mem_cons_self) hc (by omega), hl]
    rfl

private theorem Grounded.firstPlace_eq (ht : Grounded tr lo s t) :
    s.firstPlace = (t.leaves.headD 0, 0) := by
  rw [firstPlace, if_neg (Rooted.root_ne ht.root ht.owned), ht.depth, ht.root,
    ht.stored.firstLeaf_eq ht.filled (Nat.le_succ h)]

/-- The first place is the one of the first pair. -/
theorem Grounded.locates_firstPlace (ht : Grounded tr 1 s t) :
    Locates s.kvsAt t.leaves 0 s.firstPlace := by
  obtain ⟨l, L, hl⟩ := List.exists_cons_of_ne_nil (leaves_ne_nil ht.filled)
  obtain ⟨-, n, -, hkvs, -, -, hpos⟩ := ht.exists_leaf (A := []) hl
  rw [ht.firstPlace_eq, hl, List.headD_cons]
  exact ⟨[], L, rfl, rfl, .inl (hkvs ▸ hpos)⟩

/-- `begin` is the first place of a tree that remembers its first leaf. -/
theorem Represents.firstPlace_eq (hs : Represents tr s kvs) : s.firstPlace = s.beginIterator := by
  cases hs with
  | bare hs => rw [firstPlace, if_pos hs.root, beginIterator, hs.headsurface]
  | rooted t ht => rw [ht.firstPlace_eq, beginIterator, ht.headsurface]

private theorem Grounded.stepsNext_spec (ht : Grounded tr 1 s t) (n : ℕ)
    (hi : Locates s.kvsAt t.leaves k i) :
    ∃ j, s.stepsNext n i = some j ∧
      Locates s.kvsAt t.leaves (min (k + n) t.pairs.length) j := by
  induction n generalizing k i with
  | zero =>
    have hle := hi.le
    rw [ht.length_flatMap] at hle
    exact ⟨i, rfl, by rwa [Nat.add_zero, Nat.min_eq_left hle]⟩
  | succ n ih =>
    rw [stepsNext, steps]
    split
    · next hend =>
      have hk : k = t.pairs.length :=
        hi.index_unique ht.chain.nodup (ht.locates_endIterator hend)
      exact ⟨i, rfl, by rwa [Nat.min_eq_right (by omega), ← hk]⟩
    · obtain ⟨j, hj, hat⟩ := ht.next_spec hi
      obtain ⟨l, hl, hat'⟩ := ih hat
      refine ⟨l, ?_, ?_⟩
      · rw [hj]
        exact hl
      · rwa [show min (k + (n + 1)) t.pairs.length =
          min (min (k + 1) t.pairs.length + n) t.pairs.length by omega]

private theorem Grounded.stepsPrev_spec (ht : Grounded tr 1 s t) (n : ℕ)
    (hi : Locates s.kvsAt t.leaves k i) :
    ∃ j, s.stepsPrev n i = some j ∧ Locates s.kvsAt t.leaves (k - n) j := by
  induction n generalizing k i with
  | zero => exact ⟨i, rfl, hi⟩
  | succ n ih =>
    rw [stepsPrev, steps]
    split
    · next hfirst =>
      have hk : k = 0 := hi.index_unique ht.chain.nodup (hfirst ▸ ht.locates_firstPlace)
      exact ⟨i, rfl, by rwa [hk, Nat.zero_sub, ← hk]⟩
    · obtain ⟨j, hj, hat⟩ := ht.prev_spec hi
      obtain ⟨l, hl, hat'⟩ := ih hat
      refine ⟨l, ?_, ?_⟩
      · rw [hj]
        exact hl
      · rwa [Nat.sub_sub, Nat.add_comm 1 n] at hat'

/-- An iterator that is a position has an index, and each index is a position. -/
theorem Grounded.position_iff (ht : Grounded tr 1 s t) :
    s.Position i ↔ ∃ k, Locates s.kvsAt t.leaves k i := by
  constructor
  · intro hi
    induction hi with
    | first => exact ⟨0, ht.locates_firstPlace⟩
    | next hi hstep ih =>
      obtain ⟨k, hk⟩ := ih
      obtain ⟨j, hj, hat⟩ := ht.next_spec hk
      obtain rfl := Option.some.inj (hj.symm.trans hstep)
      exact ⟨_, hat⟩
  · rintro ⟨k, hk⟩
    induction k generalizing i with
    | zero => exact hk.unique ht.locates_firstPlace ▸ .first
    | succ k ih =>
      have hle := hk.le
      rw [ht.length_flatMap] at hle
      obtain ⟨j, hj, hat⟩ := ht.stepsNext_spec k ht.locates_firstPlace
      rw [Nat.zero_add, Nat.min_eq_left (by omega)] at hat
      obtain ⟨l, hl, hat'⟩ := ht.next_spec hat
      rw [Nat.min_eq_left hle] at hat'
      exact hk.unique hat' ▸ .next (ih hat) hl

/-- A search returns the place behind the pairs that are `before`. -/
theorem Grounded.locates_bound {search : List K → K → ℕ} {before : K → Prop} [DecidablePred before]
    {key : K} (ht : Grounded tr 1 s t) (hcut : Cuts search before key) :
    ∃ i, s.bound search key = some i ∧
      Locates s.kvsAt t.leaves (t.pairs.takeWhile fun p ↦ decide (before p.1)).length i := by
  obtain ⟨w, n, A, B, heq, haround⟩ :=
    findSurface_spec hcut (Nat.lt_add_one h) ht.stored ht.filled le_rfl ht.sorted
  rw [← ht.depth, ← ht.root] at heq
  have hsorted := ht.sorted
  rw [haround.eq] at hsorted
  obtain ⟨C, D, hCD, hslot, hC, hD⟩ :=
    hcut.exists_split (sorted_append.1 (sorted_append.1 hsorted).2.1).1
  have hB : D = [] → B = [] := fun hnil ↦ by
    by_contra hB
    obtain ⟨p, hp, hkey⟩ := Shape.exists_lastKey haround.ne_nil
    rw [hCD, hnil, List.append_nil] at hp
    exact haround.right hB (hkey ▸ hC p hp)
  have htake : (t.pairs.takeWhile fun p ↦ decide (before p.1)) = A ++ C := by
    have hAC : ∀ p ∈ A ++ C, decide (before p.1) = true := fun p hp ↦
      decide_eq_true ((List.mem_append.1 hp).elim (haround.left p) (hC p))
    have hrest : ((D ++ B).takeWhile fun p ↦ decide (before p.1)) = [] := by
      cases D with
      | nil => rw [hB rfl]; rfl
      | cons d D => exact List.takeWhile_cons_of_neg (by simpa using hD d List.mem_cons_self)
    rw [haround.eq, hCD, List.append_assoc, ← List.append_assoc A, List.takeWhile_append_of_pos hAC,
      hrest, List.append_nil]
  obtain ⟨L, M, hL⟩ := List.append_of_mem haround.mem
  have hkvs := kvsAt_eq haround.load
  obtain ⟨hbefore, hafter⟩ : L.flatMap s.kvsAt = A ∧ M.flatMap s.kvsAt = B := by
    have hpairs := ht.stored.flatMap_kvsAt
    rw [hL, List.flatMap_append, List.flatMap_cons, hkvs, haround.eq] at hpairs
    obtain ⟨p, rest, hp⟩ := List.exists_cons_of_ne_nil haround.ne_nil
    rw [← hpairs, hp] at hsorted
    obtain ⟨-, hsorted, hlt⟩ := sorted_append.1 hsorted
    rw [hp] at hpairs
    obtain ⟨hleft, -, hright⟩ := (List.append_cons_inj_of_notMem
      (fun hmem ↦ (hlt _ hmem _ List.mem_cons_self).false)
      fun hmem ↦ ((List.pairwise_cons.1 hsorted).1 _ hmem).false).1 hpairs
    exact ⟨hleft, List.append_cancel_left hright⟩
  refine ⟨(w, C.length), ?_, L, M, hL, ?_, ?_⟩
  · rw [bound, if_neg (Rooted.root_ne ht.root ht.owned), heq, hslot]
    rfl
  · rw [htake, hbefore, List.length_append]
  · rw [hkvs, hCD]
    cases D with
    | nil =>
      refine .inr ⟨List.eq_nil_iff_forall_not_mem.2 fun v hv ↦ ?_, by rw [List.append_nil]⟩
      rw [hB rfl, List.flatMap_eq_nil_iff] at hafter
      refine ht.stored.kvsAt_ne_nil ht.filled le_rfl v ?_ (hafter v hv)
      exact hL ▸ List.mem_append_right _ (List.mem_cons_of_mem _ hv)
    | cons d D => exact .inl (by simp)

/-! ### Distances -/

/-- The end is the place behind the last pair. -/
theorem Grounded.exists_endIterator (ht : Grounded tr 1 s t) :
    ∃ e, s.endIterator = some e ∧ Locates s.kvsAt t.leaves t.pairs.length e := by
  obtain ⟨L, l, hl⟩ := (List.eq_nil_or_concat' t.leaves).resolve_left (leaves_ne_nil ht.filled)
  obtain ⟨hne, n, hsurface, -⟩ := ht.exists_leaf hl
  have hlast : s.lastSurface = l := ht.chain.last.trans (by rw [hl, List.getLastD_concat])
  have hend : s.endIterator = some (l, n.kvs.length) := by
    rw [Btree.endIterator, hlast, if_neg hne, hsurface]
    rfl
  exact ⟨_, hend, ht.locates_endIterator hend⟩

/-- An iterator is ahead of another one by the difference of their indices. -/
theorem Grounded.ahead_iff (ht : Grounded tr 1 s t) (n : ℕ) (hi : Locates s.kvsAt t.leaves k i) :
    s.Ahead i n j ↔ Locates s.kvsAt t.leaves (k + n) j := by
  obtain ⟨e, hend, he⟩ := ht.exists_endIterator
  have hle {k : ℕ} {i : Iterator} (hi : Locates s.kvsAt t.leaves k i) : k ≤ t.pairs.length :=
    ht.length_flatMap ▸ hi.le
  constructor
  · intro h
    induction h generalizing k with
    | refl i => exact hi
    | @next i j l n hne hstep hj ih =>
      obtain ⟨j', hj', hat⟩ := ht.next_spec hi
      obtain rfl := Option.some.inj (hj'.symm.trans hstep)
      have hk : k ≠ t.pairs.length :=
        fun hk ↦ hne (hend.trans (congrArg some (he.unique (hk ▸ hi))))
      rw [Nat.min_eq_left (lt_of_le_of_ne (hle hi) hk)] at hat
      have := ih hat
      rwa [show k + 1 + n = k + (n + 1) by omega] at this
  · intro hj
    induction n generalizing k i with
    | zero => exact hj.unique hi ▸ .refl j
    | succ n ih =>
      have hlt := hle hj
      obtain ⟨l, hl, hat⟩ := ht.next_spec hi
      rw [Nat.min_eq_left (by omega)] at hat
      refine .next (fun heq ↦ ?_) hl (ih hat (by rwa [show k + 1 + n = k + (n + 1) by omega]))
      rw [heq] at hend
      have := hi.index_unique ht.chain.nodup (Option.some.inj hend ▸ he)
      omega

/-- The occupants of the leaves from one to another are added up. -/
theorem Grounded.countLoop_spec (ht : Grounded tr 1 s t) {C D : List ℕ} {v : ℕ} (total : UInt64)
    (hfuel : C.length < fuel) (hL : t.leaves = A ++ w :: B) (hC : w :: B = C ++ v :: D) :
    s.countLoop v fuel w total = some (total + .ofNat (C.flatMap s.kvsAt).length) := by
  induction C generalizing A B w fuel total with
  | nil =>
    obtain ⟨fuel, rfl⟩ : ∃ f, fuel = f + 1 := ⟨fuel - 1, by omega⟩
    obtain ⟨rfl, -⟩ := List.cons.inj hC
    rw [countLoop, if_pos (.inr rfl), List.flatMap_nil, List.length_nil]
    exact congrArg some (UInt64.add_zero total).symm
  | cons c C ih =>
    obtain ⟨fuel, rfl⟩ : ∃ f, fuel = f + 1 := ⟨fuel - 1, by omega⟩
    obtain ⟨hw, n, hsurface, hkvs, hnext, -⟩ := ht.exists_leaf hL
    obtain ⟨rfl, hB⟩ := List.cons.inj hC
    have hv : w ≠ v := by
      rintro rfl
      have hnodup := ht.chain.nodup
      rw [hL] at hnodup
      have hmem : w ∈ B := hB ▸ List.mem_append_right _ List.mem_cons_self
      exact (List.nodup_cons.1 (List.nodup_append.1 hnodup).2.1).1 hmem
    obtain ⟨b, B', rfl⟩ := List.exists_cons_of_ne_nil
      (show B ≠ [] by rw [hB]; exact List.append_ne_nil_of_right_ne_nil _ (List.cons_ne_nil _ _))
    have hL' : t.leaves = (A ++ [w]) ++ b :: B' := by rw [hL, List.append_assoc]; rfl
    rw [List.headD_cons] at hnext
    rw [List.length_cons] at hfuel
    rw [countLoop, if_neg (not_or.2 ⟨hw, hv⟩), hsurface]
    simp only [Option.bind_eq_bind, Option.bind_some]
    rw [hnext, ih _ (by omega) hL' hB, List.flatMap_cons, List.length_append, hkvs,
      UInt64.ofNat_add, UInt64.add_assoc]

/-- The count from one place to a later one is the difference of their indices. -/
theorem Grounded.count_spec (ht : Grounded tr 1 s t) (hi : Locates s.kvsAt t.leaves k i) {l : ℕ}
    (hj : Locates s.kvsAt t.leaves l j) (hkl : k ≤ l) :
    s.count i j = some (.ofNat (l - k)) := by
  obtain ⟨A, B, C, D, hL, hC, hk, hl, -⟩ := hi.exists_between hj hkl
  rw [List.flatMap_append, List.length_append] at hl
  have hlen := length_leaves_le ht.filled le_rfl
  have hC' := congrArg List.length hC
  rw [hL, List.length_append, hC', List.length_append, List.length_cons] at hlen
  rw [count, ht.countLoop_spec 0 (show C.length < s.stats.treeSize + 1 by rw [ht.treeSize]; omega)
    hL hC, Option.map_some, UInt64.zero_add, ← UInt64.ofNat_add, ← UInt64.ofNat_sub (by omega)]
  exact congrArg (some ∘ UInt64.ofNat) (by omega)

/-! ### Jumps -/

/-- A jump forward does not pass `finish` where that lies in a leaf behind, nor the end. -/
theorem Grounded.advanceLoop_spec {finish : Iterator} {b : ℕ} (ht : Grounded tr 1 s t)
    (hfuel : B.length < fuel) (hL : t.leaves = A ++ w :: B) (hslot : slot < (s.kvsAt w).length ∨
      B = [] ∧ slot = (s.kvsAt w).length) (hfinish : finish.1 ∉ B ∧ b = t.pairs.length ∨
        ∃ C D, B = C ++ finish.1 :: D ∧ b = ((A ++ w :: C).flatMap s.kvsAt).length + finish.2 ∧
          (finish.2 < (s.kvsAt finish.1).length ∨ D = [] ∧ finish.2 = (s.kvsAt finish.1).length)) :
    ∃ j, s.advanceLoop finish fuel (w, slot) k = some j ∧
      Locates s.kvsAt t.leaves (min ((A.flatMap s.kvsAt).length + slot + k) b) j := by
  induction B generalizing fuel A w slot k with
  | nil =>
    obtain ⟨fuel, rfl⟩ : ∃ f, fuel = f + 1 := ⟨fuel - 1, by omega⟩
    obtain ⟨-, n, hsurface, hkvs, hnext, -, -⟩ := ht.exists_leaf hL
    have htotal := hL ▸ ht.length_flatMap
    rw [length_flatMap_mid, hkvs, List.flatMap_nil, List.length_nil] at htotal
    have hb := (hfinish.resolve_right fun ⟨C, D, hnil, _⟩ ↦ by simp at hnil).2
    rw [hkvs] at hslot
    rw [List.headD_nil] at hnext
    simp only [advanceLoop, hsurface, Option.bind_eq_bind, Option.bind_some, Option.pure_def]
    split
    · next hlt =>
      refine ⟨_, rfl, A, [], hL, ?_, .inl (hkvs ▸ hlt)⟩
      dsimp only
      omega
    · next hge =>
      rw [if_neg (not_not.2 hnext)]
      refine ⟨_, rfl, A, [], hL, ?_, .inr ⟨rfl, by rw [hkvs]⟩⟩
      dsimp only
      omega
  | cons v B ih =>
    obtain ⟨fuel, rfl⟩ : ∃ f, fuel = f + 1 := ⟨fuel - 1, by omega⟩
    obtain ⟨-, n, hsurface, hkvs, hnext, -, -⟩ := ht.exists_leaf hL
    have hL' : t.leaves = (A ++ [w]) ++ v :: B := by rw [hL, List.append_assoc]; rfl
    obtain ⟨hv, m, -, hkvs', -, -, hpos'⟩ := ht.exists_leaf hL'
    have htotal := hL ▸ ht.length_flatMap
    rw [length_flatMap_mid, hkvs] at htotal
    have hlt := hslot.resolve_right fun hor ↦ absurd hor.1 (List.cons_ne_nil _ _)
    rw [hkvs] at hlt
    rw [List.headD_cons] at hnext
    have hbehind : (A.flatMap s.kvsAt).length + n.kvs.length ≤ b := by
      rcases hfinish with ⟨-, rfl⟩ | ⟨C, D, -, rfl, -⟩
      · omega
      · rw [length_flatMap_mid, hkvs]
        omega
    simp only [advanceLoop, hsurface, Option.bind_eq_bind, Option.bind_some, Option.pure_def]
    split
    · next hstay =>
      refine ⟨_, rfl, A, v :: B, hL, ?_, .inl (hkvs ▸ hstay)⟩
      dsimp only
      omega
    · next hge =>
      rw [hnext, if_pos hv]
      split
      · next hmeets =>
        obtain ⟨C, D, hC, rfl, hslot'⟩ := hfinish.resolve_left fun hor ↦
          hor.1 (hmeets ▸ List.mem_cons_self)
        obtain ⟨rfl, rfl⟩ : C = [] ∧ B = D := by
          have hnodup := (List.nodup_append.1 (hL' ▸ ht.chain.nodup)).2.1
          rw [← List.nil_append (v :: B), hmeets] at hC
          rw [hmeets] at hnodup
          obtain ⟨hnil, -, hB⟩ := (List.append_cons_inj_of_notMem List.not_mem_nil
            (List.nodup_cons.1 hnodup).1).1 hC
          exact ⟨hnil.symm, hB⟩
        rw [hmeets]
        refine ⟨_, rfl, A ++ [w], B, hmeets ▸ hL', ?_, slot_of_le hslot' (Nat.min_le_right _ _)⟩
        dsimp only
        rw [List.flatMap_append, List.flatMap_singleton, List.length_append, hkvs]
        omega
      · next hpasses =>
        obtain ⟨j, hj, hat⟩ := ih (k := k - (n.kvs.length - slot))
          (Nat.lt_of_succ_lt_succ hfuel) hL' (.inl (hkvs' ▸ hpos')) <| by
            refine hfinish.imp (fun h ↦ ⟨fun hmem ↦ h.1 (List.mem_cons_of_mem _ hmem), h.2⟩) ?_
            rintro ⟨_ | ⟨c, C⟩, D, hC, hb, hslot'⟩
            · exact absurd (List.cons.inj hC).1 hpasses
            · obtain ⟨rfl, hB⟩ := List.cons.inj hC
              exact ⟨C, D, hB, by rw [hb, List.append_assoc]; rfl, hslot'⟩
        refine ⟨j, hj, ?_⟩
        rw [List.flatMap_append, List.flatMap_singleton, List.length_append, hkvs] at hat
        rwa [show (A.flatMap s.kvsAt).length + n.kvs.length + 0 + (k - (n.kvs.length - slot)) =
          (A.flatMap s.kvsAt).length + slot + k by omega] at hat

/-- Within its leaf the loop of `_retreat` goes back as far as it should. Over the start of a leaf
it goes back too far, or ends behind the first leaf. -/
theorem Grounded.retreatLoop_spec (ht : Grounded tr 1 s t) (hfuel : A.length < fuel)
    (hL : t.leaves = A ++ w :: B) (hslot : slot ≤ (s.kvsAt w).length) (hk : 0 < k)
    (hcross : slot ≤ k) :
    ∃ j, s.retreatLoop (0, 0) fuel (w, slot) k = some j ∧ (j.2 = (s.kvsAt j.1).length ∨
      ∃ l, Locates s.kvsAt t.leaves l j ∧ l + k < (A.flatMap s.kvsAt).length + slot) := by
  induction fuel generalizing A B w slot k with
  | zero => exact absurd hfuel (Nat.not_lt_zero _)
  | succ fuel ih =>
    obtain ⟨-, n, hsurface, hkvs, -, hpreceding, -⟩ := ht.exists_leaf hL
    simp only [retreatLoop, hsurface, Option.bind_eq_bind, Option.bind_some, Option.pure_def]
    rw [if_neg hk.ne', if_neg (Nat.not_lt.2 hcross)]
    rcases List.eq_nil_or_concat' A with rfl | ⟨A, a, rfl⟩
    · rw [List.getLastD_nil] at hpreceding
      rw [if_neg (not_not.2 hpreceding)]
      exact ⟨_, rfl, .inl (by rw [hkvs])⟩
    · have hL' : t.leaves = A ++ a :: (w :: B) := by rw [hL, List.append_assoc]; rfl
      obtain ⟨ha, m, hsurface', hkvs', -, -, hpos'⟩ := ht.exists_leaf hL'
      rw [List.getLastD_concat] at hpreceding
      rw [hpreceding, if_pos ha, if_neg ha, hsurface', Option.bind_some]
      have hlast : m.kvs.length - 1 < (s.kvsAt a).length := by
        rw [hkvs']
        omega
      have hindex : ((A ++ [a]).flatMap s.kvsAt).length =
          (A.flatMap s.kvsAt).length + m.kvs.length := by
        rw [List.flatMap_append, List.flatMap_singleton, List.length_append, hkvs']
      rw [List.length_append, List.length_singleton] at hfuel
      rcases Nat.eq_zero_or_pos (k - slot) with hdone | hleft
      · -- the whole distance lies before the slot, and the leaf is left all the same
        obtain ⟨fuel, rfl⟩ : ∃ f, fuel = f + 1 := ⟨fuel - 1, by omega⟩
        refine ⟨(a, m.kvs.length - 1), by simp only [retreatLoop, hdone, if_true], .inr ?_⟩
        refine ⟨_, ⟨A, w :: B, hL', rfl, .inl hlast⟩, ?_⟩
        dsimp only
        omega
      · rcases Nat.lt_or_ge (k - slot) (m.kvs.length - 1) with hstay | hcross'
        · obtain ⟨fuel, rfl⟩ : ∃ f, fuel = f + 1 := ⟨fuel - 1, by omega⟩
          refine ⟨(a, m.kvs.length - 1 - (k - slot)), ?_, .inr ?_⟩
          · simp only [retreatLoop, hsurface', Option.bind_eq_bind, Option.bind_some,
              Option.pure_def]
            rw [if_neg hleft.ne', if_pos hstay]
          · refine ⟨_, ⟨A, w :: B, hL', rfl, .inl ?_⟩, ?_⟩
            · dsimp only
              omega
            · dsimp only
              omega
        · obtain ⟨j, hj, hcase⟩ := ih (Nat.lt_of_succ_lt_succ hfuel) hL' hlast.le hleft hcross'
          refine ⟨j, hj, hcase.imp_right fun ⟨l, hl, hlt⟩ ↦ ⟨l, hl, ?_⟩⟩
          omega

/-- A jump forward goes as far as the steps. -/
theorem Grounded.advance_spec (ht : Grounded tr 1 s t) (n : ℕ) (hi : Locates s.kvsAt t.leaves k i) :
    ∃ j, s.advance i n (0, 0) = some j ∧
      Locates s.kvsAt t.leaves (min (k + n) t.pairs.length) j := by
  obtain ⟨A, B, hL, rfl, hslot⟩ := hi
  have hw := (ht.exists_leaf hL).1
  have hlen := length_leaves_le ht.filled le_rfl
  rw [hL, List.length_append, List.length_cons] at hlen
  rw [advance, if_neg hw, if_neg hw.symm, Int.natAbs_natCast]
  refine ht.advanceLoop_spec (by rw [ht.treeSize]; omega) hL hslot (.inl ⟨fun hzero ↦ ?_, rfl⟩)
  exact (ht.chain.pos 0 (hL ▸ List.mem_append_right _ (List.mem_cons_of_mem _ hzero))).false

/-- A jump that is given the place of a later one does not pass it. -/
theorem Grounded.advance_finish (ht : Grounded tr 1 s t) (n : ℤ) (hi : Locates s.kvsAt t.leaves k i)
    {b : ℕ} {e : Iterator} (he : Locates s.kvsAt t.leaves b e) (hkb : k ≤ b) :
    ∃ j, s.advance i n e = some j ∧ Locates s.kvsAt t.leaves (min (k + n.natAbs) b) j := by
  obtain ⟨A, B, C, D, hL, hC, rfl, rfl, hslot, hslot'⟩ := hi.exists_between he hkb
  have hw := (ht.exists_leaf hL).1
  have hnodup := (List.nodup_append.1 (hL ▸ ht.chain.nodup)).2.1
  rw [advance, if_neg hw]
  cases C with
  | nil =>
    obtain ⟨heq, rfl⟩ := List.cons.inj hC
    rw [List.append_nil] at hkb ⊢
    rw [if_pos heq.symm]
    rw [← heq] at hslot'
    refine ⟨_, rfl, A, B, hL, ?_, slot_of_le hslot' (Nat.min_le_right _ _)⟩
    dsimp only
    omega
  | cons c C =>
    obtain ⟨rfl, hB⟩ := List.cons.inj hC
    have hne : e.1 ≠ i.1 := fun heq ↦ (List.nodup_cons.1 hnodup).1 <| by
      rw [hB, heq]
      exact List.mem_append_right _ List.mem_cons_self
    have hlen := length_leaves_le ht.filled le_rfl
    rw [hL, List.length_append, List.length_cons] at hlen
    rw [if_neg hne]
    exact ht.advanceLoop_spec (by rw [ht.treeSize]; omega) hL hslot (.inr ⟨C, D, hB, rfl, hslot'⟩)

/-- A jump back goes as far as the steps within its leaf, and nowhere else. -/
theorem Grounded.retreat_iff (ht : Grounded tr 1 s t) {n : ℕ} (hn : 0 < n)
    (hi : Locates s.kvsAt t.leaves k i) :
    s.retreat i n (0, 0) = s.stepsPrev n i ↔ n < i.2 := by
  obtain ⟨j, hj, hat⟩ := ht.stepsPrev_spec n hi
  obtain ⟨A, B, hL, hk, hslot⟩ := id hi
  obtain ⟨hw, m, hsurface, -⟩ := ht.exists_leaf hL
  have hlen := length_leaves_le ht.filled le_rfl
  rw [hL, List.length_append, List.length_cons] at hlen
  have hle : i.2 ≤ (s.kvsAt i.1).length := by rcases hslot with hslot | ⟨-, hslot⟩ <;> omega
  rw [hj, retreat, if_neg hw, if_neg hw.symm, Int.natAbs_natCast, ht.treeSize]
  rcases Nat.lt_or_ge n i.2 with hlt | hge
  · refine iff_of_true ?_ hlt
    have hback : s.retreatLoop (0, 0) (t.pairs.length + 1) i n = some (i.1, i.2 - n) := by
      show s.retreatLoop (0, 0) (t.pairs.length + 1) (i.1, i.2) n = _
      simp only [retreatLoop, if_neg hn.ne', if_pos hlt, hsurface, Option.bind_eq_bind,
        Option.bind_some, Option.pure_def]
    rw [hback]
    refine congrArg some (Locates.unique ⟨A, B, hL, ?_, .inl ?_⟩ hat)
    · dsimp only
      omega
    · dsimp only
      omega
  · refine iff_of_false (fun heq ↦ ?_) (Nat.not_lt.2 hge)
    obtain ⟨l, hl, hcase⟩ := ht.retreatLoop_spec
      (show A.length < t.pairs.length + 1 by omega) hL hle hn hge
    obtain rfl := Option.some.inj (hl.symm.trans heq)
    have htotal := hi.le
    rw [ht.length_flatMap] at htotal
    rcases hcase with hbehind | ⟨index, hindex, hlt⟩
    · have hlt := hat.slot_lt (by rw [ht.length_flatMap]; omega)
      omega
    · have := hindex.index_unique ht.chain.nodup hat
      omega

omit [LinearOrder K] [Inhabited K] in
/-- Without a tree there is one position, and nothing moves it. -/
theorem Barren.position (hs : Barren s) (hi : s.Position i) :
    i = (0, 0) ∧ s.endIterator = some i ∧ i = s.firstPlace := by
  have hfirst : s.firstPlace = (0, 0) := if_pos hs.root
  have hi' : i = (0, 0) := by
    induction hi with
    | first => exact hfirst
    | next hi hstep ih =>
      rw [ih] at hstep
      cases hstep
  exact ⟨hi', hi' ▸ endIterator_of_barren hs, hi'.trans hfirst.symm⟩

/-- The count is the number of steps, with 64 bits. -/
theorem count_of_ahead (hs : Searchable tr s kvs) (hi : s.Position i) {n : ℕ}
    (h : s.Ahead i n j) : s.count i j = some (.ofNat n) := by
  cases hs with
  | bare hs =>
    obtain ⟨hzero, hend, -⟩ := hs.position hi
    cases h with
    | refl => rw [hzero, count, countLoop, if_pos (.inl rfl)]; rfl
    | next hne => exact absurd hend hne
  | rooted t ht =>
    obtain ⟨k, hk⟩ := ht.position_iff.1 hi
    rw [ht.count_spec hk ((ht.ahead_iff n hk).1 h) (Nat.le_add_right k n), Nat.add_sub_cancel_left]

/-- A jump forward goes as far as the steps, also over the end. -/
theorem addAssign_eq_stepsNext (hs : Searchable tr s kvs) (hi : s.Position i) (n : ℕ) :
    s.addAssign i n = s.stepsNext n i := by
  rw [addAssign, if_pos (Int.natCast_nonneg n)]
  cases hs with
  | bare hs =>
    obtain ⟨hzero, hend, -⟩ := hs.position hi
    have hstay : s.stepsNext n i = some i := by
      cases n with
      | zero => rfl
      | succ n => exact if_pos hend
    rw [hstay, advance, if_pos (by rw [hzero])]
  | rooted t ht =>
    obtain ⟨k, hk⟩ := ht.position_iff.1 hi
    obtain ⟨j, hj, hat⟩ := ht.advance_spec n hk
    obtain ⟨l, hl, hat'⟩ := ht.stepsNext_spec n hk
    rw [hj, hl, hat.unique hat']

/-- A jump back goes as far as the steps where it stays within a leaf. -/
theorem subAssign_eq_stepsPrev_iff (hs : Searchable tr s kvs) (hi : s.Position i) (n : ℕ) :
    s.subAssign i n = s.stepsPrev n i ↔ n = 0 ∨ n < i.2 ∨ kvs = [] := by
  rw [subAssign]
  cases hs with
  | bare hs =>
    obtain ⟨hzero, -, hfirst⟩ := hs.position hi
    refine iff_of_true ?_ (.inr (.inr rfl))
    have hnull : i.1 = 0 := by rw [hzero]
    have hstay : s.stepsPrev n i = some i := by
      cases n with
      | zero => rfl
      | succ n => exact if_pos hfirst
    rw [hstay, retreat, advance, if_pos hnull, if_pos hnull, ite_self]
  | rooted t ht =>
    obtain ⟨k, hk⟩ := ht.position_iff.1 hi
    have hne := ht.filled.pairs_ne_nil le_rfl
    rcases Nat.eq_zero_or_pos n with rfl | hn
    · refine iff_of_true ?_ (.inl rfl)
      obtain ⟨j, hj, hat⟩ := ht.advance_spec 0 hk
      have hle := hk.le
      rw [ht.length_flatMap] at hle
      rw [Nat.add_zero, Nat.min_eq_left hle] at hat
      exact hj.trans (congrArg some (hat.unique hk))
    · rw [if_pos (Int.natCast_pos.2 hn), ht.retreat_iff hn hk]
      simp [hn.ne', hne]

/-- Jumping is stepping at a distance of 0, within a leaf, and where there is nothing. -/
theorem jumps_iff (hs : Searchable tr s kvs) (hi : s.Position i) (n : ℕ) :
    s.addAssign i n = s.stepsNext n i ∧ s.subAssign i n = s.stepsPrev n i ↔
      n = 0 ∨ n < i.2 ∨ kvs = [] := by
  rw [← subAssign_eq_stepsPrev_iff hs hi n]
  exact and_iff_right (addAssign_eq_stepsNext hs hi n)

/-- The tree with the pairs of 1 and 2 in one leaf. -/
def twoPairs : Option (Btree ℕ ℕ) :=
  ((blank ⟨fun _ ↦ none, fun _ ↦ none, 0⟩).run Traits.perPage
    [.insert 1 10, .insert 2 20]).map Prod.fst

private theorem exists_twoPairs :
    ∃ s, twoPairs = some s ∧ Represents Traits.perPage s [(1, 10), (2, 20)] ∧
      s.Position (1, 1) ∧ s.Position (1, 2) := by
  have hst : (⟨fun _ ↦ none, fun _ ↦ none, 0⟩ : Storage ℕ ℕ).Unlooped := fun _ _ h ↦ nomatch h
  obtain ⟨s, heq, hs, -⟩ := run_spec (m := OrderedMap.empty)
    (represents_blank hst) [.insert 1 10, .insert 2 20]
  have htwo : twoPairs = some s := congrArg (Option.map Prod.fst) heq
  have hrun : twoPairs.map (fun s ↦ (s.firstPlace, s.next (1, 0), s.next (1, 1))) =
      some ((1, 0), some (1, 1), some (1, 2)) := by decide +kernel
  rw [htwo] at hrun
  simp only [Option.map_some, Option.some.injEq, Prod.mk.injEq] at hrun
  obtain ⟨hplace, hfirst, hsecond⟩ := hrun
  have hat : s.Position (1, 1) := .next (hplace ▸ .first) hfirst
  exact ⟨s, htwo, hs, hat, .next hat hsecond⟩

/-- Two pairs in one leaf, a jump over the second one and back. -/
theorem jumps_iff_twoPairs :
    ∃ s, twoPairs = some s ∧ s.addAssign (1, 2) 1 = s.stepsNext 1 (1, 2) ∧
      s.subAssign (1, 2) 1 = s.stepsPrev 1 (1, 2) := by
  obtain ⟨s, htwo, hs, -, hi⟩ := exists_twoPairs
  exact ⟨s, htwo, (jumps_iff hs.searchable hi 1).2 (.inr (.inl (by decide)))⟩

/-- From the second pair back by one is behind the leaf, not at its first pair. -/
theorem not_jumps_twoPairs :
    ¬∀ (s : Btree ℕ ℕ) (kvs : List (ℕ × ℕ)), Represents Traits.perPage s kvs →
      ∀ i, s.Position i → ∀ n : ℕ,
        s.addAssign i n = s.stepsNext n i ∧ s.subAssign i n = s.stepsPrev n i := by
  intro hjumps
  obtain ⟨s, htwo, hs, hi, -⟩ := exists_twoPairs
  have hrun : twoPairs.map (fun s ↦ (s.subAssign (1, 1) 1, s.stepsPrev 1 (1, 1))) =
      some (some (1, 2), some (1, 0)) := by decide +kernel
  rw [htwo] at hrun
  simp only [Option.map_some, Option.some.injEq, Prod.mk.injEq] at hrun
  have heq : some (1, 2) = some (1, 0) := hrun.1.symm.trans ((hjumps s _ hs _ hi 1).2.trans hrun.2)
  exact absurd heq (by decide)

end LibSpaces.Stx.Btree
