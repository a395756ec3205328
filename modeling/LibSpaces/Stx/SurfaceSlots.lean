import LibSpaces.Base.SlotMap
import LibSpaces.Stx.PageCodec

/-!
# The slots of a surface node

`surface_node`, `src/src/stx/btree.h:1709–1752,1922–2046,2095–2177`: keys and values stay in the
slot they were put in, `permutations` has the slot of each position. A position without one gets the
next slot when its key or value is first referred to. The node that a call leaves behind when it
throws is not followed. No key is hashed, so nothing is erased from a hash table.
-/

namespace LibSpaces.Stx

open LibSpaces.Base

/-- `surface_node`, `btree.h:1709–1727`; `permutations` has `surfaceslotmax` where a position has no
slot and behind its end. -/
structure SurfaceNode (K V : Type) where
  permutations : ℕ → ℕ
  allocated : ℕ
  occupants : ℕ
  keys : ℕ → K
  values : ℕ → V

namespace SurfaceNode

variable {K V : Type} (tr : Traits)

/-- `check_node`, `btree.h:1199–1204`. -/
def checkNode (n : SurfaceNode K V) : Except LoadError Unit :=
  reject (tr.interiorslots + 1 < n.occupants) .badFormat

/-- `get_occupants`, `btree.h:1316–1320`. -/
def getOccupants (n : SurfaceNode K V) : Except LoadError ℕ := do
  n.checkNode tr
  return n.occupants

/-- `set_occupants`, `btree.h:1324–1328`. -/
def setOccupants (n : SurfaceNode K V) (o : ℕ) : Except LoadError (SurfaceNode K V) := do
  n.checkNode tr
  return { n with occupants := o }

/-- `inc_occupants`, `btree.h:1264–1268`. -/
def incOccupants (n : SurfaceNode K V) : Except LoadError (SurfaceNode K V) := do
  let n := { n with occupants := n.occupants + 1 }
  n.checkNode tr
  return n

/-- `dec_occupants`, `btree.h:1307–1312`. -/
def decOccupants (n : SurfaceNode K V) : Except LoadError (SurfaceNode K V) := do
  n.checkNode tr
  return { n with occupants := n.occupants - 1 }

/-- `initialize`, `btree.h:2032–2044`. -/
def initialized (n : SurfaceNode K V) : SurfaceNode K V :=
  { n with permutations := fun _ ↦ tr.surfaces, allocated := 0, occupants := 0 }

/-- The branch of `init_key_allocation` for a node without a slot left, `btree.h:1738–1748`. -/
def resetAllocation (n : SurfaceNode K V) : Except LoadError (SurfaceNode K V) := do
  let occupants ← n.getOccupants tr
  if occupants < n.allocated then
    return { n with
      permutations := fun p ↦ if occupants ≤ p then tr.surfaces else n.permutations p
      allocated := occupants }
  else .error .badFormat

/-- `init_key_allocation`, `btree.h:1735–1752`. -/
def initKeyAllocation (n : SurfaceNode K V) (pos : ℕ) : Except LoadError (SurfaceNode K V) :=
  if n.permutations pos = tr.surfaces then do
    let n ← if n.allocated = tr.surfaces then n.resetAllocation tr else .ok n
    return { n with
      permutations := Function.update n.permutations pos n.allocated
      allocated := n.allocated + 1 }
  else .ok n

/-- `get_key`, `btree.h:1941–1945`, of a node that may change. -/
def getKey (n : SurfaceNode K V) (pos : ℕ) : Except LoadError (K × SurfaceNode K V) := do
  let n ← n.initKeyAllocation tr pos
  return (n.keys (n.permutations pos), n)

/-- `get_value`, `btree.h:1960–1965`, of a node that may change. -/
def getValue (n : SurfaceNode K V) (pos : ℕ) : Except LoadError (V × SurfaceNode K V) := do
  let n ← n.initKeyAllocation tr pos
  return (n.values (n.permutations pos), n)

/-- An assignment to what `get_key` refers to. -/
def assignKey (n : SurfaceNode K V) (pos : ℕ) (key : K) : Except LoadError (SurfaceNode K V) := do
  let n ← n.initKeyAllocation tr pos
  return { n with keys := Function.update n.keys (n.permutations pos) key }

/-- An assignment to what `get_value` refers to. -/
def assignValue (n : SurfaceNode K V) (pos : ℕ) (value : V) :
    Except LoadError (SurfaceNode K V) := do
  let n ← n.initKeyAllocation tr pos
  return { n with values := Function.update n.values (n.permutations pos) value }

/-- `set_kv`, `btree.h:1923–1935`. -/
def setKv (n : SurfaceNode K V) (pos : ℕ) (k : K) (v : V) : Except LoadError (SurfaceNode K V) := do
  let n ← if n.permutations pos = tr.surfaces then
      if n.allocated = tr.surfaces then .error .badFormat
      else .ok { n with
        permutations := Function.update n.permutations pos n.allocated
        allocated := n.allocated + 1 }
    else .ok n
  return { n with
    keys := Function.update n.keys (n.permutations pos) k
    values := Function.update n.values (n.permutations pos) v }

/-- The loop of `insert_`, from position `j` down to `pos`. -/
def moveBehind (pos : ℕ) : ℕ → (ℕ → ℕ) → ℕ → ℕ
  | 0, f => f
  | j + 1, f => if pos < j + 1 then moveBehind pos j (Function.update f (j + 1) (f j)) else f

/-- `insert_`, `btree.h:1974–1990`. -/
def insert (n : SurfaceNode K V) (pos : ℕ) (key : K) (value : V) :
    Except LoadError (SurfaceNode K V) := do
  let j ← n.getOccupants tr
  let t := n.permutations j
  let n := { n with permutations := Function.update (moveBehind pos j n.permutations) pos t }
  let n ← n.assignKey tr pos key
  let n ← n.assignValue tr pos value
  n.incOccupants tr

/-- The loop of `erase_d`, from position `i` on for a number of positions. -/
def moveBefore : ℕ → ℕ → (ℕ → ℕ) → ℕ → ℕ
  | 0, _, f => f
  | count + 1, i, f => moveBefore count (i + 1) (Function.update f i (f (i + 1)))

/-- `erase_d`, `btree.h:2004–2024`. -/
def erase (n : SurfaceNode K V) (slot : ℕ) : Except LoadError (SurfaceNode K V) := do
  let occupants ← n.getOccupants tr
  if 0 < occupants then
    let e := occupants - 1
    let saved := n.permutations slot
    let permutations := moveBefore (e - slot) slot n.permutations
    decOccupants tr { n with permutations := Function.update permutations e saved }
  else return n

/-- The loop over the keys of a page in `load`, `btree.h:2137–2140`. -/
def assignKeys : ℕ → List K → SurfaceNode K V → Except LoadError (SurfaceNode K V)
  | _, [], n => .ok n
  | pos, k :: ks, n => do
    let n ← n.assignKey tr pos k
    assignKeys (pos + 1) ks n

/-- The loop over the values of a page in `load`, `btree.h:2148–2154`. -/
def assignValues : ℕ → List V → SurfaceNode K V → Except LoadError (SurfaceNode K V)
  | _, [], n => .ok n
  | pos, v :: vs, n => do
    let n ← n.assignValue tr pos v
    assignValues (pos + 1) vs n

/-- `load`, `btree.h:2095–2177`, into the slots of a node. -/
def load (keys : Codec K) (values : Codec V) (order address : ℕ) (buffer : Bytes)
    (n : SurfaceNode K V) : Except LoadError (SurfaceNode K V) := do
  let (page, _) ← Surface.load tr keys values order address buffer
  let n ← n.setOccupants tr page.kvs.length
  let n ← assignKeys tr 0 (page.kvs.map Prod.fst) n
  assignValues tr 0 (page.kvs.map Prod.snd) n

/-- The pair at a position. -/
def pairAt (n : SurfaceNode K V) (p : ℕ) : K × V :=
  (n.keys (n.permutations p), n.values (n.permutations p))

/-- The pairs at the occupied positions. -/
def live (n : SurfaceNode K V) : List (K × V) := (List.range n.occupants).map n.pairAt

/-- What the slots of a node are at rest: the positions below `allocated` have the slots below
`allocated` in some order and no other position has one, and enough of them are there. -/
structure Slotted (n : SurfaceNode K V) : Prop where
  bijOn : Set.BijOn n.permutations (Set.Iio n.allocated) (Set.Iio n.allocated)
  unassigned : ∀ p, n.allocated ≤ p → n.permutations p = tr.surfaces
  occupants_le : n.occupants ≤ n.allocated
  allocated_le : n.allocated ≤ tr.surfaces

/-- The pair of each position that has a slot. -/
def view (n : SurfaceNode K V) (p : ℕ) : Option (K × V) :=
  if n.permutations p = tr.surfaces then none else some (n.pairAt p)

/-- What a node holds while positions are being moved, when some may have a slot and those before
them not. -/
structure Holds (n : SurfaceNode K V) (o : ℕ) (g : ℕ → Option (K × V)) : Prop where
  slots : SlotMap tr.surfaces n.permutations n.allocated
  occupants : n.occupants = o
  view : ∀ p, n.view tr p = g p

variable {tr} {n : SurfaceNode K V} {o pos : ℕ} {g : ℕ → Option (K × V)}

private theorem view_eq_some {p : ℕ} {kv : K × V} :
    n.view tr p = some kv ↔ p ∈ Assigned tr.surfaces n.permutations ∧ n.pairAt p = kv := by
  unfold view
  split
  · next h => simp [Assigned, h]
  · next h => simp [Assigned, h]

private theorem isSome_view {p : ℕ} :
    (n.view tr p).isSome ↔ p ∈ Assigned tr.surfaces n.permutations := by
  unfold view
  split
  · next h => simp [Assigned, h]
  · next h => simp [Assigned, h]

namespace Holds

private theorem mem_assigned (h : Holds tr n o g) {p : ℕ} {kv : K × V} (hg : g p = some kv) :
    p ∈ Assigned tr.surfaces n.permutations ∧ n.pairAt p = kv :=
  view_eq_some.1 ((h.view p).trans hg)

/-- A fresh node holds nothing. -/
theorem initialized (tr : Traits) (n : SurfaceNode K V) :
    Holds tr (n.initialized tr) 0 fun _ ↦ none :=
  ⟨SlotMap.empty _, rfl, fun _ ↦ if_pos rfl⟩

/-- A node with few enough occupants passes its check. -/
theorem checkNode (h : Holds tr n o g) (ho : o ≤ tr.surfaces) : n.checkNode tr = .ok () := by
  have hbound := tr.surfaces_le
  rw [SurfaceNode.checkNode, reject_eq_ok, h.occupants]
  omega

/-- The number of occupants is read. -/
theorem getOccupants (h : Holds tr n o g) (ho : o ≤ tr.surfaces) :
    n.getOccupants tr = .ok o := by
  rw [SurfaceNode.getOccupants, h.checkNode ho, h.occupants]
  rfl

/-- The number of occupants is written, and the slots stay. -/
theorem setOccupants (h : Holds tr n o g) (ho : o ≤ tr.surfaces) (o' : ℕ) :
    ∃ n', n.setOccupants tr o' = .ok n' ∧ Holds tr n' o' g := by
  refine ⟨{ n with occupants := o' }, ?_, h.slots, rfl, h.view⟩
  rw [SurfaceNode.setOccupants, h.checkNode ho]
  rfl

/-- A position without a slot gets one that no other position has. -/
theorem initKeyAllocation (h : Holds tr n o g) (hpos : pos < tr.surfaces) :
    ∃ n' kv, n.initKeyAllocation tr pos = .ok n' ∧
      Holds tr n' o (Function.update g pos (some kv)) ∧ ∀ kv', g pos = some kv' → kv' = kv := by
  unfold SurfaceNode.initKeyAllocation
  split
  · next hfree =>
    have hlt := h.slots.allocated_lt hpos hfree
    let n' : SurfaceNode K V := { n with
      permutations := Function.update n.permutations pos n.allocated
      allocated := n.allocated + 1 }
    refine ⟨n', n'.pairAt pos, ?_, ⟨h.slots.allocate hpos hfree, h.occupants, fun p ↦ ?_⟩, ?_⟩
    · rw [if_neg hlt.ne]
      rfl
    · by_cases hp : p = pos
      · subst hp
        rw [Function.update_self, view_eq_some]
        refine ⟨?_, rfl⟩
        change Function.update n.permutations p n.allocated p ≠ tr.surfaces
        rw [Function.update_self]
        exact hlt.ne
      · rw [Function.update_of_ne hp, ← h.view p]
        simp only [SurfaceNode.view, pairAt, n', Function.update_of_ne hp]
    · intro kv' hg
      exact absurd hfree (h.mem_assigned hg).1
  · next hassigned =>
    have hview : g pos = some (n.pairAt pos) := by
      rw [← h.view pos, view_eq_some]
      exact ⟨hassigned, rfl⟩
    refine ⟨n, n.pairAt pos, rfl, ?_, fun kv' hg ↦ Option.some.inj (hg.symm.trans hview)⟩
    rw [← hview, Function.update_eq_self]
    exact h

/-- A write to the slot of one position is seen at no other position. -/
theorem write (h : Holds tr n o g) {kv : K × V} (hg : g pos = some kv) (keys : ℕ → K)
    (values : ℕ → V) (hkeys : ∀ s, s ≠ n.permutations pos → keys s = n.keys s)
    (hvalues : ∀ s, s ≠ n.permutations pos → values s = n.values s) :
    Holds tr { n with keys := keys, values := values } o (Function.update g pos
      (some (keys (n.permutations pos), values (n.permutations pos)))) := by
  obtain ⟨hpos, -⟩ := h.mem_assigned hg
  refine ⟨h.slots, h.occupants, fun p ↦ ?_⟩
  by_cases hp : p = pos
  · subst hp
    rw [Function.update_self, view_eq_some]
    exact ⟨hpos, rfl⟩
  · rw [Function.update_of_ne hp, ← h.view p]
    unfold SurfaceNode.view
    split
    · rfl
    · next hassigned =>
      have hne : n.permutations p ≠ n.permutations pos :=
        fun heq ↦ hp (h.slots.bijOn.injOn hassigned hpos heq)
      simp only [pairAt, hkeys _ hne, hvalues _ hne]

/-- What `get_key` refers to is assigned, the value of the position stays. -/
theorem assignKey (h : Holds tr n o g) (hpos : pos < tr.surfaces) (key : K) :
    ∃ n' value, n.assignKey tr pos key = .ok n' ∧
      Holds tr n' o (Function.update g pos (some (key, value))) ∧
      ∀ kv, g pos = some kv → kv.2 = value := by
  obtain ⟨m, kv, hm, hheld, hkept⟩ := h.initKeyAllocation hpos
  have hg : Function.update g pos (some kv) pos = some kv := Function.update_self ..
  have hwrite := hheld.write hg (Function.update m.keys (m.permutations pos) key) m.values
    (fun s hs ↦ Function.update_of_ne hs ..) fun s _ ↦ rfl
  rw [Function.update_idem, Function.update_self] at hwrite
  refine ⟨_, _, ?_, hwrite, fun kv' hg' ↦ ?_⟩
  · rw [SurfaceNode.assignKey, hm]
    rfl
  · rw [hkept kv' hg', ← (hheld.mem_assigned hg).2]
    rfl

/-- What `get_value` refers to is assigned, the key of the position stays. -/
theorem assignValue (h : Holds tr n o g) {kv : K × V} (hg : g pos = some kv) (value : V) :
    ∃ n', n.assignValue tr pos value = .ok n' ∧
      Holds tr n' o (Function.update g pos (some (kv.1, value))) := by
  obtain ⟨hassigned, hpair⟩ := h.mem_assigned hg
  have hwrite := h.write hg n.keys (Function.update n.values (n.permutations pos) value)
    (fun s _ ↦ rfl) fun s hs ↦ Function.update_of_ne hs ..
  rw [Function.update_self] at hwrite
  subst hpair
  refine ⟨_, ?_, hwrite⟩
  rw [SurfaceNode.assignValue, SurfaceNode.initKeyAllocation, if_neg hassigned]
  rfl

/-- The key of an occupied slot is read. -/
theorem getKey (h : Holds tr n o g) {kv : K × V} (hg : g pos = some kv) :
    n.getKey tr pos = .ok (kv.1, n) := by
  obtain ⟨hassigned, rfl⟩ := h.mem_assigned hg
  rw [SurfaceNode.getKey, SurfaceNode.initKeyAllocation, if_neg hassigned]
  rfl

/-- The value of an occupied slot is read. -/
theorem getValue (h : Holds tr n o g) {kv : K × V} (hg : g pos = some kv) :
    n.getValue tr pos = .ok (kv.2, n) := by
  obtain ⟨hassigned, rfl⟩ := h.mem_assigned hg
  rw [SurfaceNode.getValue, SurfaceNode.initKeyAllocation, if_neg hassigned]
  rfl

/-- The key, then the value of a position. -/
theorem assignPair (h : Holds tr n o g) (hpos : pos < tr.surfaces) (key : K) (value : V) :
    ∃ n₁ n₂, n.assignKey tr pos key = .ok n₁ ∧ n₁.assignValue tr pos value = .ok n₂ ∧
      Holds tr n₂ o (Function.update g pos (some (key, value))) := by
  obtain ⟨n₁, w, hkey, h₁, -⟩ := h.assignKey hpos key
  obtain ⟨n₂, hvalue, h₂⟩ := h₁.assignValue (Function.update_self ..) value
  rw [Function.update_idem] at h₂
  exact ⟨n₁, n₂, hkey, hvalue, h₂⟩

/-- A pair is written to a slot, and the others stay. -/
theorem setKv (h : Holds tr n o g) (hpos : pos < tr.surfaces) (key : K) (value : V) :
    ∃ n', n.setKv tr pos key value = .ok n' ∧
      Holds tr n' o (Function.update g pos (some (key, value))) := by
  obtain ⟨m, kv, hm, hheld, -⟩ := h.initKeyAllocation hpos
  have hwrite := hheld.write (Function.update_self ..)
    (Function.update m.keys (m.permutations pos) key)
    (Function.update m.values (m.permutations pos) value)
    (fun s hs ↦ Function.update_of_ne hs ..) fun s hs ↦ Function.update_of_ne hs ..
  rw [Function.update_idem, Function.update_self, Function.update_self] at hwrite
  refine ⟨_, ?_, hwrite⟩
  -- no slot is missing, where `init_key_allocation` would look for one and `set_kv` gives up
  rw [SurfaceNode.initKeyAllocation] at hm
  rw [SurfaceNode.setKv]
  split at hm
  · next hfree =>
    have hlt := h.slots.allocated_lt hpos hfree
    rw [if_neg hlt.ne] at hm
    rw [if_pos hfree, if_neg hlt.ne]
    cases hm
    rfl
  · next hassigned =>
    rw [if_neg hassigned]
    cases hm
    rfl

/-- The keys of a page go to consecutive positions, the values there are any. -/
theorem assignKeys (h : Holds tr n o g) (ks : List K) (hpos : pos + ks.length ≤ tr.surfaces) :
    ∃ n' ws, SurfaceNode.assignKeys tr pos ks n = .ok n' ∧ ws.length = ks.length ∧
      Holds tr n' o (splice g pos (ks.zip ws)) := by
  induction ks generalizing n g pos with
  | nil => exact ⟨n, [], rfl, rfl, (splice_nil g pos).symm ▸ h⟩
  | cons k ks ih =>
    rw [List.length_cons] at hpos
    have hfirst : pos < tr.surfaces := by omega
    have hrest : pos + 1 + ks.length ≤ tr.surfaces := by omega
    obtain ⟨m, w, hm, hheld, -⟩ := h.assignKey hfirst k
    obtain ⟨n', ws, hn', hws, hkeys⟩ := ih hheld hrest
    refine ⟨n', w :: ws, ?_, by rw [List.length_cons, List.length_cons, hws], ?_⟩
    · rw [SurfaceNode.assignKeys, hm]
      exact hn'
    · rw [List.zip_cons_cons, ← splice_cons]
      exact hkeys

/-- The values of a page join the keys. -/
theorem assignValues (h : Holds tr n o g) {ks : List K} {ws : List V}
    (hread : Reads g pos (ks.zip ws)) (hws : ws.length = ks.length) (vs : List V)
    (hvs : vs.length = ks.length) :
    ∃ n', SurfaceNode.assignValues tr pos vs n = .ok n' ∧
      Holds tr n' o (splice g pos (ks.zip vs)) := by
  induction vs generalizing n g pos ks ws with
  | nil =>
    rw [List.zip_nil_right, splice_nil]
    exact ⟨n, rfl, h⟩
  | cons v vs ih =>
    obtain ⟨k, ks, rfl⟩ := List.exists_cons_of_length_eq_add_one hvs.symm
    obtain ⟨w, ws, rfl⟩ := List.exists_cons_of_length_eq_add_one hws
    obtain ⟨hhead, hrest⟩ := hread.of_cons
    obtain ⟨m, hm, hheld⟩ := h.assignValue hhead v
    have hbehind : Reads (Function.update g pos (some (k, v))) (pos + 1) (ks.zip ws) :=
      hrest.congr fun p hp _ ↦ Function.update_of_ne (by omega) ..
    obtain ⟨n', hn', hvalues⟩ := ih hheld hbehind (Nat.succ.inj hws) (Nat.succ.inj hvs)
    refine ⟨n', ?_, ?_⟩
    · rw [SurfaceNode.assignValues, hm]
      exact hn'
    · rw [List.zip_cons_cons, ← splice_cons]
      exact hvalues

/-- Positions that change places keep their pairs. -/
theorem permute (h : Holds tr n o g) (σ : Equiv.Perm ℕ)
    (hlt : ∀ p, σ p < tr.surfaces → p < tr.surfaces) :
    Holds tr { n with permutations := n.permutations ∘ σ } o (g ∘ σ) :=
  ⟨h.slots.permute σ hlt, h.occupants, fun p ↦ h.view (σ p)⟩

end Holds

/-- A node at rest holds a list of pairs: they are at its first positions and there is no gap. -/
def Stores (tr : Traits) (n : SurfaceNode K V) (l : List (K × V)) : Prop :=
  ∃ g, Holds tr n l.length g ∧ Gapless g ∧ Reads g 0 l

/-- A node stores no more pairs than it has slots. -/
theorem Stores.length_le {l : List (K × V)} (h : n.Stores tr l) : l.length ≤ tr.surfaces := by
  obtain ⟨g, hheld, -, hread⟩ := h
  by_contra hlt
  obtain ⟨kv, hkv⟩ := Option.isSome_iff_exists.1 (hread.isSome (Nat.lt_of_not_le hlt))
  exact lt_irrefl _ (hheld.slots.lt _ (hheld.mem_assigned hkv).1)

/-- What `Stores` says of the slots and of the pairs. -/
theorem stores_iff {l : List (K × V)} : n.Stores tr l ↔ n.Slotted tr ∧ n.live = l := by
  constructor
  · rintro ⟨g, hheld, hgap, hread⟩
    have hmem : ∀ p, p ∈ Assigned tr.surfaces n.permutations ↔ (g p).isSome := fun p ↦ by
      rw [← hheld.view p, isSome_view]
    have hbelow : ∀ p, p ∈ Assigned tr.surfaces n.permutations ↔ p < n.allocated :=
      fun p ↦ hheld.slots.mem_assigned_iff fun p q hpq hq ↦
        (hmem p).2 (hgap p q hpq ((hmem q).1 hq))
    have hset : Assigned tr.surfaces n.permutations = Set.Iio n.allocated := Set.ext hbelow
    refine ⟨⟨?_, fun p hp ↦ ?_, ?_, hheld.slots.allocated_le⟩, ?_⟩
    · have hbij := hheld.slots.bijOn
      rwa [hset] at hbij
    · by_contra hne
      exact absurd ((hbelow p).1 hne) (Nat.not_lt.2 hp)
    · by_contra hlt
      have hsome := hread.isSome (p := n.allocated) (by rw [← hheld.occupants]; omega)
      exact lt_irrefl _ ((hbelow _).1 ((hmem _).2 hsome))
    · refine List.ext_getElem? fun p ↦ ?_
      rw [live, List.getElem?_map, hheld.occupants]
      by_cases hp : p < l.length
      · rw [List.getElem?_range hp, ← hread.getElem? hp]
        obtain ⟨kv, hkv⟩ := Option.isSome_iff_exists.1 (hread.isSome hp)
        rw [hkv, ← (hheld.mem_assigned hkv).2]
        rfl
      · rw [List.getElem?_eq_none (by simpa using hp), List.getElem?_eq_none (by omega)]
        rfl
  · rintro ⟨hslot, rfl⟩
    have hset : Assigned tr.surfaces n.permutations = Set.Iio n.allocated := by
      refine Set.ext fun p ↦ ⟨fun hp ↦ ?_, fun hp ↦ ?_⟩
      · by_contra hle
        exact hp (hslot.unassigned p (Nat.le_of_not_lt hle))
      · exact ((hslot.bijOn.mapsTo hp).trans_le hslot.allocated_le).ne
    have hlive : n.live.length = n.occupants := by simp [live]
    refine ⟨n.view tr, ⟨⟨hset ▸ hslot.bijOn, ?_⟩, hlive.symm, fun _ ↦ rfl⟩, ?_, ?_⟩
    · rw [hset]
      exact fun p hp ↦ lt_of_lt_of_le hp hslot.allocated_le
    · intro p q hpq hq
      rw [isSome_view, hset] at hq ⊢
      exact lt_of_le_of_lt hpq hq
    · intro p hp
      rw [hlive] at hp
      rw [Nat.zero_add, live, List.getElem?_map, List.getElem?_range hp, Option.map_some,
        view_eq_some, hset]
      exact ⟨hp.trans_le hslot.occupants_le, rfl⟩

private theorem moveBehind_apply (pos j : ℕ) (f : ℕ → ℕ) (q : ℕ) :
    moveBehind pos j f q = if pos < q ∧ q ≤ j then f (q - 1) else f q := by
  induction j generalizing f with
  | zero => rw [moveBehind, if_neg (by omega)]
  | succ j ih =>
    rw [moveBehind]
    split
    · rw [ih]
      by_cases hq : q = j + 1
      · subst hq
        rw [if_neg (by omega), Function.update_self, if_pos (by omega), Nat.add_sub_cancel]
      · rw [Function.update_of_ne hq]
        split
        · rw [Function.update_of_ne (by omega), if_pos (by omega)]
        · rw [if_neg (by omega)]
    · rw [if_neg (by omega)]

private theorem moveBefore_apply (count i : ℕ) (f : ℕ → ℕ) (q : ℕ) :
    moveBefore count i f q = if i ≤ q ∧ q < i + count then f (q + 1) else f q := by
  induction count generalizing i f with
  | zero => rw [moveBefore, if_neg (by omega)]
  | succ count ih =>
    rw [moveBefore, ih]
    by_cases hq : q = i
    · subst hq
      rw [if_neg (by omega), Function.update_self, if_pos (by omega)]
    · rw [Function.update_of_ne hq]
      split
      · rw [Function.update_of_ne (by omega), if_pos (by omega)]
      · rw [if_neg (by omega)]

/-- What `insert_` does to the positions. -/
theorem moveBehind_eq_cycle {j : ℕ} (h : pos ≤ j) (f : ℕ → ℕ) :
    Function.update (moveBehind pos j f) pos (f j) = f ∘ (cycle h).symm := by
  funext q
  rw [Function.comp_apply, cycle_symm_apply]
  by_cases hq : q = pos
  · subst hq
    rw [Function.update_self, if_neg (by omega), if_pos rfl]
  · rw [Function.update_of_ne hq, if_neg hq, moveBehind_apply]
    split
    · rfl
    · rfl

/-- What `erase_d` does to the positions. -/
theorem moveBefore_eq_cycle {e : ℕ} (h : pos ≤ e) (f : ℕ → ℕ) :
    Function.update (moveBefore (e - pos) pos f) e (f pos) = f ∘ cycle h := by
  funext q
  rw [Function.comp_apply, cycle_apply]
  by_cases hq : q = e
  · subst hq
    rw [Function.update_self, if_neg (by omega), if_pos rfl]
  · rw [Function.update_of_ne hq, if_neg hq, moveBefore_apply, Nat.add_sub_cancel' h]
    split
    · rfl
    · rfl

namespace Stores

variable {l : List (K × V)}

/-- A fresh node is empty. -/
theorem initialized (tr : Traits) (n : SurfaceNode K V) : (n.initialized tr).Stores tr [] :=
  ⟨_, Holds.initialized tr n, gapless_none, fun _ hi ↦ absurd hi (Nat.not_lt_zero _)⟩

/-- The pairs at and behind the position make room. -/
theorem insert (h : n.Stores tr l) (hpos : pos ≤ l.length) (hroom : l.length < tr.surfaces)
    (key : K) (value : V) :
    ∃ n', n.insert tr pos key value = .ok n' ∧ n'.Stores tr (l.insertIdx pos (key, value)) := by
  obtain ⟨g, hheld, hgap, hread⟩ := h
  have hmoved := hheld.permute (cycle hpos).symm fun p ↦ lt_of_cycle_symm_lt hroom
  obtain ⟨m, m', hm, hm', hpair⟩ := hmoved.assignPair (hpos.trans_lt hroom) key value
  have hcount : Holds tr { m' with occupants := m'.occupants + 1 } (l.length + 1) _ :=
    ⟨hpair.slots, congrArg (· + 1) hpair.occupants, hpair.view⟩
  have hlen : (l.insertIdx pos (key, value)).length = l.length + 1 :=
    List.length_insertIdx_of_le_length hpos _
  have hread' := hread.insertIdx hpos (key, value)
  refine ⟨_, ?_, _, hlen ▸ hcount, hgap.of_front (m := l.length + 1) ?_ ?_, hread'⟩
  · simp only [SurfaceNode.insert, hheld.getOccupants hroom.le, moveBehind_eq_cycle hpos, hm, hm',
      SurfaceNode.incOccupants, hcount.checkNode hroom, ok_bind]
    rfl
  · exact fun p hp ↦ hread'.isSome (hlen ▸ hp)
  · intro p hp
    rw [Function.update_of_ne (by omega), Function.comp_apply, cycle_symm_apply,
      if_neg (by omega), if_neg (by omega)]

/-- The pair goes, its slot is that of the position behind the last. -/
theorem erase (h : n.Stores tr l) (hpos : 0 < l.length → pos < l.length) :
    ∃ n', n.erase tr pos = .ok n' ∧ n'.Stores tr (l.eraseIdx pos) := by
  have hfull := h.length_le
  obtain ⟨g, hheld, hgap, hread⟩ := h
  rw [SurfaceNode.erase, hheld.getOccupants hfull]
  obtain hnil | hlen := Nat.eq_zero_or_pos l.length
  · rw [List.length_eq_zero_iff] at hnil
    subst hnil
    exact ⟨n, rfl, g, hheld, hgap, hread⟩
  obtain ⟨e, he⟩ : ∃ e, l.length = e + 1 := ⟨l.length - 1, by omega⟩
  have hle : pos ≤ e := by
    have hlt := hpos hlen
    omega
  have hmoved := hheld.permute (cycle hle) fun p ↦ lt_of_cycle_lt (by omega)
  have hread' := hread.eraseIdx hle he
  have herased : (l.eraseIdx pos).length = e := by
    rw [List.length_eraseIdx_of_lt (hpos hlen), he, Nat.add_sub_cancel]
  refine ⟨{ n with permutations := n.permutations ∘ cycle hle, occupants := n.occupants - 1 },
    ?_, g ∘ cycle hle, ⟨hmoved.slots, ?_, hmoved.view⟩, hgap.of_front (m := e + 1) ?_ ?_, hread'⟩
  · change (if 0 < l.length then _ else _) = _
    rw [if_pos hlen]
    rw [he, Nat.add_sub_cancel, moveBefore_eq_cycle hle, SurfaceNode.decOccupants,
      hmoved.checkNode hfull]
    rfl
  · rw [herased, hheld.occupants, he, Nat.add_sub_cancel]
  · intro p hp
    rw [Function.comp_apply, cycle_apply]
    refine hread.isSome ?_
    grind
  · intro p hp
    rw [Function.comp_apply, cycle_apply, if_neg (by omega), if_neg (by omega)]

/-- The pair of a position is replaced, or the first position without one gets it. -/
theorem setKv (h : n.Stores tr l) (hpos : pos ≤ n.allocated) (hroom : pos < tr.surfaces) (key : K)
    (value : V) :
    ∃ n', n.setKv tr pos key value = .ok n' ∧ n'.Stores tr (l.set pos (key, value)) := by
  have hslot := (stores_iff.1 h).1
  obtain ⟨g, hheld, hgap, hread⟩ := h
  obtain ⟨n', hn', hset⟩ := hheld.setKv hroom key value
  have hlen : (l.set pos (key, value)).length = l.length := List.length_set
  refine ⟨n', hn', _, hlen ▸ hset, fun p q hpq hq ↦ ?_, hread.set pos _⟩
  by_cases hp : p = pos
  · rw [hp, Function.update_self]
    rfl
  rw [Function.update_of_ne hp]
  by_cases hq' : q = pos
  · rw [← hheld.view p, isSome_view]
    have hlt : p < n.allocated := by omega
    exact ((hslot.bijOn.mapsTo hlt).trans_le hslot.allocated_le).ne
  · rw [Function.update_of_ne hq'] at hq
    exact hgap p q hpq hq

/-- The pairs are those of the page. -/
theorem load (h : n.Stores tr l) {keys : Codec K} {values : Codec V} {order address : ℕ}
    {buffer rest : Bytes} {page : Surface K V}
    (hpage : Surface.load tr keys values order address buffer = .ok (page, rest)) :
    ∃ n', n.load tr keys values order address buffer = .ok n' ∧ n'.Stores tr page.kvs := by
  have hfull := h.length_le
  have hroom := Surface.length_load_le hpage
  obtain ⟨g, hheld, hgap, -⟩ := h
  have hks : 0 + (page.kvs.map Prod.fst).length ≤ tr.surfaces := by
    rwa [List.length_map, Nat.zero_add]
  have hvs : (page.kvs.map Prod.snd).length = (page.kvs.map Prod.fst).length := by
    rw [List.length_map, List.length_map]
  obtain ⟨n₁, hn₁, h₁⟩ := hheld.setOccupants hfull page.kvs.length
  obtain ⟨n₂, ws, hn₂, hws, h₂⟩ := h₁.assignKeys _ hks
  obtain ⟨n₃, hn₃, h₃⟩ := h₂.assignValues (Reads.splice_self g 0 _) hws _ hvs
  have hzip : (page.kvs.map Prod.fst).zip (page.kvs.map Prod.snd) = page.kvs := by
    rw [List.zip_map', List.map_id']
  rw [hzip] at h₃
  refine ⟨n₃, ?_, _, h₃, (hgap.splice_front _).splice_front _, Reads.splice_self _ 0 page.kvs⟩
  simp only [SurfaceNode.load, hpage, hn₁, hn₂, hn₃, ok_bind]

end Stores

end SurfaceNode

end LibSpaces.Stx
