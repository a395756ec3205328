import LibSpaces.Rabbit.Rehash

/-!
# The hash map

`basic_unordered_map`, `src/src/repo/rabbit/include/rabbit/rabbit_map.h:260–290,1229–1548`: a map
object has a kernel once it needs one. Series of calls on several map objects, which are also
copied, swapped and moved, give the answers of finite maps, whatever the hash function is, unless
the probes of a table with at least 2²² positions are doubled 64 times, or, with more than 2³²
positions, come to 2³². Two things differ from a map: an object that is copied or moved to itself
loses its pairs, and the iterator that `insert` returns need not be at the pair.
-/

namespace LibSpaces.Rabbit

variable {K V : Type}

/-- `basic_unordered_map`. `pcurrent` is the pointer of `current`. -/
structure UnorderedMap (K V : Type) where
  current : Option (Kernel K V)

namespace UnorderedMap

section Source

variable [DecidableEq K] [Inhabited K] [Inhabited V] (hash : K → UInt64) (tests : LoadTests)
  (map : UnorderedMap K V)

omit [DecidableEq K] in
/-- A `hash_kernel` that is constructed, `rabbit_map.h:671–680`. -/
def newKernel : Kernel K V := Kernel.resizeClear 0 Kernel.minExtent

omit [DecidableEq K] in
/-- `create_current`, `rabbit_map.h:1258–1261`. -/
def createCurrent : Kernel K V := map.current.getD newKernel

/-- `rehash`, `rabbit_map.h:1310–1390`. -/
def rehash (to_ : ℕ) (checkLf : Bool) : Except Failure (UnorderedMap K V) := do
  return ⟨some (← map.createCurrent.rehash hash tests to_ checkLf)⟩

/-- `reserve`, `rabbit_map.h:1300–1303`. -/
def reserve (atleast : ℕ) : Except Failure (UnorderedMap K V) :=
  map.rehash hash tests (atleast * 2) true

/-- `resize`, `rabbit_map.h:1304–1308`, with `nearest_larger`. -/
def resize (atleast : ℕ) : Except Failure (UnorderedMap K V) :=
  map.rehash hash tests (2 <<< Nat.log2 atleast) false

/-- `operator[]`, `rabbit_map.h:1495–1503`, and a read of what it returns. -/
def subscript (k : K) : Except Failure (V × UnorderedMap K V) := do
  let (pos, kern) ← map.createCurrent.index hash tests k
  return ((kern.keys pos).2, ⟨some kern⟩)

/-- `operator[]` and a write to what it returns. -/
def assign (k : K) (v : V) : Except Failure (UnorderedMap K V) := do
  let (pos, kern) ← map.createCurrent.index hash tests k
  return ⟨some (kern.setValue pos v)⟩

/-- `insert`, `rabbit_map.h:1455–1459`: the pair at the iterator that it returns, or none for `end`.
The iterator is at `last_modified`. -/
def insert (k : K) (v : V) : Except Failure (Option (K × V) × UnorderedMap K V) := do
  let map ← map.assign hash tests k v
  let kern := map.createCurrent
  return (if kern.lastModified = kern.dataSize then none else some (kern.keys kern.lastModified),
    map)

/-- `erase`, `rabbit_map.h:1504–1510`. -/
def erase (k : K) : ℕ × UnorderedMap K V :=
  match map.current with
  | none => (0, map)
  | some kern => ((kern.erase hash k).1, ⟨some (kern.erase hash k).2⟩)

omit [Inhabited V] in
/-- `find`, `rabbit_map.h:1521–1524`: the pair at the iterator, or none for `end`. -/
def find (k : K) : Option (K × V) :=
  match map.current with
  | none => none
  | some kern =>
    if kern.find hash k = kern.dataSize then none else some (kern.keys (kern.find hash k))

omit [Inhabited V] in
/-- `get`, `rabbit_map.h:1475–1479`. -/
def get (k : K) : Option V := map.current.bind fun kern ↦ kern.get hash k

omit [Inhabited V] in
/-- `count`, `rabbit_map.h:1517–1520`. -/
def count (k : K) : ℕ := (map.current.map fun kern ↦ kern.count hash k).getD 0

omit [DecidableEq K] [Inhabited K] [Inhabited V] in
/-- `size`, `rabbit_map.h:1539–1542`. -/
def size : ℕ := (map.current.map Kernel.elements).getD 0

omit [DecidableEq K] [Inhabited K] [Inhabited V] in
/-- `clear`, `rabbit_map.h:1391–1397`. -/
def clear : UnorderedMap K V := ⟨none⟩

omit [DecidableEq K] [Inhabited K] [Inhabited V] in
/-- The pairs in the order of a loop from `begin` to `end`, `rabbit_map.h:1525–1532`. -/
def entries : List (K × V) := (map.current.map Kernel.entries).getD []

/-- A loop from `begin` to `end` that erases pairs at its iterator. -/
def sweep (keep : K × V → Bool) : List (K × V) × UnorderedMap K V :=
  match map.current with
  | none => ([], map)
  | some kern => ((kern.sweep hash keep).1, ⟨some (kern.sweep hash keep).2⟩)

omit map in
/-- `operator=`, `rabbit_map.h:1430–1438`, once the object has a new kernel. -/
def copyFrom (right : UnorderedMap K V) : Except Failure (UnorderedMap K V) := do
  let map ← reserve hash tests ⟨some newKernel⟩ right.size
  right.entries.foldlM (fun map pair ↦ map.assign hash tests pair.1 pair.2) map

end Source

end UnorderedMap

/-- A call of one of a family of map objects. -/
inductive MapCall (K V : Type)
  | subscript (i : ℕ) (k : K)
  | assign (i : ℕ) (k : K) (v : V)
  | insert (i : ℕ) (k : K) (v : V)
  | erase (i : ℕ) (k : K)
  | find (i : ℕ) (k : K)
  | get (i : ℕ) (k : K)
  | count (i : ℕ) (k : K)
  | size (i : ℕ)
  | clear (i : ℕ)
  | reserve (i : ℕ) (atleast : ℕ)
  | resize (i : ℕ) (atleast : ℕ)
  | rehash (i : ℕ) (to_ : ℕ)
  | iterate (i : ℕ)
  | sweep (i : ℕ) (keep : K × V → Bool)
  | copy (i right : ℕ)
  | swap (i with_ : ℕ)
  | move (i from_ : ℕ)

/-- What a call returns. -/
inductive MapAnswer (K V : Type)
  | nothing
  | value (v : V)
  | number (n : ℕ)
  | found (pair : Option (K × V))
  | got (v : Option V)
  | pairs (l : List (K × V))

namespace MapCall

section Source

variable [DecidableEq K] [Inhabited K] [Inhabited V] (hash : K → UInt64) (tests : LoadTests)

/-- The family after a call. -/
def step (maps : ℕ → UnorderedMap K V) :
    MapCall K V → Except Failure (MapAnswer K V × (ℕ → UnorderedMap K V))
  | subscript i k => do
    let (v, map) ← (maps i).subscript hash tests k
    return (.value v, Function.update maps i map)
  | assign i k v => do return (.nothing, Function.update maps i (← (maps i).assign hash tests k v))
  | insert i k v => do
    let (pair, map) ← (maps i).insert hash tests k v
    return (.found pair, Function.update maps i map)
  | erase i k =>
    let (n, map) := (maps i).erase hash k
    .ok (.number n, Function.update maps i map)
  | find i k => .ok (.found ((maps i).find hash k), maps)
  | get i k => .ok (.got ((maps i).get hash k), maps)
  | count i k => .ok (.number ((maps i).count hash k), maps)
  | size i => .ok (.number (maps i).size, maps)
  | clear i => .ok (.nothing, Function.update maps i .clear)
  | reserve i n => do return (.nothing, Function.update maps i (← (maps i).reserve hash tests n))
  | resize i n => do return (.nothing, Function.update maps i (← (maps i).resize hash tests n))
  | rehash i n => do return (.nothing, Function.update maps i (← (maps i).rehash hash tests n true))
  | iterate i => .ok (.pairs (maps i).entries, maps)
  | sweep i keep =>
    let (visited, map) := (maps i).sweep hash keep
    .ok (.pairs visited, Function.update maps i map)
  | copy i right => do
    -- the new kernel is there before the other object is looked at
    let maps := Function.update maps i ⟨some UnorderedMap.newKernel⟩
    return (.nothing, Function.update maps i (← (maps right).copyFrom hash tests))
  | swap i with_ =>
    let t := maps with_
    let maps := Function.update maps with_ (maps i)
    .ok (.nothing, Function.update maps i t)
  | move i from_ =>
    let maps := Function.update maps i (maps from_)
    .ok (.nothing, Function.update maps from_ ⟨none⟩)

/-- A series of calls. -/
def run : (ℕ → UnorderedMap K V) → List (MapCall K V) →
    Except Failure (List (MapAnswer K V) × (ℕ → UnorderedMap K V))
  | maps, [] => .ok ([], maps)
  | maps, call :: calls => do
    let (answer, maps) ← step hash tests maps call
    let (answers, maps) ← run maps calls
    return (answer :: answers, maps)

end Source

/-! ### The finite maps -/

/-- What a call does to finite maps, and what it may return. -/
def Spec [DecidableEq K] [Inhabited V] (ms : ℕ → Finmap fun _ : K ↦ V) :
    MapCall K V → MapAnswer K V → (ℕ → Finmap fun _ : K ↦ V) → Prop
  | subscript i k, answer, ms' =>
    answer = .value (((ms i).lookup k).getD default) ∧
      ms' = Function.update ms i ((ms i).insert k (((ms i).lookup k).getD default))
  | assign i k v, answer, ms' =>
    answer = .nothing ∧ ms' = Function.update ms i ((ms i).insert k v)
  | insert i k v, answer, ms' =>
    answer = .found (some (k, v)) ∧ ms' = Function.update ms i ((ms i).insert k v)
  | erase i k, answer, ms' =>
    answer = .number (if k ∈ ms i then 1 else 0) ∧ ms' = Function.update ms i ((ms i).erase k)
  | find i k, answer, ms' => answer = .found (((ms i).lookup k).map (k, ·)) ∧ ms' = ms
  | get i k, answer, ms' => answer = .got ((ms i).lookup k) ∧ ms' = ms
  | count i k, answer, ms' => answer = .number (if k ∈ ms i then 1 else 0) ∧ ms' = ms
  | size i, answer, ms' => answer = .number (ms i).keys.card ∧ ms' = ms
  | clear i, answer, ms' => answer = .nothing ∧ ms' = Function.update ms i ∅
  | reserve _ _, answer, ms' | resize _ _, answer, ms' | rehash _ _, answer, ms' =>
    answer = .nothing ∧ ms' = ms
  | iterate i, answer, ms' => (∃ l, answer = .pairs l ∧ Kernel.Lists l (ms i)) ∧ ms' = ms
  | sweep i keep, answer, ms' =>
    (∃ l, answer = .pairs l ∧ Kernel.Lists l (ms i)) ∧
      ∃ m, (∀ k, m.lookup k = ((ms i).lookup k).filter fun v ↦ keep (k, v)) ∧
        ms' = Function.update ms i m
  | copy i right, answer, ms' => answer = .nothing ∧ ms' = Function.update ms i (ms right)
  | swap i with_, answer, ms' =>
    answer = .nothing ∧ ms' = Function.update (Function.update ms with_ (ms i)) i (ms with_)
  | move i from_, answer, ms' =>
    answer = .nothing ∧ ms' = Function.update (Function.update ms from_ ∅) i (ms from_)

/-- What a call does otherwise: the iterator of `insert` is at any position, and an object that is
copied or moved to itself loses its pairs. -/
def Differs [DecidableEq K] (ms : ℕ → Finmap fun _ : K ↦ V) :
    MapCall K V → MapAnswer K V → (ℕ → Finmap fun _ : K ↦ V) → Prop
  | insert i k v, answer, ms' =>
    (∃ pair, answer = .found pair) ∧ ms' = Function.update ms i ((ms i).insert k v)
  | copy i right, answer, ms' | move i right, answer, ms' =>
    i = right ∧ answer = .nothing ∧ ms' = Function.update ms i ∅
  | _, _, _ => False

/-- What a series of calls does. -/
def SpecRun [DecidableEq K] [Inhabited V] (ms : ℕ → Finmap fun _ : K ↦ V) :
    List (MapCall K V) → List (MapAnswer K V) → (ℕ → Finmap fun _ : K ↦ V) → Prop
  | [], answers, ms' => answers = [] ∧ ms' = ms
  | call :: calls, answers, ms' =>
    ∃ answer rest ms₁, answers = answer :: rest ∧
      (call.Spec ms answer ms₁ ∨ call.Differs ms answer ms₁) ∧ SpecRun ms₁ calls rest ms'

end MapCall

namespace UnorderedMap

open Kernel (Inv Represents Sized Lists Lost)

variable [DecidableEq K] [Inhabited K] [Inhabited V] {hash : K → UInt64} {tests : LoadTests}
  {map : UnorderedMap K V} {m : Finmap fun _ : K ↦ V}

/-- A kernel of a map object, with the pairs of a finite map. -/
structure Current (hash : K → UInt64) (m : Finmap fun _ : K ↦ V) (kern : Kernel K V) : Prop where
  inv : kern.Inv hash
  represents : kern.Represents m
  sized : kern.Sized

/-- The object has the pairs of a finite map. -/
def Holds (hash : K → UInt64) (map : UnorderedMap K V) (m : Finmap fun _ : K ↦ V) : Prop :=
  match map.current with
  | none => m = ∅
  | some kern => Current hash m kern

private theorem current_newKernel : Current hash (∅ : Finmap fun _ : K ↦ V) newKernel :=
  ⟨Kernel.inv_resizeClear, Kernel.represents_resizeClear, Kernel.sized_resizeClear le_rfl⟩

private theorem holds_none : Holds hash (⟨none⟩ : UnorderedMap K V) ∅ := rfl

/-- An object either has no kernel and no pairs or has a kernel. -/
theorem Holds.cases (h : Holds hash map m) :
    (map = ⟨none⟩ ∧ m = ∅) ∨ ∃ kern, map = ⟨some kern⟩ ∧ Current hash m kern := by
  obtain ⟨_ | kern⟩ := map
  · exact .inl ⟨rfl, h⟩
  · exact .inr ⟨kern, rfl, h⟩

private theorem Holds.createCurrent (h : Holds hash map m) : Current hash m map.createCurrent := by
  rcases h.cases with ⟨rfl, rfl⟩ | ⟨kern, rfl, hc⟩
  · exact current_newKernel
  · exact hc

/-! ### Operations -/

private theorem rehash_spec (tests : LoadTests) (h : Holds hash map m) (to_ : ℕ) (checkLf : Bool) :
    Lost (map.rehash hash tests to_ checkLf) ∨
    ∃ map', map.rehash hash tests to_ checkLf = .ok map' ∧ Holds hash map' m := by
  have hc := h.createCurrent
  unfold rehash
  rcases Kernel.rehash_spec tests hc.inv hc.represents to_ checkLf with
    hlost | ⟨reh, hrehash, hreh, -⟩
  · exact .inl (hlost.bind _)
  · rw [hrehash]
    exact .inr ⟨⟨some reh⟩, rfl, hreh.inv, hreh.represents, hreh.sized⟩

private theorem subscript_spec (tests : LoadTests) (h : Holds hash map m) (k : K) :
    Lost (map.subscript hash tests k) ∨
    ∃ map', map.subscript hash tests k = .ok ((m.lookup k).getD default, map') ∧
      Holds hash map' (m.insert k ((m.lookup k).getD default)) := by
  have hc := h.createCurrent
  unfold subscript
  rcases Kernel.index_spec tests hc.inv hc.represents hc.sized k with
    hlost | ⟨p, kern, hindex, hindexed, -⟩
  · exact .inl (hlost.bind _)
  have hvalue := hindexed.represents.lookup hindexed.live hindexed.key
  rw [Finmap.lookup_insert] at hvalue
  refine .inr ⟨⟨some kern⟩, ?_, hindexed.inv, hindexed.represents, hindexed.sized⟩
  rw [hindex, Option.some.inj hvalue]
  rfl

private theorem assign_spec (tests : LoadTests) (h : Holds hash map m) (k : K) (v : V) :
    Lost (map.assign hash tests k v) ∨
    ∃ map', map.assign hash tests k v = .ok map' ∧ Holds hash map' (m.insert k v) := by
  have hc := h.createCurrent
  unfold assign
  rcases Kernel.index_spec tests hc.inv hc.represents hc.sized k with
    hlost | ⟨p, kern, hindex, hindexed, -⟩
  · exact .inl (hlost.bind _)
  have hr := hindexed.represents.setValue hindexed.inv hindexed.live v
  rw [hindexed.key, Finmap.insert_insert] at hr
  rw [hindex]
  exact .inr ⟨⟨some (kern.setValue p v)⟩, rfl, hindexed.inv.setValue hindexed.live v, hr,
    hindexed.sized.primaryBits, hindexed.sized.overflow⟩

/-- The first `insert` returns `end`: its pair goes where the key is mapped to, and `set_exists` has
last been called for the bit behind all positions. -/
theorem insert_none (hash : K → UInt64) (tests : LoadTests) (k : K) (v : V) :
    ∃ map', (⟨none⟩ : UnorderedMap K V).insert hash tests k v = .ok (none, map') := by
  set origin := (newKernel : Kernel K V).mapKey hash k with horigin
  have hexists : (newKernel : Kernel K V).exists_ origin = false :=
    Kernel.exists_resizeClear.trans (decide_eq_false Kernel.mapKey_lt.ne)
  have hindex : (newKernel : Kernel K V).index hash tests k =
      .ok (origin, (newKernel.toggleExists origin).occupy k origin) := by
    show ((newKernel : Kernel K V).subscript hash tests k).bind _ = _
    unfold Kernel.subscript
    rw [← horigin]
    dsimp only
    rw [if_pos ⟨hexists, Kernel.overflows_resizeClear⟩]
    rfl
  refine ⟨⟨some (((newKernel.toggleExists origin).occupy k origin).setValue origin v)⟩, ?_⟩
  show (((newKernel : Kernel K V).index hash tests k).bind _).bind _ = _
  rw [hindex]
  rfl

private theorem erase_spec (h : Holds hash map m) (k : K) :
    (map.erase hash k).1 = (if k ∈ m then 1 else 0) ∧
      Holds hash (map.erase hash k).2 (m.erase k) := by
  rcases h.cases with ⟨rfl, rfl⟩ | ⟨kern, rfl, hc⟩
  · refine ⟨(if_neg Finmap.notMem_empty).symm, ?_⟩
    exact Kernel.erase_eq_self Finmap.notMem_empty
  · obtain ⟨hcount, hi, hr, htable⟩ := Kernel.erase_spec (k := k) hc.inv hc.represents
    exact ⟨hcount, hi, hr, htable.sized hc.sized⟩

private theorem find_spec (h : Holds hash map m) (k : K) :
    map.find hash k = (m.lookup k).map (k, ·) := by
  rcases h.cases with ⟨rfl, rfl⟩ | ⟨kern, rfl, hc⟩
  · rw [Finmap.lookup_empty]
    rfl
  · unfold find
    dsimp only
    by_cases hmem : k ∈ m
    · obtain ⟨p, hp, hk⟩ := hc.represents.exists_live hmem
      rw [Kernel.find_eq hc.inv hp hk, if_neg hp.1.ne, hc.represents.lookup hp hk, ← hk]
      rfl
    · rw [Kernel.find_none hc.inv (hc.represents.absent hmem), if_pos rfl,
        Finmap.lookup_eq_none.2 hmem]
      rfl

private theorem get_spec (h : Holds hash map m) (k : K) : map.get hash k = m.lookup k := by
  rcases h.cases with ⟨rfl, rfl⟩ | ⟨kern, rfl, hc⟩
  · rw [Finmap.lookup_empty]
    rfl
  · exact Kernel.get_spec hc.inv hc.represents

private theorem count_spec (h : Holds hash map m) (k : K) :
    map.count hash k = if k ∈ m then 1 else 0 := by
  rcases h.cases with ⟨rfl, rfl⟩ | ⟨kern, rfl, hc⟩
  · exact (if_neg Finmap.notMem_empty).symm
  · exact Kernel.count_spec hc.inv hc.represents

private theorem size_spec (h : Holds hash map m) : map.size = m.keys.card := by
  rcases h.cases with ⟨rfl, rfl⟩ | ⟨kern, rfl, hc⟩
  · rw [Finmap.keys_empty]
    rfl
  · exact hc.inv.elements_eq hc.represents

private theorem entries_spec (h : Holds hash map m) : Lists map.entries m := by
  rcases h.cases with ⟨rfl, rfl⟩ | ⟨kern, rfl, hc⟩
  · refine ⟨List.nodup_nil, fun k v ↦ ?_⟩
    rw [Finmap.lookup_empty]
    exact iff_of_false List.not_mem_nil fun h ↦ by cases h
  · exact Kernel.entries_lists hc.inv hc.represents

private theorem sweep_spec (h : Holds hash map m) (keep : K × V → Bool) :
    Lists (map.sweep hash keep).1 m ∧
      ∃ m', (∀ k, m'.lookup k = (m.lookup k).filter fun v ↦ keep (k, v)) ∧
        Holds hash (map.sweep hash keep).2 m' := by
  rcases h.cases with ⟨rfl, rfl⟩ | ⟨kern, rfl, hc⟩
  · refine ⟨entries_spec h, ∅, fun k ↦ ?_, rfl⟩
    rw [Finmap.lookup_empty]
    rfl
  · obtain ⟨hlists, hi, htable, m', hr, hfilter⟩ := Kernel.sweep_spec keep hc.inv hc.represents
    exact ⟨hlists, m', hfilter, hi, hr, htable.sized hc.sized⟩

private theorem assign_entries (tests : LoadTests) {l : List (K × V)} (h : Holds hash map m)
    (hnew : Kernel.New l m) :
    Lost (l.foldlM (fun map pair ↦ map.assign hash tests pair.1 pair.2) map) ∨
    ∃ map' m', l.foldlM (fun map pair ↦ map.assign hash tests pair.1 pair.2) map = .ok map' ∧
      Holds hash map' m' ∧ Kernel.Adds l m m' := by
  induction l generalizing map m with
  | nil => exact .inr ⟨map, m, rfl, h, fun k v ↦ (or_iff_left List.not_mem_nil).symm⟩
  | cons pair l ih =>
    obtain ⟨k, v⟩ := pair
    rw [List.foldlM_cons]
    rcases assign_spec tests h k v with hlost | ⟨map₁, hassign, h₁⟩
    · exact .inl (hlost.bind _)
    rw [hassign]
    refine (ih h₁ hnew.tail).imp_right ?_
    rintro ⟨map', m', hfold, h', hadds⟩
    exact ⟨map', m', hfold, h', hadds.cons (hnew.notMem k v List.mem_cons_self)⟩

/-- A copy has the pairs of the other object. -/
theorem copyFrom_spec (tests : LoadTests) (h : Holds hash map m) :
    Lost (map.copyFrom hash tests) ∨
    ∃ map', map.copyFrom hash tests = .ok map' ∧ Holds hash map' m := by
  have hlists := entries_spec h
  have hempty : Holds hash (⟨some newKernel⟩ : UnorderedMap K V) ∅ := current_newKernel
  unfold copyFrom reserve
  rcases rehash_spec tests hempty (map.size * 2) true with hlost | ⟨map₁, hreserve, h₁⟩
  · exact .inl (hlost.bind _)
  rw [hreserve]
  refine (assign_entries tests h₁ hlists.new).imp_right ?_
  rintro ⟨map', m', hassign, h', hadds⟩
  exact ⟨map', hassign, hlists.eq_of_adds hadds ▸ h'⟩

end UnorderedMap

/-! ### Runs -/

namespace MapCall

open UnorderedMap
open Kernel (Lost)

variable [DecidableEq K] [Inhabited K] [Inhabited V] {hash : K → UInt64}
  {maps : ℕ → UnorderedMap K V} {ms : ℕ → Finmap fun _ : K ↦ V}

private theorem holds_update (h : ∀ i, Holds hash (maps i) (ms i)) (i : ℕ) {map : UnorderedMap K V}
    {m : Finmap fun _ : K ↦ V} (hmap : Holds hash map m) (j : ℕ) :
    Holds hash (Function.update maps i map j) (Function.update ms i m j) := by
  rcases eq_or_ne j i with rfl | hne
  · rwa [Function.update_self, Function.update_self]
  · rw [Function.update_of_ne hne, Function.update_of_ne hne]
    exact h j

/-- A call of an operation that keeps the pairs of an object. -/
theorem holds_same (h : ∀ i, Holds hash (maps i) (ms i)) (i : ℕ) {map : UnorderedMap K V}
    (hmap : Holds hash map (ms i)) (j : ℕ) : Holds hash (Function.update maps i map j) (ms j) := by
  have hupdate := holds_update h i hmap j
  rwa [Function.update_eq_self] at hupdate

private theorem step_spec (tests : LoadTests) (h : ∀ i, Holds hash (maps i) (ms i))
    (call : MapCall K V) :
    Lost (step hash tests maps call) ∨
    ∃ answer maps' ms', step hash tests maps call = .ok (answer, maps') ∧
      (call.Spec ms answer ms' ∨ call.Differs ms answer ms') ∧
      ∀ i, Holds hash (maps' i) (ms' i) := by
  cases call with
  | subscript i k =>
    rw [step]
    rcases subscript_spec tests (h i) k with hlost | ⟨map, hsubscript, hmap⟩
    · exact .inl (hlost.bind _)
    rw [hsubscript]
    exact .inr ⟨_, _, _, rfl, .inl ⟨rfl, rfl⟩, holds_update h i hmap⟩
  | assign i k v =>
    rw [step]
    rcases assign_spec tests (h i) k v with hlost | ⟨map, hassign, hmap⟩
    · exact .inl (hlost.bind _)
    rw [hassign]
    exact .inr ⟨_, _, _, rfl, .inl ⟨rfl, rfl⟩, holds_update h i hmap⟩
  | insert i k v =>
    rw [step, UnorderedMap.insert]
    rcases assign_spec tests (h i) k v with hlost | ⟨map, hassign, hmap⟩
    · exact .inl ((hlost.bind _).bind _)
    rw [hassign]
    exact .inr ⟨_, _, _, rfl, .inr ⟨⟨_, rfl⟩, rfl⟩, holds_update h i hmap⟩
  | erase i k =>
    obtain ⟨hcount, hmap⟩ := erase_spec (h i) k
    exact .inr ⟨_, _, _, rfl, .inl ⟨congrArg _ hcount, rfl⟩, holds_update h i hmap⟩
  | find i k => exact .inr ⟨_, _, _, rfl, .inl ⟨congrArg _ (find_spec (h i) k), rfl⟩, h⟩
  | get i k => exact .inr ⟨_, _, _, rfl, .inl ⟨congrArg _ (get_spec (h i) k), rfl⟩, h⟩
  | count i k => exact .inr ⟨_, _, _, rfl, .inl ⟨congrArg _ (count_spec (h i) k), rfl⟩, h⟩
  | size i => exact .inr ⟨_, _, _, rfl, .inl ⟨congrArg _ (size_spec (h i)), rfl⟩, h⟩
  | clear i => exact .inr ⟨_, _, _, rfl, .inl ⟨rfl, rfl⟩, holds_update h i holds_none⟩
  | reserve i n =>
    rw [step, UnorderedMap.reserve]
    rcases rehash_spec tests (h i) (n * 2) true with hlost | ⟨map, hreserve, hmap⟩
    · exact .inl (hlost.bind _)
    rw [hreserve]
    exact .inr ⟨_, _, _, rfl, .inl ⟨rfl, rfl⟩, holds_same h i hmap⟩
  | resize i n =>
    rw [step, UnorderedMap.resize]
    rcases rehash_spec tests (h i) (2 <<< Nat.log2 n) false with hlost | ⟨map, hresize, hmap⟩
    · exact .inl (hlost.bind _)
    rw [hresize]
    exact .inr ⟨_, _, _, rfl, .inl ⟨rfl, rfl⟩, holds_same h i hmap⟩
  | rehash i n =>
    rw [step]
    rcases rehash_spec tests (h i) n true with hlost | ⟨map, hrehash, hmap⟩
    · exact .inl (hlost.bind _)
    rw [hrehash]
    exact .inr ⟨_, _, _, rfl, .inl ⟨rfl, rfl⟩, holds_same h i hmap⟩
  | iterate i => exact .inr ⟨_, _, _, rfl, .inl ⟨⟨_, rfl, entries_spec (h i)⟩, rfl⟩, h⟩
  | sweep i keep =>
    obtain ⟨hlists, m, hfilter, hmap⟩ := sweep_spec (h i) keep
    exact .inr ⟨_, _, _, rfl, .inl ⟨⟨_, rfl, hlists⟩, m, hfilter, rfl⟩, holds_update h i hmap⟩
  | copy i right =>
    have hempty : Holds hash (⟨some newKernel⟩ : UnorderedMap K V) ∅ := current_newKernel
    rw [step]
    rcases copyFrom_spec tests (holds_update h i hempty right) with hlost | ⟨map, hcopy, hmap⟩
    · exact .inl (hlost.bind _)
    rw [hcopy]
    refine .inr ⟨_, _, _, rfl, ?_, holds_update (holds_update h i hempty) i hmap⟩
    rw [Function.update_idem]
    rcases eq_or_ne i right with rfl | hne
    · rw [Function.update_self]
      exact .inr ⟨rfl, rfl, rfl⟩
    · rw [Function.update_of_ne hne.symm]
      exact .inl ⟨rfl, rfl⟩
  | swap i with_ =>
    exact .inr
      ⟨_, _, _, rfl, .inl ⟨rfl, rfl⟩, holds_update (holds_update h with_ (h i)) i (h with_)⟩
  | move i from_ =>
    refine .inr
      ⟨_, _, _, rfl, ?_, holds_update (holds_update h i (h from_)) from_ holds_none⟩
    rcases eq_or_ne i from_ with rfl | hne
    · rw [Function.update_idem]
      exact .inr ⟨rfl, rfl, rfl⟩
    · rw [Function.update_comm hne]
      exact .inl ⟨rfl, rfl⟩

private theorem run_spec (tests : LoadTests) (h : ∀ i, Holds hash (maps i) (ms i))
    (calls : List (MapCall K V)) :
    Lost (run hash tests maps calls) ∨
    ∃ answers maps' ms', run hash tests maps calls = .ok (answers, maps') ∧
      SpecRun ms calls answers ms' ∧ ∀ i, Holds hash (maps' i) (ms' i) := by
  induction calls generalizing maps ms with
  | nil => exact .inr ⟨[], maps, ms, rfl, ⟨rfl, rfl⟩, h⟩
  | cons call calls ih =>
    unfold run
    rcases step_spec tests h call with hlost | ⟨answer, maps₁, ms₁, hstep, hspec, h₁⟩
    · exact .inl (hlost.bind _)
    rw [hstep]
    rcases ih h₁ with hlost | ⟨answers, maps', ms', hrun, hspecs, h'⟩
    · exact .inl (hlost.bind _)
    refine .inr ⟨_, maps', ms', ?_, ⟨answer, answers, ms₁, rfl, hspec, hspecs⟩, h'⟩
    show (run hash tests maps₁ calls).bind _ = _
    rw [hrun]
    rfl

/-- Series of calls on map objects, without pairs at first, return and answer as finite maps do, up
to what `Differs` says, unless the probes of a large table become too many. -/
theorem calls_refine (hash : K → UInt64) (tests : LoadTests) (calls : List (MapCall K V)) :
    Lost (run hash tests (fun _ ↦ ⟨none⟩) calls) ∨
    ∃ answers maps ms, run hash tests (fun _ ↦ ⟨none⟩) calls = .ok (answers, maps) ∧
      SpecRun (fun _ ↦ ∅) calls answers ms ∧ ∀ i, Holds hash (maps i) (ms i) :=
  run_spec tests (fun _ ↦ holds_none) calls

omit [DecidableEq K] [Inhabited K] [Inhabited V] in
private theorem extent_le_of_bits {kern : Kernel K V} {n e : ℕ}
    (h : kern.primaryBits ≤ max n (Nat.log2 e + 17)) :
    kern.extent ≤ max (2 ^ n) (2 ^ 17 * max 1 e) := by
  have hlog : 2 ^ Nat.log2 e ≤ max 1 e := by
    rcases eq_or_ne e 0 with rfl | he
    · exact le_rfl
    · exact (Nat.log2_self_le he).trans (le_max_right _ _)
  rcases le_max_iff.1 h with hle | hle
  · exact (Nat.pow_le_pow_right Nat.two_pos hle).trans (le_max_left _ _)
  · refine (Nat.pow_le_pow_right Nat.two_pos hle).trans (le_trans ?_ (le_max_right _ _))
    rw [Nat.pow_add, Nat.mul_comm]
    exact Nat.mul_le_mul_left _ hlog

/-- After any series of calls, `operator[]` and `rehash` return with an extent that is in proportion
to the number of pairs, unless it is twice the old one or the one that was asked for, or the probes
of a large table become too many. -/
theorem extent_bounded (hash : K → UInt64) (tests : LoadTests) (calls : List (MapCall K V)) :
    Lost (run hash tests (fun _ ↦ ⟨none⟩) calls) ∨
    ∃ answers maps, run hash tests (fun _ ↦ ⟨none⟩) calls = .ok (answers, maps) ∧
      (∀ i k, Lost ((maps i).createCurrent.index hash tests k) ∨
        ∃ pos kern, (maps i).createCurrent.index hash tests k = .ok (pos, kern) ∧
          kern.extent ≤
            max (2 * (maps i).createCurrent.extent) (2 ^ 17 * max 1 (maps i).size)) ∧
      ∀ i to_ checkLf, Lost ((maps i).createCurrent.rehash hash tests to_ checkLf) ∨
        ∃ kern, (maps i).createCurrent.rehash hash tests to_ checkLf = .ok kern ∧
          kern.extent ≤ max (max to_ Kernel.minExtent) (2 ^ 17 * max 1 (maps i).size) := by
  refine (run_spec tests
    (fun _ : ℕ ↦ (holds_none : Holds hash (⟨none⟩ : UnorderedMap K V) ∅)) calls).imp_right ?_
  rintro ⟨answers, maps, ms, hrun, -, h⟩
  refine ⟨answers, maps, hrun, fun i k ↦ ?_, fun i to_ checkLf ↦ ?_⟩
  all_goals
    have hc := (h i).createCurrent
    have hsize : (maps i).size = (maps i).createCurrent.elements :=
      (size_spec (h i)).trans (hc.inv.elements_eq hc.represents).symm
    rw [hsize]
  · refine (Kernel.index_spec tests hc.inv hc.represents hc.sized k).imp_right ?_
    rintro ⟨pos, kern, hindex, -, hbits⟩
    refine ⟨pos, kern, hindex, (extent_le_of_bits hbits).trans_eq ?_⟩
    rw [Kernel.extent, Nat.pow_succ']
  · refine (Kernel.rehash_spec tests hc.inv hc.represents to_ checkLf).imp_right ?_
    rintro ⟨kern, hrehash, -, -, -, hbits⟩
    refine ⟨kern, hrehash, (extent_le_of_bits hbits).trans (max_le_max_right _ ?_)⟩
    exact Nat.log2_self_le (by unfold Kernel.minExtent; omega)

end MapCall

end LibSpaces.Rabbit
