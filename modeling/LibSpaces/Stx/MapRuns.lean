import LibSpaces.Stx.Search

/-!
# Runs of a tree

A run is a series of `insert`, `operator[]` and `erase` on one tree object. It never fails, gives
the answers of the ordered map and leaves a tree that holds the pairs of the ordered map.
-/

namespace LibSpaces.Stx

open LibSpaces.Base

/-- An operation of a map: `assign` is a write to what `operator[]` returns. -/
inductive MapOp (K V : Type)
  | insert (key : K) (value : V)
  | subscript (key : K)
  | assign (key : K) (value : V)
  | eraseOne (key : K)
  | erase (key : K)

/-- What an operation returns: whether a pair was added or removed, how many were removed, or the
data of `operator[]`. -/
inductive Answer (V : Type)
  | done (changed : Bool)
  | count (erased : ℕ)
  | data (value : Option V)
  deriving DecidableEq

variable {K V : Type} [LinearOrder K] [Inhabited K] [Inhabited V]

/-- What the operation is to do to an ordered map. -/
def MapOp.spec (m : OrderedMap K V) : MapOp K V → OrderedMap K V × Answer V
  | .insert key value => (m.insert key value, .done !m.contains key)
  | .subscript key =>
    (m.insert key default, .data ((findKey key (m.insert key default).pairs).map Prod.snd))
  | .assign key value => ((m.insert key default).assign key value, .data (some value))
  | .eraseOne key => (m.erase key, .done (m.contains key))
  | .erase key => (m.erase key, .count (if m.contains key then 1 else 0))

/-- What a series of operations is to do. -/
def specRun : OrderedMap K V → List (MapOp K V) → OrderedMap K V × List (Answer V)
  | m, [] => (m, [])
  | m, op :: ops => ((specRun (op.spec m).1 ops).1, (op.spec m).2 :: (specRun (op.spec m).1 ops).2)

omit [Inhabited K] in
/-- A run of the ordered map in two parts. -/
theorem specRun_append (m : OrderedMap K V) (ops ops' : List (MapOp K V)) :
    specRun m (ops ++ ops') = ((specRun (specRun m ops).1 ops').1,
      (specRun m ops).2 ++ (specRun (specRun m ops).1 ops').2) := by
  induction ops generalizing m with
  | nil => rfl
  | cons op ops ih => rw [List.cons_append, specRun, ih, specRun, List.cons_append]

/-- No stored leaf is its own successor: `save` refuses it. -/
def Storage.Unlooped (storage : Storage K V) : Prop :=
  ∀ w n, storage.pages w = some (.surface n) → n.next ≠ w

namespace Btree

variable {tr : Traits} {s s' : Btree K V} {kvs : List (K × V)} {m : OrderedMap K V}

/-- An operation of the tree. -/
def step (tr : Traits) (s : Btree K V) : MapOp K V → Option (Btree K V × Answer V)
  | .insert key value => do
    let (s, _, inserted) ← s.insertStart tr key value
    return (s, .done inserted)
  | .subscript key => do
    let (s, i) ← s.subscript tr key
    return (s, .data ((s.deref i).map Prod.snd))
  | .assign key value => do
    let s ← s.assign tr key value
    return (s, .data (some value))
  | .eraseOne key => do
    let (s, erased) ← s.eraseOne tr key
    return (s, .done erased)
  | .erase key => do
    let (s, erased) ← s.erase tr key
    return (s, .count erased)

/-- A run of the tree. -/
def run (tr : Traits) : Btree K V → List (MapOp K V) → Option (Btree K V × List (Answer V))
  | s, [] => some (s, [])
  | s, op :: ops => do
    let (s, answer) ← s.step tr op
    let (s, answers) ← run tr s ops
    return (s, answer :: answers)

/-- A run of the tree and one step more. -/
theorem run_concat {s₁ : Btree K V} {ops : List (MapOp K V)} {op : MapOp K V} {answer : Answer V}
    {answers : List (Answer V)} (hrun : s.run tr ops = some (s₁, answers))
    (hstep : s₁.step tr op = some (s', answer)) :
    s.run tr (ops ++ [op]) = some (s', answers ++ [answer]) := by
  induction ops generalizing s answers with
  | nil =>
    cases hrun
    rw [List.nil_append, run, hstep]
    rfl
  | cons first ops ih =>
    obtain ⟨⟨s₂, answer₂⟩, hfirst, hrest⟩ := Option.bind_eq_some_iff.1 hrun
    obtain ⟨⟨s₃, answers₃⟩, hops, hlast⟩ := Option.bind_eq_some_iff.1 hrest
    cases hlast
    rw [List.cons_append, run, hfirst]
    exact (congrArg (Option.bind · _) (ih hops)).trans rfl

/-! ### One operation -/

omit [Inhabited V] in
private theorem Refers.mem {i : Iterator} {p : K × V} (hr : Refers tr s i kvs p) : p ∈ kvs := by
  obtain ⟨h, t, ht, rfl, hleaf, -, hderef⟩ := hr
  obtain ⟨n, hload, hget⟩ := exists_of_deref hderef
  rw [← ht.stored.flatMap_kvsAt]
  exact List.mem_flatMap.2 ⟨i.1, hleaf, kvsAt_eq hload ▸ List.mem_of_getElem? hget⟩

private theorem subscript_spec (hs : Represents tr s kvs) (key : K) :
    ∃ s' i v, s.subscript tr key = some (s', i) ∧
      Refers tr s' i (insertKey key default kvs) (key, v) ∧ Within s s' := by
  obtain ⟨s', i, inserted, v, heq, hr, hwithin, -⟩ := insertStart_spec hs key (default : V)
  exact ⟨s', i, v, (congrArg (Option.bind · _) heq).trans rfl, hr, hwithin⟩

/-- Assignment inserts the key if it is new and gives it the value. -/
theorem assign_spec (hs : Represents tr s kvs) (key : K) (value : V) :
    ∃ s', s.assign tr key value = some s' ∧
      Represents tr s' (assignKey key value (insertKey key default kvs)) ∧ Within s s' := by
  obtain ⟨s₁, i, v, heq, hr, hwithin⟩ := subscript_spec hs key
  obtain ⟨s', heq', hr', hwithin'⟩ := write_spec hr value
  exact ⟨s', (congrArg (Option.bind · _) heq).trans heq', hr'.represents, hwithin.trans hwithin'⟩

private theorem eq_decide {b : Bool} {P : Prop} [Decidable P] (h : b = true ↔ P) : b = decide P :=
  Bool.eq_iff_iff.2 (h.trans decide_eq_true_iff.symm)

/-- Each operation of the tree answers as the ordered map does and represents it afterwards. -/
theorem step_spec (hs : Represents tr s m.pairs) (op : MapOp K V) :
    ∃ s', s.step tr op = some (s', (op.spec m).2) ∧ Represents tr s' (op.spec m).1.pairs ∧
      Within s s' := by
  cases op with
  | insert key value =>
    obtain ⟨s', i, inserted, v, heq, hr, hwithin, hins⟩ := insertStart_spec hs key value
    refine ⟨s', (congrArg (Option.bind · _) heq).trans ?_, hr.represents, hwithin⟩
    rw [eq_decide hins, decide_not]
    rfl
  | subscript key =>
    obtain ⟨s', i, v, heq, hr, hwithin⟩ := subscript_spec hs key
    refine ⟨s', (congrArg (Option.bind · _) heq).trans ?_, hr.represents, hwithin⟩
    have hfind := hr.represents.searchable.sorted.findKey_of_mem hr.mem
    obtain ⟨-, -, -, -, -, -, hderef⟩ := hr
    rw [MapOp.spec, OrderedMap.insert, hfind, ← hderef]
    rfl
  | assign key value =>
    obtain ⟨s', heq, hrep, hwithin⟩ := assign_spec hs key value
    exact ⟨s', (congrArg (Option.bind · _) heq).trans rfl, hrep, hwithin⟩
  | eraseOne key =>
    obtain ⟨s', erased, heq, hrep, hwithin, hmem⟩ := eraseOne_spec hs key
    refine ⟨s', (congrArg (Option.bind · _) heq).trans ?_, hrep, hwithin⟩
    rw [eq_decide hmem]
    rfl
  | erase key =>
    obtain ⟨s', erased, heq, hrep, hwithin, hmem⟩ := eraseOne_spec hs key
    have heq' : s.erase tr key = some (s', if erased then 1 else 0) :=
      (congrArg (Option.bind · _) heq).trans rfl
    refine ⟨s', (congrArg (Option.bind · _) heq').trans ?_, hrep, hwithin⟩
    rw [eq_decide hmem]
    rfl

/-! ### Runs -/

/-- So does every series of operations. -/
theorem run_spec (hs : Represents tr s m.pairs) (ops : List (MapOp K V)) :
    ∃ s', s.run tr ops = some (s', (specRun m ops).2) ∧
      Represents tr s' (specRun m ops).1.pairs ∧ Within s s' := by
  induction ops generalizing s m with
  | nil => exact ⟨s, rfl, hs, Within.refl s⟩
  | cons op ops ih =>
    obtain ⟨s₁, heq, hs₁, hwithin⟩ := step_spec hs op
    obtain ⟨s', heq', hs', hwithin'⟩ := ih hs₁
    refine ⟨s', ?_, hs', hwithin.trans hwithin'⟩
    rw [run, heq]
    exact (congrArg (Option.bind · _) heq').trans rfl

omit [Inhabited V] in
/-- A new tree represents the empty map. -/
theorem represents_blank {storage : Storage K V} (hst : storage.Unlooped) :
    Represents tr (blank storage) [] :=
  .bare ⟨⟨rfl, ⟨trivial, List.nodup_nil, nofun, nofun, rfl, hst⟩, rfl⟩, rfl⟩

/-- A run on an empty tree is one of the ordered map. -/
theorem run_refines (tr : Traits) {storage : Storage K V} (hst : storage.Unlooped)
    (ops : List (MapOp K V)) :
    ∃ s, (blank storage).run tr ops = some (s, (specRun OrderedMap.empty ops).2) ∧
      s.items = some (specRun OrderedMap.empty ops).1.pairs ∧
      s.held = some (specRun OrderedMap.empty ops).1.pairs ∧
      s.stats.treeSize = (specRun OrderedMap.empty ops).1.size ∧
      ∀ key,
        (∃ i, s.find key = some i ∧
          Finds s i (findKey key (specRun OrderedMap.empty ops).1.pairs)) ∧
        (∃ i, s.lowerBound key = some i ∧
          Finds s i (Base.lowerBound key (specRun OrderedMap.empty ops).1.pairs)) ∧
        ∃ i, s.upperBound key = some i ∧
          Finds s i (Base.upperBound key (specRun OrderedMap.empty ops).1.pairs) := by
  obtain ⟨s, heq, hs, -⟩ := run_spec (m := OrderedMap.empty) (represents_blank hst) ops
  have hs' : Searchable tr s _ := hs.searchable
  exact ⟨s, heq, items_spec hs, held_spec hs', treeSize_spec hs', fun key ↦
    ⟨find_spec hs' key, lowerBound_spec hs' key, upperBound_spec hs' key⟩⟩

/-- Four operations on an empty tree. -/
theorem run_refines_of_empty :
    ∃ s, (blank ⟨fun _ ↦ none, fun _ ↦ none, 0⟩).run Traits.perPage
        [.insert 3 30, .assign 5 (50 : ℕ), .subscript 4, .erase (3 : ℕ)] =
          some (s, [.done true, .data (some 50), .data (some 0), .count 1]) ∧
      s.items = some [(4, 0), (5, 50)] ∧ s.stats.treeSize = 2 := by
  have hst : (⟨fun _ ↦ none, fun _ ↦ none, 0⟩ : Storage ℕ ℕ).Unlooped := fun _ _ h ↦ nomatch h
  obtain ⟨s, heq, hitems, -, hsize, -⟩ := run_refines Traits.perPage hst
    [.insert 3 30, .assign 5 50, .subscript 4, .erase 3]
  exact ⟨s, heq, hitems, hsize⟩

end Btree

end LibSpaces.Stx
