import LibSpaces.Rabbit.Iteration

/-!
# Rehashing

`rehash` fills a new kernel with the pairs of the current one, and starts again with twice the
extent when the overflow area of the new one is used up. The overflow area grows with the extent,
so that this ends.
-/

namespace LibSpaces.Rabbit

namespace Kernel

variable {K V : Type}

section Source

variable [DecidableEq K] [Inhabited K] [Inhabited V] (hash : K → UInt64) (tests : LoadTests)

/-- The end of the loop of `rehash` over the pairs of the current kernel: all are in the new one,
the new one is full, or it does not get there. -/
inductive Filling (K V : Type)
  | done (rehashed : Kernel K V)
  | full (rehashed : Kernel K V)
  | broken (failure : Failure)

/-- The loop of `rehash`, `rabbit_map.h:1338–1364`. -/
def fill (ctr : ℕ) : List (K × V) → Kernel K V → Filling K V
  | [], reh => .done reh
  | (k, v) :: pairs, reh =>
    match reh.subscript hash tests k with
    | .error failure => .broken failure
    | .ok none => .full reh
    | .ok (some (pos, reh)) =>
      if ctr + 1 ≠ (reh.setValue pos v).elements then .broken .miscounted
      else fill (ctr + 1) pairs (reh.setValue pos v)

/-- The rounds of `rehash`, `rabbit_map.h:1334–1380`. -/
def refill (current : Kernel K V) (randProbes : ℕ) : ℕ → ℕ → Except Failure (Kernel K V)
  | 0, _ => .error .endless
  | fuel + 1, newExtent =>
    match fill hash tests 0 current.entries (resizeClear randProbes newExtent) with
    | .done reh => if reh.elements = current.elements then .ok reh else .error .miscounted
    | .full reh => refill current randProbes fuel (2 * reh.extent)
    | .broken failure => .error failure

/-- As many rounds as `rehash` and `operator[]` can need. -/
def rounds (kern : Kernel K V) : ℕ := Nat.log2 kern.elements + 16

/-- `rehash`, `rabbit_map.h:1310–1390`. -/
def rehash (kern : Kernel K V) (to_ : ℕ) (checkLf : Bool) : Except Failure (Kernel K V) :=
  refill hash tests kern
    (if checkLf = true ∧ kern.loadBelow tests.belowBad = true then 1 else kern.randProbes)
    kern.rounds (max to_ minExtent)

/-- The loop of `operator[]`, `rabbit_map.h:1495–1503`: the position of the pair with the key. -/
def indexFrom (k : K) : ℕ → Kernel K V → Except Failure (ℕ × Kernel K V)
  | 0, _ => .error .endless
  | fuel + 1, kern => do
    match ← kern.subscript hash tests k with
    | some found => return found
    | none => indexFrom k fuel (← kern.rehash hash tests (2 * kern.extent) true)

/-- `operator[]`, `rabbit_map.h:1495–1503`. -/
def index (kern : Kernel K V) (k : K) : Except Failure (ℕ × Kernel K V) :=
  kern.indexFrom hash tests k kern.rounds

end Source

variable {kern kern' reh : Kernel K V} {hash : K → UInt64} {k : K} {v : V} {p q : ℕ}

/-- What a kernel of a map is besides: it is not smaller than the first one, and its overflow area
is in proportion to its extent. -/
structure Sized (kern : Kernel K V) : Prop where
  primaryBits : 2 ≤ kern.primaryBits
  overflow : kern.extent / maxOverflowFactor ≤ kern.overflow

/-- A table of the same extents is sized alike. -/
theorem SameTable.sized (h : SameTable kern kern') (hs : kern.Sized) : kern'.Sized where
  primaryBits := hs.primaryBits.trans_eq h.primaryBits.symm
  overflow := by
    rw [h.extent, h.overflow]
    exact hs.overflow

/-- The overflow area of an extent has room for as many pairs. -/
theorem Sized.primaryBits_le {n : ℕ} (hs : kern.Sized) (h : kern.overflow ≤ n) :
    kern.primaryBits ≤ Nat.log2 n + 16 := by
  by_contra hlt
  have hpow : n < 2 ^ (Nat.log2 n + 1) := Nat.lt_log2_self
  have hle : 2 ^ (Nat.log2 n + 1) ≤ kern.extent / maxOverflowFactor := by
    rw [maxOverflowFactor, extent, Nat.pow_div (by omega) Nat.two_pos]
    exact Nat.pow_le_pow_right Nat.two_pos (by omega)
  exact absurd (hle.trans (hs.overflow.trans h)) (Nat.not_le_of_lt hpow)

variable [Inhabited K] [Inhabited V]

/-! ### A new kernel -/

section New

variable {randProbes newExtent : ℕ}

/-- In a cleared table only the place behind the data exists. -/
theorem exists_resizeClear :
    (resizeClear randProbes newExtent : Kernel K V).exists_ q =
      decide (q = (resizeClear randProbes newExtent : Kernel K V).dataSize) := by
  by_cases h : q = (resizeClear randProbes newExtent : Kernel K V).dataSize
  · rw [decide_eq_true h]
    exact (exists_setExists true).trans (if_pos h)
  · rw [decide_eq_false h]
    refine (exists_setExists true).trans ((if_neg h).trans ?_)
    rw [exists_, Base.testBit_eq]
    exact BitVec.getLsbD_zero

/-- In a cleared table nothing overflows. -/
theorem overflows_resizeClear :
    (resizeClear randProbes newExtent : Kernel K V).overflows q = false := by
  refine (overflows_setExists true).trans ?_
  rw [overflows, Base.testBit_eq]
  exact BitVec.getLsbD_zero

private theorem not_live_resizeClear : ¬(resizeClear randProbes newExtent : Kernel K V).Live p := by
  rintro ⟨hlt, hexists⟩
  rw [exists_resizeClear, decide_eq_true_iff] at hexists
  exact hlt.ne hexists

/-- A cleared table has the invariant. -/
theorem inv_resizeClear : (resizeClear randProbes newExtent : Kernel K V).Inv hash where
  oStart_le := le_rfl
  overflowElements_le := Nat.le_add_right _ _
  sentinel := exists_resizeClear.trans (decide_eq_true rfl)
  unused p _ hlt := exists_resizeClear.trans (decide_eq_false hlt.ne)
  free _ _ _ := rfl
  placed _ hp := absurd hp not_live_resizeClear
  injective _ _ hp := absurd hp not_live_resizeClear
  elements := by
    refine (Finset.card_eq_zero.2 (Finset.filter_eq_empty_iff.2 fun p hp hexists ↦ ?_)).symm
    exact not_live_resizeClear ⟨Finset.mem_range.1 hp, hexists⟩
  used := le_rfl
  probes_le := Nat.one_le_two_pow
  large hle := by
    have hextent : 2 ^ 22 ≤ newExtent := by
      have hle : 64 ≤ max minOverflow (newExtent / maxOverflowFactor) := hle
      unfold minOverflow maxOverflowFactor at hle
      omega
    have hpos : newExtent ≠ 0 := (Nat.two_pow_pos 22).trans_le hextent |>.ne'
    exact Nat.pow_le_pow_right Nat.two_pos ((Nat.le_log2 hpos).2 hextent)

/-- A cleared table represents the empty map. -/
theorem represents_resizeClear [DecidableEq K] :
    (resizeClear randProbes newExtent : Kernel K V).Represents ∅ := by
  intro k v
  rw [Finmap.lookup_empty]
  exact iff_of_false (fun h ↦ by cases h) fun ⟨p, hp, _⟩ ↦ not_live_resizeClear hp

/-- A table that is not smaller than the least extent is sized. -/
theorem sized_resizeClear (h : minExtent ≤ newExtent) :
    (resizeClear randProbes newExtent : Kernel K V).Sized where
  primaryBits := (Nat.le_log2 (by unfold minExtent at h; omega)).2 h
  overflow := by
    refine (Nat.div_le_div_right ?_).trans (le_max_right _ _)
    exact Nat.log2_self_le (by unfold minExtent at h; omega)

end New

variable [DecidableEq K] {m : Finmap fun _ : K ↦ V}

/-! ### Filling a kernel -/

/-- A pair with a new key is written. -/
theorem write_of_absent (tests : LoadTests) (hi : kern.Inv hash) (hr : kern.Represents m)
    (hmem : k ∉ m) :
    Lost (kern.subscript hash tests k) ∨
    (kern.overflowElements = kern.dataSize ∧ kern.subscript hash tests k = .ok none) ∨
      ∃ p kern', kern.subscript hash tests k = .ok (some (p, kern')) ∧
        (kern'.setValue p v).Inv hash ∧ (kern'.setValue p v).Represents (m.insert k v) ∧
        SameTable kern (kern'.setValue p v) ∧ kern'.elements = kern.elements + 1 ∧
        kern'.removed = kern.removed := by
  have habsent := hr.absent hmem
  rcases subscript_of_absent tests hi habsent with hlost | h | ⟨p, kern', h, ho⟩
  · exact .inl hlost
  · exact .inr (.inl h)
  · have hi' := ho.inv hi habsent
    have hr' := (ho.represents hi hr hmem).setValue hi' ho.live v
    rw [ho.keys_self] at hr'
    refine .inr (.inr ⟨p, kern', h, hi'.setValue ho.live v, ?_,
      ho.table.trans ⟨rfl, rfl, rfl, rfl⟩, ho.elements, ho.removed⟩)
    rwa [Finmap.insert_insert] at hr'

omit [DecidableEq K] in
/-- The overflow area of a kernel is used up by its pairs, if none has been removed. -/
theorem Inv.overflow_le (hi : kern.Inv hash) (hremoved : kern.removed = 0)
    (hfull : kern.overflowElements = kern.dataSize) : kern.overflow ≤ kern.elements := by
  have hused := hi.used
  rw [hfull, hremoved] at hused
  unfold dataSize oStart at hused
  omega

/-- The pairs of a list come in addition to those of a map. -/
def Adds (l : List (K × V)) (m m' : Finmap fun _ : K ↦ V) : Prop :=
  ∀ k v, m'.lookup k = some v ↔ m.lookup k = some v ∨ (k, v) ∈ l

omit [Inhabited K] [Inhabited V] in
/-- Adding a list pair by pair. -/
theorem Adds.cons {l : List (K × V)} {m' : Finmap fun _ : K ↦ V} (hmem : k ∉ m)
    (h : Adds l (m.insert k v) m') : Adds ((k, v) :: l) m m' := by
  intro k' v'
  rw [h k' v', List.mem_cons, ← or_assoc]
  refine or_congr_left ?_
  by_cases hk : k' = k
  · subst hk
    rw [Finmap.lookup_insert, Finmap.lookup_eq_none.2 hmem, Option.some.injEq, Prod.mk.injEq]
    constructor
    · rintro rfl
      exact .inr ⟨rfl, rfl⟩
    · rintro (h | h)
      · cases h
      · exact h.2.symm
  · rw [Finmap.lookup_insert_of_ne _ hk]
    refine (or_iff_left fun h ↦ hk ?_).symm
    rw [Prod.mk.injEq] at h
    exact h.1

/-- The keys of a list are told apart, and are not in a map. -/
structure New (l : List (K × V)) (m : Finmap fun _ : K ↦ V) : Prop where
  nodup : (l.map Prod.fst).Nodup
  notMem : ∀ k v, (k, v) ∈ l → k ∉ m

omit [Inhabited K] [Inhabited V] in
/-- The rest of a list of new pairs is new once the first is in. -/
theorem New.tail {l : List (K × V)} (h : New ((k, v) :: l) m) : New l (m.insert k v) := by
  obtain ⟨hnodup, hnotMem⟩ := h
  rw [List.map_cons, List.nodup_cons] at hnodup
  refine ⟨hnodup.2, fun k' v' hpair hmem ↦ ?_⟩
  rcases Finmap.mem_insert.1 hmem with rfl | hmem
  · exact hnodup.1 (List.mem_map.2 ⟨_, hpair, rfl⟩)
  · exact hnotMem k' v' (List.mem_cons_of_mem _ hpair) hmem

omit [Inhabited K] [Inhabited V] in
/-- The pairs of a map, in addition to none. -/
theorem Lists.new {l : List (K × V)} (h : Lists l m) : New l ∅ :=
  ⟨h.nodup, fun _ _ _ ↦ Finmap.notMem_empty⟩

omit [Inhabited K] [Inhabited V] in
/-- Adding the listed pairs of a map to the empty one gives the map. -/
theorem Lists.eq_of_adds {l : List (K × V)} {m' : Finmap fun _ : K ↦ V} (h : Lists l m)
    (hadds : Adds l ∅ m') : m' = m := by
  refine Finmap.ext_lookup fun k ↦ Option.ext fun v ↦ ?_
  rw [hadds k v, Finmap.lookup_empty, h.mem_iff]
  exact or_iff_right fun h ↦ by cases h

private theorem fill_spec (tests : LoadTests) {pairs : List (K × V)} {ctr : ℕ} (hi : kern.Inv hash)
    (hr : kern.Represents m) (hremoved : kern.removed = 0) (hctr : kern.elements = ctr)
    (hnew : New pairs m) :
    (∃ extent, fill hash tests ctr pairs kern = .broken (.lostProbes extent) ∧ 2 ^ 22 ≤ extent) ∨
    (∃ reh, fill hash tests ctr pairs kern = .full reh ∧ SameTable kern reh ∧
      reh.overflow < ctr + pairs.length) ∨
    ∃ reh m', fill hash tests ctr pairs kern = .done reh ∧ reh.Inv hash ∧ reh.Represents m' ∧
      Adds pairs m m' ∧ SameTable kern reh ∧ reh.elements = ctr + pairs.length ∧
      reh.removed = 0 := by
  induction pairs generalizing kern m ctr with
  | nil =>
    refine .inr (.inr ⟨kern, m, rfl, hi, hr, fun k v ↦ ?_, .refl kern, hctr, hremoved⟩)
    exact (or_iff_left List.not_mem_nil).symm
  | cons pair pairs ih =>
    obtain ⟨k, v⟩ := pair
    have hmem : k ∉ m := hnew.notMem k v List.mem_cons_self
    unfold fill
    rcases write_of_absent (v := v) tests hi hr hmem with
      ⟨extent, h, hlarge⟩ | ⟨hfull, h⟩ | ⟨p, kern', h, hi', hr', htable, helements, hrem⟩
    · rw [h]
      exact .inl ⟨extent, rfl, hlarge⟩
    · rw [h]
      refine .inr (.inl ⟨kern, rfl, .refl kern, ?_⟩)
      have := hi.overflow_le hremoved hfull
      rw [List.length_cons]
      omega
    · rw [h]
      dsimp only
      have hcounted : (kern'.setValue p v).elements = ctr + 1 := helements.trans (by rw [hctr])
      rw [if_neg (not_not.2 hcounted.symm)]
      have hlength : ctr + 1 + pairs.length = ctr + ((k, v) :: pairs).length := by
        rw [List.length_cons]
        omega
      rcases ih hi' hr' (hrem.trans hremoved) hcounted hnew.tail with
        hlost | ⟨reh, hfill, htable', hlt⟩ |
          ⟨reh, m', hfill, hi'', hr'', hadds, htable', hcount, hrem'⟩
      · exact .inl hlost
      · exact .inr (.inl ⟨reh, hfill, htable.trans htable', hlength ▸ hlt⟩)
      · exact .inr (.inr ⟨reh, m', hfill, hi'', hr'', hadds.cons hmem, htable.trans htable',
          hlength ▸ hcount, hrem'⟩)

/-! ### `rehash` -/

/-- A kernel that `rehash` leaves. -/
structure Rehashed (hash : K → UInt64) (m : Finmap fun _ : K ↦ V) (kern : Kernel K V) : Prop where
  inv : kern.Inv hash
  represents : kern.Represents m
  sized : kern.Sized
  removed : kern.removed = 0

private theorem fill_entries (tests : LoadTests) {randProbes newExtent : ℕ} (hi : kern.Inv hash)
    (hr : kern.Represents m) (hextent : minExtent ≤ newExtent) :
    (∃ extent, fill hash tests 0 kern.entries (resizeClear randProbes newExtent) =
      .broken (.lostProbes extent) ∧ 2 ^ 22 ≤ extent) ∨
    (∃ reh, fill hash tests 0 kern.entries (resizeClear randProbes newExtent) = .full reh ∧
      reh.primaryBits = Nat.log2 newExtent ∧ Nat.log2 newExtent ≤ Nat.log2 kern.elements + 16) ∨
    ∃ reh, fill hash tests 0 kern.entries (resizeClear randProbes newExtent) = .done reh ∧
      Rehashed hash m reh ∧ reh.primaryBits = Nat.log2 newExtent ∧
      reh.elements = kern.elements := by
  have hlists := entries_lists hi hr
  have hinv : (resizeClear randProbes newExtent : Kernel K V).Inv hash := inv_resizeClear
  have hsized : (resizeClear randProbes newExtent : Kernel K V).Sized := sized_resizeClear hextent
  have hcounted : (resizeClear randProbes newExtent : Kernel K V).elements = 0 := rfl
  rcases fill_spec tests hinv represents_resizeClear rfl hcounted hlists.new with
    hlost | ⟨reh, hfill, htable, hlt⟩ | ⟨reh, m', hfill, hi', hr', hadds, htable, hcount, hrem⟩
  · exact .inl hlost
  · rw [Nat.zero_add, length_entries hi] at hlt
    refine .inr (.inl ⟨reh, hfill, htable.primaryBits, ?_⟩)
    have hbits := (htable.sized hsized).primaryBits_le hlt.le
    rwa [htable.primaryBits] at hbits
  · rw [Nat.zero_add, length_entries hi] at hcount
    have hm := hlists.eq_of_adds hadds
    exact .inr (.inr
      ⟨reh, hfill, ⟨hi', hm ▸ hr', htable.sized hsized, hrem⟩, htable.primaryBits, hcount⟩)

/-- The rounds of `rehash` end: each that fails doubles the extent, and the overflow area of a
kernel that is large enough is not used up. -/
theorem refill_spec (tests : LoadTests) {randProbes fuel newExtent : ℕ} (hi : kern.Inv hash)
    (hr : kern.Represents m) (hextent : minExtent ≤ newExtent) (hfuel : 0 < fuel)
    (hrounds : Nat.log2 kern.elements + 17 < fuel + Nat.log2 newExtent) :
    Lost (refill hash tests kern randProbes fuel newExtent) ∨
    ∃ reh, refill hash tests kern randProbes fuel newExtent = .ok reh ∧ Rehashed hash m reh ∧
      reh.elements = kern.elements ∧ Nat.log2 newExtent ≤ reh.primaryBits ∧
      reh.primaryBits ≤ max (Nat.log2 newExtent) (Nat.log2 kern.elements + 17) := by
  induction fuel generalizing newExtent with
  | zero => exact absurd hfuel (lt_irrefl _)
  | succ fuel ih =>
    unfold refill
    rcases fill_entries tests hi hr hextent with
      ⟨extent, hfill, hlarge⟩ | ⟨reh, hfill, hbits, hle⟩ | ⟨reh, hfill, hreh, hbits, hcount⟩
    · rw [hfill]
      exact .inl ⟨extent, rfl, hlarge⟩
    · rw [hfill]
      dsimp only
      have hnext : Nat.log2 (2 * reh.extent) = Nat.log2 newExtent + 1 := by
        rw [extent, hbits, ← Nat.pow_succ', Nat.log2_two_pow]
      have hextent' : minExtent ≤ 2 * reh.extent := by
        have := Nat.lt_log2_self (n := newExtent)
        rw [extent, hbits, ← Nat.pow_succ']
        exact hextent.trans this.le
      refine (ih hextent' (by omega) (by omega)).imp_right ?_
      rintro ⟨reh', h, hreh', hcount, hle', hmax⟩
      rw [hnext] at hle' hmax
      exact ⟨reh', h, hreh', hcount, by omega, by omega⟩
    · rw [hfill]
      dsimp only
      rw [if_pos hcount]
      exact .inr ⟨reh, rfl, hreh, hcount, hbits.ge, hbits.le.trans (le_max_left _ _)⟩

/-- `rehash` returns, with the same pairs, unless the probes of a large table become too many. -/
theorem rehash_spec (tests : LoadTests) (hi : kern.Inv hash) (hr : kern.Represents m) (to_ : ℕ)
    (checkLf : Bool) :
    Lost (kern.rehash hash tests to_ checkLf) ∨
    ∃ reh, kern.rehash hash tests to_ checkLf = .ok reh ∧ Rehashed hash m reh ∧
      reh.elements = kern.elements ∧ Nat.log2 (max to_ minExtent) ≤ reh.primaryBits ∧
      reh.primaryBits ≤ max (Nat.log2 (max to_ minExtent)) (Nat.log2 kern.elements + 17) := by
  have hbits : 2 ≤ Nat.log2 (max to_ minExtent) :=
    (Nat.le_log2 (by unfold minExtent; omega)).2 (le_max_right _ _)
  exact refill_spec tests hi hr (le_max_right _ _) (Nat.succ_pos _) (by unfold rounds; omega)

/-! ### `operator[]` -/

/-- A kernel that `operator[]` leaves, with a pair at a position. -/
structure Indexed (hash : K → UInt64) (m : Finmap fun _ : K ↦ V) (k : K) (p : ℕ)
    (kern : Kernel K V) : Prop where
  inv : kern.Inv hash
  represents : kern.Represents (m.insert k ((m.lookup k).getD default))
  sized : kern.Sized
  live : kern.Live p
  key : (kern.keys p).1 = k

private theorem subscript_indexed (tests : LoadTests) (hi : kern.Inv hash) (hr : kern.Represents m)
    (hs : kern.Sized) (k : K) :
    Lost (kern.subscript hash tests k) ∨
    (kern.overflowElements = kern.dataSize ∧ kern.subscript hash tests k = .ok none) ∨
      ∃ p kern', kern.subscript hash tests k = .ok (some (p, kern')) ∧ Indexed hash m k p kern' ∧
        kern'.primaryBits = kern.primaryBits := by
  rcases subscript_spec (k := k) tests hi hr with
    hlost | ⟨hfull, -, h⟩ | ⟨p, kern', h, hi', hp, hk, hr', htable, -⟩
  · exact .inl hlost
  · exact .inr (.inl ⟨hfull, h⟩)
  · exact .inr (.inr ⟨p, kern', h, ⟨hi', hr', htable.sized hs, hp, hk⟩, htable.primaryBits⟩)

omit [Inhabited K] [Inhabited V] [DecidableEq K] in
private theorem Sized.log2_doubled (hs : kern.Sized) :
    Nat.log2 (max (2 * kern.extent) minExtent) = kern.primaryBits + 1 := by
  have hle : minExtent ≤ 2 * kern.extent := by
    rw [extent, ← Nat.pow_succ']
    exact Nat.pow_le_pow_right Nat.two_pos (hs.primaryBits.trans (Nat.le_succ _))
  rw [max_eq_left hle, extent, ← Nat.pow_succ', Nat.log2_two_pow]

/-- The loop of `operator[]` ends, from a kernel out of which no pair has been removed. -/
theorem Rehashed.indexFrom (tests : LoadTests) (fuel : ℕ) (h : Rehashed hash m kern)
    (k : K) (hfuel : 0 < fuel)
    (hrounds : Nat.log2 kern.elements + 17 < fuel + kern.primaryBits) :
    Lost (kern.indexFrom hash tests k fuel) ∨
    ∃ p kern', kern.indexFrom hash tests k fuel = .ok (p, kern') ∧ Indexed hash m k p kern' ∧
      kern'.primaryBits ≤ max kern.primaryBits (Nat.log2 kern.elements + 17) := by
  induction fuel generalizing kern with
  | zero => exact absurd hfuel (lt_irrefl _)
  | succ fuel ih =>
    unfold Kernel.indexFrom
    rcases subscript_indexed tests h.inv h.represents h.sized k with
      hlost | ⟨hfull, hnone⟩ | ⟨p, kern', hsome, hindexed, hbits⟩
    · exact .inl (hlost.bind _)
    · rw [hnone]
      have hle := h.sized.primaryBits_le (h.inv.overflow_le h.removed hfull)
      rcases rehash_spec tests h.inv h.represents (2 * kern.extent) true with
        hlost | ⟨reh, hrehash, hreh, hcount, hge, hmax⟩
      · exact .inl (hlost.bind _)
      have hlog := congrArg Nat.log2 hcount
      rw [h.sized.log2_doubled] at hge hmax
      rw [hrehash]
      refine (ih hreh (by omega) (by omega)).imp_right ?_
      rintro ⟨p, kern', hindex, hindexed, hle'⟩
      exact ⟨p, kern', hindex, hindexed, by omega⟩
    · rw [hsome]
      exact .inr ⟨p, kern', rfl, hindexed, hbits.le.trans (le_max_left _ _)⟩

/-- `operator[]` returns a pair with the key, with the default value where it is new. It rehashes a
few times at most: the extent is then in proportion to the number of pairs, or twice what it was.
Only the probes of a large table may become too many. -/
theorem index_spec (tests : LoadTests) (hi : kern.Inv hash) (hr : kern.Represents m)
    (hs : kern.Sized) (k : K) :
    Lost (kern.index hash tests k) ∨
    ∃ p kern', kern.index hash tests k = .ok (p, kern') ∧ Indexed hash m k p kern' ∧
      kern'.primaryBits ≤ max (kern.primaryBits + 1) (Nat.log2 kern.elements + 17) := by
  obtain ⟨fuel, hfuel⟩ : ∃ fuel, kern.rounds = fuel + 1 := ⟨Nat.log2 kern.elements + 15, rfl⟩
  unfold rounds at hfuel
  unfold index rounds
  rw [hfuel]
  unfold indexFrom
  rcases subscript_indexed tests hi hr hs k with
    hlost | ⟨-, hnone⟩ | ⟨p, kern', hsome, hindexed, hbits⟩
  · exact .inl (hlost.bind _)
  · rw [hnone]
    rcases rehash_spec tests hi hr (2 * kern.extent) true with
      hlost | ⟨reh, hrehash, hreh, hcount, hge, hmax⟩
    · exact .inl (hlost.bind _)
    have hpos := hs.primaryBits
    have hlog := congrArg Nat.log2 hcount
    rw [hs.log2_doubled] at hge hmax
    rw [hrehash]
    refine (hreh.indexFrom tests fuel k (by omega) (by omega)).imp_right ?_
    rintro ⟨p, kern', hindex, hindexed, hle'⟩
    exact ⟨p, kern', hindex, hindexed, by omega⟩
  · rw [hsome]
    exact .inr ⟨p, kern', rfl, hindexed, by omega⟩

end Kernel

end LibSpaces.Rabbit
