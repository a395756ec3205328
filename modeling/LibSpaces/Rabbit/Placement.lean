import Mathlib.Data.Finmap
import Mathlib.Data.Finset.Card
import LibSpaces.Rabbit.Kernel

/-!
# Where the pairs of a kernel are

Each key is at the position it is mapped to, or that position overflows and the key is at one of
the probed positions behind it or in the overflow area. Free positions hold the default pair, so
a key other than the default one is found without a look at the bits.
-/

namespace LibSpaces.Rabbit.Kernel

open LibSpaces.Base

variable {K V : Type} {kern kern' : Kernel K V} {hash : K → UInt64} {k : K} {p q : ℕ}

/-! ### Bits -/

/-- A segment has 64 bits. -/
theorem segmentIndex_lt (p : ℕ) : segmentIndex p < 64 :=
  Nat.lt_succ_of_le (Nat.and_le_right)

/-- A position is its segment and its index there. -/
theorem eq_of_segment_eq (hsegment : p >>> 6 = q >>> 6) (hindex : segmentIndex p = segmentIndex q) :
    p = q := by
  have hmod (n : ℕ) : segmentIndex n = n % 64 := Nat.and_two_pow_sub_one_eq_mod n 6
  rw [hmod, hmod] at hindex
  rw [Nat.shiftRight_eq_div_pow, Nat.shiftRight_eq_div_pow] at hsegment
  omega

private theorem segment_setSegment (s : Segment) :
    (kern.setSegment p s).segment q = if q >>> 6 = p >>> 6 then s else kern.segment q := by
  exact Function.update_apply _ _ _ _

/-- A new value of one bit of a segment. -/
theorem testBit_setSegment {s : Segment} {word : Segment → Word} {bit : Bool}
    (hword : ∀ i < 64, (word s).getLsbD i =
      if i = segmentIndex p then bit else (word (kern.segment p)).getLsbD i) :
    testBit (word ((kern.setSegment p s).segment q)) (segmentIndex q) =
      if q = p then bit else testBit (word (kern.segment q)) (segmentIndex q) := by
  rw [segment_setSegment, testBit_eq, testBit_eq]
  by_cases hsegment : q >>> 6 = p >>> 6
  · rw [if_pos hsegment, hword _ (segmentIndex_lt q)]
    have hsame : kern.segment q = kern.segment p := by rw [segment, segment, hsegment]
    by_cases hindex : segmentIndex q = segmentIndex p
    · rw [if_pos hindex, if_pos (eq_of_segment_eq hsegment hindex)]
    · rw [if_neg hindex, if_neg fun h ↦ hindex (by rw [h]), hsame]
  · rw [if_neg hsegment, if_neg fun h ↦ hsegment (by rw [h])]

/-- Only the place that is set comes into being or goes. -/
theorem exists_setExists (f : Bool) :
    (kern.setExists p f).exists_ q = if q = p then f else kern.exists_ q :=
  testBit_setSegment fun _ hi ↦ getLsbD_setBit (Segment.existing _) f hi

/-- Only the toggled place changes. -/
theorem exists_toggleExists :
    (kern.toggleExists p).exists_ q = if q = p then !kern.exists_ p else kern.exists_ q := by
  refine testBit_setSegment (fun i hi ↦ ?_ : ∀ i < 64, (Segment.existing _).getLsbD i = _)
  rw [getLsbD_toggleBit _ hi, exists_, testBit_eq]
  split
  · next h => rw [h]
  · rfl

/-- Only the place that is set overflows or stops doing so. -/
theorem overflows_setOverflows (f : Bool) :
    (kern.setOverflows p f).overflows q = if q = p then f else kern.overflows q :=
  testBit_setSegment fun _ hi ↦ getLsbD_setBit (Segment.overflows _) f hi

private theorem overflows_setSegment {s : Segment} (hs : s.overflows = (kern.segment p).overflows) :
    (kern.setSegment p s).overflows q = kern.overflows q := by
  rw [overflows, segment_setSegment]
  split
  · next h => rw [hs, overflows, segment, segment, h]
  · rfl

private theorem exists_setSegment {s : Segment} (hs : s.existing = (kern.segment p).existing) :
    (kern.setSegment p s).exists_ q = kern.exists_ q := by
  rw [exists_, segment_setSegment]
  split
  · next h => rw [hs, exists_, segment, segment, h]
  · rfl

/-- Occupying a place does not change what overflows. -/
@[simp] theorem overflows_setExists (f : Bool) :
    (kern.setExists p f).overflows q = kern.overflows q :=
  overflows_setSegment rfl

/-- Neither does toggling it. -/
@[simp] theorem overflows_toggleExists : (kern.toggleExists p).overflows q = kern.overflows q :=
  overflows_setSegment rfl

/-- The overflow of a place does not change what exists. -/
@[simp] theorem exists_setOverflows (f : Bool) :
    (kern.setOverflows p f).exists_ q = kern.exists_ q :=
  exists_setSegment rfl

/-- Writing a key does not change what exists. -/
@[simp] theorem exists_occupy : (kern.occupy k p).exists_ q = kern.exists_ q := rfl

/-- Writing a key does not change what overflows. -/
@[simp] theorem overflows_occupy : (kern.occupy k p).overflows q = kern.overflows q := rfl

/-! ### The invariant -/

/-- The hash of a key is mapped into the table. -/
theorem mapHash_lt (h : UInt64) : kern.mapHash h < kern.extent := by
  have hpos : 0 < kern.extent := Nat.two_pow_pos _
  have := Nat.and_le_right (n := (if kern.randProbes ≠ 0 then kern.randomize h else h).toNat)
    (m := kern.extent - 1)
  unfold mapHash
  omega

/-- The probed places are those from the base on that are in the table. -/
theorem mem_probed {base : ℕ} :
    p ∈ kern.probed base ↔ base ≤ p ∧ p < base + kern.probes ∧ p < kern.extent := by
  rw [probed, List.mem_range'_1]
  omega

/-- The overflow area is behind the table. -/
theorem extent_le_oStart : kern.extent ≤ kern.oStart := Nat.le_add_right _ _

private theorem oStart_le_dataSize : kern.oStart ≤ kern.dataSize := Nat.le_add_right _ _

/-- The base of a key is a place of the arrays. -/
theorem mapKey_lt : kern.mapKey hash k < kern.dataSize :=
  (mapHash_lt _).trans_le (extent_le_oStart.trans oStart_le_dataSize)

private theorem lt_of_mem_probed {base : ℕ} (h : p ∈ kern.probed base) : p < kern.dataSize :=
  (mem_probed.1 h).2.2.trans_le (extent_le_oStart.trans oStart_le_dataSize)

private theorem mem_bucket : p ∈ List.range' kern.oStart (kern.dataSize - kern.oStart) ↔
    kern.oStart ≤ p ∧ p < kern.dataSize := by
  have : kern.oStart ≤ kern.dataSize := oStart_le_dataSize
  rw [List.mem_range'_1]
  omega

/-- A pair exists at a position. -/
def Live (kern : Kernel K V) (p : ℕ) : Prop := p < kern.dataSize ∧ kern.exists_ p = true

instance (kern : Kernel K V) : DecidablePred kern.Live :=
  fun p ↦ inferInstanceAs (Decidable (p < kern.dataSize ∧ kern.exists_ p = true))

/-- The position is one of those at which `find` looks for the key. -/
def Placed (hash : K → UInt64) (kern : Kernel K V) (k : K) (p : ℕ) : Prop :=
  p = kern.mapKey hash k ∨ kern.overflows (kern.mapKey hash k) = true ∧
    (p ∈ kern.probed (kern.mapKey hash k) ∨ kern.oStart ≤ p ∧ p < kern.overflowElements)

/-- What the operations keep. The probes are doubled at most once for each position of the overflow
area, and this area has 64 positions in large tables only. -/
structure Inv [Inhabited K] [Inhabited V] (hash : K → UInt64) (kern : Kernel K V) : Prop where
  oStart_le : kern.oStart ≤ kern.overflowElements
  overflowElements_le : kern.overflowElements ≤ kern.dataSize
  sentinel : kern.exists_ kern.dataSize = true
  unused : ∀ p, kern.overflowElements ≤ p → p < kern.dataSize → kern.exists_ p = false
  free : ∀ p < kern.dataSize, kern.exists_ p = false → kern.keys p = default
  placed : ∀ p, kern.Live p → kern.Placed hash (kern.keys p).1 p
  injective : ∀ p q, kern.Live p → kern.Live q → (kern.keys p).1 = (kern.keys q).1 → p = q
  elements : kern.elements = ((Finset.range kern.dataSize).filter fun p ↦ kern.exists_ p).card
  used : kern.overflowElements ≤ kern.oStart + kern.elements + kern.removed
  probes_le : kern.probes ≤ 2 ^ (kern.overflowElements - kern.oStart)
  large : 64 ≤ kern.overflow → 2 ^ 22 ≤ kern.extent

/-- The kernel holds the pairs of a finite map. -/
def Represents [DecidableEq K] (kern : Kernel K V) (m : Finmap fun _ : K ↦ V) : Prop :=
  ∀ k v, m.lookup k = some v ↔ ∃ p, kern.Live p ∧ kern.keys p = (k, v)

/-! ### Searches -/

/-- The only element that passes a test is found. -/
theorem find?_eq_some_of_unique {l : List ℕ} {test : ℕ → Bool} (hmem : p ∈ l) (hp : test p = true)
    (hunique : ∀ q ∈ l, test q = true → q = p) : l.find? test = some p := by
  cases hfind : l.find? test with
  | none => exact absurd hp (List.find?_eq_none.1 hfind p hmem)
  | some q => rw [hunique q (List.mem_of_find?_eq_some hfind) (List.find?_some hfind)]

section Find

variable [DecidableEq K]

private theorem equalKeyExists_iff (hp : p < kern.dataSize) :
    kern.equalKeyExists k p = true ↔ kern.Live p ∧ (kern.keys p).1 = k := by
  rw [equalKeyExists, decide_eq_true_iff, Live]
  exact ⟨fun h ↦ ⟨⟨hp, h.2⟩, h.1⟩, fun h ↦ ⟨h.2, h.1.2⟩⟩

variable [Inhabited K] [Inhabited V]

/-- A search over positions of the kernel for a pair with the key. -/
theorem find?_equalKeyExists {l : List ℕ} (hi : kern.Inv hash) (hl : ∀ q ∈ l, q < kern.dataSize)
    (hp : kern.Live p) (hk : (kern.keys p).1 = k) :
    l.find? (kern.equalKeyExists k) = if p ∈ l then some p else none := by
  have hunique : ∀ q ∈ l, kern.equalKeyExists k q = true → q = p := by
    intro q hq htest
    obtain ⟨hlive, hkey⟩ := (equalKeyExists_iff (hl q hq)).1 htest
    exact hi.injective q p hlive hp (hkey.trans hk.symm)
  split
  · next hmem =>
    exact find?_eq_some_of_unique hmem ((equalKeyExists_iff (hl p hmem)).2 ⟨hp, hk⟩) hunique
  · next hmem =>
    rw [List.find?_eq_none]
    exact fun q hq htest ↦ hmem (hunique q hq htest ▸ hq)

omit [Inhabited K] [Inhabited V] in
private theorem find?_equalKeyExists_none {l : List ℕ} (hl : ∀ q ∈ l, q < kern.dataSize)
    (hk : ∀ p, kern.Live p → (kern.keys p).1 ≠ k) :
    l.find? (kern.equalKeyExists k) = none := by
  rw [List.find?_eq_none]
  intro q hq htest
  obtain ⟨hlive, hkey⟩ := (equalKeyExists_iff (hl q hq)).1 htest
  exact hk q hlive hkey

private theorem findInBucket_eq (hi : kern.Inv hash) (hp : kern.Live p) (hk : (kern.keys p).1 = k)
    (hbucket : kern.oStart ≤ p) : kern.findInBucket k = p := by
  rw [findInBucket, find?_equalKeyExists hi (fun q hq ↦ (mem_bucket.1 hq).2) hp hk,
    if_pos (mem_bucket.2 ⟨hbucket, hp.1⟩), Option.getD_some]

omit [Inhabited K] [Inhabited V] in
private theorem findInBucket_none (hk : ∀ p, kern.Live p → (kern.keys p).1 ≠ k) :
    kern.findInBucket k = kern.dataSize := by
  rw [findInBucket, find?_equalKeyExists_none (fun q hq ↦ (mem_bucket.1 hq).2) hk,
    Option.getD_none]

/-- `find_rest` finds a key among the probed positions and in the overflow area. -/
theorem findRest_eq (hi : kern.Inv hash) (hp : kern.Live p) (hk : (kern.keys p).1 = k)
    (hplace : p ∈ kern.probed (kern.mapKey hash k) ∨ kern.oStart ≤ p) :
    kern.findRest hash k = p := by
  rw [findRest, find?_equalKeyExists hi (fun q ↦ lt_of_mem_probed) hp hk]
  split
  · rfl
  · next hmem => exact findInBucket_eq hi hp hk (hplace.resolve_left hmem)

omit [Inhabited K] [Inhabited V] in
/-- A key that no live place has is not found by the rest of the search. -/
theorem findRest_none (hk : ∀ p, kern.Live p → (kern.keys p).1 ≠ k) :
    kern.findRest hash k = kern.dataSize := by
  rw [findRest, find?_equalKeyExists_none (fun q ↦ lt_of_mem_probed) hk, Option.getD_none,
    findInBucket_none hk]

omit [DecidableEq K] in
/-- A key that is not where it is mapped to. -/
theorem Inv.elsewhere (hi : kern.Inv hash) (hp : kern.Live p) (hk : (kern.keys p).1 = k)
    (hne : p ≠ kern.mapKey hash k) : kern.overflows (kern.mapKey hash k) = true ∧
      (p ∈ kern.probed (kern.mapKey hash k) ∨ kern.oStart ≤ p) := by
  have hplaced := hi.placed p hp
  rw [hk] at hplaced
  obtain ⟨hoverflows, hplace⟩ := hplaced.resolve_left hne
  exact ⟨hoverflows, hplace.imp_right And.left⟩

omit [DecidableEq K] in
/-- A pair whose key is not the default one is told by its key. -/
theorem Inv.live_of_key (hi : kern.Inv hash) (hp : p < kern.dataSize) (hk : (kern.keys p).1 = k)
    (hne : default ≠ k) : kern.Live p := by
  refine ⟨hp, ?_⟩
  by_contra hfree
  rw [hi.free p hp (Bool.eq_false_iff.2 hfree)] at hk
  exact hne hk

private theorem findNonEmpty_eq (hi : kern.Inv hash) (hne : default ≠ k) (hp : kern.Live p)
    (hk : (kern.keys p).1 = k) : kern.findNonEmpty hash k = p := by
  have hunique : ∀ q < kern.dataSize, (kern.keys q).1 = k → q = p := fun q hq hkey ↦
    hi.injective q p (hi.live_of_key hq hkey hne) hp (hkey.trans hk.symm)
  unfold findNonEmpty
  dsimp only
  split
  · next h => exact hunique _ mapKey_lt h
  · next h =>
    obtain ⟨hoverflows, hplace⟩ := hi.elsewhere hp hk fun heq ↦ h (heq ▸ hk)
    unfold findRestNotEmpty
    split
    · next q hfind =>
      have htest := List.find?_some hfind
      rw [decide_eq_true_iff] at htest
      exact hunique q (lt_of_mem_probed (List.mem_of_find?_eq_some hfind)) htest
    · next hfind =>
      have hnot : p ∉ kern.probed (kern.mapKey hash k) := fun hmem ↦
        List.find?_eq_none.1 hfind p hmem (decide_eq_true hk)
      rw [if_pos hoverflows]
      exact findInBucket_eq hi hp hk (hplace.resolve_left hnot)

private theorem findNonEmpty_none (hi : kern.Inv hash) (hne : default ≠ k)
    (hk : ∀ p, kern.Live p → (kern.keys p).1 ≠ k) : kern.findNonEmpty hash k = kern.dataSize := by
  have hnone : ∀ q < kern.dataSize, (kern.keys q).1 ≠ k := fun q hq hkey ↦
    hk q (hi.live_of_key hq hkey hne) hkey
  unfold findNonEmpty
  dsimp only
  rw [if_neg (hnone _ mapKey_lt)]
  unfold findRestNotEmpty
  split
  · next q hfind =>
    have htest := List.find?_some hfind
    rw [decide_eq_true_iff] at htest
    exact absurd htest (hnone q (lt_of_mem_probed (List.mem_of_find?_eq_some hfind)))
  · split
    · exact findInBucket_none hk
    · rfl

private theorem findEmpty_eq (hi : kern.Inv hash) (hp : kern.Live p) (hk : (kern.keys p).1 = k) :
    kern.findEmpty hash k = p := by
  unfold findEmpty
  dsimp only
  split
  · next h => exact hi.injective _ p ⟨mapKey_lt, h.1⟩ hp (h.2.trans hk.symm)
  · next h =>
    obtain ⟨hoverflows, hplace⟩ := hi.elsewhere hp hk fun heq ↦ h ⟨heq ▸ hp.2, heq ▸ hk⟩
    rw [if_neg fun h ↦ Bool.false_ne_true (h.symm.trans hoverflows), findRest_eq hi hp hk hplace]

omit [Inhabited K] [Inhabited V] in
private theorem findEmpty_none (hk : ∀ p, kern.Live p → (kern.keys p).1 ≠ k) :
    kern.findEmpty hash k = kern.dataSize := by
  unfold findEmpty
  dsimp only
  rw [if_neg fun h ↦ hk _ ⟨mapKey_lt, h.1⟩ h.2]
  split
  · rfl
  · exact findRest_none hk

/-- `find` returns the position of the pair with the key. -/
theorem find_eq (hi : kern.Inv hash) (hp : kern.Live p) (hk : (kern.keys p).1 = k) :
    kern.find hash k = p := by
  unfold find
  split
  · exact findEmpty_eq hi hp hk
  · next hne => exact findNonEmpty_eq hi hne hp hk

/-- `find` returns the end for a key that no pair has. -/
theorem find_none (hi : kern.Inv hash) (hk : ∀ p, kern.Live p → (kern.keys p).1 ≠ k) :
    kern.find hash k = kern.dataSize := by
  unfold find
  split
  · exact findEmpty_none hk
  · next hne => exact findNonEmpty_none hi hne hk

end Find

/-! ### The finite map -/

section Represents

variable [DecidableEq K] {m : Finmap fun _ : K ↦ V}

/-- Erasing a key that a map does not have changes nothing. -/
theorem erase_eq_self (hmem : k ∉ m) : m.erase k = m := by
  refine Finmap.ext_lookup fun k' ↦ ?_
  by_cases heq : k' = k
  · rw [heq, Finmap.lookup_erase, Finmap.lookup_eq_none.2 hmem]
  · rw [Finmap.lookup_erase_ne heq]

/-- Inserting a pair that a map has changes nothing. -/
theorem insert_eq_self {v : V} (h : m.lookup k = some v) : m.insert k v = m := by
  refine Finmap.ext_lookup fun k' ↦ ?_
  by_cases heq : k' = k
  · rw [heq, Finmap.lookup_insert, h]
  · rw [Finmap.lookup_insert_of_ne _ heq]

/-- A key of the map has a live place. -/
theorem Represents.exists_live (hr : kern.Represents m) (hmem : k ∈ m) :
    ∃ p, kern.Live p ∧ (kern.keys p).1 = k := by
  obtain ⟨v, hv⟩ := Finmap.mem_iff.1 hmem
  obtain ⟨p, hp, hkey⟩ := (hr k v).1 hv
  exact ⟨p, hp, by rw [hkey]⟩

private theorem Represents.mem (hr : kern.Represents m) (hp : kern.Live p) : (kern.keys p).1 ∈ m :=
  Finmap.mem_of_lookup_eq_some ((hr _ _).2 ⟨p, hp, rfl⟩)

/-- What the place of a key holds is its value in the map. -/
theorem Represents.lookup (hr : kern.Represents m) (hp : kern.Live p)
    (hk : (kern.keys p).1 = k) : m.lookup k = some (kern.keys p).2 :=
  (hr _ _).2 ⟨p, hp, Prod.ext hk rfl⟩

/-- A key that the map does not have has no live place. -/
theorem Represents.absent (hr : kern.Represents m) (hmem : k ∉ m) :
    ∀ p, kern.Live p → (kern.keys p).1 ≠ k :=
  fun _ hp hkey ↦ hmem (hkey ▸ hr.mem hp)

variable [Inhabited K] [Inhabited V]

/-- `get` answers as the map does. -/
theorem get_spec (hi : kern.Inv hash) (hr : kern.Represents m) : kern.get hash k = m.lookup k := by
  unfold get
  by_cases hmem : k ∈ m
  · obtain ⟨p, hp, hk⟩ := hr.exists_live hmem
    rw [find_eq hi hp hk, if_neg hp.1.ne, hr.lookup hp hk]
  · rw [find_none hi (hr.absent hmem), if_pos rfl, Finmap.lookup_eq_none.2 hmem]

/-- `count` answers as the map does. -/
theorem count_spec (hi : kern.Inv hash) (hr : kern.Represents m) :
    kern.count hash k = if k ∈ m then 1 else 0 := by
  unfold count
  by_cases hmem : k ∈ m
  · obtain ⟨p, hp, hk⟩ := hr.exists_live hmem
    rw [find_eq hi hp hk, if_neg hp.1.ne, if_pos hmem]
  · rw [find_none hi (hr.absent hmem), if_pos rfl, if_neg hmem]

/-- As many pairs are counted as the map has keys. -/
theorem Inv.elements_eq (hi : kern.Inv hash) (hr : kern.Represents m) :
    kern.elements = m.keys.card := by
  have hkeys : m.keys =
      ((Finset.range kern.dataSize).filter fun p ↦ kern.exists_ p).image fun p ↦
        (kern.keys p).1 := by
    ext k
    rw [Finmap.mem_keys, Finset.mem_image]
    constructor
    · intro hmem
      obtain ⟨p, hp, hk⟩ := hr.exists_live hmem
      exact ⟨p, Finset.mem_filter.2 ⟨Finset.mem_range.2 hp.1, hp.2⟩, hk⟩
    · rintro ⟨p, hp, rfl⟩
      obtain ⟨hlt, hexists⟩ := Finset.mem_filter.1 hp
      exact hr.mem ⟨Finset.mem_range.1 hlt, hexists⟩
  rw [hi.elements, hkeys, Finset.card_image_of_injOn]
  intro p hp q hq hkey
  have hlive {p : ℕ} (hp : p ∈ (Finset.range kern.dataSize).filter fun p ↦ kern.exists_ p) :
      kern.Live p :=
    ⟨Finset.mem_range.1 (Finset.mem_filter.1 hp).1, (Finset.mem_filter.1 hp).2⟩
  exact hi.injective p q (hlive hp) (hlive hq) hkey

end Represents

end LibSpaces.Rabbit.Kernel
