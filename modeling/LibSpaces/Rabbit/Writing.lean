import LibSpaces.Rabbit.Placement

/-!
# Writing to a kernel

A pair takes a free position, a pair leaves its position, a value is overwritten: each of these
keeps the invariant and does to the finite map what it is meant to. `subscript` and `erase` are
series of them.
-/

namespace LibSpaces.Rabbit.Kernel

open LibSpaces.Base

variable {K V : Type} {kern kern' : Kernel K V} {hash : K → UInt64} {k : K} {p q : ℕ}

/-- The keys are mapped alike, to as many positions. -/
structure SameTable (kern kern' : Kernel K V) : Prop where
  primaryBits : kern'.primaryBits = kern.primaryBits
  initialProbes : kern'.initialProbes = kern.initialProbes
  randProbes : kern'.randProbes = kern.randProbes
  overflow : kern'.overflow = kern.overflow

/-- A table has its own extents. -/
theorem SameTable.refl (kern : Kernel K V) : SameTable kern kern := ⟨rfl, rfl, rfl, rfl⟩

/-- The same table has the same extent. -/
theorem SameTable.extent (h : SameTable kern kern') : kern'.extent = kern.extent := by
  rw [Kernel.extent, Kernel.extent, h.primaryBits]

private theorem SameTable.oStart (h : SameTable kern kern') : kern'.oStart = kern.oStart := by
  rw [Kernel.oStart, Kernel.oStart, h.extent, h.initialProbes]

/-- The same table has the same number of places. -/
theorem SameTable.dataSize (h : SameTable kern kern') : kern'.dataSize = kern.dataSize := by
  rw [Kernel.dataSize, Kernel.dataSize, h.extent, h.initialProbes, h.overflow]

private theorem SameTable.mapKey (h : SameTable kern kern') :
    kern'.mapKey hash k = kern.mapKey hash k := by
  unfold Kernel.mapKey mapHash randomize
  rw [h.randProbes, h.extent, h.primaryBits]

/-- The relation is transitive. -/
theorem SameTable.trans {kern'' : Kernel K V} (h : SameTable kern kern')
    (h' : SameTable kern' kern'') : SameTable kern kern'' :=
  ⟨h'.primaryBits.trans h.primaryBits, h'.initialProbes.trans h.initialProbes,
    h'.randProbes.trans h.randProbes, h'.overflow.trans h.overflow⟩

/-- Nothing but bits of the segments differs. -/
structure OnlyBits (kern kern' : Kernel K V) : Prop where
  table : SameTable kern kern'
  keys : kern'.keys = kern.keys
  probes : kern'.probes = kern.probes
  overflowElements : kern'.overflowElements = kern.overflowElements
  elements : kern'.elements = kern.elements
  removed : kern'.removed = kern.removed

private theorem OnlyBits.trans {kern'' : Kernel K V} (h : OnlyBits kern kern')
    (h' : OnlyBits kern' kern'') : OnlyBits kern kern'' :=
  ⟨h.table.trans h'.table, h'.keys.trans h.keys, h'.probes.trans h.probes,
    h'.overflowElements.trans h.overflowElements, h'.elements.trans h.elements,
    h'.removed.trans h.removed⟩

private theorem onlyBits_setExists (kern : Kernel K V) (p : ℕ) (f : Bool) :
    OnlyBits kern (kern.setExists p f) := ⟨⟨rfl, rfl, rfl, rfl⟩, rfl, rfl, rfl, rfl, rfl⟩

private theorem onlyBits_toggleExists (kern : Kernel K V) (p : ℕ) :
    OnlyBits kern (kern.toggleExists p) :=
  ⟨⟨rfl, rfl, rfl, rfl⟩, rfl, rfl, rfl, rfl, rfl⟩

private theorem onlyBits_setOverflows (kern : Kernel K V) (p : ℕ) (f : Bool) :
    OnlyBits kern (kern.setOverflows p f) := ⟨⟨rfl, rfl, rfl, rfl⟩, rfl, rfl, rfl, rfl, rfl⟩

private theorem sameTable_occupy (kern : Kernel K V) (k : K) (p : ℕ) :
    SameTable kern (kern.occupy k p) :=
  ⟨rfl, rfl, rfl, rfl⟩

/-- A pair with the key takes the free position `p`. -/
structure Occupies (hash : K → UInt64) (kern kern' : Kernel K V) (k : K) (p : ℕ) : Prop where
  table : SameTable kern kern'
  lt : p < kern.dataSize
  free : kern.exists_ p = false
  exists_ : ∀ q, kern'.exists_ q = if q = p then true else kern.exists_ q
  overflows : ∀ q, kern.overflows q = true → kern'.overflows q = true
  keys : kern'.keys = Function.update kern.keys p (k, (kern.keys p).2)
  probes : kern.probes ≤ kern'.probes
  le_overflowElements : kern.overflowElements ≤ kern'.overflowElements
  overflowElements_le : kern'.overflowElements ≤ kern.overflowElements + 1
  overflowElements_le_dataSize : kern'.overflowElements ≤ kern.dataSize
  lt_overflowElements : p < kern'.overflowElements
  elements : kern'.elements = kern.elements + 1
  removed : kern'.removed = kern.removed
  placed : kern'.Placed hash k p
  probes_le : kern'.probes ≤ 2 ^ (kern'.overflowElements - kern'.oStart)

/-- The pair at `p` leaves. -/
structure Vacates [Inhabited K] [Inhabited V] (kern kern' : Kernel K V) (p : ℕ) : Prop where
  table : SameTable kern kern'
  live : kern.Live p
  exists_ : ∀ q, kern'.exists_ q = if q = p then false else kern.exists_ q
  overflows : ∀ q, kern'.overflows q = kern.overflows q
  keys : kern'.keys = Function.update kern.keys p default
  probes : kern'.probes = kern.probes
  overflowElements : kern'.overflowElements = kern.overflowElements
  elements : kern'.elements = kern.elements - 1
  removed : kern'.removed = kern.removed + 1

private theorem live_iff_exists : kern.Live p ↔ p < kern.dataSize ∧ kern.exists_ p = true := Iff.rfl

/-- A position stays one of those at which `find` looks. -/
theorem Placed.mono (h : kern.Placed hash k p) (htable : SameTable kern kern')
    (hoverflows : ∀ q, kern.overflows q = true → kern'.overflows q = true)
    (hprobes : kern.probes ≤ kern'.probes)
    (hle : kern.overflowElements ≤ kern'.overflowElements) : kern'.Placed hash k p := by
  unfold Placed at h ⊢
  rw [htable.mapKey, htable.oStart]
  refine h.imp_right fun ⟨ho, hplace⟩ ↦ ⟨hoverflows _ ho, hplace.imp ?_ fun hb ↦ ⟨hb.1, ?_⟩⟩
  · rw [mem_probed, mem_probed, htable.extent]
    omega
  · exact hb.2.trans_le hle

/-! ### Taking a position -/

namespace Occupies

private theorem live_iff (h : Occupies hash kern kern' k p) :
    kern'.Live q ↔ q = p ∨ kern.Live q := by
  rw [live_iff_exists, live_iff_exists, h.table.dataSize, h.exists_]
  by_cases hq : q = p
  · simp [hq, h.lt]
  · simp [hq]

/-- The occupied place is live. -/
theorem live (h : Occupies hash kern kern' k p) : kern'.Live p := h.live_iff.2 (.inl rfl)

/-- The occupied place has the key, and the value that was there. -/
theorem keys_self (h : Occupies hash kern kern' k p) : kern'.keys p = (k, (kern.keys p).2) := by
  rw [h.keys, Function.update_self]

private theorem keys_ne (h : Occupies hash kern kern' k p) (hq : q ≠ p) :
    kern'.keys q = kern.keys q := by
  rw [h.keys, Function.update_of_ne hq]

private theorem ne_of_live (h : Occupies hash kern kern' k p) (hq : kern.Live q) : q ≠ p := by
  rintro rfl
  exact Bool.false_ne_true (h.free.symm.trans hq.2)

variable [Inhabited K] [Inhabited V]

/-- Occupying a place for a new key keeps the invariant. -/
theorem inv (h : Occupies hash kern kern' k p) (hi : kern.Inv hash)
    (hk : ∀ q, kern.Live q → (kern.keys q).1 ≠ k) : kern'.Inv hash where
  oStart_le := h.table.oStart ▸ hi.oStart_le.trans h.le_overflowElements
  overflowElements_le := h.table.dataSize ▸ h.overflowElements_le_dataSize
  sentinel := by
    rw [h.table.dataSize, h.exists_, if_neg h.lt.ne', hi.sentinel]
  unused q hle hlt := by
    rw [h.table.dataSize] at hlt
    rw [h.exists_, if_neg (h.lt_overflowElements.trans_le hle).ne']
    exact hi.unused q (h.le_overflowElements.trans hle) hlt
  free q hlt hexists := by
    rw [h.table.dataSize] at hlt
    rw [h.exists_] at hexists
    by_cases hq : q = p
    · rw [if_pos hq] at hexists
      exact absurd hexists.symm Bool.false_ne_true
    · rw [if_neg hq] at hexists
      rw [h.keys_ne hq]
      exact hi.free q hlt hexists
  placed q hq := by
    rcases h.live_iff.1 hq with rfl | hq
    · rw [h.keys_self]
      exact h.placed
    · rw [h.keys_ne (h.ne_of_live hq)]
      exact (hi.placed q hq).mono h.table h.overflows h.probes h.le_overflowElements
  injective q r hq hr hkey := by
    rcases h.live_iff.1 hq with rfl | hq <;> rcases h.live_iff.1 hr with rfl | hr
    · rfl
    · rw [h.keys_self, h.keys_ne (h.ne_of_live hr)] at hkey
      exact absurd hkey.symm (hk r hr)
    · rw [h.keys_self, h.keys_ne (h.ne_of_live hq)] at hkey
      exact absurd hkey (hk q hq)
    · rw [h.keys_ne (h.ne_of_live hq), h.keys_ne (h.ne_of_live hr)] at hkey
      exact hi.injective q r hq hr hkey
  elements := by
    have hinsert : ((Finset.range kern.dataSize).filter fun q ↦ kern'.exists_ q) =
        insert p ((Finset.range kern.dataSize).filter fun q ↦ kern.exists_ q) := by
      ext q
      rw [Finset.mem_filter, Finset.mem_insert, Finset.mem_filter, Finset.mem_range, h.exists_]
      by_cases hq : q = p
      · simp [hq, h.lt]
      · simp [hq]
    have hnot : p ∉ (Finset.range kern.dataSize).filter fun q ↦ kern.exists_ q := fun hmem ↦
      Bool.false_ne_true (h.free.symm.trans (Finset.mem_filter.1 hmem).2)
    rw [h.elements, h.table.dataSize, hinsert, Finset.card_insert_of_notMem hnot, hi.elements]
  used := by
    have := h.overflowElements_le
    have := hi.used
    rw [h.table.oStart, h.elements, h.removed]
    omega
  probes_le := h.probes_le
  large := h.table.extent ▸ h.table.overflow ▸ hi.large

/-- The new key is in the map with the default value once its place is occupied. -/
theorem represents [DecidableEq K] {m : Finmap fun _ : K ↦ V} (h : Occupies hash kern kern' k p)
    (hi : kern.Inv hash) (hr : kern.Represents m) (hmem : k ∉ m) :
    kern'.Represents (m.insert k default) := by
  intro k' v
  have hself : kern'.keys p = (k, default) := by
    rw [h.keys_self, hi.free p h.lt h.free]
    rfl
  by_cases hk : k' = k
  · subst hk
    rw [Finmap.lookup_insert, Option.some.injEq]
    constructor
    · rintro rfl
      exact ⟨p, h.live, hself⟩
    · rintro ⟨q, hq, hkeys⟩
      rcases h.live_iff.1 hq with rfl | hq
      · exact (Prod.ext_iff.1 (hself.symm.trans hkeys)).2
      · rw [h.keys_ne (h.ne_of_live hq)] at hkeys
        exact absurd (by rw [hkeys]) (hr.absent hmem q hq)
  · rw [Finmap.lookup_insert_of_ne _ hk, hr k' v]
    constructor
    · rintro ⟨q, hq, hkeys⟩
      exact ⟨q, h.live_iff.2 (.inr hq), (h.keys_ne (h.ne_of_live hq)).trans hkeys⟩
    · rintro ⟨q, hq, hkeys⟩
      rcases h.live_iff.1 hq with rfl | hq
      · exact absurd (Prod.ext_iff.1 (hself.symm.trans hkeys)).1.symm hk
      · exact ⟨q, hq, (h.keys_ne (h.ne_of_live hq)).symm.trans hkeys⟩

end Occupies

/-! ### Leaving a position -/

namespace Vacates

variable [Inhabited K] [Inhabited V]

private theorem live_iff (h : Vacates kern kern' p) : kern'.Live q ↔ q ≠ p ∧ kern.Live q := by
  rw [live_iff_exists, live_iff_exists, h.table.dataSize, h.exists_]
  by_cases hq : q = p <;> simp [hq]

/-- The other places keep their pairs. -/
theorem keys_ne (h : Vacates kern kern' p) (hq : q ≠ p) : kern'.keys q = kern.keys q := by
  rw [h.keys, Function.update_of_ne hq]

/-- Vacating a live place keeps the invariant. -/
theorem inv (h : Vacates kern kern' p) (hi : kern.Inv hash) : kern'.Inv hash where
  oStart_le := by
    rw [h.table.oStart, h.overflowElements]
    exact hi.oStart_le
  overflowElements_le := by
    rw [h.table.dataSize, h.overflowElements]
    exact hi.overflowElements_le
  sentinel := by
    rw [h.table.dataSize, h.exists_, if_neg h.live.1.ne', hi.sentinel]
  unused q hle hlt := by
    rw [h.table.dataSize] at hlt
    rw [h.overflowElements] at hle
    rw [h.exists_]
    split
    · rfl
    · exact hi.unused q hle hlt
  free q hlt hexists := by
    rw [h.table.dataSize] at hlt
    by_cases hq : q = p
    · rw [h.keys, hq, Function.update_self]
    · rw [h.exists_, if_neg hq] at hexists
      rw [h.keys_ne hq]
      exact hi.free q hlt hexists
  placed q hq := by
    obtain ⟨hne, hq⟩ := h.live_iff.1 hq
    rw [h.keys_ne hne]
    exact (hi.placed q hq).mono h.table (fun r hr ↦ (h.overflows r).trans hr) h.probes.ge
      h.overflowElements.ge
  injective q r hq hr hkey := by
    obtain ⟨hne, hq⟩ := h.live_iff.1 hq
    obtain ⟨hne', hr⟩ := h.live_iff.1 hr
    rw [h.keys_ne hne, h.keys_ne hne'] at hkey
    exact hi.injective q r hq hr hkey
  elements := by
    have herase : ((Finset.range kern.dataSize).filter fun q ↦ kern'.exists_ q) =
        ((Finset.range kern.dataSize).filter fun q ↦ kern.exists_ q).erase p := by
      ext q
      rw [Finset.mem_filter, Finset.mem_erase, Finset.mem_filter, Finset.mem_range, h.exists_]
      by_cases hq : q = p <;> simp [hq]
    have hmem : p ∈ (Finset.range kern.dataSize).filter fun q ↦ kern.exists_ q :=
      Finset.mem_filter.2 ⟨Finset.mem_range.2 h.live.1, h.live.2⟩
    rw [h.elements, h.table.dataSize, herase, Finset.card_erase_of_mem hmem, hi.elements]
  used := by
    have := hi.used
    rw [h.table.oStart, h.overflowElements, h.elements, h.removed]
    omega
  probes_le := by
    rw [h.probes, h.table.oStart, h.overflowElements]
    exact hi.probes_le
  large := h.table.extent ▸ h.table.overflow ▸ hi.large

/-- The key of a vacated place is no longer in the map. -/
theorem represents [DecidableEq K] {m : Finmap fun _ : K ↦ V} (h : Vacates kern kern' p)
    (hi : kern.Inv hash) (hr : kern.Represents m) :
    kern'.Represents (m.erase (kern.keys p).1) := by
  intro k v
  by_cases hk : k = (kern.keys p).1
  · rw [hk, Finmap.lookup_erase]
    refine iff_of_false (fun hnone ↦ by cases hnone) ?_
    rintro ⟨q, hq, hkeys⟩
    obtain ⟨hne, hq⟩ := h.live_iff.1 hq
    rw [h.keys_ne hne] at hkeys
    exact hne (hi.injective q p hq h.live (by rw [hkeys]))
  · rw [Finmap.lookup_erase_ne hk, hr k v]
    constructor
    · rintro ⟨q, hq, hkeys⟩
      have hne : q ≠ p := fun heq ↦ hk (by rw [← heq, hkeys])
      exact ⟨q, h.live_iff.2 ⟨hne, hq⟩, (h.keys_ne hne).trans hkeys⟩
    · rintro ⟨q, hq, hkeys⟩
      obtain ⟨hne, hq⟩ := h.live_iff.1 hq
      exact ⟨q, hq, (h.keys_ne hne).symm.trans hkeys⟩

end Vacates

/-! ### Overwriting -/

private theorem keys_setValue (v : V) :
    (kern.setValue p v).keys q = if q = p then ((kern.keys p).1, v) else kern.keys q :=
  Function.update_apply _ _ _ _

private theorem fst_keys_setValue (v : V) : ((kern.setValue p v).keys q).1 = (kern.keys q).1 := by
  rw [keys_setValue]
  split
  · next h => rw [h]
  · rfl

variable [Inhabited K] [Inhabited V]

/-- Writing a value to a live place keeps the invariant. -/
theorem Inv.setValue (hi : kern.Inv hash) (hp : kern.Live p) (v : V) :
    (kern.setValue p v).Inv hash where
  oStart_le := hi.oStart_le
  overflowElements_le := hi.overflowElements_le
  sentinel := hi.sentinel
  unused := hi.unused
  free q hlt hexists := by
    rw [keys_setValue, if_neg fun heq : q = p ↦
      Bool.false_ne_true (hexists.symm.trans (heq ▸ hp.2))]
    exact hi.free q hlt hexists
  placed q hq := by
    rw [fst_keys_setValue]
    exact hi.placed q hq
  injective q r hq hr hkey := by
    rw [fst_keys_setValue, fst_keys_setValue] at hkey
    exact hi.injective q r hq hr hkey
  elements := hi.elements
  used := hi.used
  probes_le := hi.probes_le
  large := hi.large

/-- The key of the place has the written value. -/
theorem Represents.setValue [DecidableEq K] {m : Finmap fun _ : K ↦ V} (hr : kern.Represents m)
    (hi : kern.Inv hash) (hp : kern.Live p) (v : V) :
    (kern.setValue p v).Represents (m.insert (kern.keys p).1 v) := by
  intro k w
  by_cases hk : k = (kern.keys p).1
  · rw [hk, Finmap.lookup_insert, Option.some.injEq]
    constructor
    · rintro rfl
      exact ⟨p, hp, by rw [keys_setValue, if_pos rfl]⟩
    · rintro ⟨q, hq, hkeys⟩
      have hfst : ((kern.setValue p v).keys q).1 = (kern.keys q).1 := fst_keys_setValue v
      rw [hkeys] at hfst
      have heq : q = p := hi.injective q p hq hp hfst.symm
      rw [heq, keys_setValue, if_pos rfl] at hkeys
      exact (Prod.ext_iff.1 hkeys).2
  · rw [Finmap.lookup_insert_of_ne _ hk, hr k w]
    refine exists_congr fun q ↦ and_congr_right fun _ ↦ ?_
    rw [keys_setValue]
    split
    · next heq =>
      rw [heq]
      exact iff_of_false (fun h ↦ hk (by rw [h])) fun h ↦ hk (Prod.ext_iff.1 h).1.symm
    · rfl

/-! ### `subscript` -/

private theorem Inv.mapKey_lt_overflowElements (hi : kern.Inv hash) :
    kern.mapKey hash k < kern.overflowElements :=
  (mapHash_lt _).trans_le (extent_le_oStart.trans hi.oStart_le)

omit [Inhabited K] [Inhabited V] in
/-- A new pair is at a position where `find` looks. -/
theorem SameTable.placed (h : SameTable kern kern') {origin : ℕ}
    (horigin : kern.mapKey hash k = origin) (ho : kern'.overflows origin = true)
    (hprobes : kern.probes ≤ kern'.probes)
    (hplace : p ∈ kern.probed origin ∨ kern.oStart ≤ p ∧ p < kern'.overflowElements) :
    kern'.Placed hash k p := by
  unfold Placed
  rw [h.mapKey, h.oStart, horigin]
  refine .inr ⟨ho, hplace.imp_left fun hp ↦ ?_⟩
  rw [mem_probed, h.extent]
  obtain ⟨hle, hlt, hextent⟩ := mem_probed.1 hp
  exact ⟨hle, hlt.trans_le (Nat.add_le_add_left hprobes _), hextent⟩

/-- A key goes to a position inside the extent or to one of the overflow area that is used
already. -/
theorem OnlyBits.occupies (h : OnlyBits kern kern') (hi : kern.Inv hash)
    (hp : p < kern.overflowElements) (hfree : kern.exists_ p = false)
    (hexists : ∀ q, kern'.exists_ q = if q = p then true else kern.exists_ q)
    (hoverflows : ∀ q, kern.overflows q = true → kern'.overflows q = true)
    (hplaced : (kern'.occupy k p).Placed hash k p) :
    Occupies hash kern (kern'.occupy k p) k p where
  table := h.table.trans (sameTable_occupy kern' k p)
  lt := hp.trans_le hi.overflowElements_le
  free := hfree
  exists_ := hexists
  overflows := hoverflows
  keys := by
    rw [← h.keys]
    rfl
  probes := h.probes.ge
  le_overflowElements := h.overflowElements.ge
  overflowElements_le := h.overflowElements.le.trans (Nat.le_succ _)
  overflowElements_le_dataSize := h.overflowElements.le.trans hi.overflowElements_le
  lt_overflowElements := hp.trans_le h.overflowElements.ge
  elements := congrArg (· + 1) h.elements
  removed := h.removed
  placed := hplaced
  probes_le := by
    have hsame := h.table.oStart
    have hle := hi.probes_le
    rw [← h.probes, ← h.overflowElements, ← hsame] at hle
    exact hle

/-- A key goes to the position it is mapped to. -/
theorem occupies_mapped (hi : kern.Inv hash) {origin : ℕ} (horigin : kern.mapKey hash k = origin)
    (hfree : kern.exists_ origin = false) :
    Occupies hash kern ((kern.toggleExists origin).occupy k origin) k origin := by
  have hbits := onlyBits_toggleExists kern origin
  refine hbits.occupies hi (horigin ▸ hi.mapKey_lt_overflowElements) hfree (fun q ↦ ?_)
    (fun q hq ↦ overflows_toggleExists.trans hq) (.inl ?_)
  · rw [exists_toggleExists, hfree, Bool.not_false]
  · rw [(hbits.table.trans (sameTable_occupy _ k origin)).mapKey, horigin]

/-- A key goes to a probed position. -/
theorem occupies_probed (hi : kern.Inv hash) {origin : ℕ} (horigin : kern.mapKey hash k = origin)
    (hp : p ∈ kern.probed origin) (hfree : kern.exists_ p = false) :
    Occupies hash kern (((kern.toggleExists p).setOverflows origin true).occupy k p) k p := by
  have hbits := (onlyBits_toggleExists kern p).trans (onlyBits_setOverflows _ origin true)
  have hlt : p < kern.overflowElements :=
    (mem_probed.1 hp).2.2.trans_le (extent_le_oStart.trans hi.oStart_le)
  have htable := hbits.table.trans (sameTable_occupy _ k p)
  refine hbits.occupies hi hlt hfree (fun q ↦ ?_) (fun q hq ↦ ?_)
    (htable.placed horigin ?_ hbits.probes.ge (.inl hp))
  · rw [exists_setOverflows, exists_toggleExists, hfree, Bool.not_false]
  · rw [overflows_setOverflows, overflows_toggleExists]
    split
    · rfl
    · exact hq
  · rw [overflows_occupy, overflows_setOverflows, if_pos rfl]

/-- The first free position of the overflow area is the one behind those used so far. -/
theorem Inv.find?_free (hi : kern.Inv hash) :
    (List.range' kern.overflowElements (kern.dataSize - kern.overflowElements)).find?
        (fun pos ↦ !kern.exists_ pos) =
      if kern.overflowElements < kern.dataSize then some kern.overflowElements else none := by
  split
  · next hlt =>
    obtain ⟨n, hn⟩ := Nat.exists_eq_add_of_lt hlt
    have hsize : kern.dataSize - kern.overflowElements = n + 1 := by omega
    rw [hsize, List.range'_succ, List.find?_cons_of_pos]
    rw [hi.unused _ le_rfl hlt, Bool.not_false]
  · next hge =>
    have hsize : kern.dataSize - kern.overflowElements = 0 := by omega
    rw [hsize]
    rfl

/-- A call did not return because the probes of a large table became too many. -/
def Lost {α : Type} (result : Except Failure α) : Prop :=
  ∃ extent, result = .error (.lostProbes extent) ∧ 2 ^ 22 ≤ extent

/-- Nothing follows a loss. -/
theorem Lost.bind {α β : Type} {result : Except Failure α} (h : Lost result)
    (next : α → Except Failure β) : Lost (result.bind next) := by
  obtain ⟨extent, rfl, hle⟩ := h
  exact ⟨extent, rfl, hle⟩

/-- What the use of a position of the overflow area changes. -/
structure UsesOverflow (kern kern' : Kernel K V) : Prop where
  table : SameTable kern kern'
  keys : kern'.keys = kern.keys
  clusters : kern'.clusters = kern.clusters
  probes : kern.probes ≤ kern'.probes
  overflowElements : kern'.overflowElements = kern.overflowElements + 1
  elements : kern'.elements = kern.elements
  removed : kern'.removed = kern.removed
  probes_le : kern'.probes ≤ 2 ^ (kern'.overflowElements - kern.oStart)

omit [Inhabited K] [Inhabited V] in
private theorem le_moreProbes (tests : LoadTests) : kern.probes ≤ kern.moreProbes tests := by
  unfold moreProbes
  rw [Nat.shiftLeft_eq]
  split
  · split <;> omega
  · exact le_rfl

omit [Inhabited K] [Inhabited V] in
private theorem moreProbes_le (tests : LoadTests) {n : ℕ} (h : kern.probes ≤ 2 ^ n) :
    kern.moreProbes tests ≤ 2 ^ (n + 1) := by
  have hpos : 0 < 2 ^ n := Nat.two_pow_pos n
  unfold moreProbes
  rw [Nat.shiftLeft_eq, Nat.pow_succ]
  split
  · split <;> omega
  · omega

/-- A position of the overflow area is used, unless the probes of a large table become too many. -/
theorem useOverflow_spec (tests : LoadTests) (hi : kern.Inv hash)
    (hlt : kern.overflowElements < kern.dataSize) :
    Lost (kern.useOverflow tests) ∨
      ∃ kern', kern.useOverflow tests = .ok kern' ∧ UsesOverflow kern kern' := by
  have hle := moreProbes_le tests hi.probes_le
  have hstart := hi.oStart_le
  unfold useOverflow
  split
  · next hlost =>
    refine .inl ⟨_, rfl, ?_⟩
    rcases hlost with hwrap | ⟨hextent, -⟩
    · have hbits := (Nat.pow_le_pow_iff_right Nat.one_lt_two).1 (hwrap.trans hle)
      apply hi.large
      unfold dataSize at hlt
      unfold oStart at hbits hstart
      omega
    · exact (Nat.pow_le_pow_right Nat.two_pos (by decide)).trans hextent.le
  · refine .inr ⟨_, rfl, ⟨rfl, rfl, rfl, rfl⟩, rfl, rfl, le_moreProbes tests, rfl, rfl, rfl,
      hle.trans_eq ?_⟩
    exact congrArg (2 ^ ·) (Nat.succ_sub hstart).symm

/-- A key goes to the overflow area, as long as there is a position in it. -/
theorem subscriptBucket_spec (tests : LoadTests) (hi : kern.Inv hash) {origin : ℕ}
    (horigin : kern.mapKey hash k = origin) :
    Lost (kern.subscriptBucket tests k origin) ∨
    (kern.overflowElements = kern.dataSize ∧ kern.subscriptBucket tests k origin = .ok none) ∨
      ∃ kern', kern.subscriptBucket tests k origin = .ok (some (kern.overflowElements, kern')) ∧
        Occupies hash kern kern' k kern.overflowElements := by
  unfold subscriptBucket
  rw [hi.find?_free]
  by_cases hlt : kern.overflowElements < kern.dataSize
  · rw [if_pos hlt]
    dsimp only
    rcases useOverflow_spec tests hi hlt with hlost | ⟨use, huse, huses⟩
    · exact .inl (hlost.bind _)
    rw [huse]
    refine .inr (.inr ⟨_, rfl, ?_⟩)
    have hbits := (onlyBits_setOverflows use origin true).trans
      (onlyBits_setExists _ kern.overflowElements true)
    generalize hmid : (use.setOverflows origin true).setExists kern.overflowElements true = mid
      at hbits ⊢
    have htable : SameTable kern (mid.occupy k kern.overflowElements) :=
      (huses.table.trans hbits.table).trans (sameTable_occupy _ _ _)
    have hused : mid.overflowElements = kern.overflowElements + 1 :=
      hbits.overflowElements.trans huses.overflowElements
    have hsegment (q : ℕ) : use.segment q = kern.segment q := congrFun huses.clusters _
    have hoverflows (q : ℕ) : (mid.occupy k kern.overflowElements).overflows q =
        if q = origin then true else kern.overflows q := by
      rw [overflows_occupy, ← hmid, overflows_setExists, overflows_setOverflows]
      unfold overflows
      rw [hsegment]
    exact
      { table := htable
        lt := hlt
        free := hi.unused _ le_rfl hlt
        exists_ := fun q ↦ by
          rw [exists_occupy, ← hmid, exists_setExists, exists_setOverflows]
          unfold Kernel.exists_
          rw [hsegment]
        overflows := fun q hq ↦ by
          rw [hoverflows]
          split
          · rfl
          · exact hq
        keys := by
          show Function.update mid.keys _ (k, (mid.keys _).2) = _
          rw [hbits.keys, huses.keys]
        probes := huses.probes.trans hbits.probes.ge
        le_overflowElements := (Nat.le_succ _).trans hused.ge
        overflowElements_le := hused.le
        overflowElements_le_dataSize := hused.trans_le hlt
        lt_overflowElements := (Nat.lt_succ_self _).trans_eq hused.symm
        elements := congrArg (· + 1) (hbits.elements.trans huses.elements)
        removed := hbits.removed.trans huses.removed
        placed := htable.placed horigin ((hoverflows _).trans (if_pos rfl))
          (huses.probes.trans hbits.probes.ge)
          (.inr ⟨hi.oStart_le, (Nat.lt_succ_self _).trans_eq hused.symm⟩)
        probes_le := by
          rw [htable.oStart]
          exact hbits.probes.trans_le
            (huses.probes_le.trans_eq (by rw [← hbits.overflowElements]; rfl)) }
  · rw [if_neg hlt]
    exact .inr (.inl ⟨le_antisymm hi.overflowElements_le (Nat.le_of_not_lt hlt), rfl⟩)

section Subscript

variable [DecidableEq K] {m : Finmap fun _ : K ↦ V}

/-- What `subscript` does with a key that is absent: it takes a position unless the overflow area is
used up or the probes of a large table become too many. -/
theorem subscript_of_absent (tests : LoadTests) (hi : kern.Inv hash)
    (hk : ∀ q, kern.Live q → (kern.keys q).1 ≠ k) :
    Lost (kern.subscript hash tests k) ∨
    (kern.overflowElements = kern.dataSize ∧ kern.subscript hash tests k = .ok none) ∨
      ∃ p kern', kern.subscript hash tests k = .ok (some (p, kern')) ∧
        Occupies hash kern kern' k p := by
  unfold subscript
  dsimp only
  rw [findRest_none hk]
  split
  · next h => exact .inr (.inr ⟨_, _, rfl, occupies_mapped hi rfl h.1⟩)
  rw [if_neg fun h ↦ hk _ ⟨mapKey_lt, h.1⟩ h.2, if_neg fun h ↦ h.2 rfl]
  unfold subscriptRest
  split
  · next p hfind =>
    have hfree := List.find?_some hfind
    rw [Bool.not_eq_true'] at hfree
    exact .inr (.inr ⟨_, _, rfl, occupies_probed hi rfl (List.mem_of_find?_eq_some hfind) hfree⟩)
  · have hbucket := subscriptBucket_spec tests hi (Eq.refl (kern.mapKey hash k))
    rcases hbucket with hlost | h | ⟨kern', h, ho⟩
    · exact .inl hlost
    · exact .inr (.inl h)
    · exact .inr (.inr ⟨_, kern', h, ho⟩)

/-- `subscript` returns the pair with a key that is present. -/
theorem subscript_of_live (tests : LoadTests) (hi : kern.Inv hash) (hp : kern.Live p)
    (hk : (kern.keys p).1 = k) : kern.subscript hash tests k = .ok (some (p, kern)) := by
  unfold subscript
  dsimp only
  by_cases hmapped : p = kern.mapKey hash k
  · rw [← hmapped, if_neg fun h ↦ Bool.false_ne_true (h.1.symm.trans hp.2), if_pos ⟨hp.2, hk⟩]
  · obtain ⟨hoverflows, hplace⟩ := hi.elsewhere hp hk hmapped
    rw [if_neg fun h ↦ Bool.false_ne_true (h.2.symm.trans hoverflows),
      if_neg fun h ↦ hmapped (hi.injective _ p ⟨mapKey_lt, h.1⟩ hp (h.2.trans hk.symm)).symm,
      findRest_eq hi hp hk hplace, if_pos ⟨hoverflows, hp.1.ne⟩]

/-- `subscript` leaves a pair with the key, with the default value where it is new; it fails only
when the key is new and the overflow area used up, or in a large table. -/
theorem subscript_spec (tests : LoadTests) (hi : kern.Inv hash) (hr : kern.Represents m) :
    Lost (kern.subscript hash tests k) ∨
    (kern.overflowElements = kern.dataSize ∧ k ∉ m ∧ kern.subscript hash tests k = .ok none) ∨
      ∃ p kern', kern.subscript hash tests k = .ok (some (p, kern')) ∧ kern'.Inv hash ∧
        kern'.Live p ∧
        (kern'.keys p).1 = k ∧ kern'.Represents (m.insert k ((m.lookup k).getD default)) ∧
        SameTable kern kern' ∧ kern'.removed = kern.removed := by
  by_cases hmem : k ∈ m
  · obtain ⟨p, hp, hk⟩ := hr.exists_live hmem
    refine .inr (.inr ⟨p, kern, subscript_of_live tests hi hp hk, hi, hp, hk, ?_, .refl kern, rfl⟩)
    have hlookup := hr.lookup hp hk
    rwa [hlookup, Option.getD_some, insert_eq_self hlookup]
  · have habsent := hr.absent hmem
    rcases subscript_of_absent tests hi habsent with hlost | ⟨hfull, h⟩ | ⟨p, kern', h, ho⟩
    · exact .inl hlost
    · exact .inr (.inl ⟨hfull, hmem, h⟩)
    · refine .inr (.inr ⟨p, kern', h, ho.inv hi habsent, ho.live, by rw [ho.keys_self], ?_,
        ho.table, ho.removed⟩)
      rw [Finmap.lookup_eq_none.2 hmem, Option.getD_none]
      exact ho.represents hi hr hmem

end Subscript

/-! ### `erase` -/

private theorem keys_vacate :
    (kern.vacate p).keys = Function.update kern.keys p default := by
  have hfst : ((kern.setKey p default).keys p).1 = default := by
    show (Function.update kern.keys p _ p).1 = _
    rw [Function.update_self]
  show Function.update (Function.update kern.keys p _) p (((kern.setKey p default).keys p).1, _) = _
  rw [Function.update_idem, hfst]
  rfl

/-- A pair leaves once its bit is cleared. -/
theorem OnlyBits.vacates (h : OnlyBits kern kern') (hp : kern.Live p)
    (hexists : ∀ q, kern'.exists_ q = if q = p then false else kern.exists_ q)
    (hoverflows : ∀ q, kern'.overflows q = kern.overflows q) :
    Vacates kern (kern'.vacate p) p where
  table := h.table.trans ⟨rfl, rfl, rfl, rfl⟩
  live := hp
  exists_ := hexists
  overflows := hoverflows
  keys := by rw [keys_vacate, h.keys]
  probes := h.probes
  overflowElements := h.overflowElements
  elements := congrArg (· - 1) h.elements
  removed := congrArg (· + 1) h.removed

private theorem vacates_setExists (hp : kern.Live p) :
    Vacates kern ((kern.setExists p false).vacate p) p :=
  (onlyBits_setExists kern p false).vacates hp (fun _ ↦ exists_setExists _)
    fun _ ↦ overflows_setExists _

private theorem vacates_toggleExists (hp : kern.Live p) :
    Vacates kern ((kern.toggleExists p).vacate p) p :=
  (onlyBits_toggleExists kern p).vacates hp
    (fun _ ↦ by rw [exists_toggleExists, hp.2, Bool.not_true]) fun _ ↦ overflows_toggleExists

variable [DecidableEq K]

/-- `erase` takes away the pair with a key that is present. -/
theorem erase_of_live (hi : kern.Inv hash) (hp : kern.Live p) (hk : (kern.keys p).1 = k) :
    ∃ kern', kern.erase hash k = (1, kern') ∧ Vacates kern kern' p := by
  unfold erase
  dsimp only
  by_cases hmapped : p = kern.mapKey hash k
  · rw [← hmapped, if_pos ⟨hp.2, hk⟩]
    exact ⟨_, rfl, vacates_toggleExists hp⟩
  · obtain ⟨hoverflows, hplace⟩ := hi.elsewhere hp hk hmapped
    rw [if_neg fun h ↦ hmapped (hi.injective _ p ⟨mapKey_lt, h.1⟩ hp (h.2.trans hk.symm)).symm,
      if_neg fun h ↦ Bool.false_ne_true (h.symm.trans hoverflows), eraseRest,
      findRest_eq hi hp hk hplace, if_pos hp.1.ne]
    exact ⟨_, rfl, vacates_setExists hp⟩

/-- `erase` leaves a kernel without the key as it is. -/
theorem erase_of_absent (hk : ∀ q, kern.Live q → (kern.keys q).1 ≠ k) :
    kern.erase hash k = (0, kern) := by
  unfold erase
  dsimp only
  rw [if_neg fun h ↦ hk _ ⟨mapKey_lt, h.1⟩ h.2]
  split
  · rfl
  · rw [eraseRest, findRest_none hk, if_neg fun h ↦ h rfl]

/-- `erase` answers as the map does and keeps the table. -/
theorem erase_spec {m : Finmap fun _ : K ↦ V} (hi : kern.Inv hash) (hr : kern.Represents m) :
    (kern.erase hash k).1 = (if k ∈ m then 1 else 0) ∧ (kern.erase hash k).2.Inv hash ∧
      (kern.erase hash k).2.Represents (m.erase k) ∧ SameTable kern (kern.erase hash k).2 := by
  by_cases hmem : k ∈ m
  · obtain ⟨p, hp, hk⟩ := hr.exists_live hmem
    obtain ⟨kern', h, hv⟩ := erase_of_live hi hp hk
    rw [h, if_pos hmem]
    exact ⟨rfl, hv.inv hi, hk ▸ hv.represents hi hr, hv.table⟩
  · rw [erase_of_absent (hr.absent hmem), if_neg hmem]
    exact ⟨rfl, hi, (erase_eq_self hmem).symm ▸ hr, .refl kern⟩

end LibSpaces.Rabbit.Kernel
