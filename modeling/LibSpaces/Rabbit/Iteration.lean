import LibSpaces.Rabbit.Writing

/-!
# Iterating over a kernel

An iterator holds a copy of the bits of its segment, taken when it comes to the segment. It goes
from one existing pair to the next, and stops at the bit behind the last position, which is always
set. Pairs that a loop takes away at the iterator do not disturb it.
-/

namespace LibSpaces.Rabbit

open LibSpaces.Base

/-- `iterator`, `rabbit_map.h:1046–1136`, of a map that the operations take as an argument. -/
structure Iterator where
  pos : ℕ
  existing : Word
  index : ℕ

namespace Kernel

variable {K V : Type}

section Source

variable (kern : Kernel K V)

/-- The loop of `begin`, `rabbit_map.h:1014–1030`. -/
def beginFrom : ℕ → ℕ → ℕ
  | 0, pos => pos
  | fuel + 1, pos =>
    if pos < kern.dataSize then
      if (kern.segment pos).existing = 0 then beginFrom fuel (pos + 64)
      else if kern.exists_ pos then pos
      else beginFrom fuel (pos + 1)
    else pos

/-- `begin`, `rabbit_map.h:1010–1031`. -/
def begin : ℕ := if kern.elements = 0 then kern.dataSize else kern.beginFrom kern.dataSize 0

/-- `from_pos`, `rabbit_map.h:1267–1272`. -/
def fromPos (pos : ℕ) : Iterator := ⟨pos, (kern.segment pos).existing, segmentIndex pos⟩

/-- `increment`, `rabbit_map.h:1063–1073`. -/
def increment (i : Iterator) : Iterator :=
  if i.index + 1 = 64 then kern.fromPos (i.pos + 1) else ⟨i.pos + 1, i.existing, i.index + 1⟩

/-- The loop of `operator++`. -/
def advance : ℕ → Iterator → Iterator
  | 0, i => i
  | fuel + 1, i =>
    let i := kern.increment i
    if maskBit i.existing i.index then i else advance fuel i

/-- `operator++`, `rabbit_map.h:1098–1103`. -/
def next (i : Iterator) : Iterator := kern.advance (kern.dataSize - i.pos) i

/-- The positions that a loop from an iterator to the end comes to. -/
def positionsFrom : ℕ → Iterator → List ℕ
  | 0, _ => []
  | fuel + 1, i =>
    if i.pos = kern.dataSize then [] else i.pos :: positionsFrom fuel (kern.next i)

/-- The pairs in the order of a loop from `begin` to `end`. -/
def entries : List (K × V) :=
  (kern.positionsFrom (kern.dataSize + 1) (kern.fromPos kern.begin)).map kern.keys

end Source

section Sweep

variable [DecidableEq K] [Inhabited K] [Inhabited V] (hash : K → UInt64) (keep : K × V → Bool)

/-- A loop that erases some of the pairs it comes to, as that of `destroy_surfaces` does,
`src/src/stx/btree.h:4540–4559`: the pairs it comes to, and the kernel. -/
def sweepFrom : ℕ → Kernel K V → Iterator → List (K × V) × Kernel K V
  | 0, kern, _ => ([], kern)
  | fuel + 1, kern, i =>
    if i.pos = kern.dataSize then ([], kern)
    else
      let pair := kern.keys i.pos
      let kern' := if keep pair then kern else (kern.erase hash pair.1).2
      let rest := sweepFrom fuel kern' (kern'.next i)
      (pair :: rest.1, rest.2)

/-- The loop over the whole table, which erases what is not kept. -/
def sweep (kern : Kernel K V) : List (K × V) × Kernel K V :=
  sweepFrom hash keep (kern.dataSize + 1) kern (kern.fromPos kern.begin)

end Sweep

variable {kern kern' : Kernel K V} {hash : K → UInt64} {p q : ℕ} {i : Iterator}

/-! ### The next pair -/

/-- The first position from `p` on whose bit is set. -/
structure Next (kern : Kernel K V) (p q : ℕ) : Prop where
  le : p ≤ q
  le_dataSize : q ≤ kern.dataSize
  exists_ : kern.exists_ q = true
  between : ∀ r, p ≤ r → r < q → kern.exists_ r = false

private theorem next_self (hp : p ≤ kern.dataSize) (h : kern.exists_ p = true) : kern.Next p p :=
  ⟨le_rfl, hp, h, fun _ hle hlt ↦ absurd (hle.trans_lt hlt) (lt_irrefl _)⟩

private theorem Next.of_free (h : kern.Next (p + 1) q) (hp : kern.exists_ p = false) :
    kern.Next p q where
  le := (Nat.le_succ p).trans h.le
  le_dataSize := h.le_dataSize
  exists_ := h.exists_
  between r hle hlt := by
    rcases hle.eq_or_lt with rfl | hlt'
    · exact hp
    · exact h.between r hlt' hlt

private theorem Next.from_le (h : kern.Next p q) {r : ℕ} (hle : p ≤ r) (hr : r ≤ q) :
    kern.Next r q where
  le := hr
  le_dataSize := h.le_dataSize
  exists_ := h.exists_
  between s hs hlt := h.between s (hle.trans hs) hlt

/-- There is a next one as long as the bit behind the last position is set. -/
theorem exists_next (hsentinel : kern.exists_ kern.dataSize = true) (hp : p ≤ kern.dataSize) :
    ∃ q, kern.Next p q := by
  induction hp using Nat.decreasingInduction with
  | self => exact ⟨_, next_self le_rfl hsentinel⟩
  | of_succ p hlt ih =>
    cases hbit : kern.exists_ p with
    | true => exact ⟨p, next_self hlt.le hbit⟩
    | false =>
      obtain ⟨q, hq⟩ := ih
      exact ⟨q, hq.of_free hbit⟩

/-! ### `begin` -/

private theorem segmentIndex_eq (p : ℕ) :
    segmentIndex p = p % 64 :=
  Nat.and_two_pow_sub_one_eq_mod p 6

private theorem segment_eq_of_div_eq (h : p / 64 = q / 64) : kern.segment p = kern.segment q := by
  unfold segment
  rw [Nat.shiftRight_eq_div_pow, Nat.shiftRight_eq_div_pow]
  exact congrArg _ h

private theorem exists_of_empty (h : (kern.segment p).existing = 0) (hq : q / 64 = p / 64) :
    kern.exists_ q = false := by
  rw [exists_, segment_eq_of_div_eq hq, h, testBit_eq]
  exact BitVec.getLsbD_zero

/-- The loop of `begin` skips nothing, as it leaves a segment by a step of 64 only from its first
position and by single steps only when the segment has bits. -/
theorem beginFrom_spec {fuel : ℕ} (hfuel : kern.dataSize ≤ p + fuel)
    (haligned : p % 64 = 0 ∨ (kern.segment p).existing ≠ 0) (hq : kern.Next p q) :
    kern.beginFrom fuel p = q := by
  induction fuel generalizing p with
  | zero => exact le_antisymm hq.le (hq.le_dataSize.trans hfuel)
  | succ fuel ih =>
    unfold beginFrom
    split
    · next hlt =>
      have hne (hfree : kern.exists_ p = false) : p ≠ q := by
        rintro rfl
        exact Bool.false_ne_true (hfree.symm.trans hq.exists_)
      by_cases hempty : (kern.segment p).existing = 0
      · rw [if_pos hempty]
        have hmod : p % 64 = 0 := haligned.resolve_right (not_not.2 hempty)
        have hle : p + 64 ≤ q := by
          by_contra hlt'
          have hdiv : q / 64 = p / 64 := by
            have := hq.le
            omega
          exact Bool.false_ne_true ((exists_of_empty hempty hdiv).symm.trans hq.exists_)
        exact ih (by omega) (.inl (by omega)) (hq.from_le (Nat.le_add_right _ _) hle)
      · rw [if_neg hempty]
        split
        · next hbit =>
          by_contra hne
          have hfree := hq.between p le_rfl (lt_of_le_of_ne hq.le hne)
          exact Bool.false_ne_true (hfree.symm.trans hbit)
        · next hbit =>
          have hle : p + 1 ≤ q := lt_of_le_of_ne hq.le (hne (Bool.eq_false_iff.2 hbit))
          refine ih (by omega) ?_ (hq.from_le (Nat.le_succ p) hle)
          by_cases hmod : (p + 1) % 64 = 0
          · exact .inl hmod
          · rw [segment_eq_of_div_eq (p := p + 1) (q := p) (by omega)]
            exact .inr hempty
    · next hge => exact le_antisymm hq.le (hq.le_dataSize.trans (Nat.le_of_not_lt hge))

private theorem begin_spec [Inhabited K] [Inhabited V] (hi : kern.Inv hash) :
    kern.Next 0 kern.begin := by
  obtain ⟨q, hq⟩ := exists_next hi.sentinel (Nat.zero_le _)
  unfold begin
  split
  · next hnone =>
    refine ⟨Nat.zero_le _, le_rfl, hi.sentinel, fun r _ hr ↦ ?_⟩
    rw [hi.elements, Finset.card_eq_zero, Finset.filter_eq_empty_iff] at hnone
    exact Bool.eq_false_iff.2 (hnone (Finset.mem_range.2 hr))
  · rw [beginFrom_spec (Nat.le_add_left _ _) (.inl rfl) hq]
    exact hq

/-! ### `operator++` -/

/-- The iterator has the bits of its segment that are behind its position. -/
structure InStep (kern : Kernel K V) (i : Iterator) : Prop where
  index : i.index = segmentIndex i.pos
  existing : ∀ d, 0 < d → i.index + d < 64 →
    i.existing.getLsbD (i.index + d) = kern.exists_ (i.pos + d)

private theorem getLsbD_segment {d : ℕ} (h : segmentIndex p + d < 64) :
    (kern.segment p).existing.getLsbD (segmentIndex p + d) = kern.exists_ (p + d) := by
  rw [segmentIndex_eq] at h ⊢
  have hindex : segmentIndex (p + d) = p % 64 + d := by
    rw [segmentIndex_eq]
    omega
  have hsegment : kern.segment (p + d) = kern.segment p := segment_eq_of_div_eq (by omega)
  rw [exists_, testBit_eq, hsegment, hindex]

private theorem inStep_fromPos (p : ℕ) : kern.InStep (kern.fromPos p) :=
  ⟨rfl, fun _ _ h ↦ getLsbD_segment h⟩

private theorem pos_increment : (kern.increment i).pos = i.pos + 1 := by
  unfold increment
  split <;> rfl

private theorem InStep.increment (h : kern.InStep i) : kern.InStep (kern.increment i) ∧
    maskBit (kern.increment i).existing (kern.increment i).index = kern.exists_ (i.pos + 1) := by
  unfold Kernel.increment
  split
  · refine ⟨inStep_fromPos _, ?_⟩
    show maskBit (kern.segment (i.pos + 1)).existing (segmentIndex (i.pos + 1)) = _
    rw [maskBit_eq _ (segmentIndex_lt _), exists_, testBit_eq]
  · next hinside =>
    have hindex := h.index
    have hlt := segmentIndex_lt i.pos
    rw [segmentIndex_eq] at hindex hlt
    refine ⟨⟨?_, fun d hd hlt ↦ ?_⟩, ?_⟩
    · rw [segmentIndex_eq]
      dsimp only
      omega
    · dsimp only at hlt ⊢
      rw [Nat.add_assoc, h.existing (1 + d) (by omega) (by omega), Nat.add_assoc]
    · rw [maskBit_eq _ (show i.index + 1 < 64 by omega)]
      exact h.existing 1 Nat.one_pos (by omega)

private theorem advance_spec {fuel : ℕ} (h : kern.InStep i) (hq : kern.Next (i.pos + 1) q)
    (hfuel : q ≤ i.pos + fuel) :
    kern.InStep (kern.advance fuel i) ∧ (kern.advance fuel i).pos = q := by
  induction fuel generalizing i with
  | zero => exact absurd (hq.le.trans hfuel) (Nat.not_succ_le_self _)
  | succ fuel ih =>
    obtain ⟨hstep, hbit⟩ := h.increment
    unfold advance
    dsimp only
    rw [hbit]
    split
    · next hexists =>
      refine ⟨hstep, pos_increment.trans ?_⟩
      by_contra hne
      have hfree := hq.between _ le_rfl (lt_of_le_of_ne hq.le hne)
      exact Bool.false_ne_true (hfree.symm.trans hexists)
    · next hfree =>
      have hne : i.pos + 1 ≠ q := by
        rintro rfl
        exact hfree hq.exists_
      refine ih hstep ?_ ?_
      · rw [pos_increment]
        exact hq.from_le (Nat.le_succ _) (lt_of_le_of_ne hq.le hne)
      · rw [pos_increment]
        omega

/-- `operator++` goes to the next pair, or to the end. -/
theorem next_spec (h : kern.InStep i) (hq : kern.Next (i.pos + 1) q) :
    kern.InStep (kern.next i) ∧ (kern.next i).pos = q :=
  advance_spec h hq (by have := hq.le; have := hq.le_dataSize; omega)

/-! ### Loops -/

/-- The positions from `p` on where pairs exist. -/
def livesFrom (kern : Kernel K V) (p : ℕ) : List ℕ :=
  (List.range' p (kern.dataSize - p)).filter kern.exists_

private theorem Next.livesFrom (h : kern.Next p q) : kern.livesFrom p = kern.livesFrom q := by
  have hsplit : List.range' p (kern.dataSize - p) =
      List.range' p (q - p) ++ List.range' q (kern.dataSize - q) := by
    have hq : p + (q - p) = q := Nat.add_sub_cancel' h.le
    have happend := List.range'_append_1 (s := p) (m := q - p) (n := kern.dataSize - q)
    rw [hq] at happend
    rw [happend]
    have := h.le_dataSize
    congr 1
    omega
  rw [Kernel.livesFrom, hsplit, List.filter_append, Kernel.livesFrom, List.filter_eq_nil_iff.2,
    List.nil_append]
  intro r hr
  obtain ⟨hle, hlt⟩ := List.mem_range'_1.1 hr
  rw [h.between r hle (by omega)]
  exact Bool.false_ne_true

private theorem livesFrom_dataSize : kern.livesFrom kern.dataSize = [] := by
  rw [livesFrom, Nat.sub_self]
  rfl

private theorem livesFrom_of_live (hp : kern.Live p) :
    kern.livesFrom p = p :: kern.livesFrom (p + 1) := by
  have hsize : kern.dataSize - p = kern.dataSize - (p + 1) + 1 := by
    have := hp.1
    omega
  rw [livesFrom, hsize, List.range'_succ, List.filter_cons_of_pos hp.2]
  rfl

private theorem mem_livesFrom : q ∈ kern.livesFrom p ↔ p ≤ q ∧ kern.Live q := by
  rw [livesFrom, List.mem_filter, List.mem_range'_1]
  constructor
  · rintro ⟨⟨hle, hlt⟩, hexists⟩
    exact ⟨hle, by omega, hexists⟩
  · rintro ⟨hle, hlt, hexists⟩
    exact ⟨⟨hle, by omega⟩, hexists⟩

private theorem nodup_livesFrom (p : ℕ) : (kern.livesFrom p).Nodup :=
  List.Nodup.filter _ List.nodup_range'

private theorem positionsFrom_eq {fuel : ℕ} (hsentinel : kern.exists_ kern.dataSize = true)
    (h : kern.InStep i) (hi : kern.Next i.pos i.pos) (hfuel : kern.dataSize < i.pos + fuel) :
    kern.positionsFrom fuel i = kern.livesFrom i.pos := by
  induction fuel generalizing i with
  | zero => exact absurd hi.le_dataSize (Nat.not_le_of_lt hfuel)
  | succ fuel ih =>
    unfold positionsFrom
    split
    · next hend => rw [hend, livesFrom_dataSize]
    · next hend =>
      have hlive : kern.Live i.pos := ⟨lt_of_le_of_ne hi.le_dataSize hend, hi.exists_⟩
      obtain ⟨q, hq⟩ := exists_next hsentinel hlive.1
      obtain ⟨hstep, hpos⟩ := next_spec h hq
      rw [livesFrom_of_live hlive, hq.livesFrom, ← hpos]
      refine congrArg _ (ih hstep ?_ ?_)
      · rw [hpos]
        exact next_self hq.le_dataSize hq.exists_
      · have := hq.le
        omega

/-- A list has every pair of a finite map once. -/
structure Lists [DecidableEq K] (l : List (K × V)) (m : Finmap fun _ : K ↦ V) : Prop where
  nodup : (l.map Prod.fst).Nodup
  mem_iff : ∀ k v, (k, v) ∈ l ↔ m.lookup k = some v

section Entries

variable [Inhabited K] [Inhabited V]

private theorem entries_eq (hi : kern.Inv hash) :
    kern.entries = (kern.livesFrom 0).map kern.keys := by
  have hbegin := begin_spec hi
  have hpositions := positionsFrom_eq hi.sentinel (inStep_fromPos kern.begin)
    (next_self hbegin.le_dataSize hbegin.exists_) (Nat.lt_add_left _ (Nat.lt_succ_self _))
  rw [entries, hpositions, hbegin.livesFrom]
  rfl

/-- The pairs at existing positions are told by their keys. -/
theorem Inv.nodup_keys (hi : kern.Inv hash) (p : ℕ) :
    (((kern.livesFrom p).map kern.keys).map Prod.fst).Nodup := by
  rw [List.map_map]
  refine List.Nodup.map_on (fun q hq r hr hkey ↦ ?_) (nodup_livesFrom p)
  exact hi.injective q r (mem_livesFrom.1 hq).2 (mem_livesFrom.1 hr).2 hkey

/-- The stored pairs are listed once each. -/
theorem entries_lists [DecidableEq K] {m : Finmap fun _ : K ↦ V} (hi : kern.Inv hash)
    (hr : kern.Represents m) : Lists kern.entries m := by
  rw [entries_eq hi]
  refine ⟨hi.nodup_keys 0, fun k v ↦ ?_⟩
  rw [hr k v, List.mem_map]
  refine exists_congr fun p ↦ and_congr_left fun _ ↦ ?_
  rw [mem_livesFrom]
  exact and_iff_right (Nat.zero_le p)

/-- There are as many pairs as `elements` says. -/
theorem length_entries (hi : kern.Inv hash) : kern.entries.length = kern.elements := by
  have hfilter : ((Finset.range kern.dataSize).filter fun p ↦ kern.exists_ p) =
      (kern.livesFrom 0).toFinset := by
    ext p
    rw [Finset.mem_filter, Finset.mem_range, List.mem_toFinset, mem_livesFrom]
    exact (and_iff_right (Nat.zero_le p)).symm
  rw [entries_eq hi, List.length_map, hi.elements, hfilter,
    List.toFinset_card_of_nodup (nodup_livesFrom 0)]

end Entries

/-! ### Loops that erase -/

/-- Nothing differs behind a position. -/
structure SameBehind (kern kern' : Kernel K V) (p : ℕ) : Prop where
  dataSize : kern'.dataSize = kern.dataSize
  exists_ : ∀ q, p < q → kern'.exists_ q = kern.exists_ q
  keys : ∀ q, p < q → kern'.keys q = kern.keys q

private theorem SameBehind.refl (kern : Kernel K V) (p : ℕ) : SameBehind kern kern p :=
  ⟨rfl, fun _ _ ↦ rfl, fun _ _ ↦ rfl⟩

private theorem SameBehind.inStep (h : SameBehind kern kern' i.pos) (hstep : kern.InStep i) :
    kern'.InStep i where
  index := hstep.index
  existing d hd hlt := by
    rw [h.exists_ _ (Nat.lt_add_of_pos_right hd)]
    exact hstep.existing d hd hlt

private theorem SameBehind.livesFrom (h : SameBehind kern kern' p) :
    (kern'.livesFrom (p + 1)).map kern'.keys = (kern.livesFrom (p + 1)).map kern.keys := by
  have hlives : kern'.livesFrom (p + 1) = kern.livesFrom (p + 1) := by
    rw [Kernel.livesFrom, Kernel.livesFrom, h.dataSize]
    exact List.filter_congr fun q hq ↦ h.exists_ q (List.mem_range'_1.1 hq).1
  rw [hlives]
  exact List.map_congr_left fun q hq ↦ h.keys q (mem_livesFrom.1 hq).1

section Sweep

variable [DecidableEq K] [Inhabited K] [Inhabited V] {keep : K × V → Bool}

omit [DecidableEq K] in
private theorem Vacates.sameBehind (h : Vacates kern kern' p) : SameBehind kern kern' p where
  dataSize := h.table.dataSize
  exists_ q hq := by rw [h.exists_, if_neg hq.ne']
  keys _ hq := h.keys_ne hq.ne'

/-- The pairs of a list that are to be kept stay, with those that the list does not have. -/
def Keeps (keep : K × V → Bool) (l : List (K × V)) (m m' : Finmap fun _ : K ↦ V) : Prop :=
  ∀ k v, m'.lookup k = some v ↔ m.lookup k = some v ∧ ((k, v) ∈ l → keep (k, v) = true)

/-- One round of the loop. -/
theorem sweep_step {m : Finmap fun _ : K ↦ V} (hi : kern.Inv hash) (hr : kern.Represents m)
    (hp : kern.Live p)
    (hkern' : kern' = if keep (kern.keys p) then kern else (kern.erase hash (kern.keys p).1).2) :
    kern'.Inv hash ∧ SameTable kern kern' ∧ SameBehind kern kern' p ∧
      ∃ m', kern'.Represents m' ∧ Keeps keep [kern.keys p] m m' := by
  by_cases hkeep : keep (kern.keys p) = true
  · rw [if_pos hkeep] at hkern'
    subst hkern'
    refine ⟨hi, .refl _, .refl _ p, m, hr, fun k v ↦ (and_iff_left fun hmem ↦ ?_).symm⟩
    rwa [List.mem_singleton.1 hmem]
  · obtain ⟨kern'', herase, hv⟩ := erase_of_live hi hp rfl
    rw [if_neg hkeep, herase] at hkern'
    subst hkern'
    refine ⟨hv.inv hi, hv.table, hv.sameBehind, _, hv.represents hi hr, fun k v ↦ ?_⟩
    by_cases hk : k = (kern.keys p).1
    · subst hk
      rw [Finmap.lookup_erase, hr.lookup hp rfl]
      refine iff_of_false (fun h ↦ by cases h) ?_
      rintro ⟨hv', hall⟩
      have hpair : ((kern.keys p).1, v) = kern.keys p :=
        Prod.ext rfl (Option.some.inj hv').symm
      exact hkeep (hpair ▸ hall (List.mem_singleton.2 hpair))
    · rw [Finmap.lookup_erase_ne hk]
      refine (and_iff_left fun hmem ↦ absurd ?_ hk).symm
      rw [← List.mem_singleton.1 hmem]

omit [Inhabited K] [Inhabited V] in
private theorem Keeps.cons {pair : K × V} {l : List (K × V)} {m m' m'' : Finmap fun _ : K ↦ V}
    (h : Keeps keep [pair] m m') (h' : Keeps keep l m' m'') : Keeps keep (pair :: l) m m'' := by
  intro k v
  rw [h' k v, h k v, List.mem_singleton, List.mem_cons, and_assoc, or_imp]

private theorem sweepFrom_spec (keep : K × V → Bool) {fuel : ℕ} {m : Finmap fun _ : K ↦ V}
    (hi : kern.Inv hash) (hr : kern.Represents m) (hstep : kern.InStep i)
    (hnext : kern.Next i.pos i.pos) (hfuel : kern.dataSize < i.pos + fuel) :
    (sweepFrom hash keep fuel kern i).1 = (kern.livesFrom i.pos).map kern.keys ∧
      (sweepFrom hash keep fuel kern i).2.Inv hash ∧
      SameTable kern (sweepFrom hash keep fuel kern i).2 ∧
      ∃ m', (sweepFrom hash keep fuel kern i).2.Represents m' ∧
        Keeps keep ((kern.livesFrom i.pos).map kern.keys) m m' := by
  induction fuel generalizing kern i m with
  | zero => exact absurd hnext.le_dataSize (Nat.not_le_of_lt hfuel)
  | succ fuel ih =>
    unfold sweepFrom
    split
    · next hend =>
      rw [hend, livesFrom_dataSize]
      exact ⟨rfl, hi, .refl _, m, hr,
        fun k v ↦ (and_iff_left fun hmem ↦ absurd hmem List.not_mem_nil).symm⟩
    · next hend =>
      have hlive : kern.Live i.pos := ⟨lt_of_le_of_ne hnext.le_dataSize hend, hnext.exists_⟩
      dsimp only
      generalize hkern' : (if keep (kern.keys i.pos) = true then kern
        else (kern.erase hash (kern.keys i.pos).1).2) = kern'
      obtain ⟨hi', htable, hsame, m', hr', hkeeps⟩ := sweep_step hi hr hlive hkern'.symm
      obtain ⟨q, hq⟩ := exists_next hi'.sentinel (hsame.dataSize.symm ▸ hlive.1 : _ + 1 ≤ _)
      obtain ⟨hstep', hpos⟩ := next_spec (hsame.inStep hstep) hq
      have hrest : (kern.livesFrom i.pos).map kern.keys =
          kern.keys i.pos :: (kern'.livesFrom (kern'.next i).pos).map kern'.keys := by
        rw [livesFrom_of_live hlive, List.map_cons, ← hsame.livesFrom, hq.livesFrom, hpos]
      have hfuel' : kern'.dataSize < (kern'.next i).pos + fuel := by
        have := hq.le
        rw [hpos, hsame.dataSize]
        omega
      obtain ⟨hvisited, hinv, htable', m'', hr'', hkeeps'⟩ := ih hi' hr' hstep'
        (hpos ▸ next_self hq.le_dataSize hq.exists_) hfuel'
      rw [hrest]
      exact ⟨congrArg _ hvisited, hinv, htable.trans htable', m'', hr'', hkeeps.cons hkeeps'⟩

/-- A loop that erases pairs at its iterator comes to every pair once, and takes away just those
that are not to be kept. -/
theorem sweep_spec (keep : K × V → Bool) {m : Finmap fun _ : K ↦ V} (hi : kern.Inv hash)
    (hr : kern.Represents m) :
    Lists (sweep hash keep kern).1 m ∧ (sweep hash keep kern).2.Inv hash ∧
      SameTable kern (sweep hash keep kern).2 ∧
      ∃ m', (sweep hash keep kern).2.Represents m' ∧
        ∀ k, m'.lookup k = (m.lookup k).filter fun v ↦ keep (k, v) := by
  have hbegin := begin_spec hi
  obtain ⟨hvisited, hinv, htable, m', hr', hkeeps⟩ := sweepFrom_spec keep hi hr
    (inStep_fromPos kern.begin) (next_self hbegin.le_dataSize hbegin.exists_)
    (Nat.lt_add_left _ (Nat.lt_succ_self _))
  have hentries : (kern.livesFrom (kern.fromPos kern.begin).pos).map kern.keys = kern.entries := by
    rw [entries_eq hi, hbegin.livesFrom]
    rfl
  have hlists := entries_lists hi hr
  rw [hentries] at hvisited hkeeps
  refine ⟨(congrArg (Lists · m) hvisited).mpr hlists, hinv, htable, m', hr',
    fun k ↦ Option.ext fun v ↦ ?_⟩
  rw [hkeeps k v, Option.filter_eq_some_iff, hlists.mem_iff]
  exact and_congr_right fun h ↦ ⟨fun hall ↦ hall h, fun h' _ ↦ h'⟩

end Sweep

end Kernel

end LibSpaces.Rabbit
