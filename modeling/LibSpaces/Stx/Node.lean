import Mathlib.Data.List.GetD
import Mathlib.Algebra.Order.Group.Int
import LibSpaces.Base.OrderedMap
import LibSpaces.Base.Slots

/-!
# Nodes of the B+ tree and the search inside one

`src/src/stx/btree.h:455–520,1340–1418,1540–1600,2040–2070,5011–5070`. The occupants of a node
are the length of its lists. A page address is a number, `0` is `NULL_REF`. `std::less` and `==` of
the key type are those of a linear order, `key_type()` is `default`.
-/

namespace LibSpaces.Stx

open LibSpaces.Base

/-- The slot counts of the tree traits, `btree.h:284,291,468–485`. Below four slots a node that
lost a key can be empty; `check_node` (`:1192`) throws for a node of more than one occupant
over `interiorslots`. -/
structure Traits where
  surfaces : ℕ
  interiorslots : ℕ
  four_le_surfaces : 4 ≤ surfaces
  four_le_interiorslots : 4 ≤ interiorslots
  surfaces_le : surfaces ≤ interiorslots + 1

namespace Traits

/-- `surfaceslotmax` and `interiorslotmax` by the height of a node. -/
def slotmax (tr : Traits) : ℕ → ℕ
  | 0 => tr.surfaces
  | _ + 1 => tr.interiorslots

/-- `minsurfaces` and `mininteriorslots`. -/
def minslots (tr : Traits) (h : ℕ) : ℕ := tr.slotmax h / 2

/-- `keys_per_page` of the default traits, `btree.h:256`. -/
def perPage : Traits := ⟨128, 128, by decide, by decide, by decide⟩

/-- A node has room for four occupants at least. -/
theorem four_le_slotmax (tr : Traits) (h : ℕ) : 4 ≤ tr.slotmax h := by
  cases h with
  | zero => exact tr.four_le_surfaces
  | succ h => exact tr.four_le_interiorslots

end Traits

/-- `surface_node`. -/
structure Surface (K V : Type) where
  kvs : List (K × V)
  next : ℕ
  preceding : ℕ
  deriving DecidableEq

/-- `interior_node`. -/
structure Interior (K : Type) where
  level : ℕ
  keys : List K
  childid : List ℕ
  deriving DecidableEq

/-- `node`: a surface node has level 0. -/
inductive Node (K V : Type)
  | surface (n : Surface K V)
  | interior (n : Interior K)
  deriving DecidableEq

/-- `get_occupants`. -/
def Node.occupants {K V : Type} : Node K V → ℕ
  | .surface n => n.kvs.length
  | .interior n => n.keys.length

variable {K V : Type} [LinearOrder K] [Inhabited K] {keys : List K} {key : K}

/-- `get_key` of an interior node. -/
def getKey (keys : List K) (slot : ℕ) : K := keys.getD slot default

/-- The key of the last occupant of a surface node. -/
def lastKey (kvs : List (K × V)) : K := getKey (kvs.map Prod.fst) (kvs.length - 1)

/-- The loop of `find_lower`, `btree.h:1404–1413`; `fuel` bounds its rounds. -/
def lowerLoop (keys : List K) (key : K) : ℕ → ℕ → ℕ → ℕ
  | 0, l, _ => l
  | fuel + 1, l, h =>
    if l < h then
      let m := (l + h) / 2
      if key ≤ getKey keys m then lowerLoop keys key fuel l m
      else lowerLoop keys key fuel (m + 1) h
    else l

/-- `node::find_lower`, `btree.h:1392–1417`, with the slot the node remembers from the search
before. -/
def findLowerFrom (lastFound : ℕ) (keys : List K) (key : K) : ℕ :=
  if keys.length = 0 then 0
  else if 0 < lastFound ∧ lastFound < keys.length ∧ ¬ getKey keys lastFound < key ∧
      getKey keys (lastFound - 1) < key then lastFound
  else lowerLoop keys key keys.length 0 keys.length

/-- `find_lower` of a node that remembers nothing. -/
def findLower (keys : List K) (key : K) : ℕ := findLowerFrom 0 keys key

/-- The loop of `_find_upper`, `btree.h:5028–5040`. -/
def upperLoop (keys : List K) (key : K) : ℕ → ℤ → ℤ → ℤ
  | 0, _, hi => hi
  | fuel + 1, lo, hi =>
    if lo < hi then
      let mid := (lo + hi) / 2
      if key < getKey keys mid.toNat then upperLoop keys key fuel lo (mid - 1)
      else upperLoop keys key fuel (mid + 1) hi
    else hi

/-- `find_upper`, `btree.h:5015–5070`. -/
def findUpper (keys : List K) (key : K) : ℕ :=
  if keys.length = 0 then 0
  else
    let hi := upperLoop keys key keys.length 0 (keys.length - 1)
    if hi < 0 ∨ getKey keys hi.toNat ≤ key then (hi + 1).toNat else hi.toNat

/-! ### The search is exact -/

/-- `slot` cuts the keys: those before it are less than `key`, the others are not. -/
structure CutLower (keys : List K) (key : K) (slot : ℕ) : Prop where
  le : slot ≤ keys.length
  before : ∀ i < slot, getKey keys i < key
  after : ∀ i, slot ≤ i → i < keys.length → key ≤ getKey keys i

/-- `slot` cuts the keys: those before it are at most `key`, the others are greater. -/
structure CutUpper (keys : List K) (key : K) (slot : ℕ) : Prop where
  le : slot ≤ keys.length
  before : ∀ i < slot, getKey keys i ≤ key
  after : ∀ i, slot ≤ i → i < keys.length → key < getKey keys i

private theorem getKey_lt_getKey (hs : keys.Pairwise (· < ·)) {i j : ℕ} (hij : i < j)
    (hj : j < keys.length) : getKey keys i < getKey keys j := by
  rw [getKey, getKey, List.getD_eq_getElem _ _ hj, List.getD_eq_getElem _ _ (hij.trans hj)]
  exact List.pairwise_iff_getElem.1 hs i j (hij.trans hj) hj hij

private theorem getKey_le_getKey (hs : keys.Pairwise (· < ·)) {i j : ℕ} (hij : i ≤ j)
    (hj : j < keys.length) : getKey keys i ≤ getKey keys j := by
  rcases hij.eq_or_lt with rfl | hlt
  · exact le_rfl
  · exact (getKey_lt_getKey hs hlt hj).le

/-- The loop keeps the slots below `l` before the cut and those from `h` on behind it. -/
theorem lowerLoop_cut (hs : keys.Pairwise (· < ·)) (fuel l h : ℕ) (hlh : l ≤ h)
    (hh : h ≤ keys.length) (hfuel : h - l ≤ fuel) (hl : ∀ i < l, getKey keys i < key)
    (hu : ∀ i, h ≤ i → i < keys.length → key ≤ getKey keys i) :
    CutLower keys key (lowerLoop keys key fuel l h) := by
  induction fuel generalizing l h with
  | zero =>
    rw [lowerLoop]
    exact ⟨hlh.trans hh, hl, fun i hi ↦ hu i (by omega)⟩
  | succ fuel ih =>
    rw [lowerLoop]
    split
    next hlt =>
      have hm : (l + h) / 2 < keys.length := by omega
      dsimp only
      split
      next hle =>
        refine ih l _ (by omega) (by omega) (by omega) hl fun i hi hik ↦ ?_
        exact hle.trans (getKey_le_getKey hs hi hik)
      next hgt =>
        refine ih _ h (by omega) hh (by omega) (fun i hi ↦ ?_) hu
        exact (getKey_le_getKey hs (Nat.lt_succ_iff.1 hi) hm).trans_lt (not_le.1 hgt)
    next hnlt => exact ⟨hlh.trans hh, hl, fun i hi ↦ hu i (by omega)⟩

/-- `find_lower` is exact whatever the node remembers. -/
theorem findLowerFrom_cut (hs : keys.Pairwise (· < ·)) (lastFound : ℕ) :
    CutLower keys key (findLowerFrom lastFound keys key) := by
  rw [findLowerFrom]
  split
  next h0 => exact ⟨Nat.zero_le _, fun i hi ↦ absurd hi (Nat.not_lt_zero i), fun i _ hi ↦ by omega⟩
  next =>
    split
    next hmemo =>
      obtain ⟨hpos, hlt, hge, hprev⟩ := hmemo
      refine ⟨hlt.le, fun i hi ↦ ?_, fun i hi hik ↦ ?_⟩
      · exact (getKey_le_getKey hs (by omega) (by omega)).trans_lt hprev
      · exact (not_lt.1 hge).trans (getKey_le_getKey hs hi hik)
    next =>
      exact lowerLoop_cut hs _ 0 _ (Nat.zero_le _) le_rfl (by omega)
        (fun i hi ↦ absurd hi (Nat.not_lt_zero i)) fun i hi hik ↦ by omega

/-- The lower slot cuts sorted keys at the key, which falls behind the cut. -/
theorem findLower_cut (hs : keys.Pairwise (· < ·)) : CutLower keys key (findLower keys key) :=
  findLowerFrom_cut hs 0

/-! ### The search in a leaf -/

section Leaf

variable {V : Type} {kvs : List (K × V)}

omit [LinearOrder K] in
/-- The key in a slot is the one of its pair. -/
theorem getKey_map_fst {i : ℕ} (hi : i < kvs.length) :
    getKey (kvs.map Prod.fst) i = (kvs[i]).1 := by
  rw [getKey, List.getD_eq_getElem _ _ (by rwa [List.length_map]), List.getElem_map]

/-- The pairs of a leaf on both sides of the slot a search finds, which is that of the key if
the key is there. -/
theorem exists_leaf_cut (hs : Sorted kvs) (key : K) :
    ∃ A B, kvs = A ++ B ∧ A.length = findLower (kvs.map Prod.fst) key ∧ Below A key ∧
      ((findLower (kvs.map Prod.fst) key < kvs.length ∧
          key = getKey (kvs.map Prod.fst) (findLower (kvs.map Prod.fst) key)) ∧
        (∃ v B', B = (key, v) :: B' ∧ Above B' key) ∨
      ¬ (findLower (kvs.map Prod.fst) key < kvs.length ∧
          key = getKey (kvs.map Prod.fst) (findLower (kvs.map Prod.fst) key)) ∧ Above B key) := by
  have hcut : CutLower (kvs.map Prod.fst) key _ := findLower_cut (List.pairwise_map.2 hs)
  generalize findLower (kvs.map Prod.fst) key = slot at hcut ⊢
  obtain ⟨hle, hbefore, hafter⟩ := hcut
  rw [List.length_map] at hle hafter
  obtain ⟨A, B, rfl, rfl⟩ := exists_split hle
  rw [List.length_append] at hle hafter
  have hA : Below A key := by
    intro p hp
    obtain ⟨i, hi, rfl⟩ := List.getElem_of_mem hp
    have := hbefore i hi
    rwa [getKey_map_fst (by rw [List.length_append]; omega), List.getElem_append_left hi] at this
  refine ⟨A, B, rfl, rfl, hA, ?_⟩
  cases B with
  | nil =>
    refine .inr ⟨fun hfound ↦ ?_, fun p hp ↦ absurd hp List.not_mem_nil⟩
    rw [List.append_nil] at hfound
    exact lt_irrefl _ hfound.1
  | cons b B =>
    have hlt : A.length < (A ++ b :: B).length := by simp
    have hkey : getKey ((A ++ b :: B).map Prod.fst) A.length = b.1 := by
      rw [getKey_map_fst hlt]
      simp
    have hb : key ≤ b.1 := hkey ▸ hafter A.length le_rfl (by simp)
    have hB : Above B b.1 := (sorted_cons.1 (sorted_append.1 hs).2.1).1
    rw [hkey]
    rcases hb.eq_or_lt with heq | hlt'
    · exact .inl ⟨⟨hlt, heq⟩, b.2, B, by rw [heq], heq ▸ hB⟩
    · refine .inr ⟨fun hfound ↦ hlt'.ne hfound.2, fun p hp ↦ ?_⟩
      rcases List.mem_cons.1 hp with rfl | hp
      · exact hlt'
      · exact hlt'.trans (hB p hp)

end Leaf

/-- The loop keeps the slots below `lo` before the cut and those above `hi` behind it. -/
theorem upperLoop_cut (hs : keys.Pairwise (· < ·)) (key : K) (fuel : ℕ) (lo hi : ℤ) (h0 : 0 ≤ lo)
    (hlh : lo ≤ hi + 1) (hh : hi < keys.length) (hfuel : hi - lo < fuel)
    (hl : ∀ i : ℕ, (i : ℤ) < lo → getKey keys i ≤ key)
    (hu : ∀ i : ℕ, hi < i → i < keys.length → key < getKey keys i) :
    ∃ lo', 0 ≤ lo' ∧ lo' ≤ upperLoop keys key fuel lo hi + 1 ∧
      upperLoop keys key fuel lo hi ≤ lo' ∧ upperLoop keys key fuel lo hi < keys.length ∧
      (∀ i : ℕ, (i : ℤ) < lo' → getKey keys i ≤ key) ∧
      ∀ i : ℕ, upperLoop keys key fuel lo hi < i → i < keys.length → key < getKey keys i := by
  induction fuel generalizing lo hi with
  | zero =>
    rw [upperLoop]
    exact ⟨lo, h0, hlh, by omega, hh, hl, hu⟩
  | succ fuel ih =>
    rw [upperLoop]
    split
    next hlt =>
      have hm : ((lo + hi) / 2).toNat < keys.length := by omega
      dsimp only
      split
      next hgt =>
        refine ih lo _ h0 (by omega) (by omega) (by omega) hl fun i hi hik ↦ ?_
        exact hgt.trans_le (getKey_le_getKey hs (by omega) hik)
      next hle =>
        refine ih _ hi (by omega) (by omega) hh (by omega) (fun i hi ↦ ?_) hu
        exact (getKey_le_getKey hs (by omega) hm).trans (not_lt.1 hle)
    next hnlt => exact ⟨lo, h0, hlh, by omega, hh, hl, hu⟩

/-- The upper slot cuts sorted keys at the key, which falls before the cut. -/
theorem findUpper_cut (hs : keys.Pairwise (· < ·)) : CutUpper keys key (findUpper keys key) := by
  rw [findUpper]
  split
  next h0 => exact ⟨Nat.zero_le _, fun i hi ↦ absurd hi (Nat.not_lt_zero i), fun i _ hi ↦ by omega⟩
  next h0 =>
    obtain ⟨lo, hlo, hlo1, hle, hlen, hbefore, hafter⟩ :=
      upperLoop_cut hs key keys.length 0 (keys.length - 1) le_rfl (by omega) (by omega)
        (by omega) (fun i hi ↦ by omega) fun i hi hik ↦ by omega
    dsimp only
    generalize upperLoop keys key keys.length 0 (keys.length - 1) = hi at *
    split
    next hup =>
      refine ⟨by omega, fun i hi' ↦ ?_, fun i hi' hik ↦ hafter i (by omega) hik⟩
      rcases hup with hneg | hkey
      · exact absurd hi' (by omega)
      · exact (getKey_le_getKey hs (by omega) (by omega)).trans hkey
    next hdown =>
      rw [not_or, not_lt, not_le] at hdown
      refine ⟨by omega, fun i hi' ↦ hbefore i (by omega), fun i hi' hik ↦ ?_⟩
      exact hdown.2.trans_le (getKey_le_getKey hs hi' hik)

/-! ### The searches count -/

omit [LinearOrder K] in
/-- What holds of the keys before a slot and of none from it on is counted by the slot. -/
theorem countP_eq_of_cut {p : K → Prop} [DecidablePred p] {slot : ℕ} (hle : slot ≤ keys.length)
    (hbefore : ∀ i < slot, p (getKey keys i))
    (hafter : ∀ i, slot ≤ i → i < keys.length → ¬ p (getKey keys i)) :
    keys.countP (fun k ↦ decide (p k)) = slot := by
  obtain ⟨A, B, rfl, rfl⟩ := exists_split hle
  have hA : A.countP (fun k ↦ decide (p k)) = A.length := by
    refine List.countP_eq_length.2 fun k hk ↦ decide_eq_true ?_
    obtain ⟨i, hi, rfl⟩ := List.getElem_of_mem hk
    have := hbefore i hi
    rwa [getKey, List.getD_eq_getElem _ _ (by rw [List.length_append]; omega),
      List.getElem_append_left hi] at this
  have hB : B.countP (fun k ↦ decide (p k)) = 0 := by
    refine List.countP_eq_zero.2 fun k hk ↦ ?_
    obtain ⟨i, hi, rfl⟩ := List.getElem_of_mem hk
    have := hafter (A.length + i) (by omega) (by rw [List.length_append]; omega)
    rw [getKey, List.getD_eq_getElem _ _ (by rw [List.length_append]; omega),
      List.getElem_append_right (by omega)] at this
    simpa using this
  rw [List.countP_append, hA, hB, Nat.add_zero]

private theorem CutLower.eq_countP {slot : ℕ} (hcut : CutLower keys key slot) :
    slot = keys.countP (· < key) :=
  (countP_eq_of_cut (p := (· < key)) hcut.le hcut.before
    fun i hi hik ↦ not_lt.2 (hcut.after i hi hik)).symm

private theorem CutUpper.eq_countP {slot : ℕ} (hcut : CutUpper keys key slot) :
    slot = keys.countP (· ≤ key) :=
  (countP_eq_of_cut (p := (· ≤ key)) hcut.le hcut.before
    fun i hi hik ↦ not_le.2 (hcut.after i hi hik)).symm

/-- The keys of a node and the slot it remembers, `last_found` (`btree.h:1197`). -/
structure Searched (K : Type) where
  keys : List K
  lastFound : ℕ

/-- What comes between two searches of a node: a search, or a change of its keys, whatever
it is. -/
inductive Touch (K : Type)
  | search (key : K)
  | change (keys : List K)

namespace Searched

/-- `node::find_lower`, `btree.h:1392–1417`, with the node it leaves. An empty node and the
shortcut leave what the node remembers, the loop stores its slot as a `u16`. -/
def findLower (n : Searched K) (key : K) : ℕ × Searched K :=
  if n.keys.length = 0 then (0, n)
  else if 0 < n.lastFound ∧ n.lastFound < n.keys.length ∧ ¬ getKey n.keys n.lastFound < key ∧
      getKey n.keys (n.lastFound - 1) < key then (n.lastFound, n)
  else
    let l := lowerLoop n.keys key n.keys.length 0 n.keys.length
    (l, { n with lastFound := l % 2 ^ 16 })

/-- A change of the node does not touch `last_found`. -/
def touch (n : Searched K) : Touch K → Searched K
  | .search key => (n.findLower key).2
  | .change keys => { n with keys }

/-- A node after several searches and changes. -/
def after (n : Searched K) (touches : List (Touch K)) : Searched K := touches.foldl touch n

/-- The slot is that of the search that only reads the node. -/
theorem findLower_fst (n : Searched K) (key : K) :
    (n.findLower key).1 = findLowerFrom n.lastFound n.keys key := by
  rw [findLower, findLowerFrom]
  split
  next => rfl
  next => split <;> rfl

/-- After any searches and changes, and whatever the node remembered before them, both searches
count. -/
theorem findLower_findUpper_after (n : Searched K) (touches : List (Touch K)) (key : K)
    (hs : (n.after touches).keys.Pairwise (· < ·)) :
    ((n.after touches).findLower key).1 = (n.after touches).keys.countP (· < key) ∧
      findUpper (n.after touches).keys key = (n.after touches).keys.countP (· ≤ key) := by
  constructor
  · rw [findLower_fst]
    exact (findLowerFrom_cut hs _).eq_countP
  · exact (findUpper_cut hs).eq_countP

/-- The node remembers slot 2 of three keys, a change replaces them. -/
theorem findLower_findUpper_after_stale :
    ((Searched.mk [1, 2, 3] 0).after [.search 3, .change [3, 5, 7, 9]]).lastFound = 2 ∧
      (((Searched.mk [1, 2, 3] 0).after [.search 3, .change [3, 5, 7, 9]]).findLower 6).1 =
        [3, 5, 7, 9].countP (· < 6) ∧
      findUpper [3, 5, 7, 9] 6 = [3, 5, 7, 9].countP (· ≤ 6) :=
  ⟨by decide, findLower_findUpper_after (Searched.mk [1, 2, 3] 0)
    [.search 3, .change [3, 5, 7, 9]] 6 (by decide)⟩

end Searched

end LibSpaces.Stx
