import Mathlib.Algebra.Order.Ring.Int
import Mathlib.Data.UInt
import Mathlib.Data.List.Basic
import Mathlib.Order.Basic

/-!
# Ordered maps as sorted lists of pairs

The reference an ordered container is compared with: its pairs in strictly increasing order of
their keys. An operation is stated on the whole list; the lemmas `_append` say that it only
works on the part of the list around its key.
-/

namespace LibSpaces.Base

variable {K V : Type} [LinearOrder K] {k key : K} {v : V} {l A B C : List (K × V)}

/-- The keys strictly increase. -/
def Sorted (l : List (K × V)) : Prop := l.Pairwise fun a b ↦ a.1 < b.1

/-- All keys are less than `k`. -/
def Below (l : List (K × V)) (k : K) : Prop := ∀ p ∈ l, p.1 < k

/-- All keys are greater than `k`. -/
def Above (l : List (K × V)) (k : K) : Prop := ∀ p ∈ l, k < p.1

/-- The pair is added unless the key is there. -/
def insertKey (k : K) (v : V) (l : List (K × V)) : List (K × V) :=
  if k ∈ l.map Prod.fst then l
  else l.filter (fun p ↦ p.1 < k) ++ (k, v) :: l.filter (fun p ↦ k < p.1)

/-- The pair of the key is removed. -/
def eraseKey (k : K) (l : List (K × V)) : List (K × V) := l.filter fun p ↦ p.1 ≠ k

/-- The value of the key is replaced. -/
def assignKey (k : K) (v : V) (l : List (K × V)) : List (K × V) :=
  l.map fun p ↦ if p.1 = k then (p.1, v) else p

/-- The pair of the key. -/
def findKey (k : K) (l : List (K × V)) : Option (K × V) := l.find? fun p ↦ p.1 = k

/-- The first pair whose key is not less than `k`. -/
def lowerBound (k : K) (l : List (K × V)) : Option (K × V) := l.find? fun p ↦ k ≤ p.1

/-- The first pair whose key is greater than `k`. -/
def upperBound (k : K) (l : List (K × V)) : Option (K × V) := l.find? fun p ↦ k < p.1

/-- Two lists are sorted together where both are sorted and the first is below the second. -/
theorem sorted_append : Sorted (A ++ B) ↔
    Sorted A ∧ Sorted B ∧ ∀ a ∈ A, ∀ b ∈ B, a.1 < b.1 := List.pairwise_append

/-- A list is sorted where its first key is below the others and these are sorted. -/
theorem sorted_cons {p : K × V} : Sorted (p :: B) ↔ Above B p.1 ∧ Sorted B :=
  List.pairwise_cons

/-! ### Parts of a list that lie on one side of a key -/

private theorem Below.not_mem (h : Below l k) : k ∉ l.map Prod.fst := by
  rintro hk
  obtain ⟨p, hp, rfl⟩ := List.mem_map.1 hk
  exact lt_irrefl _ (h p hp)

private theorem Above.not_mem (h : Above l k) : k ∉ l.map Prod.fst := by
  rintro hk
  obtain ⟨p, hp, rfl⟩ := List.mem_map.1 hk
  exact lt_irrefl _ (h p hp)

/-- A key between two lists is in neither. -/
theorem Below.not_mem_append (hA : Below A k) (hB : Above B k) : k ∉ (A ++ B).map Prod.fst := by
  rw [List.map_append, List.mem_append, not_or]
  exact ⟨hA.not_mem, hB.not_mem⟩

/-- The key is looked for in the part between. -/
theorem Below.mem_append_iff (hA : Below A k) (hB : Above B k) :
    k ∈ (A ++ (C ++ B)).map Prod.fst ↔ k ∈ C.map Prod.fst := by
  rw [List.map_append, List.map_append, List.mem_append, List.mem_append]
  refine ⟨fun hk ↦ ?_, fun hk ↦ .inr (.inl hk)⟩
  rcases hk with hk | hk | hk
  · exact absurd hk hA.not_mem
  · exact hk
  · exact absurd hk hB.not_mem

private theorem Below.filter_lt (h : Below l k) : l.filter (fun p ↦ p.1 < k) = l :=
  List.filter_eq_self.2 fun p hp ↦ decide_eq_true (h p hp)

private theorem Below.filter_gt (h : Below l k) : l.filter (fun p ↦ k < p.1) = [] :=
  List.filter_eq_nil_iff.2 fun p hp ↦ by simpa using (h p hp).le

private theorem Above.filter_lt (h : Above l k) : l.filter (fun p ↦ p.1 < k) = [] :=
  List.filter_eq_nil_iff.2 fun p hp ↦ by simpa using (h p hp).le

private theorem Above.filter_gt (h : Above l k) : l.filter (fun p ↦ k < p.1) = l :=
  List.filter_eq_self.2 fun p hp ↦ decide_eq_true (h p hp)

/-- A sorted list around one of its keys. -/
theorem Sorted.exists_mid (h : Sorted l) (hk : k ∈ l.map Prod.fst) :
    ∃ A v B, l = A ++ (k, v) :: B ∧ Below A k ∧ Above B k := by
  obtain ⟨⟨k, v⟩, hp, rfl⟩ := List.mem_map.1 hk
  obtain ⟨A, B, rfl⟩ := List.append_of_mem hp
  obtain ⟨-, hB, hAB⟩ := sorted_append.1 h
  exact ⟨A, v, B, rfl, fun a ha ↦ hAB a ha _ List.mem_cons_self, (sorted_cons.1 hB).1⟩

/-! ### Insertion -/

/-- A key that is in the list is not inserted again. -/
theorem insertKey_of_mem (h : k ∈ l.map Prod.fst) : insertKey k v l = l := if_pos h

/-- A new pair lands between the smaller and the larger keys. -/
theorem insertKey_mid (hA : Below A k) (hB : Above B k) :
    insertKey k v (A ++ B) = A ++ (k, v) :: B := by
  rw [insertKey, if_neg (hA.not_mem_append hB), List.filter_append, List.filter_append,
    hA.filter_lt,
    hA.filter_gt, hB.filter_lt, hB.filter_gt, List.append_nil, List.nil_append]

/-- A key between two lists is inserted into the part between them. -/
theorem insertKey_append (hA : Below A k) (hB : Above B k) :
    insertKey k v (A ++ (C ++ B)) = A ++ (insertKey k v C ++ B) := by
  by_cases hk : k ∈ C.map Prod.fst
  · rw [insertKey_of_mem hk, insertKey_of_mem ((hA.mem_append_iff hB).2 hk)]
  · have hall := mt (hA.mem_append_iff hB).1 hk
    simp only [insertKey, if_neg hk, if_neg hall, List.filter_append, hA.filter_lt,
      hA.filter_gt, hB.filter_lt, hB.filter_gt, List.append_nil, List.nil_append,
      List.append_assoc, List.cons_append]

/-- Insertion keeps the order. -/
theorem Sorted.insertKey (h : Sorted l) (k : K) (v : V) : Sorted (insertKey k v l) := by
  by_cases hk : k ∈ l.map Prod.fst
  · rwa [insertKey_of_mem hk]
  · rw [Base.insertKey, if_neg hk, sorted_append, sorted_cons]
    refine ⟨h.filter _, ⟨?_, h.filter _⟩, ?_⟩
    · intro p hp
      exact of_decide_eq_true (List.mem_filter.1 hp).2
    · intro a ha b hb
      have hlt : a.1 < k := of_decide_eq_true (List.mem_filter.1 ha).2
      rcases List.mem_cons.1 hb with rfl | hb
      · exact hlt
      · exact hlt.trans (of_decide_eq_true (List.mem_filter.1 hb).2)

/-- A new key makes the list one longer. -/
theorem length_insertKey (h : k ∉ l.map Prod.fst) :
    (insertKey k v l).length = l.length + 1 := by
  rw [insertKey, if_neg h, List.length_append, List.length_cons, ← Nat.add_assoc]
  congr 1
  induction l with
  | nil => rfl
  | cons p l ih =>
    rw [List.map_cons, List.mem_cons, not_or] at h
    have := ih h.2
    rcases lt_or_gt_of_ne h.1 with hp | hp
    · rw [List.filter_cons_of_neg (by simpa using hp.le),
        List.filter_cons_of_pos (by simpa using hp), List.length_cons, List.length_cons]
      omega
    · rw [List.filter_cons_of_pos (by simpa using hp),
        List.filter_cons_of_neg (by simpa using hp.le), List.length_cons, List.length_cons]
      omega

/-! ### Removal -/

/-- Erasing a key that is not in the list changes nothing. -/
theorem eraseKey_of_not_mem (h : k ∉ l.map Prod.fst) : eraseKey k l = l := by
  refine List.filter_eq_self.2 fun p hp ↦ decide_eq_true ?_
  rintro rfl
  exact h (List.mem_map_of_mem hp)

/-- A key between two lists is erased from the part between them. -/
theorem eraseKey_append (hA : Below A k) (hB : Above B k) :
    eraseKey k (A ++ (C ++ B)) = A ++ (eraseKey k C ++ B) := by
  rw [eraseKey, List.filter_append, List.filter_append]
  exact congrArg₂ (· ++ ·) (eraseKey_of_not_mem hA.not_mem)
    (congrArg (eraseKey k C ++ ·) (eraseKey_of_not_mem hB.not_mem))

/-- Erasing takes the pair of the key out of the list. -/
theorem eraseKey_mid (hA : Below A k) (hB : Above B k) :
    eraseKey k (A ++ (k, v) :: B) = A ++ B := by
  rw [← List.singleton_append, eraseKey_append hA hB]
  simp [eraseKey]

/-- Erasure keeps the order. -/
theorem Sorted.eraseKey (h : Sorted l) (k : K) : Sorted (eraseKey k l) := h.filter _

/-- Erasing a key of the list makes it one shorter. -/
theorem Sorted.length_eraseKey (h : Sorted l) (hk : k ∈ l.map Prod.fst) :
    (Base.eraseKey k l).length + 1 = l.length := by
  obtain ⟨A, v, B, rfl, hA, hB⟩ := h.exists_mid hk
  rw [eraseKey_mid hA hB, List.length_append, List.length_append, List.length_cons,
    Nat.add_assoc]

/-! ### Search -/

private theorem findKey_append (hA : Below A k) (hB : Above B k) :
    findKey k (A ++ (C ++ B)) = findKey k C := by
  have hnA : findKey k A = none :=
    List.find?_eq_none.2 fun p hp ↦ by simpa using (hA p hp).ne
  have hnB : findKey k B = none :=
    List.find?_eq_none.2 fun p hp ↦ by simpa using (hB p hp).ne'
  rw [findKey] at hnA hnB ⊢
  rw [List.find?_append, List.find?_append, hnA, hnB, Option.none_or, Option.or_none, findKey]

/-- The pair of a key is the first one not less than it, if that has the key. -/
theorem Sorted.findKey_eq (h : Sorted l) (k : K) :
    findKey k l = (lowerBound k l).filter fun p ↦ p.1 = k := by
  induction l with
  | nil => rfl
  | cons p l ih =>
    obtain ⟨habove, hl⟩ := sorted_cons.1 h
    rcases lt_trichotomy p.1 k with hlt | heq | hgt
    · rw [findKey, lowerBound, List.find?_cons_of_neg (by simpa using hlt.ne),
        List.find?_cons_of_neg (by simpa using hlt)]
      exact ih hl
    · rw [findKey, lowerBound, List.find?_cons_of_pos (by simpa using heq),
        List.find?_cons_of_pos (by simpa using heq.ge), Option.filter_some_pos (by simpa using heq)]
    · have hnone : findKey k l = none :=
        List.find?_eq_none.2 fun q hq ↦ by simpa using (hgt.trans (habove q hq)).ne'
      rw [findKey] at hnone
      rw [findKey, lowerBound, List.find?_cons_of_neg (by simpa using hgt.ne'),
        List.find?_cons_of_pos (by simpa using hgt.le), hnone,
        Option.filter_some_neg (by simpa using hgt.ne')]

/-- In a sorted list each pair is found under its key. -/
theorem Sorted.findKey_of_mem (h : Sorted l) (hp : (k, v) ∈ l) : findKey k l = some (k, v) := by
  obtain ⟨A, B, rfl⟩ := List.append_of_mem hp
  obtain ⟨-, hB, hAB⟩ := sorted_append.1 h
  have hA : Below A k := fun a ha ↦ hAB a ha _ List.mem_cons_self
  have hmid := findKey_append (C := [(k, v)]) hA (sorted_cons.1 hB).1
  rw [List.singleton_append] at hmid
  rw [hmid, findKey, List.find?_cons_of_pos (by simp)]

/-! ### Assignment -/

@[simp] private theorem map_fst_assignKey : (assignKey k v l).map Prod.fst = l.map Prod.fst := by
  rw [assignKey, List.map_map]
  refine List.map_congr_left fun p _ ↦ ?_
  rw [Function.comp_apply]
  split <;> rfl

private theorem assignKey_of_not_mem (h : k ∉ l.map Prod.fst) : assignKey k v l = l := by
  refine (List.map_congr_left fun p hp ↦ if_neg ?_).trans (List.map_id l)
  rintro rfl
  exact h (List.mem_map_of_mem hp)

/-- Assignment replaces the value of the key. -/
theorem assignKey_mid {v₀ : V} (hA : Below A k) (hB : Above B k) :
    assignKey k v (A ++ (k, v₀) :: B) = A ++ (k, v) :: B := by
  have hA' := assignKey_of_not_mem (v := v) hA.not_mem
  have hB' := assignKey_of_not_mem (v := v) hB.not_mem
  rw [assignKey] at hA' hB'
  rw [assignKey, List.map_append, List.map_cons, hA', hB', if_pos rfl]

/-- Assignment keeps the order. -/
theorem Sorted.assignKey (h : Sorted l) (k : K) (v : V) : Sorted (assignKey k v l) := by
  have hkeys : (l.map Prod.fst).Pairwise (· < ·) := List.pairwise_map.2 h
  rw [← map_fst_assignKey (k := k) (v := v)] at hkeys
  exact List.pairwise_map.1 hkeys

/-- Other pairs are not concerned by an insertion. -/
theorem mem_insertKey {p : K × V} (hp : p.1 ≠ k) : p ∈ insertKey k v l ↔ p ∈ l := by
  by_cases hk : k ∈ l.map Prod.fst
  · rw [insertKey_of_mem hk]
  · rw [insertKey, if_neg hk, List.mem_append, List.mem_cons, List.mem_filter, List.mem_filter,
      decide_eq_true_eq, decide_eq_true_eq]
    have hne : p ≠ (k, v) := fun h ↦ hp (congrArg Prod.fst h)
    have hside := lt_or_gt_of_ne hp
    tauto

private theorem mem_map_insertKey : k ∈ (insertKey k v l).map Prod.fst := by
  by_cases hk : k ∈ l.map Prod.fst
  · rwa [insertKey_of_mem hk]
  · rw [insertKey, if_neg hk, List.map_append, List.map_cons]
    exact List.mem_append_right _ List.mem_cons_self

/-- The pairs after a write to what `operator[]` returns. -/
theorem mem_assignKey_insertKey {p : K × V} {v₀ : V} :
    p ∈ assignKey k v (insertKey k v₀ l) ↔ p = (k, v) ∨ p ∈ l ∧ p.1 ≠ k := by
  rw [assignKey, List.mem_map]
  constructor
  · rintro ⟨q, hq, rfl⟩
    split
    · next hk => exact .inl (by rw [hk])
    · next hk => exact .inr ⟨(mem_insertKey hk).1 hq, hk⟩
  · rintro (rfl | ⟨hp, hk⟩)
    · obtain ⟨q, hq, hk⟩ := List.mem_map.1 (mem_map_insertKey (k := k) (v := v₀) (l := l))
      exact ⟨q, hq, by rw [if_pos hk, hk]⟩
    · exact ⟨p, (mem_insertKey hk).2 hp, if_neg hk⟩

/-! ### Segments -/

/-- In a sorted list the keys that come before others come first. -/
theorem Sorted.eq_append_filter (h : Sorted l) (before : K → Prop) [DecidablePred before]
    (hbefore : ∀ a b, a ≤ b → before b → before a) :
    l = (l.filter fun p ↦ before p.1) ++ l.filter fun p ↦ ¬before p.1 := by
  induction l with
  | nil => rfl
  | cons p l ih =>
    obtain ⟨habove, hl⟩ := sorted_cons.1 h
    by_cases hp : before p.1
    · simp only [List.filter_cons, hp, decide_true, not_true_eq_false, decide_false, if_true,
        Bool.false_eq_true, if_false, List.cons_append, ← ih hl]
    · have hrest : ∀ q ∈ l, ¬before q.1 := fun q hq hq' ↦ hp (hbefore _ _ (habove q hq).le hq')
      have hnone : (l.filter fun p ↦ before p.1) = [] :=
        List.filter_eq_nil_iff.2 fun q hq ↦ by simpa using hrest q hq
      have hall : (l.filter fun p ↦ ¬before p.1) = l :=
        List.filter_eq_self.2 fun q hq ↦ by simpa using hrest q hq
      simp only [List.filter_cons, hp, not_false_eq_true, decide_true, decide_false, if_true,
        Bool.false_eq_true, if_false, hnone, hall, List.nil_append]

/-- In a sorted list the pairs before a position are the ones with a key before it. -/
theorem Sorted.takeWhile_eq_filter (h : Sorted l) {before : K → Prop} [DecidablePred before]
    (hbefore : ∀ a b, a ≤ b → before b → before a) :
    (l.takeWhile fun p ↦ decide (before p.1)) = l.filter fun p ↦ before p.1 := by
  have hbelow : ∀ p ∈ l.filter fun p ↦ before p.1, decide (before p.1) = true :=
    fun p hp ↦ (List.mem_filter.1 hp).2
  have hrest : ((l.filter fun p ↦ ¬before p.1).takeWhile fun p ↦ decide (before p.1)) = [] := by
    cases hcases : l.filter fun p ↦ ¬before p.1 with
    | nil => rfl
    | cons p rest =>
      have hp : p ∈ l.filter fun p ↦ ¬before p.1 := hcases ▸ List.mem_cons_self
      exact List.takeWhile_cons_of_neg (by simpa using (List.mem_filter.1 hp).2)
  nth_rewrite 1 [h.eq_append_filter before hbefore]
  rw [List.takeWhile_append_of_pos hbelow, hrest, List.append_nil]

private theorem Sorted.takeWhile_lt (h : Sorted l) (k : K) :
    (l.takeWhile fun p ↦ decide (p.1 < k)) = l.filter fun p ↦ p.1 < k :=
  h.takeWhile_eq_filter fun _ _ hab hb ↦ hab.trans_lt hb

/-- The pairs from `a` on and below `b`. -/
theorem Sorted.drop_takeWhile_lt (h : Sorted l) {a b : K} (hab : a ≤ b) :
    (l.takeWhile fun p ↦ decide (p.1 < b)).drop (l.takeWhile fun p ↦ decide (p.1 < a)).length =
      l.filter fun p ↦ a ≤ p.1 ∧ p.1 < b := by
  induction l with
  | nil => rfl
  | cons p l ih =>
    obtain ⟨habove, hl⟩ := sorted_cons.1 h
    by_cases hp : p.1 < a
    · simp only [List.takeWhile_cons, List.filter_cons, hp, hp.trans_le hab, hp.not_ge, false_and,
        decide_true, decide_false, if_true, Bool.false_eq_true, if_false, List.length_cons,
        List.drop_succ_cons, ih hl]
    · have hle : ∀ q ∈ p :: l, a ≤ q.1 := fun q hq ↦ by
        rcases List.mem_cons.1 hq with rfl | hq
        · exact not_lt.1 hp
        · exact (not_lt.1 hp).trans (habove q hq).le
      have hnone : ((p :: l).takeWhile fun p ↦ decide (p.1 < a)) = [] := by
        simp only [List.takeWhile_cons, hp, decide_false, Bool.false_eq_true, if_false]
      rw [hnone, List.length_nil, List.drop_zero, h.takeWhile_lt b]
      exact List.filter_congr fun q hq ↦ by simp [hle q hq]

/-- More pairs are before a larger key. -/
theorem Sorted.length_takeWhile_lt_mono (h : Sorted l) {a b : K} (hab : a ≤ b) :
    (l.takeWhile fun p ↦ decide (p.1 < a)).length ≤
      (l.takeWhile fun p ↦ decide (p.1 < b)).length := by
  rw [h.takeWhile_lt, h.takeWhile_lt]
  refine (List.monotone_filter_right l fun p hp ↦ ?_).length_le
  simp only [decide_eq_true_eq] at hp ⊢
  exact hp.trans_le hab

/-- No fewer keys are below `a` than below `b` where none lies between them. -/
theorem Sorted.length_takeWhile_le_iff (h : Sorted l) {a b : K} (hab : a ≤ b) :
    (l.takeWhile fun p ↦ decide (p.1 < b)).length ≤
        (l.takeWhile fun p ↦ decide (p.1 < a)).length ↔ ∀ p ∈ l, ¬(a ≤ p.1 ∧ p.1 < b) := by
  rw [← List.drop_eq_nil_iff, h.drop_takeWhile_lt hab, List.filter_eq_nil_iff]
  simp only [decide_eq_true_eq]

/-! ### The ordered map -/

/-- An ordered map: its pairs, sorted. -/
structure OrderedMap (K V : Type) [LinearOrder K] where
  pairs : List (K × V)
  sorted : Sorted pairs

namespace OrderedMap

variable (m : OrderedMap K V)

/-- The map without pairs. -/
def empty : OrderedMap K V := ⟨[], List.Pairwise.nil⟩

/-- The key is in the map. -/
def contains (k : K) : Bool := decide (k ∈ m.pairs.map Prod.fst)

/-- A pair is inserted unless its key is there. -/
def insert (k : K) (v : V) : OrderedMap K V :=
  ⟨insertKey k v m.pairs, m.sorted.insertKey k v⟩

/-- The pair of a key is erased. -/
def erase (k : K) : OrderedMap K V := ⟨eraseKey k m.pairs, m.sorted.eraseKey k⟩

/-- The value of a key that is there is replaced. -/
def assign (k : K) (v : V) : OrderedMap K V :=
  ⟨assignKey k v m.pairs, m.sorted.assignKey k v⟩

/-- The number of pairs. -/
def size : ℕ := m.pairs.length

end OrderedMap

end LibSpaces.Base
