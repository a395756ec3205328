import LibSpaces.Stx.Iterators

/-!
# The indices of iterators

Iterators are counted from the first element on. The steps, jumps and searches of a tree are stated
in these indices here, for a tree without leaves as for any other.
-/

namespace LibSpaces.Stx.Btree

open LibSpaces.Base

variable {K V : Type}

/-- The iterator is this number of steps behind the first element. -/
def At (s : Btree K V) (k : ℕ) (i : Iterator) : Prop := s.Ahead s.firstPlace k i

variable {s : Btree K V} {i j e : Iterator} {k l n b : ℕ}

/-- The first place is no step behind the first element. -/
theorem at_firstPlace : s.At 0 s.firstPlace := .refl _

private theorem Barren.ahead_iff (hs : Barren s) : s.Ahead (0, 0) n j ↔ n = 0 ∧ j = (0, 0) := by
  constructor
  · intro h
    cases h with
    | refl => exact ⟨rfl, rfl⟩
    | next hend => exact absurd (endIterator_of_barren hs) hend
  · rintro ⟨rfl, rfl⟩
    exact .refl _

private theorem Barren.at_iff (hs : Barren s) : s.At k i ↔ k = 0 ∧ i = (0, 0) := by
  rw [At, firstPlace, if_pos hs.root, hs.ahead_iff]

variable [LinearOrder K] [Inhabited K] {tr : Traits} {kvs : List (K × V)} {h : ℕ} {t : Shape K V h}

private theorem Grounded.at_iff (ht : Grounded tr 1 s t) :
    s.At k i ↔ Locates s.kvsAt t.leaves k i := by
  rw [At, ht.ahead_iff k ht.locates_firstPlace, Nat.zero_add]

/-- A key that is there is where the lower bound is. -/
theorem Grounded.find_eq_lowerBound (ht : Grounded tr 1 s t) {key : K}
    (hkey : key ∈ t.pairs.map Prod.fst) : s.find key = s.lowerBound key := by
  obtain ⟨⟨key, value⟩, hp, rfl⟩ := List.mem_map.1 hkey
  obtain ⟨w, n, C, D, heq, -, hCD, hslot, hfind, -⟩ := ht.exists_cut (cuts_lower key)
  simp only [not_lt] at hfind
  have hlower : Base.lowerBound key t.pairs = D.head? := hfind
  have hfound := ht.sorted.findKey_of_mem hp
  rw [ht.sorted.findKey_eq, hlower, Option.filter_eq_some_iff] at hfound
  cases D with
  | nil => cases hfound.1
  | cons d D =>
    obtain rfl := Option.some.inj hfound.1
    have hlt : C.length < n.kvs.length := by simp [hCD]
    have hat : getKey (n.kvs.map Prod.fst) C.length = key := by
      rw [getKey_map_fst hlt]
      simp [hCD]
    rw [lowerBound, bound, Btree.find, if_neg (Rooted.root_ne ht.root ht.owned),
      if_neg (Rooted.root_ne ht.root ht.owned), heq]
    simp only [Option.bind_eq_bind, Option.bind_some]
    rw [← hslot, if_pos ⟨hlt, hat.symm⟩]

namespace Searchable

/-- The positions are the places at some number of steps. -/
theorem position_iff (hs : Searchable tr s kvs) : s.Position i ↔ ∃ k, s.At k i := by
  cases hs with
  | bare hs =>
    constructor
    · intro hi
      exact ⟨0, hs.at_iff.2 ⟨rfl, (hs.position hi).1⟩⟩
    · rintro ⟨k, hk⟩
      have hfirst : s.firstPlace = (0, 0) := if_pos hs.root
      exact (hs.at_iff.1 hk).2 ▸ hfirst ▸ .first
  | rooted t ht => simp only [ht.position_iff, ht.at_iff]

/-- Steps add up. -/
theorem ahead_iff (hs : Searchable tr s kvs) (hi : s.At k i) : s.Ahead i n j ↔ s.At (k + n) j := by
  cases hs with
  | bare hs =>
    obtain ⟨rfl, rfl⟩ := hs.at_iff.1 hi
    rw [hs.ahead_iff, hs.at_iff, Nat.zero_add]
  | rooted t ht => rw [ht.ahead_iff n (ht.at_iff.1 hi), ht.at_iff]

/-- No position is further than the number of pairs. -/
theorem le_length (hs : Searchable tr s kvs) (hi : s.At k i) : k ≤ kvs.length := by
  cases hs with
  | bare hs => exact (hs.at_iff.1 hi).1.le
  | rooted t ht => exact ht.length_flatMap ▸ (ht.at_iff.1 hi).le

/-- A number of steps leads to one position. -/
theorem at_unique (hs : Searchable tr s kvs) (hi : s.At k i) (hj : s.At k j) : i = j := by
  cases hs with
  | bare hs => exact (hs.at_iff.1 hi).2.trans (hs.at_iff.1 hj).2.symm
  | rooted t ht => exact (ht.at_iff.1 hi).unique (ht.at_iff.1 hj)

/-- A position is at one number of steps. -/
theorem at_index (hs : Searchable tr s kvs) (hk : s.At k i) (hl : s.At l i) : k = l := by
  cases hs with
  | bare hs => exact (hs.at_iff.1 hk).1.trans (hs.at_iff.1 hl).1.symm
  | rooted t ht => exact (ht.at_iff.1 hk).index_unique ht.chain.nodup (ht.at_iff.1 hl)

/-- A search returns the iterator behind the pairs that are `before`. -/
theorem at_bound {search : List K → K → ℕ} {before : K → Prop} [DecidablePred before] {key : K}
    (hs : Searchable tr s kvs) (hcut : Cuts search before key) :
    ∃ i, s.bound search key = some i ∧
      s.At (kvs.takeWhile fun p ↦ decide (before p.1)).length i := by
  cases hs with
  | bare hs =>
    exact ⟨(0, 0), (if_pos hs.root).trans (endIterator_of_barren hs), hs.at_iff.2 ⟨rfl, rfl⟩⟩
  | rooted t ht => simpa only [ht.at_iff] using ht.locates_bound hcut

/-- The end is as many steps away as there are pairs. -/
theorem exists_end (hs : Searchable tr s kvs) :
    ∃ e, s.endIterator = some e ∧ s.At kvs.length e := by
  cases hs with
  | bare hs => exact ⟨(0, 0), endIterator_of_barren hs, hs.at_iff.2 ⟨rfl, rfl⟩⟩
  | rooted t ht => simpa only [ht.at_iff] using ht.exists_endIterator

/-- A position before the end is at the pair of its number. -/
theorem deref_at (hs : Searchable tr s kvs) (hi : s.At k i) (hk : k < kvs.length) :
    s.deref i = some kvs[k] := by
  cases hs with
  | bare hs => exact absurd hk (Nat.not_lt_zero k)
  | rooted t ht => rw [ht.deref_spec (ht.at_iff.1 hi), List.getElem?_eq_getElem hk]

/-- A key that is there is found at its index. -/
theorem find_at (hs : Searchable tr s kvs) {A B : List (K × V)} {key : K} {value : V}
    (hkvs : kvs = A ++ (key, value) :: B) : ∃ i, s.find key = some i ∧ s.At A.length i := by
  obtain ⟨i, hlower, hi⟩ := hs.at_bound (cuts_lower key)
  have hsorted := hkvs ▸ hs.sorted
  have hbelow : ∀ p ∈ A, decide (p.1 < key) = true := fun p hp ↦
    decide_eq_true ((sorted_append.1 hsorted).2.2 p hp _ List.mem_cons_self)
  have htake : (kvs.takeWhile fun p ↦ decide (p.1 < key)) = A := by
    rw [hkvs, List.takeWhile_append_of_pos hbelow, List.takeWhile_cons_of_neg (by simp),
      List.append_nil]
  refine ⟨i, ?_, htake ▸ hi⟩
  cases hs with
  | bare hs => simp at hkvs
  | rooted t ht =>
    refine (ht.find_eq_lowerBound ?_).trans hlower
    rw [hkvs, List.map_append, List.map_cons]
    exact List.mem_append_right _ List.mem_cons_self

/-- A step forward. -/
theorem next_at (hs : Searchable tr s kvs) (hi : s.At k i) (hk : k < kvs.length) :
    ∃ j, s.next i = some j ∧ s.At (k + 1) j := by
  cases hs with
  | bare hs => exact absurd hk (Nat.not_lt_zero k)
  | rooted t ht =>
    obtain ⟨j, hj, hat⟩ := ht.next_spec (ht.at_iff.1 hi)
    rw [Nat.min_eq_left hk] at hat
    exact ⟨j, hj, ht.at_iff.2 hat⟩

/-- A step leads to the next index, and stays at the end. -/
theorem at_next (hs : Searchable tr s kvs) (hi : s.At k i) (h : s.next i = some j) :
    s.At (min (k + 1) kvs.length) j := by
  cases hs with
  | bare hs =>
    obtain ⟨rfl, rfl⟩ := hs.at_iff.1 hi
    cases h
  | rooted t ht =>
    obtain ⟨j', hj', hat⟩ := ht.next_spec (ht.at_iff.1 hi)
    exact Option.some.inj (hj'.symm.trans h) ▸ ht.at_iff.2 hat

/-- A step back, which stays at the first pair. -/
theorem prev_at (hs : Searchable tr s kvs) (hi : s.At k i) (hne : kvs ≠ []) :
    ∃ j, s.prev i = some j ∧ s.At (k - 1) j := by
  cases hs with
  | bare hs => exact absurd rfl hne
  | rooted t ht => simpa only [ht.at_iff] using ht.prev_spec (ht.at_iff.1 hi)

/-- Nothing is before `end` in a tree without leaves. -/
theorem prev_eq_none (hs : Searchable tr s []) (hi : s.At k i) : s.prev i = none := by
  generalize hkvs : ([] : List (K × V)) = kvs at hs
  cases hs with
  | bare hs =>
    obtain ⟨-, rfl⟩ := hs.at_iff.1 hi
    rfl
  | rooted t ht => exact absurd hkvs.symm (ht.filled.pairs_ne_nil le_rfl)

/-- A jump forward ends where as many steps do, at the end at the latest. -/
theorem addAssign_at (hs : Searchable tr s kvs) (hi : s.At k i) (n : ℕ) :
    ∃ j, s.addAssign i n = some j ∧ s.At (min (k + n) kvs.length) j := by
  rw [addAssign, if_pos (Int.natCast_nonneg n)]
  cases hs with
  | bare hs =>
    obtain ⟨rfl, rfl⟩ := hs.at_iff.1 hi
    exact ⟨(0, 0), rfl, hs.at_iff.2 ⟨Nat.min_eq_right (Nat.zero_le _), rfl⟩⟩
  | rooted t ht => simpa only [ht.at_iff] using ht.advance_spec n (ht.at_iff.1 hi)

/-- A jump stops at a given iterator ahead. It goes forward by the size of the distance. -/
theorem advance_at (hs : Searchable tr s kvs) (hi : s.At k i) (he : s.At b e) (hkb : k ≤ b)
    (n : ℤ) : ∃ j, s.advance i n e = some j ∧ s.At (min (k + n.natAbs) b) j := by
  cases hs with
  | bare hs =>
    obtain ⟨rfl, rfl⟩ := hs.at_iff.1 hi
    obtain ⟨rfl, rfl⟩ := hs.at_iff.1 he
    exact ⟨(0, 0), rfl, hs.at_iff.2 ⟨Nat.min_eq_right (Nat.zero_le _), rfl⟩⟩
  | rooted t ht =>
    simpa only [ht.at_iff] using ht.advance_finish n (ht.at_iff.1 hi) (ht.at_iff.1 he) hkb

/-- The distance of two positions is the number of steps between them. -/
theorem count_at (hs : Searchable tr s kvs) (hi : s.At k i) (he : s.At b e) (hkb : k ≤ b) :
    s.count i e = some (.ofNat (b - k)) := by
  refine count_of_ahead hs (hs.position_iff.2 ⟨k, hi⟩) ((hs.ahead_iff hi).2 ?_)
  rwa [Nat.add_sub_cancel' hkb]

end Searchable

end LibSpaces.Stx.Btree
