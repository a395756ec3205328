import LibSpaces.Base.Transition
import LibSpaces.Spaces.RangeQuery
import LibSpaces.Stx.Indices

/-!
# The position of a range iterator

The steps of `spaces_iterator`, `src/src/storage/interface/spaces_session.h:102–204`, on a tree that
others change. Before each call `get_iterator` recovers the iterator of a writer where another
database was opened, or where the leaf of its current entry or of its start has counted a change,
`spaces_lua.cpp:81–90` and `space_lua.h:263–274`. Any other change, and any change for a reader,
leaves the iterator as it is. The closure and the stack of Lua are left out.
-/

namespace LibSpaces.Spaces

open LibSpaces.Base LibSpaces.Stx LibSpaces.Stx.Btree

variable {K V : Type} [LinearOrder K] [Inhabited K]

namespace SpacesIterator

section Source

variable (it : SpacesIterator K) (tree : Btree K V)

/-- `create_iterator`, `set_lower` and `set_upper` in `push_iterator`,
`src/src/storage/interface/spaces_lua.cpp:564–575`. -/
def create (lower upper : K) : Option (SpacesIterator K) := do
  let it ← new.setLower tree lower
  it.setUpper tree upper

/-- `recover`. -/
def recover : Option (SpacesIterator K) := do
  let it ← it.setUpper tree it.upper
  let it ← it.setLower tree it.lower
  let i ← tree.addAssign it.i it.position
  return { it with i := i }

/-- `last`. -/
def last : Option (SpacesIterator K) := do
  let position ← tree.count it.i it.e
  let i ← tree.prev it.e
  return { it with position := position.toInt64.toInt, i := i }

/-- `get_at`. -/
def getAt (index : ℤ) : Option Iterator := tree.advance it.i index it.e

/-- `move`. -/
def move (index : ℤ) : Option (SpacesIterator K) := do
  let i ← tree.advance it.i index it.e
  return { it with i := i, position := it.position + index }

/-- `first`. -/
def first : Bool := it.i == it.s

/-- `previous`. -/
def previous : Option (SpacesIterator K) := do
  let i ← tree.prev it.i
  return { it with i := i, position := it.position - 1 }

/-- `start`. -/
def start : SpacesIterator K := { it with i := it.s, position := 0 }

end Source

end SpacesIterator

/-! ### Check points -/

/-- A tree that others change. Its leaves count their changes, and a database keeps it. -/
structure Watched (K V : Type) where
  tree : Btree K V
  changes : ℕ → ℕ
  db : ℕ

namespace Watched

variable {K V : Type} (w : Watched K V)

/-- `update_check_point`, `src/src/stx/btree.h:2946–2952`. -/
def checkPoint (i : Iterator) : ℕ := if i.1 = 0 then 0 else w.changes i.1

/-- `has_changed`, `btree.h:2953–2966`. What it sets is set again by the recovery that follows. -/
def hasChanged (i : Iterator) (check : ℕ) : Bool := i.1 ≠ 0 && check ≠ w.changes i.1

end Watched

/-- `lua_iterator`, with the check points of the current entry and of the start. -/
structure LuaIterator (K : Type) extends SpacesIterator K where
  iCheck : ℕ
  sCheck : ℕ
  db : ℕ

namespace LuaIterator

variable (it : LuaIterator K) (w : Watched K V)

/-- `create_iterator` with `set_session`, then the bounds. -/
def create (lower upper : K) : Option (LuaIterator K) :=
  (SpacesIterator.create w.tree lower upper).map fun it ↦
    ⟨it, w.checkPoint it.i, w.checkPoint it.s, w.db⟩

/-- `is_valid`. -/
def isValid : Bool := !w.hasChanged it.i it.iCheck && !w.hasChanged it.s it.sCheck

/-- `recover` of the base class ends with `validate`. -/
def recoverBase : Option (LuaIterator K) :=
  (it.toSpacesIterator.recover w.tree).map fun r ↦
    { it with toSpacesIterator := r, iCheck := w.checkPoint r.i, sCheck := w.checkPoint r.s }

/-- `recover`. -/
def recover : Option (LuaIterator K) :=
  if it.db ≠ w.db then { it with db := w.db }.recoverBase w
  else if !it.isValid w then it.recoverBase w
  else some it

/-- `get_iterator`. -/
def getIterator (reader : Bool) : Option (LuaIterator K) :=
  if !reader then it.recover w else some it

/-- An assignment takes the check point of the leaf. -/
def start : LuaIterator K :=
  { it with toSpacesIterator := it.toSpacesIterator.start, iCheck := w.checkPoint it.s }

/-- `operator++` takes a check point in another leaf. -/
def next : Option (LuaIterator K) :=
  (it.toSpacesIterator.next w.tree).map fun r ↦
    { it with
      toSpacesIterator := r
      iCheck := if r.i.1 = it.i.1 then it.iCheck else w.checkPoint r.i }

/-- `operator--` takes a check point where it leaves the first slot. -/
def previous : Option (LuaIterator K) :=
  (it.toSpacesIterator.previous w.tree).map fun r ↦
    { it with
      toSpacesIterator := r
      iCheck := if 0 < it.i.2 then it.iCheck else w.checkPoint r.i }

/-- `_advance` takes a check point where it does not end at once. -/
def move (index : ℤ) : Option (LuaIterator K) :=
  (it.toSpacesIterator.move w.tree index).map fun r ↦
    { it with
      toSpacesIterator := r
      iCheck := if it.i.1 = 0 ∨ it.e.1 = it.i.1 then it.iCheck else w.checkPoint r.i }

/-- `last` assigns the end to the current entry first. -/
def last : Option (LuaIterator K) :=
  (it.toSpacesIterator.last w.tree).map fun r ↦
    { it with
      toSpacesIterator := r
      iCheck := w.checkPoint (if 0 < it.e.2 then it.e else r.i) }

/-- The iterator is recovered when it is accessed. -/
def Recovers (reader : Bool) : Prop :=
  reader = false ∧ (it.db ≠ w.db ∨ it.isValid w = false)

instance (reader : Bool) : Decidable (it.Recovers w reader) :=
  inferInstanceAs (Decidable (_ ∧ _))

end LuaIterator

/-- What happens to an iterator: a call looks for it in a tree that others may have changed since,
and goes on. -/
inductive IteratorEvent (K V : Type)
  /-- `get_iterator`. -/
  | access (w : Watched K V)
  | start
  /-- `l_pairs_iter_next`. -/
  | next
  /-- `l_pairs_iter_prev`. -/
  | previous
  | move (index : ℤ)
  | last

/-- An event in a tree with an iterator of a reader or of a writer. -/
def iteratorStep (reader : Bool) : Watched K V × LuaIterator K → IteratorEvent K V →
    Option (Watched K V × LuaIterator K)
  | (_, it), .access w => (it.getIterator w reader).map (Prod.mk w)
  | (w, it), .start => some (w, it.start w)
  | (w, it), .next => if it.atEnd then some (w, it) else (it.next w).map (Prod.mk w)
  | (w, it), .previous => if it.first then some (w, it) else (it.previous w).map (Prod.mk w)
  | (w, it), .move index => (it.move w index).map (Prod.mk w)
  | (w, it), .last => (it.last w).map (Prod.mk w)

namespace LuaIterator

variable {reader : Bool} {it : LuaIterator K} {w : Watched K V}

private theorem Recovers.getIterator_eq (h : it.Recovers w reader) :
    it.getIterator w reader = { it with db := w.db }.recoverBase w := by
  obtain ⟨rfl, hvalid⟩ := h
  show it.recover w = _
  rw [recover]
  split
  · rfl
  · next hdb =>
    rw [if_pos (by rw [hvalid.resolve_left hdb]; rfl)]
    obtain ⟨base, iCheck, sCheck, db⟩ := it
    obtain rfl : db = w.db := not_not.1 hdb
    rfl

private theorem getIterator_of_not (h : ¬it.Recovers w reader) :
    it.getIterator w reader = some it := by
  cases reader with
  | true => rfl
  | false =>
    obtain ⟨hdb, hvalid⟩ := not_or.1 fun hor ↦ h ⟨rfl, hor⟩
    show it.recover w = _
    rw [Bool.not_eq_false] at hvalid
    rw [recover, if_neg hdb, if_neg (by rw [hvalid]; decide)]

end LuaIterator

section Positions

/-- A tree that memory has room for. -/
def Fitting (tr : Traits) (tree : Btree K V) : Prop :=
  ∃ kvs, Searchable tr tree kvs ∧ kvs.length < 2 ^ 63

/-- The trees of the event have room in memory. -/
def IteratorEvent.Fitting (tr : Traits) : IteratorEvent K V → Prop
  | .access w => Spaces.Fitting tr w.tree
  | _ => True

variable (s : Btree K V) (it : SpacesIterator K)

/-- The position is the number of entries from the start to the current one, which is between the
start and the end. -/
structure Tracked : Prop where
  start : s.Position it.s
  position : ∃ r : ℕ, it.position = r ∧ s.Ahead it.s r it.i
  rest : ∃ m, s.Ahead it.i m it.e

/-- There are this many entries, or more, from the lower bound to the upper bound. -/
def Contains (lower upper : K) (position : ℤ) : Prop :=
  ∃ i e n, s.lowerBound lower = some i ∧ s.lowerBound upper = some e ∧ s.Ahead i n e ∧ position ≤ n

/-- The number of occupants of a leaf, and the leaf behind it. -/
def extent (w : ℕ) : Option (ℕ × ℕ) := (s.surfaceAt w).map fun n ↦ (n.kvs.length, n.next)

/-- In a changed tree the start is still a place, and the leaves of the entries before the end have
as many occupants and the same successors. -/
def Untouched (s' : Btree K V) : Prop :=
  s'.Position it.s ∧
    ∀ n m j, s.Ahead it.s n j → s.Ahead j (m + 1) it.e → extent s' j.1 = extent s j.1

/-- The entry `k` places after the current one, in the range. -/
def EntryAfter (k : ℤ) (j : Iterator) : Prop :=
  ∃ n : ℕ, n = it.position + k ∧ s.Ahead it.s n j ∧ ∃ l, s.Ahead j (l + 1) it.e

/-- The event is none that an iterator is not recovered from. -/
def Noticed (reader : Bool) (it : LuaIterator K) : IteratorEvent K V → Prop
  | .access w => it.Recovers w reader
  | _ => True

/-- The events that keep the position. -/
def Keeping (reader : Bool) : Watched K V × LuaIterator K → IteratorEvent K V → Prop
  | (w, it), .access w' =>
    if it.Recovers w' reader then Contains w'.tree it.lower it.upper it.position
    else Untouched w.tree it.toSpacesIterator w'.tree
  | (w, it), .move index => 0 ≤ index ∧ ∃ m : ℕ, w.tree.Ahead it.i m it.e ∧ index ≤ m
  | (w, it), .last =>
    it.position = 1 ∨ it.e = w.tree.firstPlace ∧ 0 < w.tree.stats.treeSize
  | _, _ => True

end Positions

section Indices

variable {tr : Traits} {s s' : Btree K V} {it it' : SpacesIterator K} {kvs : List (K × V)}
  {lower upper : K} {a b : ℕ}

/-- The iterator with its indices. -/
theorem tracked_iff (hs : Searchable tr s kvs) :
    Tracked s it ↔ ∃ a r b : ℕ, it.position = r ∧ a + r ≤ b ∧
      s.At a it.s ∧ s.At (a + r) it.i ∧ s.At b it.e := by
  constructor
  · rintro ⟨hstart, ⟨r, hr, hi⟩, m, he⟩
    obtain ⟨a, ha⟩ := hs.position_iff.1 hstart
    have hi' := (hs.ahead_iff ha).1 hi
    exact ⟨a, r, a + r + m, hr, Nat.le_add_right _ m, ha, hi', (hs.ahead_iff hi').1 he⟩
  · rintro ⟨a, r, b, hr, hle, ha, hi, he⟩
    refine ⟨hs.position_iff.2 ⟨a, ha⟩, ⟨r, hr, (hs.ahead_iff ha).2 hi⟩, b - (a + r),
      (hs.ahead_iff hi).2 ?_⟩
    rwa [Nat.add_sub_cancel' hle]

/-- Where start, current entry and end are known, the position is the distance. -/
theorem tracked_iff_of_at (hs : Searchable tr s kvs) {c : ℕ} (ha : s.At a it.s) (hi : s.At c it.i)
    (he : s.At b it.e) : Tracked s it ↔ c = a + it.position ∧ 0 ≤ it.position ∧ c ≤ b := by
  rw [tracked_iff hs]
  constructor
  · rintro ⟨a', r, b', hr, hle, ha', hi', he'⟩
    obtain rfl := hs.at_index ha ha'
    obtain rfl := hs.at_index hi hi'
    obtain rfl := hs.at_index he he'
    exact ⟨by rw [hr]; rfl, by omega, hle⟩
  · rintro ⟨hc, hpos, hle⟩
    refine ⟨a, it.position.toNat, b, (Int.toNat_of_nonneg hpos).symm, by omega, ha, ?_, he⟩
    rwa [show a + it.position.toNat = c by omega]

private theorem contains_iff (hs : Searchable tr s kvs) {i e : Iterator}
    (hlower : s.lowerBound lower = some i) (hupper : s.lowerBound upper = some e)
    (hi : s.At a i) (he : s.At b e) (position : ℤ) :
    Contains s lower upper position ↔ a ≤ b ∧ a + position ≤ b := by
  constructor
  · rintro ⟨i', e', n, hlower', hupper', hahead, hle⟩
    obtain rfl := Option.some.inj (hlower.symm.trans hlower')
    obtain rfl := Option.some.inj (hupper.symm.trans hupper')
    have := hs.at_index he ((hs.ahead_iff hi).1 hahead)
    omega
  · rintro ⟨hab, hle⟩
    refine ⟨i, e, b - a, hlower, hupper, (hs.ahead_iff hi).2 ?_, by omega⟩
    rwa [Nat.add_sub_cancel' hab]

/-- A recovered iterator is at its position where the range still has it. -/
theorem tracked_recover_iff (hs : Searchable tr s kvs) (hpos : 0 ≤ it.position) :
    (∃ it', it.recover s = some it' ∧ Tracked s it') ↔
      Contains s it.lower it.upper it.position := by
  obtain ⟨i, hlower, hi⟩ := hs.at_bound (cuts_lower it.lower)
  obtain ⟨e, hupper, he⟩ := hs.at_bound (cuts_lower it.upper)
  obtain ⟨r, hr⟩ := Int.eq_ofNat_of_zero_le hpos
  obtain ⟨j, hj, hat⟩ := hs.addAssign_at hi r
  have hrecover : it.recover s = some { it with s := i, e := e, i := j } := by
    simp only [SpacesIterator.recover, SpacesIterator.setUpper, SpacesIterator.setLower,
      show s.lowerBound it.upper = some e from hupper,
      show s.lowerBound it.lower = some i from hlower,
      Option.map_some, Option.bind_eq_bind, Option.bind_some, hr, hj, Option.pure_def]
  have hiff : Tracked s { it with s := i, e := e, i := j } ↔ _ := tracked_iff_of_at hs hi hat he
  rw [contains_iff hs hlower hupper hi he, hrecover]
  simp only [Option.some.injEq, exists_eq_left', hiff]
  have hle := hs.le_length he
  omega

/-- A move keeps the position where it goes forward within the range. -/
theorem tracked_move_iff (hs : Searchable tr s kvs) (ht : Tracked s it) (index : ℤ) :
    (∃ it', it.move s index = some it' ∧ Tracked s it') ↔
      0 ≤ index ∧ ∃ m : ℕ, s.Ahead it.i m it.e ∧ index ≤ m := by
  obtain ⟨a, r, b, hr, hle, ha, hi, he⟩ := (tracked_iff hs).1 ht
  obtain ⟨j, hj, hat⟩ := hs.advance_at hi he hle index
  have hmove : it.move s index = some { it with i := j, position := it.position + index } := by
    rw [SpacesIterator.move, hj]
    rfl
  have hiff : Tracked s { it with i := j, position := it.position + index } ↔ _ :=
    tracked_iff_of_at hs ha hat he
  rw [hmove]
  simp only [Option.some.injEq, exists_eq_left', hiff]
  constructor
  · rintro ⟨hindex, -, -⟩
    refine ⟨by omega, b - (a + r), (hs.ahead_iff hi).2 ?_, by omega⟩
    rwa [Nat.add_sub_cancel' hle]
  · rintro ⟨hnonneg, m, hm, hindex⟩
    have := hs.at_index he ((hs.ahead_iff hi).1 hm)
    omega

/-- `last` keeps the position at the second entry, and where there is nothing before the end. -/
theorem tracked_last_iff (hs : Searchable tr s kvs) (hlen : kvs.length < 2 ^ 63)
    (ht : Tracked s it) : (∃ it', it.last s = some it' ∧ Tracked s it') ↔
      it.position = 1 ∨ it.e = s.firstPlace ∧ 0 < s.stats.treeSize := by
  obtain ⟨a, r, b, hr, hle, ha, hi, he⟩ := (tracked_iff hs).1 ht
  have hb := hs.le_length he
  have hfirst : it.e = s.firstPlace ↔ b = 0 :=
    ⟨fun h ↦ hs.at_index he (h ▸ at_firstPlace), fun h ↦ hs.at_unique he (h ▸ at_firstPlace)⟩
  rw [hfirst, treeSize_spec hs]
  rcases eq_or_ne kvs [] with rfl | hne
  · have hnone : it.last s = none := by
      rw [SpacesIterator.last, hs.count_at hi he hle, hs.prev_eq_none he]
      rfl
    rw [hnone]
    simp only [reduceCtorEq, false_and, exists_false, false_iff]
    rw [List.length_nil] at hb ⊢
    omega
  · obtain ⟨j, hj, hat⟩ := hs.prev_at he hne
    have hpos := List.length_pos_of_ne_nil hne
    have hcount : (UInt64.ofNat (b - (a + r))).toInt64.toInt = (b - (a + r) : ℕ) := by
      rw [UInt64.toInt64_ofNat', Int64.toInt_ofNat_of_lt (by omega)]
    have hlast : it.last s = some { it with position := (b - (a + r) : ℕ), i := j } := by
      rw [SpacesIterator.last, hs.count_at hi he hle, hj, ← hcount]
      rfl
    have hiff : Tracked s { it with position := (b - (a + r) : ℕ), i := j } ↔ _ :=
      tracked_iff_of_at hs ha hat he
    rw [hlast]
    simp only [Option.some.injEq, exists_eq_left', hiff]
    omega

private theorem Tracked.start_spec (hs : Searchable tr s kvs) (ht : Tracked s it) :
    Tracked s it.start := by
  obtain ⟨a, r, b, -, hle, ha, -, he⟩ := (tracked_iff hs).1 ht
  have hiff : Tracked s it.start ↔ _ := tracked_iff_of_at hs ha ha he
  rw [hiff, SpacesIterator.start]
  dsimp only
  omega

/-- The guards of `next` and `previous` keep the iterator in its range. -/
theorem Tracked.next_spec (hs : Searchable tr s kvs) (ht : Tracked s it) (hend : ¬it.atEnd) :
    ∃ it', it.next s = some it' ∧ Tracked s it' := by
  obtain ⟨a, r, b, hr, hle, ha, hi, he⟩ := (tracked_iff hs).1 ht
  have hne : a + r ≠ b := fun h ↦ hend (beq_iff_eq.2 (hs.at_unique hi (h ▸ he)))
  have hb := hs.le_length he
  obtain ⟨j, hj, hat⟩ := hs.next_at hi (by omega)
  have hiff : Tracked s { it with i := j, position := it.position + 1 } ↔ _ :=
    tracked_iff_of_at hs ha hat he
  refine ⟨_, congrArg (Option.map _) hj, hiff.2 ?_⟩
  dsimp only
  omega

private theorem Tracked.previous_spec (hs : Searchable tr s kvs) (ht : Tracked s it)
    (hfirst : ¬it.first) :
    ∃ it', it.previous s = some it' ∧ Tracked s it' := by
  obtain ⟨a, r, b, hr, hle, ha, hi, he⟩ := (tracked_iff hs).1 ht
  have hne : r ≠ 0 := fun h ↦ hfirst (beq_iff_eq.2 (hs.at_unique hi (h ▸ ha)))
  have hb := hs.le_length he
  obtain ⟨j, hj, hat⟩ := hs.prev_at hi (List.ne_nil_of_length_pos (by omega))
  have hiff : Tracked s { it with i := j, position := it.position - 1 } ↔ _ :=
    tracked_iff_of_at hs ha hat he
  refine ⟨_, by rw [SpacesIterator.previous, hj]; rfl, hiff.2 ?_⟩
  dsimp only
  omega

omit [LinearOrder K] [Inhabited K] in
private theorem next_congr {i : Iterator} (h : extent s' i.1 = extent s i.1) :
    s'.next i = s.next i := by
  unfold extent at h
  unfold Btree.next current
  split
  · rfl
  · cases hn : s.surfaceAt i.1 with
    | none =>
      rw [hn, Option.map_none, Option.map_eq_none_iff] at h
      rw [h]
    | some n =>
      rw [hn, Option.map_some, Option.map_eq_some_iff] at h
      obtain ⟨n', hn', hextent⟩ := h
      rw [Prod.mk.injEq] at hextent
      rw [hn']
      simp only [Option.bind_eq_bind, Option.bind_some, hextent]

/-- The steps from the start to the end are the same in a tree that is untouched there. -/
theorem Untouched.ahead (hs : Searchable tr s kvs) {kvs' : List (K × V)}
    (hs' : Searchable tr s' kvs') (h : Untouched s it s') (ha : s.At a it.s) (he : s.At b it.e)
    {n : ℕ} (hn : a + n ≤ b) {j : Iterator} (hj : s.At (a + n) j) : s'.Ahead it.s n j := by
  obtain ⟨a', ha'⟩ := hs'.position_iff.1 h.1
  induction n generalizing j with
  | zero => exact hs.at_unique hj ha ▸ .refl _
  | succ n ih =>
    have hb := hs.le_length he
    obtain ⟨e, hend, -⟩ := hs.exists_end
    obtain ⟨i, hi⟩ : ∃ i, s.At (a + n) i := by
      obtain ⟨i, hi, hat⟩ := hs.addAssign_at ha n
      rw [Nat.min_eq_left (by omega)] at hat
      exact ⟨i, hat⟩
    obtain ⟨j', hstep, hj'⟩ := hs.next_at hi (by omega)
    obtain rfl := hs.at_unique hj' hj
    have hextent := h.2 n (b - (a + n) - 1) i ((hs.ahead_iff ha).2 hi)
      ((hs.ahead_iff hi).2 (by rwa [show a + n + (b - (a + n) - 1 + 1) = b by omega]))
    have hi' := (hs'.ahead_iff ha').1 (ih (by omega) hi)
    have hat := hs'.at_next hi' ((next_congr hextent).trans hstep)
    refine (hs'.ahead_iff ha').2 ?_
    rcases (hs'.le_length hi').lt_or_eq with hlt | heq
    · rwa [Nat.min_eq_left hlt] at hat
    · -- a step from the end stays there, but this one went on
      rw [Nat.min_eq_right (by omega), ← heq] at hat
      have := hs.at_index hi (hs'.at_unique hat hi' ▸ hj)
      omega

/-- An iterator whose range is untouched is tracked in the changed tree. -/
theorem Tracked.change (hs : Searchable tr s kvs) {kvs' : List (K × V)}
    (hs' : Searchable tr s' kvs') (ht : Tracked s it) (h : Untouched s it s') : Tracked s' it := by
  obtain ⟨a, r, b, hr, hle, ha, hi, he⟩ := (tracked_iff hs).1 ht
  obtain ⟨a', ha'⟩ := hs'.position_iff.1 h.1
  have hi' := (hs'.ahead_iff ha').1 (h.ahead hs hs' ha he hle hi)
  have he' := (hs'.ahead_iff ha').1
    (h.ahead hs hs' ha he (show a + (b - a) ≤ b by omega) (by rwa [Nat.add_sub_cancel' (by omega)]))
  rw [tracked_iff_of_at hs' ha' hi' he']
  omega

private theorem create_spec (hs : Searchable tr s kvs) (lower upper : K) :
    ∃ i e, SpacesIterator.create s lower upper = some ⟨upper, lower, 0, i, i, e⟩ ∧
      s.lowerBound lower = some i ∧ s.lowerBound upper = some e ∧
      s.At (kvs.takeWhile fun p ↦ decide (p.1 < lower)).length i ∧
      s.At (kvs.takeWhile fun p ↦ decide (p.1 < upper)).length e := by
  obtain ⟨i, hlower, hi⟩ := hs.at_bound (cuts_lower lower)
  obtain ⟨e, hupper, he⟩ := hs.at_bound (cuts_lower upper)
  refine ⟨i, e, ?_, hlower, hupper, hi, he⟩
  simp only [SpacesIterator.create, SpacesIterator.setUpper, SpacesIterator.setLower,
    show s.lowerBound upper = some e from hupper, show s.lowerBound lower = some i from hlower,
    Option.map_some, Option.bind_eq_bind, Option.bind_some]
  rfl

/-- An event keeps the position where it is noticed under these conditions only. -/
theorem tracked_step_iff {reader : Bool} {w : Watched K V} {it : LuaIterator K}
    (hs : Fitting tr w.tree) (ht : Tracked w.tree it.toSpacesIterator)
    {event : IteratorEvent K V} (hevent : event.Fitting tr) (hnoticed : Noticed reader it event) :
    (∃ r, iteratorStep reader (w, it) event = some r ∧ Tracked r.1.tree r.2.toSpacesIterator) ↔
      Keeping reader (w, it) event := by
  obtain ⟨kvs, hs, hlen⟩ := hs
  have hmap {w : Watched K V} {o : Option (SpacesIterator K)}
      {f : SpacesIterator K → LuaIterator K} (hf : ∀ r, (f r).toSpacesIterator = r) :
      (∃ r, (o.map f).map (Prod.mk w) = some r ∧ Tracked r.1.tree r.2.toSpacesIterator) ↔
        ∃ it', o = some it' ∧ Tracked w.tree it' := by
    simp only [Option.map_eq_some_iff]
    constructor
    · rintro ⟨_, ⟨_, ⟨it', ho, rfl⟩, rfl⟩, ht'⟩
      exact ⟨it', ho, hf it' ▸ ht'⟩
    · rintro ⟨it', ho, ht'⟩
      exact ⟨_, ⟨_, ⟨it', ho, rfl⟩, rfl⟩, (hf it').symm ▸ ht'⟩
  cases event with
  | access w' =>
    obtain ⟨kvs', hs', -⟩ := id hevent
    obtain ⟨r, hr, -⟩ := ht.position
    have hrecovers : it.Recovers w' reader := hnoticed
    rw [Keeping, if_pos hrecovers, iteratorStep, hrecovers.getIterator_eq]
    have hpos : 0 ≤ it.position := by omega
    exact (hmap fun _ ↦ rfl).trans (tracked_recover_iff hs' hpos)
  | start => exact iff_of_true ⟨_, rfl, ht.start_spec hs⟩ trivial
  | next =>
    refine iff_of_true ?_ trivial
    rw [iteratorStep]
    split
    · exact ⟨_, rfl, ht⟩
    · next hend => exact (hmap fun _ ↦ rfl).2 (ht.next_spec hs hend)
  | previous =>
    refine iff_of_true ?_ trivial
    rw [iteratorStep]
    split
    · exact ⟨_, rfl, ht⟩
    · next hfirst => exact (hmap fun _ ↦ rfl).2 (ht.previous_spec hs hfirst)
  | move index => exact (hmap fun _ ↦ rfl).trans (tracked_move_iff hs ht index)
  | last => exact (hmap fun _ ↦ rfl).trans (tracked_last_iff hs hlen ht)

private theorem Tracked.step {reader : Bool} {w : Watched K V} {it : LuaIterator K}
    (hs : Fitting tr w.tree) (ht : Tracked w.tree it.toSpacesIterator) {event : IteratorEvent K V}
    (hevent : event.Fitting tr) (hkeep : Keeping reader (w, it) event) :
    ∃ r, iteratorStep reader (w, it) event = some r ∧ Tracked r.1.tree r.2.toSpacesIterator := by
  by_cases hnoticed : Noticed reader it event
  · exact (tracked_step_iff hs ht hevent hnoticed).2 hkeep
  · cases event with
    | access w' =>
      obtain ⟨kvs, hs, -⟩ := hs
      obtain ⟨kvs', hs', -⟩ := id hevent
      have hkept : ¬it.Recovers w' reader := hnoticed
      rw [Keeping, if_neg hkept] at hkeep
      exact ⟨(w', it), congrArg (Option.map _) (LuaIterator.getIterator_of_not hkept),
        ht.change hs hs' hkeep⟩
    | _ => exact absurd trivial hnoticed

/-- A new iterator is tracked where its bounds are not reversed over entries. -/
theorem tracked_create_iff (hs : Searchable tr s kvs) :
    (∃ it, SpacesIterator.create s lower upper = some it ∧ Tracked s it) ↔
      Contains s lower upper 0 := by
  obtain ⟨i, e, hcreate, hlower, hupper, hi, he⟩ := create_spec hs lower upper
  have hiff : Tracked s ⟨upper, lower, 0, i, i, e⟩ ↔ _ := tracked_iff_of_at hs hi hi he
  rw [contains_iff hs hlower hupper hi he, hcreate]
  simp only [Option.some.injEq, exists_eq_left', hiff]
  omega

/-- In the range `get_at` finds the entries that are not before the current one. -/
theorem getAt_iff (hs : Searchable tr s kvs) (ht : Tracked s it) {k : ℤ} {j : Iterator}
    (hj : EntryAfter s it k j) : it.getAt s k = some j ↔ 0 ≤ k := by
  obtain ⟨a, r, b, hr, hle, ha, hi, he⟩ := (tracked_iff hs).1 ht
  obtain ⟨n, hn, hahead, l, hrest⟩ := hj
  have hat := (hs.ahead_iff ha).1 hahead
  have hb := hs.at_index he ((hs.ahead_iff hat).1 hrest)
  obtain ⟨j', hj', hat'⟩ := hs.advance_at hi he hle k
  rw [SpacesIterator.getAt, hj', Option.some.injEq]
  constructor
  · rintro rfl
    have := hs.at_index hat hat'
    omega
  · intro hk
    refine hs.at_unique hat' ?_
    rwa [show min (a + r + k.natAbs) b = a + n by omega]

private theorem fitting_step {reader : Bool} {w : Watched K V} {it : LuaIterator K}
    (hs : Fitting tr w.tree) {event : IteratorEvent K V} (hevent : event.Fitting tr)
    {r : Watched K V × LuaIterator K} (h : iteratorStep reader (w, it) event = some r) :
    Fitting tr r.1.tree := by
  have hmap {w : Watched K V} {o : Option (LuaIterator K)} (hw : Fitting tr w.tree)
      (h : o.map (Prod.mk w) = some r) : Fitting tr r.1.tree := by
    obtain ⟨it', -, rfl⟩ := Option.map_eq_some_iff.1 h
    exact hw
  cases event with
  | access w' => exact hmap hevent h
  | start => exact Option.some.inj h ▸ hs
  | next | previous =>
    rw [iteratorStep] at h
    split at h
    · exact Option.some.inj h ▸ hs
    · exact hmap hs h
  | move | last => exact hmap hs h

/-- In a run whose events all keep the position, it is the number of entries from the start. The
conditions are exact for every event that is noticed: no other event keeps it, and `get_at` finds no
entry before the current one. -/
theorem tracked_of_reached {reader : Bool} {w₀ w : Watched K V} {it₀ it : LuaIterator K}
    (hs₀ : Fitting tr w₀.tree) (hcreate : LuaIterator.create w₀ lower upper = some it₀)
    (hbounds : Contains w₀.tree lower upper 0)
    (h : Reached (iteratorStep reader)
      (fun p event ↦ event.Fitting tr ∧ Keeping reader p event) (w₀, it₀) (w, it)) :
    Tracked w.tree it.toSpacesIterator ∧
      (∀ event : IteratorEvent K V, event.Fitting tr → Noticed reader it event →
        ((∃ r, iteratorStep reader (w, it) event = some r ∧
          Tracked r.1.tree r.2.toSpacesIterator) ↔ Keeping reader (w, it) event)) ∧
      ∀ k j, EntryAfter w.tree it.toSpacesIterator k j →
        (it.getAt w.tree k = some j ↔ 0 ≤ k) := by
  have hstart : Tracked w₀.tree it₀.toSpacesIterator := by
    obtain ⟨kvs, hs, -⟩ := id hs₀
    obtain ⟨it', hcreate', ht⟩ := (tracked_create_iff hs).2 hbounds
    rw [LuaIterator.create, hcreate'] at hcreate
    cases hcreate
    exact ht
  obtain ⟨hs, ht⟩ : Fitting tr w.tree ∧ Tracked w.tree it.toSpacesIterator := by
    refine h.invariant (fun p ↦ Fitting tr p.1.tree ∧ Tracked p.1.tree p.2.toSpacesIterator)
      ⟨hs₀, hstart⟩ ?_
    rintro ⟨w, it⟩ r event ⟨hs, ht⟩ ⟨hevent, hkeep⟩ hstep
    refine ⟨fitting_step hs hevent hstep, ?_⟩
    obtain ⟨r', hstep', ht'⟩ := ht.step hs hevent hkeep
    exact Option.some.inj (hstep.symm.trans hstep') ▸ ht'
  refine ⟨ht, fun event ↦ tracked_step_iff hs ht, fun k j hj ↦ ?_⟩
  obtain ⟨kvs, hs, -⟩ := hs
  exact getAt_iff hs ht hj

end Indices

/-! ### What is noticed -/

section Synced

variable {w w' : Watched K V} {it : LuaIterator K} {lower upper : K}

/-- The check points are those of the tree. -/
structure Synced (w : Watched K V) (it : LuaIterator K) : Prop where
  current : it.iCheck = w.checkPoint it.i
  start : it.sCheck = w.checkPoint it.s
  db : it.db = w.db

omit [LinearOrder K] [Inhabited K] in
private theorem hasChanged_iff (i : Iterator) :
    w'.hasChanged i (w.checkPoint i) = true ↔ i.1 ≠ 0 ∧ w.changes i.1 ≠ w'.changes i.1 := by
  rw [Watched.hasChanged, Watched.checkPoint]
  by_cases hi : i.1 = 0 <;> simp [hi]

omit [LinearOrder K] [Inhabited K] in
/-- An iterator that was looked at is recovered by the next call of a writer where another database
was opened, or where the leaf of its current entry or of its start has counted a change since. -/
theorem Synced.recovers_iff (h : Synced w it) : it.Recovers w' false ↔
    w.db ≠ w'.db ∨ ∃ i ∈ [it.i, it.s], i.1 ≠ 0 ∧ w.changes i.1 ≠ w'.changes i.1 := by
  rw [LuaIterator.Recovers, LuaIterator.isValid, h.current, h.start, h.db]
  simp only [true_and, Bool.and_eq_false_iff, Bool.not_eq_eq_eq_not, Bool.not_false,
    hasChanged_iff, List.mem_cons, List.not_mem_nil, or_false, exists_eq_or_imp, exists_eq_left]

omit [LinearOrder K] [Inhabited K] in
private theorem checkPoint_congr {i j : Iterator} (h : j.1 = i.1) :
    w.checkPoint j = w.checkPoint i := by
  rw [Watched.checkPoint, Watched.checkPoint, h]

private theorem synced_recoverBase {r : LuaIterator K} (h : it.recoverBase w = some r)
    (hdb : it.db = w.db) : Synced w r := by
  obtain ⟨base, -, rfl⟩ := Option.map_eq_some_iff.1 h
  exact ⟨rfl, rfl, hdb⟩

omit [LinearOrder K] [Inhabited K] in
private theorem Synced.moved (h : Synced w it) {base : SpacesIterator K} {c : ℕ}
    (hs : base.s = it.s) (hc : c = w.checkPoint base.i) :
    Synced w { it with toSpacesIterator := base, iCheck := c } :=
  ⟨hc, h.start.trans (congrArg w.checkPoint hs.symm), h.db⟩

omit [LinearOrder K] [Inhabited K] in
/-- A step back from behind the first slot stays in the leaf. -/
theorem leaf_of_prev {s : Btree K V} {i j : Iterator} (h : s.prev i = some j) (hi : 0 < i.2) :
    j.1 = i.1 := by
  unfold Btree.prev at h
  obtain ⟨n, -, h⟩ := Option.bind_eq_some_iff.1 h
  rw [if_pos hi] at h
  cases h
  rfl

omit [LinearOrder K] [Inhabited K] in
/-- A jump in the leaf of the end stays there. -/
theorem leaf_of_advance {s : Btree K V} {i j e : Iterator} {n : ℤ} (h : s.advance i n e = some j)
    (hi : i.1 = 0 ∨ e.1 = i.1) : j.1 = i.1 := by
  unfold Btree.advance at h
  split at h
  · exact Option.some.inj h ▸ rfl
  · next hne =>
    rw [if_pos (hi.resolve_left hne)] at h
    exact Option.some.inj h ▸ rfl

/-- A writer's iterator has the check points of the tree after every event. -/
theorem Synced.step (h : Synced w it) {event : IteratorEvent K V}
    {r : Watched K V × LuaIterator K} (hstep : iteratorStep false (w, it) event = some r) :
    Synced r.1 r.2 := by
  cases event with
  | access w' =>
    obtain ⟨it', hget, rfl⟩ := Option.map_eq_some_iff.1 hstep
    by_cases hrecovers : it.Recovers w' false
    · rw [hrecovers.getIterator_eq] at hget
      exact synced_recoverBase hget rfl
    · rw [LuaIterator.getIterator_of_not hrecovers] at hget
      cases hget
      rw [h.recovers_iff, not_or, not_not] at hrecovers
      have hsame (i : Iterator) (hi : i ∈ [it.i, it.s]) : w.checkPoint i = w'.checkPoint i := by
        rw [Watched.checkPoint, Watched.checkPoint]
        split
        · rfl
        · next hne => exact not_not.1 fun hchanged ↦ hrecovers.2 ⟨i, hi, hne, hchanged⟩
      exact ⟨h.current.trans (hsame _ (by simp)), h.start.trans (hsame _ (by simp)),
        h.db.trans hrecovers.1⟩
  | start =>
    cases hstep
    exact ⟨rfl, h.start, h.db⟩
  | next =>
    rw [iteratorStep] at hstep
    split at hstep
    · cases hstep
      exact h
    · obtain ⟨it', hnext, rfl⟩ := Option.map_eq_some_iff.1 hstep
      obtain ⟨base, hbase, rfl⟩ := Option.map_eq_some_iff.1 hnext
      obtain ⟨j, -, rfl⟩ := Option.map_eq_some_iff.1 hbase
      refine h.moved rfl ?_
      split
      · next hleaf => exact h.current.trans (checkPoint_congr hleaf).symm
      · rfl
  | previous =>
    rw [iteratorStep] at hstep
    split at hstep
    · cases hstep
      exact h
    · obtain ⟨it', hprevious, rfl⟩ := Option.map_eq_some_iff.1 hstep
      obtain ⟨base, hbase, rfl⟩ := Option.map_eq_some_iff.1 hprevious
      obtain ⟨j, hj, hbase⟩ := Option.bind_eq_some_iff.1 hbase
      cases hbase
      refine h.moved rfl ?_
      split
      · next hslot => exact h.current.trans (checkPoint_congr (leaf_of_prev hj hslot)).symm
      · rfl
  | move index =>
    obtain ⟨it', hmove, rfl⟩ := Option.map_eq_some_iff.1 hstep
    obtain ⟨base, hbase, rfl⟩ := Option.map_eq_some_iff.1 hmove
    obtain ⟨j, hj, hbase⟩ := Option.bind_eq_some_iff.1 hbase
    cases hbase
    refine h.moved rfl ?_
    split
    · next hleaf => exact h.current.trans (checkPoint_congr (leaf_of_advance hj hleaf)).symm
    · rfl
  | last =>
    obtain ⟨it', hlast, rfl⟩ := Option.map_eq_some_iff.1 hstep
    obtain ⟨base, hbase, rfl⟩ := Option.map_eq_some_iff.1 hlast
    obtain ⟨position, -, hbase⟩ := Option.bind_eq_some_iff.1 hbase
    obtain ⟨j, hj, hbase⟩ := Option.bind_eq_some_iff.1 hbase
    cases hbase
    refine h.moved rfl ?_
    split
    · next hslot => exact (checkPoint_congr (leaf_of_prev hj hslot)).symm
    · rfl

/-- In every run of a writer the next call recovers the iterator where another database was opened,
or where the leaf of the current entry or of the start has counted a change since. -/
theorem recovers_iff_of_reached {w₀ : Watched K V} {it₀ : LuaIterator K}
    (hcreate : LuaIterator.create w₀ lower upper = some it₀)
    (h : Reached (iteratorStep false) (fun _ _ ↦ True) (w₀, it₀) (w, it)) (w' : Watched K V) :
    it.Recovers w' false ↔
      w.db ≠ w'.db ∨ ∃ i ∈ [it.i, it.s], i.1 ≠ 0 ∧ w.changes i.1 ≠ w'.changes i.1 := by
  have hsynced : Synced w it := by
    refine h.invariant (fun p ↦ Synced p.1 p.2) ?_ fun _ _ _ hp _ hstep ↦ hp.step hstep
    obtain ⟨base, -, rfl⟩ := Option.map_eq_some_iff.1 hcreate
    exact ⟨rfl, rfl, rfl⟩
  exact hsynced.recovers_iff

end Synced

/-- The tree with the keys 1, 2 and 3. -/
def threeKeys : Option (Btree ℕ ℕ) :=
  ((blank ⟨fun _ ↦ none, fun _ ↦ none, 0⟩).run Traits.perPage
    [.insert 1 10, .insert 2 20, .insert 3 30]).map Prod.fst

private theorem exists_threeKeys :
    ∃ s, threeKeys = some s ∧ Represents Traits.perPage s [(1, 10), (2, 20), (3, 30)] := by
  have hst : (⟨fun _ ↦ none, fun _ ↦ none, 0⟩ : Storage ℕ ℕ).Unlooped := fun _ _ h ↦ nomatch h
  obtain ⟨s, heq, hs, -⟩ := run_spec (m := OrderedMap.empty)
    (represents_blank hst) [.insert 1 10, .insert 2 20, .insert 3 30]
  exact ⟨s, congrArg (Option.map Prod.fst) heq, hs⟩

/-- A tree that nobody changes. -/
def quiet {K V : Type} (tree : Btree K V) : Watched K V := ⟨tree, fun _ ↦ 0, 0⟩

/-- A new iterator over the three keys. -/
theorem exists_overThreeKeys :
    ∃ s it, threeKeys = some s ∧ Searchable Traits.perPage s [(1, 10), (2, 20), (3, 30)] ∧
      LuaIterator.create (quiet s) 1 9 = some it ∧ Contains s 1 9 0 ∧ it.position = 0 ∧
      s.At 0 it.s ∧ s.At 0 it.i ∧ s.At 3 it.e := by
  obtain ⟨s, heq, hs⟩ := exists_threeKeys
  obtain ⟨i, e, hcreate, hlower, hupper, hi, he⟩ := create_spec hs.searchable 1 9
  refine ⟨s, _, heq, hs.searchable, congrArg (Option.map _) hcreate, ?_, rfl, hi, hi, he⟩
  exact (contains_iff hs.searchable hlower hupper hi he 0).2 (by decide)

/-- A move by two entries. -/
theorem tracked_of_reached_move :
    ∃ s it it', threeKeys = some s ∧ LuaIterator.create (quiet s) 1 9 = some it ∧
      it.move (quiet s) 2 = some it' ∧ Tracked s it'.toSpacesIterator := by
  obtain ⟨s, it, heq, hs, hcreate, hbounds, hpos, hstart, hi, he⟩ := exists_overThreeKeys
  have hkeep : (0 : ℤ) ≤ 2 ∧ ∃ m : ℕ, s.Ahead it.i m it.e ∧ (2 : ℤ) ≤ m :=
    ⟨by decide, 3, (hs.ahead_iff hi).2 he, by decide⟩
  have ht : Tracked s it.toSpacesIterator :=
    (tracked_iff_of_at hs hstart hi he).2 ⟨by rw [hpos]; rfl, hpos.ge, Nat.zero_le 3⟩
  obtain ⟨r, hmove, -⟩ := (tracked_move_iff hs ht 2).2 hkeep
  obtain ⟨it', hmove'⟩ : ∃ it', it.move (quiet s) 2 = some it' :=
    ⟨_, congrArg (Option.map _) hmove⟩
  have hstep : iteratorStep false (quiet s, it) (.move 2) = some (quiet s, it') :=
    congrArg (Option.map _) hmove'
  exact ⟨s, it, it', heq, hcreate, hmove', (tracked_of_reached ⟨_, hs, by decide⟩ hcreate hbounds
    (.next .start (a := .move 2) ⟨trivial, hkeep⟩ hstep)).1⟩

/-- After `last` the position is one more than the number of entries before the last one. -/
theorem not_tracked_last :
    ¬∀ (reader : Bool) (w₀ w : Watched ℕ ℕ) (it₀ it : LuaIterator ℕ) (lower upper : ℕ),
      Fitting Traits.perPage w₀.tree → LuaIterator.create w₀ lower upper = some it₀ →
        Reached (iteratorStep reader) (fun _ event ↦ event.Fitting Traits.perPage)
          (w₀, it₀) (w, it) → Tracked w.tree it.toSpacesIterator := by
  intro hclaim
  obtain ⟨s, it, -, hs, hcreate, -, hpos, hstart, hi, he⟩ := exists_overThreeKeys
  have hfitting : Fitting Traits.perPage (quiet s).tree := ⟨_, hs, by decide⟩
  have ht := hclaim false _ _ it it 1 9 hfitting hcreate .start
  obtain ⟨j, hj, -⟩ := hs.prev_at he (List.cons_ne_nil _ _)
  have hlast : it.toSpacesIterator.last s =
      some { it.toSpacesIterator with position := 3, i := j } := by
    rw [SpacesIterator.last, hs.count_at hi he (Nat.zero_le 3), hj]
    rfl
  have ht' := hclaim false _ _ it _ 1 9 hfitting hcreate
    (.next .start (a := .last) trivial
      (congrArg (Option.map (Prod.mk (quiet s))) (congrArg (Option.map _) hlast)))
  rcases (tracked_last_iff hs (by decide) ht).1 ⟨_, hlast, ht'⟩ with hone | ⟨hfirst, -⟩
  · rw [hpos] at hone
    cases hone
  · exact absurd (hs.at_index he (hfirst ▸ at_firstPlace)) (by decide)

end LibSpaces.Spaces
