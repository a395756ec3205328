import Mathlib.Order.Nat
import Mathlib.Order.WithBot
import LibSpaces.Spaces.RangeQuery
import LibSpaces.Stx.Indices

/-!
# The entries of a container

`last`, `first` and `len`, `src/src/storage/interface/spaces_session.h:316–363`. The name of a key
that is just made is the least of the names, and the name after `make_infinity` is the greatest one.
-/

namespace LibSpaces.Spaces

open LibSpaces.Base LibSpaces.Stx LibSpaces.Stx.Btree

namespace SpacesSession

variable {N V : Type} [LinearOrder N] [BoundedOrder N] [Inhabited N]

section Source

variable (tree : Btree (NameKey N) V) (identity : UInt64)

/-- `last`, `spaces_session.h:316–334`. -/
def last : Option (Option Iterator) := do
  if 0 < tree.stats.treeSize ∧ 0 < identity then
    let li ← tree.upperBound ⟨identity, ⊤⟩
    let li ← tree.prev li
    let p ← tree.deref li
    if p.1.context = identity then return some li
    else return none
  else return none

/-- `first`, `spaces_session.h:336–346`. -/
def first : Option (Option Iterator) := do
  if 0 < tree.stats.treeSize ∧ 0 < identity then
    let fi ← tree.lowerBound ⟨identity, ⊥⟩
    let e ← tree.endIterator
    if fi = e then return none
    else
      let p ← tree.deref fi
      if p.1.context = identity then return some fi
      else return none
  else return none

/-- `len`, `spaces_session.h:347–362`. -/
def len : Option UInt64 := do
  if 0 < identity then
    let fi ← tree.lowerBound ⟨identity, ⊥⟩
    let e ← tree.endIterator
    if fi = e then return 0
    else
      let u ← tree.upperBound ⟨identity, ⊤⟩
      tree.count fi u
  else return 0

end Source

end SpacesSession

section Contained

variable {N V : Type}

/-- The entries of a container. -/
def contained (kvs : List (NameKey N × V)) (identity : UInt64) : List (NameKey N × V) :=
  kvs.filter fun p ↦ p.1.context = identity

/-- The iterator, if there is one, is at an entry that is first in this order. -/
def FindsFirst (s : Btree (NameKey N) V) (entries : List (NameKey N × V))
    (le : NameKey N → NameKey N → Prop) : Option Iterator → Prop
  | none => entries = []
  | some i => ∃ p ∈ entries, s.deref i = some p ∧ ∀ q ∈ entries, le p.1 q.1

/-- What a session says about a container. -/
structure Entries [LinearOrder N] [BoundedOrder N] [Inhabited N] (s : Btree (NameKey N) V)
    (identity : UInt64) (entries : List (NameKey N × V)) : Prop where
  len : SpacesSession.len s identity = some (.ofNat entries.length)
  first : ∃ found, SpacesSession.first s identity = some found ∧ FindsFirst s entries (· ≤ ·) found
  last : ∃ found, SpacesSession.last s identity = some found ∧ FindsFirst s entries (· ≥ ·) found

variable [LinearOrder N] {kvs : List (NameKey N × V)}

namespace NameKey

private theorem context_mono {a b : NameKey N} (h : a ≤ b) : a.context ≤ b.context := by
  rcases le_iff.1 h with h | ⟨h, -⟩
  · exact UInt64.le_of_lt h
  · exact h ▸ UInt64.le_refl _

variable [BoundedOrder N] {k : NameKey N} {c : UInt64}

private theorem lt_bot_iff : k < ⟨c, ⊥⟩ ↔ k.context < c := by
  rw [lt_iff]
  simp

private theorem le_top_iff : k ≤ ⟨c, ⊤⟩ ↔ k.context ≤ c := by
  rw [le_iff, UInt64.le_iff_lt_or_eq]
  simp

end NameKey

/-- The entries lie behind those of the containers before. -/
theorem filter_context_le (h : Sorted kvs) (c : UInt64) :
    (kvs.filter fun p ↦ p.1.context ≤ c) =
      (kvs.filter fun p ↦ p.1.context < c) ++ contained kvs c := by
  have hsplit := Sorted.eq_append_filter (h.filter fun p ↦ decide (p.1.context ≤ c))
    (fun k ↦ k.context < c)
    fun a b hab hb ↦ UInt64.lt_of_le_of_lt (NameKey.context_mono hab) hb
  rw [List.filter_filter, List.filter_filter] at hsplit
  refine hsplit.trans (congrArg₂ (· ++ ·) ?_ ?_)
  · refine List.filter_congr fun p _ ↦ ?_
    rw [Bool.and_eq_left_iff_imp, decide_eq_true_eq, decide_eq_true_eq]
    exact UInt64.le_of_lt
  · refine List.filter_congr fun p _ ↦ ?_
    rw [← Bool.decide_and, decide_eq_decide, UInt64.not_lt, ← UInt64.le_antisymm_iff, eq_comm]

/-- The other containers lie before and after the entries. -/
theorem eq_append_contained (h : Sorted kvs) (c : UInt64) :
    kvs = (kvs.filter fun p ↦ p.1.context < c) ++
      (contained kvs c ++ kvs.filter fun p ↦ ¬p.1.context ≤ c) := by
  rw [← List.append_assoc, ← filter_context_le h c]
  exact h.eq_append_filter (fun k ↦ k.context ≤ c)
    fun a b hab hb ↦ UInt64.le_trans (NameKey.context_mono hab) hb

omit [LinearOrder N] in
private theorem context_ne {p : NameKey N × V} {c : UInt64} (hp : p ∈ kvs)
    (hnone : contained kvs c = []) :
    p.1.context ≠ c := fun hcontext ↦ by
  have hmem : p ∈ contained kvs c := List.mem_filter.2 ⟨hp, decide_eq_true hcontext⟩
  rw [hnone] at hmem
  cases hmem

omit [LinearOrder N] in
private theorem context_eq_of_mem {p : NameKey N × V} {c : UInt64} (hp : p ∈ contained kvs c) :
    p.1.context = c := of_decide_eq_true (List.mem_filter.1 hp).2

variable [BoundedOrder N] [Inhabited N] {tr : Traits} {s : Btree (NameKey N) V} {c : UInt64}

/-- The bounds of a container are the places of its first entry and behind its last one. -/
theorem at_contained (hs : Searchable tr s kvs) (c : UInt64) :
    ∃ k i u, s.lowerBound ⟨c, ⊥⟩ = some i ∧ s.upperBound ⟨c, ⊤⟩ = some u ∧ s.At k i ∧
      s.At (k + (contained kvs c).length) u ∧
      ∀ n < (contained kvs c).length, kvs[k + n]? = (contained kvs c)[n]? := by
  obtain ⟨i, hlower, hi⟩ := hs.at_bound (cuts_lower ⟨c, ⊥⟩)
  obtain ⟨u, hupper, hu⟩ := hs.at_bound (cuts_upper ⟨c, ⊤⟩)
  simp only [NameKey.lt_bot_iff] at hi
  simp only [NameKey.le_top_iff] at hu
  rw [hs.sorted.takeWhile_eq_filter
    fun a b hab hb ↦ UInt64.lt_of_le_of_lt (NameKey.context_mono hab) hb] at hi
  rw [hs.sorted.takeWhile_eq_filter
    fun a b hab hb ↦ UInt64.le_trans (NameKey.context_mono hab) hb,
    filter_context_le hs.sorted, List.length_append] at hu
  refine ⟨_, i, u, hlower, hupper, hi, hu, fun n hn ↦ ?_⟩
  nth_rewrite 1 [eq_append_contained hs.sorted c]
  rw [List.getElem?_append_right (Nat.le_add_right _ n), Nat.add_sub_cancel_left,
    List.getElem?_append_left hn]

private theorem len_spec (hs : Searchable tr s kvs) (hc : c ≠ 0) :
    SpacesSession.len s c = some (.ofNat (contained kvs c).length) := by
  obtain ⟨k, i, u, hlower, hupper, hi, hu, -⟩ := at_contained hs c
  obtain ⟨e, hend, he⟩ := hs.exists_end
  rw [SpacesSession.len, if_pos (UInt64.pos_iff_ne_zero.2 hc), hlower, hend, hupper]
  simp only [Option.bind_eq_bind, Option.bind_some]
  split
  · next hie =>
    have hk := hs.at_index hi (hie ▸ he)
    have hle := hs.le_length hu
    rw [show (contained kvs c).length = 0 by omega]
    rfl
  · rw [hs.count_at hi hu (Nat.le_add_right k _), Nat.add_sub_cancel_left]

private theorem first_spec (hs : Searchable tr s kvs) (hc : c ≠ 0) :
    ∃ found, SpacesSession.first s c = some found ∧
      FindsFirst s (contained kvs c) (· ≤ ·) found := by
  obtain ⟨k, i, u, hlower, -, hi, hu, hat⟩ := at_contained hs c
  obtain ⟨e, hend, he⟩ := hs.exists_end
  have hle := hs.le_length hu
  rw [SpacesSession.first, treeSize_spec hs, hlower, hend]
  simp only [Option.bind_eq_bind, Option.bind_some]
  cases hcontained : contained kvs c with
  | nil =>
    split
    · split
      · exact ⟨none, rfl, rfl⟩
      · next hie =>
        have hk : k < kvs.length :=
          lt_of_le_of_ne (by omega) fun hk ↦ hie (hs.at_unique hi (hk ▸ he))
        rw [hs.deref_at hi hk, Option.bind_some,
          if_neg (context_ne (List.getElem_mem hk) hcontained)]
        exact ⟨none, rfl, rfl⟩
    · exact ⟨none, rfl, rfl⟩
  | cons p rest =>
    have hmem : p ∈ contained kvs c := hcontained ▸ List.mem_cons_self
    have hsorted : Sorted (contained kvs c) := hs.sorted.filter _
    rw [hcontained] at hat hsorted hle
    rw [List.length_cons] at hle
    have hk : k < kvs.length := by omega
    have hp : s.deref i = some p := by
      rw [hs.deref_at hi hk, ← List.getElem?_eq_getElem hk]
      exact hat 0 (Nat.succ_pos _)
    have hie : i ≠ e := fun hie ↦ hk.ne (hs.at_index hi (hie ▸ he))
    rw [if_pos ⟨Nat.zero_lt_of_lt hk, UInt64.pos_iff_ne_zero.2 hc⟩, if_neg hie, hp,
      Option.bind_some, if_pos (context_eq_of_mem hmem)]
    refine ⟨some i, rfl, p, List.mem_cons_self, hp, fun q hq ↦ ?_⟩
    rcases List.mem_cons.1 hq with rfl | hq
    · exact le_rfl
    · exact ((sorted_cons.1 hsorted).1 q hq).le

private theorem last_spec (hs : Searchable tr s kvs) (hc : c ≠ 0) :
    ∃ found, SpacesSession.last s c = some found ∧
      FindsFirst s (contained kvs c) (· ≥ ·) found := by
  obtain ⟨k, i, u, -, hupper, -, hu, hat⟩ := at_contained hs c
  have hle := hs.le_length hu
  have hsorted : Sorted (contained kvs c) := hs.sorted.filter _
  rcases List.eq_nil_or_concat' (contained kvs c) with hcontained | ⟨rest, p, hcontained⟩
  · rw [SpacesSession.last, treeSize_spec hs]
    split
    · next h =>
      obtain ⟨li, hprev, hli⟩ := hs.prev_at hu (List.ne_nil_of_length_pos h.1)
      have hk : k + (contained kvs c).length - 1 < kvs.length := by omega
      rw [hupper]
      simp only [Option.bind_eq_bind, Option.bind_some, hprev, hs.deref_at hli hk]
      rw [if_neg (context_ne (List.getElem_mem hk) hcontained)]
      exact ⟨none, rfl, hcontained⟩
    · exact ⟨none, rfl, hcontained⟩
  · have hmem : p ∈ contained kvs c := by simp [hcontained]
    have hlength : (contained kvs c).length = rest.length + 1 := by simp [hcontained]
    have hpos : 0 < kvs.length := by omega
    obtain ⟨li, hprev, hli⟩ := hs.prev_at hu (List.ne_nil_of_length_pos hpos)
    rw [show k + (contained kvs c).length - 1 = k + rest.length by omega] at hli
    have hk : k + rest.length < kvs.length := by omega
    have hp : s.deref li = some p := by
      rw [hs.deref_at hli hk, ← List.getElem?_eq_getElem hk, hat _ (by omega), hcontained,
        List.getElem?_concat_length]
    rw [SpacesSession.last, treeSize_spec hs, if_pos ⟨hpos, UInt64.pos_iff_ne_zero.2 hc⟩, hupper]
    simp only [Option.bind_eq_bind, Option.bind_some, hprev, hp]
    rw [if_pos (context_eq_of_mem hmem)]
    refine ⟨some li, rfl, p, hmem, hp, fun q hq ↦ ?_⟩
    rw [hcontained] at hsorted hq
    rcases List.mem_append.1 hq with hq | hq
    · exact ((sorted_append.1 hsorted).2.2 q hq p List.mem_cons_self).le
    · exact (List.mem_singleton.1 hq) ▸ le_rfl

/-- The session knows the entries of each container that has an identity. -/
theorem entries_spec (hs : Searchable tr s kvs) (hc : c ≠ 0) : Entries s c (contained kvs c) :=
  ⟨len_spec hs hc, first_spec hs hc, last_spec hs hc⟩

/-- Nothing is found without an identity. -/
theorem entries_zero (s : Btree (NameKey N) V) :
    SpacesSession.len s 0 = some 0 ∧ SpacesSession.first s 0 = some none ∧
      SpacesSession.last s 0 = some none := by
  refine ⟨rfl, if_neg ?_, if_neg ?_⟩ <;> exact fun h ↦ UInt64.lt_irrefl _ h.2

end Contained

/-- A count is the number of steps, and what a session says about a container with an identity
agrees with the entries. -/
theorem counts_entries {K N V W : Type} [LinearOrder K] [Inhabited K] [LinearOrder N]
    [BoundedOrder N] [Inhabited N] {tr : Traits} {s : Btree K V} {kvs : List (K × V)}
    (hs : Searchable tr s kvs) {s' : Btree (NameKey N) W} {kvs' : List (NameKey N × W)}
    (hs' : Searchable tr s' kvs') :
    (∀ i j n, s.Position i → s.Ahead i n j → s.count i j = some (.ofNat n)) ∧
      (∀ identity, identity ≠ 0 → Entries s' identity (contained kvs' identity)) ∧
      SpacesSession.len s' 0 = some 0 ∧ SpacesSession.first s' 0 = some none ∧
      SpacesSession.last s' 0 = some none :=
  ⟨fun _ _ _ hi h ↦ count_of_ahead hs hi h, fun _ hc ↦ entries_spec hs' hc, entries_zero s'⟩

/-- A tree with an entry of no container and one of container 1. -/
def rootAndEntry : Option (Btree (NameKey (WithTop ℕ)) ℕ) :=
  ((blank ⟨fun _ ↦ none, fun _ ↦ none, 0⟩).run Traits.perPage
    [.insert ⟨0, some 3⟩ 10, .insert ⟨1, some 5⟩ 20]).map Prod.fst

private theorem exists_rootAndEntry :
    ∃ s, rootAndEntry = some s ∧
      Represents Traits.perPage s [(⟨0, some 3⟩, 10), (⟨1, some 5⟩, 20)] := by
  have hst : (⟨fun _ ↦ none, fun _ ↦ none, 0⟩ : Storage (NameKey (WithTop ℕ)) ℕ).Unlooped :=
    fun _ _ h ↦ nomatch h
  obtain ⟨s, heq, hs, -⟩ := run_spec (m := OrderedMap.empty)
    (represents_blank hst) [.insert ⟨0, some 3⟩ 10, .insert ⟨1, some 5⟩ 20]
  exact ⟨s, congrArg (Option.map Prod.fst) heq, hs⟩

/-- A set with its root and one entry of it. -/
theorem counts_entries_rootAndEntry :
    ∃ s, rootAndEntry = some s ∧ Entries s 1 [(⟨1, some 5⟩, 20)] := by
  obtain ⟨s, heq, hs⟩ := exists_rootAndEntry
  exact ⟨s, heq, (counts_entries hs.searchable hs.searchable).2.1 1 (by decide)⟩

/-- The entries without a container are not counted. -/
theorem not_counts_entries :
    ¬∀ (s : Btree (NameKey (WithTop ℕ)) ℕ) (kvs : List (NameKey (WithTop ℕ) × ℕ)),
      Represents Traits.perPage s kvs →
        (∀ i j n, s.Position i → s.Ahead i n j → s.count i j = some (.ofNat n)) ∧
          ∀ identity, Entries s identity (contained kvs identity) := by
  intro hentries
  obtain ⟨s, -, hs⟩ := exists_rootAndEntry
  have hlen := ((hentries s _ hs).2 0).len
  rw [(entries_zero s).1] at hlen
  exact absurd hlen (by decide +kernel)

end LibSpaces.Spaces
