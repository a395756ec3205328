import Mathlib.Data.Prod.Lex
import LibSpaces.Stx.Iterators

/-!
# Range queries

`spaces_iterator`, `src/src/storage/interface/spaces_session.h:102–204`, and the closure that Lua
calls, `src/src/storage/interface/spaces_lua.cpp:517–582`. The keys are those of a space: a context
and a name, where the names are linearly ordered by `data::compare`. Sessions, routes and the stack
of Lua are left out.
-/

namespace LibSpaces.Spaces

open LibSpaces.Base LibSpaces.Stx LibSpaces.Stx.Btree

/-- `key`, `src/src/storage/spaces/key.h:462–466`, over any names. -/
@[ext] structure NameKey (N : Type) where
  context : UInt64
  name : N
  deriving DecidableEq, Inhabited

namespace NameKey

variable {N : Type} [LinearOrder N]

/-- `operator<`, `key.h:488–491`: contexts first. -/
instance : LinearOrder (NameKey N) :=
  LinearOrder.lift' (fun k : NameKey N ↦ toLex (k.context.toNat, k.name)) fun a b h ↦ by
    simp only [toLex_inj, Prod.mk.injEq] at h
    exact NameKey.ext (UInt64.toNat_inj.1 h.1) h.2

/-- Keys are ordered by context first, then by name. -/
theorem lt_iff {a b : NameKey N} :
    a < b ↔ a.context < b.context ∨ a.context = b.context ∧ a.name < b.name := by
  rw [UInt64.lt_iff_toNat_lt, ← UInt64.toNat_inj]
  exact Prod.Lex.toLex_lt_toLex

/-- So is the order with equality. -/
theorem le_iff {a b : NameKey N} :
    a ≤ b ↔ a.context < b.context ∨ a.context = b.context ∧ a.name ≤ b.name := by
  rw [UInt64.lt_iff_toNat_lt, ← UInt64.toNat_inj]
  exact Prod.Lex.toLex_le_toLex

section Between

variable {c : UInt64} {a b : N} {k : NameKey N}

/-- Between two keys of a context there are keys of this context only. -/
theorem context_eq (ha : ⟨c, a⟩ ≤ k) (hb : k ≤ ⟨c, b⟩) : k.context = c := by
  rcases le_iff.1 ha with ha | ⟨ha, -⟩
  · rcases le_iff.1 hb with hb | ⟨hb, -⟩
    · exact absurd (UInt64.lt_trans ha hb) (UInt64.lt_irrefl _)
    · exact hb
  · exact ha.symm

private theorem mk_le_iff (hk : k.context = c) : ⟨c, a⟩ ≤ k ↔ a ≤ k.name := by
  rw [le_iff]
  simp [hk]

private theorem le_mk_iff (hk : k.context = c) : k ≤ ⟨c, b⟩ ↔ k.name ≤ b := by
  rw [le_iff]
  simp [hk]

private theorem between_lt_iff :
    ⟨c, a⟩ ≤ k ∧ k < ⟨c, b⟩ ↔ k.context = c ∧ a ≤ k.name ∧ k.name < b := by
  constructor
  · rintro ⟨ha, hb⟩
    have hk := context_eq ha hb.le
    exact ⟨hk, (mk_le_iff hk).1 ha, not_le.1 fun hle ↦ hb.not_ge ((mk_le_iff hk).2 hle)⟩
  · rintro ⟨hk, ha, hb⟩
    exact ⟨(mk_le_iff hk).2 ha, not_le.1 fun hle ↦ hb.not_ge ((mk_le_iff hk).1 hle)⟩

end Between

end NameKey

/-- `spaces_iterator`. -/
structure SpacesIterator (K : Type) where
  upper : K
  lower : K
  position : ℤ
  i : Iterator
  s : Iterator
  e : Iterator

namespace SpacesIterator

variable {K V : Type} [LinearOrder K] [Inhabited K] (it : SpacesIterator K) (tree : Btree K V)

/-- `spaces_iterator()`. -/
def new : SpacesIterator K := ⟨default, default, 0, (0, 0), (0, 0), (0, 0)⟩

/-- `set_upper`. -/
def setUpper (upper : K) : Option (SpacesIterator K) :=
  (tree.lowerBound upper).map fun e ↦ { it with e := e, upper := upper }

/-- `set_lower`. -/
def setLower (lower : K) : Option (SpacesIterator K) :=
  (tree.lowerBound lower).map fun s ↦ { it with s := s, i := s, lower := lower }

/-- `end`. -/
def atEnd : Bool := it.i == it.e

/-- `next`. -/
def next : Option (SpacesIterator K) :=
  (tree.next it.i).map fun i ↦ { it with i := i, position := it.position + 1 }

/-- `l_pairs_iter`: the pair that is returned, if there is one. -/
def pairsIter : Option (Option (K × V) × SpacesIterator K) :=
  if it.atEnd then some (none, it)
  else do
    let p ← tree.deref it.i
    let it ← it.next tree
    return (some p, it)

/-- A loop over the closure: the pairs up to the call that returns none. -/
def run : ℕ → SpacesIterator K → Option (List (K × V))
  | 0, _ => none
  | fuel + 1, it => do
    match ← it.pairsIter tree with
    | (none, _) => return []
    | (some p, it) => return p :: (← run fuel it)

end SpacesIterator

/-- `push_iterator`. -/
def pushIterator {N V : Type} [LinearOrder N] [Inhabited N] (tree : Btree (NameKey N) V)
    (identity : UInt64) (lower upper : N) : Option (SpacesIterator (NameKey N)) := do
  let it ← SpacesIterator.new.setLower tree ⟨identity, lower⟩
  it.setUpper tree ⟨identity, upper⟩

namespace SpacesIterator

section Run

variable {K V : Type} [LinearOrder K] [Inhabited K] {tr : Traits} {s : Btree K V} {h k b : ℕ}
  {t : Shape K V h} {it : SpacesIterator K}

/-- A call before the end returns a pair and goes on by one. -/
theorem pairsIter_spec (ht : Grounded tr 1 s t) (hi : Locates s.kvsAt t.leaves k it.i)
    (he : Locates s.kvsAt t.leaves b it.e) (hkb : k ≠ b) (hk : k < t.pairs.length) :
    ∃ it', it.pairsIter s = some (some t.pairs[k], it') ∧
      Locates s.kvsAt t.leaves (k + 1) it'.i ∧ it'.e = it.e := by
  have hend : ¬it.atEnd = true := fun hend ↦
    hkb (hi.index_unique ht.chain.nodup (beq_iff_eq.1 hend ▸ he))
  obtain ⟨j, hj, hat⟩ := ht.next_spec hi
  rw [Nat.min_eq_left hk] at hat
  refine ⟨{ it with i := j, position := it.position + 1 }, ?_, hat, rfl⟩
  rw [pairsIter, if_neg hend, ht.deref_spec hi, List.getElem?_eq_getElem hk, next, hj]
  rfl

/-- An iterator before its end runs over the pairs up to it. -/
theorem run_spec (ht : Grounded tr 1 s t) {n : ℕ} (hi : Locates s.kvsAt t.leaves k it.i)
    (he : Locates s.kvsAt t.leaves b it.e) (hb : k + n = b) :
    run s (n + 1) it = some ((t.pairs.take b).drop k) := by
  induction n generalizing k it with
  | zero =>
    rw [Nat.add_zero] at hb
    subst hb
    have hend : it.atEnd = true := beq_iff_eq.2 (hi.unique he)
    rw [run, pairsIter, if_pos hend, List.drop_eq_nil_of_le (List.length_take_le _ _)]
    rfl
  | succ n ih =>
    have htotal := he.le
    rw [ht.length_flatMap] at htotal
    have hk : k < t.pairs.length := by omega
    have hlt : k < (t.pairs.take b).length := by
      rw [List.length_take]
      omega
    obtain ⟨it', hcall, hi', he'⟩ := pairsIter_spec ht hi he (by omega) hk
    rw [run, hcall, List.drop_eq_getElem_cons hlt, List.getElem_take]
    simp only [Option.bind_eq_bind, Option.bind_some, ih hi' (he' ▸ he) (by omega),
      Option.pure_def]

/-- An iterator behind its end passes it never. -/
theorem run_eq_none (ht : Grounded tr 1 s t) (fuel : ℕ) (hi : Locates s.kvsAt t.leaves k it.i)
    (he : Locates s.kvsAt t.leaves b it.e) (hkb : b < k) : run s fuel it = none := by
  induction fuel generalizing k it with
  | zero => rfl
  | succ fuel ih =>
    have htotal := hi.le
    rw [ht.length_flatMap] at htotal
    rcases htotal.lt_or_eq with hk | rfl
    · obtain ⟨it', hcall, hi', he'⟩ := pairsIter_spec ht hi he hkb.ne' hk
      rw [run, hcall]
      simp only [Option.bind_eq_bind, Option.bind_some, ih hi' (he' ▸ he) (by omega),
        Option.bind_none]
    · have hend : ¬it.atEnd = true := fun hend ↦
        hkb.ne' (hi.index_unique ht.chain.nodup (beq_iff_eq.1 hend ▸ he))
      rw [run, pairsIter, if_neg hend, ht.deref_spec hi, List.getElem?_eq_none le_rfl]
      rfl

omit [LinearOrder K] [Inhabited K] in
private theorem run_le {fuel fuel' : ℕ} (hle : fuel ≤ fuel') {out : List (K × V)}
    (h : run s fuel it = some out) : run s fuel' it = some out := by
  induction fuel generalizing fuel' it out with
  | zero => cases h
  | succ fuel ih =>
    obtain ⟨fuel', rfl⟩ : ∃ f, fuel' = f + 1 := ⟨fuel' - 1, by omega⟩
    rw [run] at h ⊢
    obtain ⟨⟨o, it'⟩, hcall, hrest⟩ := Option.bind_eq_some_iff.1 h
    rw [hcall]
    cases o with
    | none => exact hrest
    | some p =>
      obtain ⟨rest, hrun, hout⟩ := Option.bind_eq_some_iff.1 hrest
      have hmore := ih (Nat.le_of_succ_le_succ hle) hrun
      simp only [Option.bind_eq_bind, Option.bind_some, hmore]
      exact hout

/-- A loop ends where the end is not before the start, with the pairs between them. -/
theorem exists_run_iff (ht : Grounded tr 1 s t) (hi : Locates s.kvsAt t.leaves k it.i)
    (he : Locates s.kvsAt t.leaves b it.e) (out : List (K × V)) :
    (∃ fuel, run s fuel it = some out) ↔ k ≤ b ∧ (t.pairs.take b).drop k = out := by
  constructor
  · rintro ⟨fuel, hrun⟩
    by_cases hkb : k ≤ b
    · refine ⟨hkb, ?_⟩
      have hspec := run_spec ht hi he (Nat.add_sub_of_le hkb)
      have hmore := run_le (Nat.le_max_left fuel (b - k + 1)) hrun
      rw [run_le (Nat.le_max_right fuel (b - k + 1)) hspec] at hmore
      exact Option.some.inj hmore
    · rw [run_eq_none ht fuel hi he (not_le.1 hkb)] at hrun
      cases hrun
  · rintro ⟨hkb, rfl⟩
    exact ⟨_, run_spec ht hi he (Nat.add_sub_of_le hkb)⟩

end Run

end SpacesIterator

section Query

variable {N V : Type} [LinearOrder N]

/-- The entries of a container between two names, both included, as `src/docs/API.md:203–226`
promises them. -/
def queried (kvs : List (NameKey N × V)) (identity : UInt64) (lower upper : N) :
    List (NameKey N × V) :=
  kvs.filter fun p ↦ p.1.context = identity ∧ lower ≤ p.1.name ∧ p.1.name ≤ upper

variable [Inhabited N]

/-- The loop over the closure ends and has returned these pairs. -/
def Answers (s : Btree (NameKey N) V) (identity : UInt64) (lower upper : N)
    (out : List (NameKey N × V)) : Prop :=
  ∃ it fuel, pushIterator s identity lower upper = some it ∧
    SpacesIterator.run s fuel it = some out

variable {tr : Traits} {s : Btree (NameKey N) V} {kvs : List (NameKey N × V)} {h : ℕ}
  {t : Shape (NameKey N) V h}

/-- What is returned lies from the lower bound on and before the upper bound. -/
theorem answers_spec (hs : Searchable tr s kvs) (identity : UInt64) (lower upper : N)
    (out : List (NameKey N × V)) :
    Answers s identity lower upper out ↔
      (kvs.takeWhile fun p ↦ decide (p.1 < ⟨identity, lower⟩)).length ≤
        (kvs.takeWhile fun p ↦ decide (p.1 < ⟨identity, upper⟩)).length ∧
      (kvs.takeWhile fun p ↦ decide (p.1 < ⟨identity, upper⟩)).drop
        (kvs.takeWhile fun p ↦ decide (p.1 < ⟨identity, lower⟩)).length = out := by
  have hpush {i e : Iterator} (hi : s.lowerBound ⟨identity, lower⟩ = some i)
      (he : s.lowerBound ⟨identity, upper⟩ = some e) :
      Answers s identity lower upper out ↔ ∃ fuel, SpacesIterator.run s fuel
        ⟨⟨identity, upper⟩, ⟨identity, lower⟩, 0, i, i, e⟩ = some out := by
    have heq : pushIterator s identity lower upper =
        some ⟨⟨identity, upper⟩, ⟨identity, lower⟩, 0, i, i, e⟩ := by
      simp only [pushIterator, SpacesIterator.setLower, SpacesIterator.setUpper, hi, he,
        Option.map_some, Option.bind_eq_bind, Option.bind_some]
      rfl
    simp only [Answers, heq, Option.some.injEq, exists_and_left, exists_eq_left']
  cases hs with
  | bare hs =>
    have hbound (key : NameKey N) : s.lowerBound key = some (0, 0) :=
      (if_pos hs.root).trans (endIterator_of_barren hs)
    rw [hpush (hbound _) (hbound _)]
    constructor
    · rintro ⟨fuel, hrun⟩
      cases fuel with
      | zero => cases hrun
      | succ fuel => exact ⟨le_rfl, Option.some.inj hrun⟩
    · rintro ⟨-, rfl⟩
      exact ⟨1, rfl⟩
  | rooted t ht =>
    obtain ⟨i, hlower, hi⟩ := ht.locates_bound (cuts_lower ⟨identity, lower⟩)
    obtain ⟨e, hupper, he⟩ := ht.locates_bound (cuts_lower ⟨identity, upper⟩)
    have htake := List.prefix_iff_eq_take.1 (List.takeWhile_prefix (l := t.pairs)
      fun p ↦ decide (p.1 < NameKey.mk identity upper))
    have hrun : (∃ fuel, SpacesIterator.run s fuel
        ⟨⟨identity, upper⟩, ⟨identity, lower⟩, 0, i, i, e⟩ = some out) ↔ _ :=
      SpacesIterator.exists_run_iff ht hi he out
    rw [hpush hlower hupper, hrun, ← htake]

/-- The documented entries are returned where none has the name of the upper bound, and none lies
between bounds that are given in reverse. -/
theorem answers_iff (hs : Searchable tr s kvs) (identity : UInt64) (lower upper : N) :
    Answers s identity lower upper (queried kvs identity lower upper) ↔
      ∀ p ∈ kvs, p.1.context = identity →
        p.1.name ≠ upper ∧ ¬(upper < p.1.name ∧ p.1.name < lower) := by
  have hsorted := hs.sorted
  rw [answers_spec hs]
  rcases le_or_gt lower upper with hle | hlt
  · have hle' : NameKey.mk identity lower ≤ NameKey.mk identity upper :=
      (NameKey.le_mk_iff rfl).2 hle
    rw [and_iff_right (hsorted.length_takeWhile_lt_mono hle'), hsorted.drop_takeWhile_lt hle']
    simp only [NameKey.between_lt_iff, queried]
    constructor
    · intro heq p hp hcontext
      refine ⟨fun hname ↦ ?_, fun hbetween ↦ (hbetween.1.trans hbetween.2).not_ge hle⟩
      have hmem : p ∈ queried kvs identity lower upper :=
        List.mem_filter.2 ⟨hp, by simp [hcontext, hname, hle]⟩
      rw [queried, ← heq, List.mem_filter, decide_eq_true_eq] at hmem
      exact hmem.2.2.2.ne hname
    · intro hnone
      refine List.filter_congr fun p hp ↦ decide_eq_decide.2 ⟨?_, ?_⟩
      · exact fun ⟨hcontext, hlower, hupper⟩ ↦ ⟨hcontext, hlower, hupper.le⟩
      · exact fun ⟨hcontext, hlower, hupper⟩ ↦
          ⟨hcontext, hlower, hupper.lt_of_ne (hnone p hp hcontext).1⟩
  · have hlt' : NameKey.mk identity upper ≤ NameKey.mk identity lower :=
      (NameKey.le_mk_iff rfl).2 hlt.le
    have hqueried : queried kvs identity lower upper = [] :=
      List.filter_eq_nil_iff.2 fun p _ ↦ by
        simpa using fun _ hle ↦ hlt.trans_le hle
    rw [hqueried, List.drop_eq_nil_iff, hsorted.length_takeWhile_le_iff hlt',
      and_iff_left_of_imp fun _ ↦ hsorted.length_takeWhile_lt_mono hlt']
    simp only [NameKey.between_lt_iff]
    refine forall₂_congr fun p hp ↦ ⟨fun h hcontext ↦ ⟨fun hname ↦ ?_, fun hbetween ↦ ?_⟩,
      fun h ⟨hcontext, hupper, hlower⟩ ↦ ?_⟩
    · exact h ⟨hcontext, hname.ge, hname.trans_lt hlt⟩
    · exact h ⟨hcontext, hbetween.1.le, hbetween.2⟩
    · exact (h hcontext).2 ⟨hupper.lt_of_ne' (h hcontext).1, hlower⟩

end Query

/-- The entries of a container with these names, and one of another container. -/
def named (names : List ℕ) : Option (Btree (NameKey ℕ) ℕ) :=
  ((blank ⟨fun _ ↦ none, fun _ ↦ none, 0⟩).run Traits.perPage
    (.insert ⟨2, 4⟩ 0 :: names.map fun name ↦ .insert ⟨1, name⟩ name)).map Prod.fst

private theorem exists_named (names : List ℕ) :
    ∃ s, named names = some s ∧ Represents Traits.perPage s (specRun OrderedMap.empty
      (.insert ⟨2, 4⟩ 0 :: names.map fun name ↦ .insert ⟨1, name⟩ name)).1.pairs := by
  have hst : (⟨fun _ ↦ none, fun _ ↦ none, 0⟩ : Storage (NameKey ℕ) ℕ).Unlooped :=
    fun _ _ h ↦ nomatch h
  obtain ⟨s, heq, hs, -⟩ := run_spec (m := OrderedMap.empty)
    (represents_blank hst)
    (.insert ⟨2, 4⟩ 0 :: names.map fun name ↦ .insert ⟨1, name⟩ name)
  exact ⟨s, congrArg (Option.map Prod.fst) heq, hs⟩

/-- An upper bound that names no entry. -/
theorem answers_iff_between :
    ∃ s, named [1, 3, 4, 6] = some s ∧
      Answers s 1 3 5 [(⟨1, 3⟩, 3), (⟨1, 4⟩, 4)] := by
  obtain ⟨s, hnamed, hs⟩ := exists_named [1, 3, 4, 6]
  exact ⟨s, hnamed, (answers_iff hs.searchable 1 3 5).2 (by decide +kernel)⟩

/-- The example of the documentation: the entry of the upper bound is missing. -/
theorem not_answers_documented :
    ¬∀ (s : Btree (NameKey ℕ) ℕ) (kvs : List (NameKey ℕ × ℕ)), Represents Traits.perPage s kvs →
      ∀ identity lower upper,
      Answers s identity lower upper (queried kvs identity lower upper) := by
  intro hanswers
  obtain ⟨s, -, hs⟩ := exists_named [1, 2, 3, 4, 5, 6]
  have hmissing := ((answers_spec hs.searchable 1 3 5 _).1 (hanswers s _ hs 1 3 5)).2
  exact absurd (congrArg List.length hmissing) (by decide +kernel)

end LibSpaces.Spaces
