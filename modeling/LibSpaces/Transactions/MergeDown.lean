import LibSpaces.Transactions.Invariant

/-!
# Merging idle versions

`merge_down`, `src/src/storage/transactions/transactional_storage.h:2475–2590`, moves the
blocks of idle versions down and forgets the versions it has emptied. Whether it comes to its
end or breaks off, the blocks seen from the newest version down stay the same, and versions in
use are not touched.
-/

namespace LibSpaces.Transactions

open LibSpaces.Base

namespace Coordinator

/-- The block at an address as seen through a list of versions. -/
def view (s : Coordinator) (l : List ℕ) (a : ℕ) : Option Block :=
  l.findSome? fun v ↦ (s.versions v).block a

private theorem view_append (s : Coordinator) (l r : List ℕ) (a : ℕ) :
    s.view (l ++ r) a = (s.view l a).or (s.view r a) := List.findSome?_append

/-- The view of a chain is the block of its first version, or else the view of the rest. -/
theorem view_cons (s : Coordinator) (v : ℕ) (r : List ℕ) (a : ℕ) :
    s.view (v :: r) a = ((s.versions v).block a).or (s.view r a) := by
  unfold view
  rw [List.findSome?_cons]
  cases (s.versions v).block a <;> rfl

/-- What the committed versions hold at an address. -/
def content (s : Coordinator) (a : ℕ) : Option Bytes :=
  (s.view s.storages.reverse a).map Block.content

/-- Only the blocks of its versions make a view. -/
theorem view_congr {s s' : Coordinator} {l : List ℕ} (a : ℕ)
    (h : ∀ v ∈ l, (s'.versions v).block a = (s.versions v).block a) :
    s'.view l a = s.view l a := by
  induction l with
  | nil => rfl
  | cons v l ih =>
    rw [view_cons, view_cons, h v List.mem_cons_self,
      ih fun u hu ↦ h u (List.mem_cons_of_mem _ hu)]

/-- Versions without blocks are not seen. -/
theorem view_filter {s : Coordinator} {l : List ℕ} (p : ℕ → Bool) (a : ℕ)
    (h : ∀ v ∈ l, p v = false → (s.versions v).block a = none) :
    s.view (l.filter p) a = s.view l a := by
  induction l with
  | nil => rfl
  | cons v l ih =>
    have hl := ih fun u hu ↦ h u (List.mem_cons_of_mem _ hu)
    cases hp : p v with
    | true => rw [List.filter_cons_of_pos hp, view_cons, view_cons, hl]
    | false =>
      rw [List.filter_cons_of_neg (by rw [hp]; decide), view_cons, hl,
        h v List.mem_cons_self hp, Option.none_or]

/-- Only the version that is set changes. -/
theorem versions_setVersion (s : Coordinator) (v u : ℕ) (x : VersionStorage) :
    (s.setVersion v x).versions u = if u = v then x else s.versions u := by
  simp only [setVersion, Function.update_apply]

/-- Its number is known as before. -/
theorem storageVersions_setVersion (s : Coordinator) (v : ℕ) (x : VersionStorage) :
    (s.setVersion v x).storageVersions = s.storageVersions := rfl

/-- The stored versions are the same. -/
theorem storages_setVersion (s : Coordinator) (v : ℕ) (x : VersionStorage) :
    (s.setVersion v x).storages = s.storages := rfl

/-- The moving phases of `merge_down` change the blocks and marks of the listed versions only,
and keep what is seen through the list. -/
structure MovedWithin (l : List ℕ) (s s' : Coordinator) : Prop where
  sameShape : SameShape s s'
  lastCommittedVersion : s'.lastCommittedVersion = s.lastCommittedVersion
  frame : ∀ v, v ∉ l ∨ (s.versions v).readers ≠ 0 → s'.versions v = s.versions v
  view : ∀ a, s'.view l a = s.view l a
  emptied : (∀ v ∈ l, (s.versions v).merged = false) →
    ∀ v ∈ l, (s'.versions v).merged = true → (s'.versions v).blocks = ∅
  last : ∀ v ∈ l.getLast?, (s'.versions v).merged = true → (s.versions v).merged = true

/-- Where the source and the destination are after a move. -/
theorem versions_move (s : Coordinator) {v dest : ℕ} (hne : v ≠ dest) (u : ℕ) :
    (s.move v dest).2.versions u =
      if u = dest then { s.versions dest with
        toAllocator :=
          ((s.versions v).toAllocator.move (s.traversals 0) (s.versions dest).toAllocator).2.2 }
      else if u = v then { s.versions v with
        toAllocator :=
          ((s.versions v).toAllocator.move (s.traversals 0) (s.versions dest).toAllocator).2.1 }
      else s.versions u := by
  unfold Coordinator.move
  dsimp only
  split <;> rw [versions_setVersion, versions_setVersion, versions_setVersion, if_neg hne.symm]

/-- A move keeps the shape. -/
theorem sameShape_move (s : Coordinator) {v dest : ℕ} (hne : v ≠ dest) :
    SameShape s (s.move v dest).2 := by
  obtain ⟨hsource, htarget⟩ := Allocator.version_move (s.traversals 0)
    (s.versions v).toAllocator (s.versions dest).toAllocator
  have hshape : (s.move v dest).2.shape = s.shape := by
    ext u : 1
    simp only [Coordinator.shape, versions_move s hne]
    split
    · next hu =>
      dsimp only
      rw [htarget, hu]
    · split
      · next hu =>
        dsimp only
        rw [hsource, hu]
      · rfl
  unfold Coordinator.move at hshape ⊢
  dsimp only at hshape ⊢
  split at hshape <;> split <;> first | contradiction | exact ⟨hshape, rfl, rfl, rfl, rfl, rfl, rfl⟩

private theorem lastCommittedVersion_move (s : Coordinator) (v dest : ℕ) :
    (s.move v dest).2.lastCommittedVersion = s.lastCommittedVersion := by
  unfold Coordinator.move
  dsimp only
  split <;> rfl

private theorem merged_move (s : Coordinator) {v dest : ℕ} (hne : v ≠ dest) (u : ℕ) :
    ((s.move v dest).2.versions u).merged = (s.versions u).merged := by
  rw [versions_move s hne]
  split
  · next hu => rw [hu]
  · split
    · next hu => rw [hu]
    · rfl

/-- Seen from the source, a move changes no block. -/
theorem or_block_move (s : Coordinator) {v dest : ℕ} (hne : v ≠ dest) (a : ℕ) :
    (((s.move v dest).2.versions v).block a).or (((s.move v dest).2.versions dest).block a) =
      ((s.versions v).block a).or ((s.versions dest).block a) := by
  rw [versions_move s hne, versions_move s hne, if_neg hne, if_pos rfl, if_pos rfl]
  exact Allocator.or_block_move _ _ _ a

/-- A move that returns leaves no block at the source. -/
theorem blocks_move (s : Coordinator) {v dest : ℕ} (hne : v ≠ dest)
    (hok : (s.move v dest).1 = .ok ()) : ((s.move v dest).2.versions v).blocks = ∅ := by
  rw [versions_move s hne, if_neg hne, if_pos rfl]
  apply Allocator.blocks_moveBlocks
  unfold Coordinator.move at hok
  dsimp only at hok
  split at hok
  · assumption
  · cases hok

namespace MovedWithin

variable {s s' : Coordinator} {l : List ℕ}

private theorem refl (l : List ℕ) (s : Coordinator) : MovedWithin l s s where
  sameShape := .refl s
  lastCommittedVersion := rfl
  frame := fun _ _ ↦ rfl
  view := fun _ ↦ rfl
  emptied := by
    intro h v hv hmerged
    rw [h v hv] at hmerged
    cases hmerged
  last := fun _ _ hmerged ↦ hmerged

/-- Moves within the upper part of a list and then within its lower part. -/
theorem append {s'' : Coordinator} {r : List ℕ} (h : MovedWithin l s s')
    (h' : MovedWithin r s' s'') (hnodup : (l ++ r).Nodup) : MovedWithin (l ++ r) s s'' := by
  have hdisjoint := (List.nodup_append.mp hnodup).2.2
  have hupper : ∀ v ∈ l, s''.versions v = s'.versions v :=
    fun v hv ↦ h'.frame v (.inl fun hr ↦ hdisjoint v hv v hr rfl)
  have hlower : ∀ v ∈ r, s'.versions v = s.versions v :=
    fun v hv ↦ h.frame v (.inl fun hl ↦ hdisjoint v hl v hv rfl)
  constructor
  · exact h.sameShape.trans h'.sameShape
  · exact h'.lastCommittedVersion.trans h.lastCommittedVersion
  · intro v hv
    rw [List.mem_append, not_or] at hv
    rw [h'.frame v (hv.imp And.right fun hused ↦ by rwa [h.sameShape.readers]),
      h.frame v (hv.imp_left And.left)]
  · intro a
    rw [view_append, view_append, h'.view, ← h.view a]
    congr 1
    · exact view_congr a fun v hv ↦ by rw [hupper v hv]
    · exact view_congr a fun v hv ↦ by rw [hlower v hv]
  · intro hmarks v hv hmerged
    rcases List.mem_append.mp hv with hv | hv
    · rw [hupper v hv] at hmerged ⊢
      exact h.emptied (fun w hw ↦ hmarks w (List.mem_append_left _ hw)) v hv hmerged
    · apply h'.emptied _ v hv hmerged
      intro w hw
      rw [hlower w hw]
      exact hmarks w (List.mem_append_right _ hw)
  · intro v hv hmerged
    rw [List.getLast?_append] at hv
    cases hr : r.getLast? with
    | none =>
      rw [hr, Option.none_or] at hv
      rw [hupper v (List.mem_of_mem_getLast? hv)] at hmerged
      exact h.last v hv hmerged
    | some w =>
      rw [hr, Option.some_or, ← hr] at hv
      rw [← hlower v (List.mem_of_mem_getLast? hv)]
      exact h'.last v hv hmerged

end MovedWithin

/-- Only the mark of the merged version changes. -/
theorem versions_setMerged (s : Coordinator) (v u : ℕ) (merged : Bool) :
    (s.setMerged v merged).versions u =
      if u = v then { s.versions v with merged := merged } else s.versions u :=
  versions_setVersion s v u _

/-- The mark keeps the shape. -/
theorem sameShape_setMerged (s : Coordinator) (v : ℕ) (merged : Bool) :
    SameShape s (s.setMerged v merged) :=
  SameShape.setVersion s v _ rfl

/-- The mark keeps the blocks. -/
theorem block_setMerged (s : Coordinator) (v u : ℕ) (merged : Bool) :
    ((s.setMerged v merged).versions u).toAllocator = (s.versions u).toAllocator := by
  rw [versions_setMerged]
  split
  · next hu => rw [hu]
  · rfl

/-- A mark does not change a view. -/
theorem view_setMerged (s : Coordinator) (v : ℕ) (merged : Bool) (l : List ℕ) (a : ℕ) :
    (s.setMerged v merged).view l a = s.view l a := by
  apply view_congr
  intro u _
  rw [block_setMerged]

/-- A move between idle versions leaves those in use, and those elsewhere. -/
theorem frame_move (s : Coordinator) {v dest u : ℕ} {l : List ℕ} (hne : v ≠ dest)
    (hidle : ∀ w ∈ v :: dest :: l, (s.versions w).readers = 0)
    (hu : u ∉ v :: dest :: l ∨ (s.versions u).readers ≠ 0) :
    (s.move v dest).2.versions u = s.versions u := by
  have hnot : u ∉ v :: dest :: l := hu.elim id fun hused hin ↦ hused (hidle u hin)
  have hdest : u ≠ dest := by
    intro he
    exact hnot (he ▸ List.mem_cons_of_mem _ List.mem_cons_self)
  have hv : u ≠ v := by
    intro he
    exact hnot (he ▸ List.mem_cons_self)
  rw [versions_move s hne, if_neg hdest, if_neg hv]

/-- A move to the version below keeps what is seen through both, and all others. -/
theorem view_move (s : Coordinator) {v dest : ℕ} {l : List ℕ} (hne : v ≠ dest) (hv : v ∉ l)
    (hdest : dest ∉ l) (a : ℕ) :
    (s.move v dest).2.view (v :: dest :: l) a = s.view (v :: dest :: l) a := by
  have hl : (s.move v dest).2.view l a = s.view l a := by
    apply view_congr
    intro u hu
    have hudest : u ≠ dest := fun he ↦ hdest (he ▸ hu)
    have huv : u ≠ v := fun he ↦ hv (he ▸ hu)
    rw [versions_move s hne, if_neg hudest, if_neg huv]
  rw [view_cons, view_cons, view_cons, view_cons, hl, ← Option.or_assoc, or_block_move s hne,
    Option.or_assoc]

/-- Idle versions are moved within their list. -/
theorem movedWithin_mergeIdle (idle : List ℕ) (s : Coordinator) (hnodup : idle.Nodup)
    (hidle : ∀ v ∈ idle, (s.versions v).readers = 0) :
    MovedWithin idle s (mergeIdle idle s).2 := by
  fun_induction mergeIdle idle s with
  | case1 s => exact .refl [] s
  | case2 latest s =>
    constructor
    · exact sameShape_setMerged s latest false
    · rfl
    · intro v hv
      have hne : v ≠ latest := by
        intro he
        rcases hv with hv | hv
        · exact hv (List.mem_singleton.mpr he)
        · exact hv (hidle v (List.mem_singleton.mpr he))
      rw [versions_setMerged, if_neg hne]
    · intro a
      exact view_setMerged s latest false _ a
    · intro _ v hv hmerged
      rw [versions_setMerged, if_pos (List.mem_singleton.mp hv)] at hmerged
      cases hmerged
    · intro v hv hmerged
      rw [List.getLast?_singleton, Option.mem_some] at hv
      rw [versions_setMerged, if_pos hv.symm] at hmerged
      cases hmerged
  | case3 | case4 => exact .refl _ _
  | case5 latest i idle s hversion hreaders e s' hmove =>
    obtain ⟨hlatest, hi⟩ := List.nodup_cons.mp hnodup
    obtain ⟨hne, hlatest⟩ := not_or.mp (List.mem_cons.not.mp hlatest)
    have hs' : s' = (s.move latest i).2 := by rw [hmove]
    subst hs'
    constructor
    · exact sameShape_move s hne
    · exact lastCommittedVersion_move s latest i
    · intro v hv
      exact frame_move s hne hidle hv
    · intro a
      exact view_move s hne hlatest (List.nodup_cons.mp hi).1 a
    · intro hmarks v hv hmerged
      rw [merged_move s hne, hmarks v hv] at hmerged
      cases hmerged
    · intro v _ hmerged
      rwa [merged_move s hne] at hmerged
  | case6 latest i idle s hversion hreaders u s' hmove ih =>
    obtain ⟨hlatest, hi⟩ := List.nodup_cons.mp hnodup
    obtain ⟨hne, hlatest'⟩ := not_or.mp (List.mem_cons.not.mp hlatest)
    have hs' : s' = (s.move latest i).2 := by rw [hmove]
    have hok : (s.move latest i).1 = .ok () := by rw [hmove]
    subst hs'
    have hshape := (sameShape_move s hne).trans (sameShape_setMerged _ latest true)
    have hrest := ih hi (by
      intro v hv
      rw [hshape.readers]
      exact hidle v (List.mem_cons_of_mem _ hv))
    have hsource := hrest.frame latest (.inl hlatest)
    constructor
    · exact hshape.trans hrest.sameShape
    · exact hrest.lastCommittedVersion.trans (lastCommittedVersion_move s latest i)
    · intro v hv
      have hv' : v ∉ i :: idle ∨ ((((s.move latest i).2).setMerged latest true).versions
          v).readers ≠ 0 := by
        rw [hshape.readers]
        exact hv.imp_left fun hnot hin ↦ hnot (List.mem_cons_of_mem _ hin)
      have hvlatest : v ≠ latest := by
        intro he
        rcases hv with hv | hv
        · exact hv (he ▸ List.mem_cons_self)
        · exact hv (hidle v (he ▸ List.mem_cons_self))
      rw [hrest.frame v hv', versions_setMerged, if_neg hvlatest]
      exact frame_move s hne hidle hv
    · intro a
      rw [view_cons, hrest.view, hsource, ← view_cons, view_setMerged]
      exact view_move s hne hlatest' (List.nodup_cons.mp hi).1 a
    · intro hmarks v hv hmerged
      rcases List.mem_cons.mp hv with rfl | hv
      · rw [hsource, block_setMerged]
        exact blocks_move s hne hok
      · apply hrest.emptied _ v hv hmerged
        intro w hw
        have hw' : w ≠ latest := fun he ↦ hlatest (he ▸ hw)
        rw [versions_setMerged, if_neg hw', merged_move s hne]
        exact hmarks w (List.mem_cons_of_mem _ hw)
    · intro v hv hmerged
      rw [List.getLast?_cons_cons] at hv
      have hv' : v ≠ latest := fun he ↦ hlatest (he ▸ List.mem_of_mem_getLast? hv)
      have hmarked := hrest.last v hv hmerged
      rwa [versions_setMerged, if_neg hv', merged_move s hne] at hmarked

/-- The loop of `merge_down` moves within the versions it visits. -/
theorem movedWithin_collectIdle (rest idle : List ℕ) (s : Coordinator)
    (hnodup : (idle ++ rest).Nodup) (hidle : ∀ v ∈ idle, (s.versions v).readers = 0) :
    MovedWithin (idle ++ rest) s (collectIdle rest idle s).2 := by
  fun_induction collectIdle rest idle s with
  | case1 idle s =>
    rw [List.append_nil] at hnodup ⊢
    exact movedWithin_mergeIdle idle s hnodup hidle
  | case2 c rest idle s hunused ih =>
    rw [List.append_cons] at hnodup ⊢
    apply ih hnodup
    intro v hv
    rcases List.mem_append.mp hv with hv | hv
    · exact hidle v hv
    · rw [List.mem_singleton.mp hv, hunused]
  | case3 c rest idle s hused e s' hmerge =>
    have hs' : s' = (mergeIdle idle s).2 := by rw [hmerge]
    subst hs'
    exact (movedWithin_mergeIdle idle s (List.nodup_append.mp hnodup).1 hidle).append
      (.refl _ _) hnodup
  | case4 c rest idle s hused u s' hmerge ih =>
    have hs' : s' = (mergeIdle idle s).2 := by rw [hmerge]
    subst hs'
    have hrest : (c :: rest).Nodup := (List.nodup_append.mp hnodup).2.1
    have hlower := ih (List.nodup_cons.mp hrest).2 (by simp)
    exact (movedWithin_mergeIdle idle s (List.nodup_append.mp hnodup).1 hidle).append
      (MovedWithin.append (.refl [c] _) hlower hrest) hnodup

/-- The check on the order clears marks, and finds the versions in increasing order. -/
theorem checkOrder_spec (version : ℕ) (l : List ℕ) (s : Coordinator) :
    SameShape s (checkOrder version l s).2 ∧
      (checkOrder version l s).2.lastCommittedVersion = s.lastCommittedVersion ∧
      (∀ v, ((checkOrder version l s).2.versions v).toAllocator = (s.versions v).toAllocator) ∧
      (∀ v, ((checkOrder version l s).2.versions v).merged = true →
        (s.versions v).merged = true) := by
  fun_induction checkOrder version l s with
  | case1 | case2 => exact ⟨.refl _, rfl, fun _ ↦ rfl, fun _ h ↦ h⟩
  | case3 version c cs s horder ih =>
    obtain ⟨hshape, hlast, hblocks, hmarks⟩ := ih
    refine ⟨(sameShape_setMerged s c false).trans hshape, hlast, fun v ↦ ?_, fun v hv ↦ ?_⟩
    · rw [hblocks, block_setMerged]
    · have hmarked := hmarks v hv
      rw [versions_setMerged] at hmarked
      split at hmarked
      · cases hmarked
      · exact hmarked

/-- After the check on the order no version is marked, and versions increase. -/
theorem checkOrder_ok (version : ℕ) (l : List ℕ) (s : Coordinator)
    (hok : (checkOrder version l s).1 = .ok ()) :
    (∀ v ∈ l, ((checkOrder version l s).2.versions v).merged = false) ∧
      (∀ v ∈ l, version < (s.versions v).version) ∧
      l.Pairwise fun u v ↦ (s.versions u).version < (s.versions v).version := by
  fun_induction checkOrder version l s with
  | case1 => simp
  | case2 => cases hok
  | case3 version c cs s horder ih =>
    obtain ⟨hmarks, habove, hpairwise⟩ := ih hok
    have hshape := sameShape_setMerged s c false
    simp only [hshape.version] at habove hpairwise
    refine ⟨?_, ?_, List.pairwise_cons.mpr ⟨habove, hpairwise⟩⟩
    · intro v hv
      rcases List.mem_cons.mp hv with rfl | hv
      · apply Bool.eq_false_iff.mpr
        intro hmerged
        have hmarked := (checkOrder_spec _ _ _).2.2.2 _ hmerged
        rw [versions_setMerged, if_pos rfl] at hmarked
        cases hmarked
      · exact hmarks v hv
    · intro v hv
      have hc := Nat.not_le.mp horder
      rcases List.mem_cons.mp hv with rfl | hv
      · exact hc
      · exact hc.trans (habove v hv)

/-- What `sweep` makes of the state. -/
def swept (s : Coordinator) (l : List ℕ) : Coordinator :=
  { s with
    versions := fun v ↦
      if v ∈ l ∧ (s.versions v).merged = true then { s.versions v with previous := none }
      else s.versions v
    storageVersions := fun n ↦
      if ∃ v ∈ l, (s.versions v).merged = true ∧ (s.versions v).version = n then none
      else s.storageVersions n }

private theorem versions_forget (s : Coordinator) (c v : ℕ) :
    (s.forget c).versions v =
      if v = c then { s.versions c with previous := none } else s.versions v :=
  versions_setVersion s c v _

/-- Unused merged versions are forgotten and the others kept. -/
theorem sweep_eq (l kept : List ℕ) (s : Coordinator) (hnodup : l.Nodup)
    (hunused : ∀ v ∈ l, (s.versions v).merged = true → (s.versions v).readers = 0) :
    sweep l kept s =
      (.ok (kept ++ l.filter fun v ↦ !(s.versions v).merged), s.swept l) := by
  fun_induction sweep l kept s with
  | case1 kept s => simp [swept]
  | case2 c cs kept s hmerged hreaders ih =>
    obtain ⟨hc, hcs⟩ := List.nodup_cons.mp hnodup
    have hmarks : ∀ v, ((s.forget c).versions v).merged = (s.versions v).merged := by
      intro v
      rw [versions_forget]
      split
      · next he => rw [he]
      · rfl
    have hversion : ∀ v, ((s.forget c).versions v).version = (s.versions v).version := by
      intro v
      rw [versions_forget]
      split
      · next he => rw [he]
      · rfl
    have hrest := ih hcs (by
      intro v hv hv'
      have hne : v ≠ c := fun he ↦ hc (he ▸ hv)
      rw [hmarks] at hv'
      rw [versions_forget, if_neg hne]
      exact hunused v (List.mem_cons_of_mem _ hv) hv')
    rw [hrest, List.filter_cons_of_neg (by simp [hmerged])]
    simp only [hmarks, Prod.mk.injEq, true_and]
    apply Coordinator.ext
    case versions =>
      ext1 v
      simp only [swept, versions_forget, List.mem_cons]
      by_cases hv : v = c
      · simp [hv, hc, hmerged]
      · simp [hv]
    case storageVersions =>
      ext1 n
      simp only [swept, hmarks, hversion, List.exists_mem_cons_iff]
      by_cases hn : (s.versions c).version = n
      · simp [hn, hmerged, forget]
      · simp [hn, forget, Function.update_of_ne (Ne.symm hn)]
    all_goals rfl
  | case3 c cs kept s hmerged hreaders =>
    exact absurd (hunused c List.mem_cons_self hmerged) hreaders
  | case4 c cs kept s hmerged ih =>
    obtain ⟨hc, hcs⟩ := List.nodup_cons.mp hnodup
    rw [ih hcs fun v hv ↦ hunused v (List.mem_cons_of_mem _ hv),
      List.filter_cons_of_pos (by simp [hmerged]), List.append_assoc, List.singleton_append,
      Prod.mk.injEq]
    refine ⟨rfl, ?_⟩
    apply Coordinator.ext
    case versions =>
      ext1 v
      simp only [swept, List.mem_cons]
      by_cases hv : v = c
      · simp [hv, hc, hmerged]
      · simp [hv]
    case storageVersions =>
      ext1 n
      simp [swept, hmerged]
    all_goals rfl

/-- The kept versions are chained, each on the one before. -/
theorem relink_spec (verify : List ℕ) (l r : List ℕ) (s : Coordinator)
    (hpairwise : l.Pairwise fun u v ↦ (s.versions u).version < (s.versions v).version)
    (hverify : ∀ n ∈ verify, ∀ v ∈ l, n < (s.versions v).version)
    (hprev : ∀ p ∈ r.head?, ∀ v ∈ l, (s.versions p).version < (s.versions v).version)
    (hlinked : s.Linked r) (hnodup : (l ++ r).Nodup) :
    (relink verify r.head? l s).1 = .ok () ∧
      (relink verify r.head? l s).2.Linked (l.reverse ++ r) ∧
      ∃ previous : ℕ → Option ℕ, (∀ v ∉ l, previous v = (s.versions v).previous) ∧
        (relink verify r.head? l s).2 =
          { s with versions := fun v ↦ { s.versions v with previous := previous v } } := by
  induction l generalizing verify r s with
  | nil => exact ⟨rfl, hlinked, fun v ↦ (s.versions v).previous, fun _ _ ↦ rfl, rfl⟩
  | cons c cs ih =>
    obtain ⟨hbelow, hpairwise⟩ := List.pairwise_cons.mp hpairwise
    obtain ⟨hc, hcs⟩ := List.nodup_cons.mp hnodup
    have hcr : c ∉ r := fun hin ↦ hc (List.mem_append_right _ hin)
    have hnew : (s.versions c).version ∉ verify :=
      fun hin ↦ Nat.lt_irrefl _ (hverify _ hin c List.mem_cons_self)
    have hversions : ∀ v, (s.setVersion c { s.versions c with previous := r.head? }).versions v =
        if v = c then { s.versions c with previous := r.head? } else s.versions v :=
      fun v ↦ versions_setVersion s c v _
    have hversion : ∀ v, ((s.setVersion c { s.versions c with previous := r.head? }).versions
        v).version = (s.versions v).version := by
      intro v
      rw [hversions]
      split
      · next hv => rw [hv]
      · rfl
    have horder : ¬∃ p ∈ r.head?, (s.versions c).version ≤ (s.versions p).version := by
      rintro ⟨p, hp, hle⟩
      exact Nat.not_lt.mpr hle (hprev p hp c List.mem_cons_self)
    have hr : (s.setVersion c { s.versions c with previous := r.head? }).Linked (c :: r) := by
      refine ⟨by rw [hversions, if_pos rfl], hlinked.congr fun v hv ↦ ?_⟩
      have hne : v ≠ c := fun he ↦ hcr (he ▸ hv)
      rw [hversions, if_neg hne]
    obtain ⟨hok, hlinked', previous, hprevious, hstate⟩ := ih
      ((s.versions c).version :: verify) (c :: r) _
      (by simpa only [hversion] using hpairwise)
      (by
        intro n hn v hv
        rw [hversion]
        rcases List.mem_cons.mp hn with rfl | hn
        · exact hbelow v hv
        · exact hverify n hn v (List.mem_cons_of_mem _ hv))
      (by
        intro p hp v hv
        rw [List.head?_cons, Option.mem_some] at hp
        rw [hversion, hversion, ← hp]
        exact hbelow v hv)
      hr (List.nodup_middle.mpr hnodup)
    rw [List.head?_cons] at hok hlinked' hstate
    rw [relink, if_neg hnew]
    simp only [hversion]
    rw [if_neg horder, List.reverse_cons, List.append_assoc]
    refine ⟨hok, hlinked', previous, fun v hv ↦ ?_, ?_⟩
    · obtain ⟨hvc, hvcs⟩ := not_or.mp (List.mem_cons.not.mp hv)
      rw [hprevious v hvcs, hversions, if_neg hvc]
    · rw [hstate]
      apply Coordinator.ext
      case versions =>
        ext1 v
        simp only [hversions]
        split
        · next hv => rw [hv]
        · rfl
      all_goals rfl

/-- What `merge_down` keeps, whether it returns or throws. -/
structure MergedDown (s s' : Coordinator) : Prop where
  inv : s'.Inv
  transactions : s'.transactions = s.transactions
  bases : ∀ t ∈ s.transactions, s'.bases t = s.bases t
  allocator : ∀ v, v ∉ s.storages ∨ (s.versions v).readers ≠ 0 →
    (s'.versions v).toAllocator = (s.versions v).toAllocator
  readOnly : ∀ v, (s'.versions v).readOnly = (s.versions v).readOnly
  view : ∀ a, s'.view s'.storages.reverse a = s.view s.storages.reverse a
  recycler : s'.recycler = s.recycler
  lastCommittedVersion : s'.lastCommittedVersion = s.lastCommittedVersion

/-- Merged versions are unused and empty, and the oldest one is not merged. -/
structure Marked (s : Coordinator) : Prop where
  unused : ∀ v ∈ s.storages, (s.versions v).merged = true → (s.versions v).readers = 0
  empty : ∀ v ∈ s.storages, (s.versions v).merged = true → (s.versions v).blocks = ∅
  oldest : ∀ v ∈ s.storages.head?, (s.versions v).merged = false
  increasing : s.storages.Pairwise fun u v ↦ (s.versions u).version < (s.versions v).version

/-- The versions that `merge_down` keeps. -/
def kept (s : Coordinator) : List ℕ := s.storages.filter fun v ↦ !(s.versions v).merged

/-- Versions in use are kept, with all below them. -/
theorem Marked.suffix {s : Coordinator} (hm : s.Marked) {l : List ℕ}
    (hl : l <:+ s.storages.reverse) (hused : ∀ v ∈ l, (s.versions v).readers ≠ 0) :
    l <:+ s.kept.reverse := by
  obtain ⟨upper, hupper⟩ := hl
  refine ⟨upper.filter fun v ↦ !(s.versions v).merged, ?_⟩
  rw [kept, ← List.filter_reverse, ← hupper, List.filter_append]
  congr 1
  apply (List.filter_eq_self.mpr _).symm
  intro v hv
  have hin : v ∈ s.storages := by
    rw [← List.mem_reverse, ← hupper]
    exact List.mem_append_right _ hv
  rw [Bool.not_eq_true', Bool.eq_false_iff]
  exact fun hmerged ↦ hused v hv (hm.unused v hin hmerged)

/-- Some version is kept. -/
theorem Marked.kept_ne_nil {s : Coordinator} (hm : s.Marked) (hne : s.storages ≠ []) :
    s.kept ≠ [] := by
  intro hnil
  obtain ⟨v, hv⟩ := Option.isSome_iff_exists.mp (List.isSome_head?.mpr hne)
  have hnot := (List.filter_eq_nil_iff.mp hnil) v (List.mem_of_mem_head? hv)
  simp [hm.oldest v hv] at hnot

/-- What is left when the merged versions are forgotten and the others chained. -/
def rechained (s : Coordinator) (previous : ℕ → Option ℕ) : Coordinator :=
  { s.swept s.storages with
    storages := s.kept, versions := fun v ↦ { s.versions v with previous := previous v } }

section Rechained

variable {s : Coordinator} {previous : ℕ → Option ℕ}

private theorem kept_sublist : s.kept.Sublist s.storages := List.filter_sublist

private theorem Inv.transactions_rechained (h : s.Inv) :
    (s.rechained previous).transactions = s.transactions := by
  ext t
  rw [mem_transactions, mem_transactions]
  show (t < s.size ∧ (if ∃ v ∈ s.storages, (s.versions v).merged = true ∧
    (s.versions v).version = (s.versions t).version then none
      else s.storageVersions (s.versions t).version) = some t ∧ t ∉ s.kept) ↔ _
  constructor
  · rintro ⟨hlt, hopen, hnot⟩
    split at hopen
    · cases hopen
    · next hforgotten =>
      refine ⟨hlt, hopen, fun hin ↦ ?_⟩
      cases hmerged : (s.versions t).merged with
      | true => exact hforgotten ⟨t, hin, hmerged, rfl⟩
      | false => exact hnot (List.mem_filter.mpr ⟨hin, by simp [hmerged]⟩)
  · rintro ⟨hlt, hopen, hnot⟩
    have hforgotten : ¬∃ v ∈ s.storages, (s.versions v).merged = true ∧
        (s.versions v).version = (s.versions t).version := by
      rintro ⟨v, hv, -, hsame⟩
      exact hnot (h.injective v (h.storages_lt v hv) t hlt hsame ▸ hv)
    rw [if_neg hforgotten]
    exact ⟨hlt, hopen, fun hin ↦ hnot (kept_sublist.subset hin)⟩

private theorem Inv.writers_rechained (h : s.Inv) : (s.rechained previous).writers = s.writers := by
  ext t
  rw [mem_writers, mem_writers, h.transactions_rechained]
  rfl

/-- The pointers chain what is kept of the committed versions. -/
structure Rechains (s : Coordinator) (previous : ℕ → Option ℕ) : Prop where
  inv : s.Inv
  marked : s.Marked
  others : ∀ v ∉ s.storages, previous v = (s.versions v).previous
  linked : (s.rechained previous).Linked s.kept.reverse

/-- The versions below a transaction are all kept. -/
theorem Rechains.based (hr : s.Rechains previous) {t : ℕ} (ht : t ∈ s.transactions) :
    s.bases t <:+ s.kept.reverse ∧ s.bases t ≠ [] ∧ previous t = (s.bases t).head? := by
  obtain ⟨hl, hne, hp⟩ := hr.inv.bases ht
  have hnot : t ∉ s.storages := (mem_transactions.mp ht).2.2
  refine ⟨hr.marked.suffix hl fun v hv ↦ ?_, hne, (hr.others t hnot).trans hp⟩
  exact (hr.inv.readers_pos ht hv).ne'

private theorem Rechains.bases (hr : s.Rechains previous) {t : ℕ} (ht : t ∈ s.transactions) :
    (s.rechained previous).bases t = s.bases t := by
  obtain ⟨hl, -, hp⟩ := hr.based ht
  have hp' : ((s.rechained previous).versions t).previous = (s.bases t).head? := hp
  rw [Coordinator.bases, hp']
  apply (hr.linked.of_suffix hl).chain
  apply length_le_of_lt (hr.inv.bases_nodup ht)
  exact fun v hv ↦ hr.inv.storages_lt v (mem_storages_of_mem_bases hr.inv ht hv)

/-- Forgetting merged versions and chaining the others keeps the invariant. -/
theorem Rechains.inv_rechained (hr : s.Rechains previous) : (s.rechained previous).Inv := by
  have h := hr.inv
  have htransactions : (s.rechained previous).transactions = s.transactions :=
    h.transactions_rechained
  have hwriters : (s.rechained previous).writers = s.writers := h.writers_rechained
  constructor
  case storages_lt => exact fun v hv ↦ h.storages_lt v (kept_sublist.subset hv)
  case nodup => exact h.nodup.sublist kept_sublist
  case nonempty => exact hr.marked.kept_ne_nil h.nonempty
  case linked => exact hr.linked
  case injective => exact h.injective
  case based => exact fun t ht ↦ ⟨s.bases t, hr.based (htransactions ▸ ht)⟩
  case writer_based =>
    intro t ht
    rw [hwriters] at ht
    obtain ⟨hl, -, hp⟩ := hr.based (mem_writers.mp ht).1
    have hall : s.bases t = s.kept.reverse := by
      apply hl.eq_of_length_le
      rw [h.bases_writer ht, List.length_reverse, List.length_reverse]
      exact kept_sublist.length_le
    show previous t = s.kept.getLast?
    rw [hp, hall, List.head?_reverse]
  case recycled =>
    intro v hv
    obtain ⟨hlt, hnot, hclosed⟩ := h.recycled v hv
    refine ⟨hlt, fun hin ↦ hnot (kept_sublist.subset hin), ?_⟩
    show (if _ then none else s.storageVersions (s.versions v).version) ≠ some v
    split
    · exact nofun
    · exact hclosed
  case recycler_nodup => exact h.recycler_nodup
  case single => exact hwriters ▸ h.single
  case readers =>
    intro v
    rw [htransactions]
    refine (h.readers v).trans (congrArg Finset.card (Finset.filter_congr fun t ht ↦ ?_))
    rw [hr.bases ht]
  case active => exact htransactions ▸ h.active
  case writing => exact hwriters ▸ h.writing

private theorem Rechains.mergedDown (hr : s.Rechains previous) :
    MergedDown s (s.rechained previous) where
  inv := hr.inv_rechained
  transactions := hr.inv.transactions_rechained
  bases := fun _ ↦ hr.bases
  allocator := fun _ _ ↦ rfl
  readOnly := fun _ ↦ rfl
  view := by
    intro a
    have hsame : (s.rechained previous).view s.kept.reverse a = s.view s.kept.reverse a :=
      view_congr a fun v _ ↦ rfl
    show (s.rechained previous).view s.kept.reverse a = s.view s.storages.reverse a
    rw [hsame, kept, ← List.filter_reverse]
    apply view_filter
    -- what is left out is empty
    intro v hv hmerged
    rw [Bool.not_eq_false'] at hmerged
    rw [Allocator.block, hr.marked.empty v (List.mem_reverse.mp hv) hmerged, AList.lookup_empty]
  recycler := rfl
  lastCommittedVersion := rfl

end Rechained

private theorem MergedDown.of_sameShape {s s' : Coordinator} (h : s.Inv) (hshape : SameShape s s')
    (hlast : s'.lastCommittedVersion = s.lastCommittedVersion)
    (hallocator : ∀ v, v ∉ s.storages ∨ (s.versions v).readers ≠ 0 →
      (s'.versions v).toAllocator = (s.versions v).toAllocator)
    (hview : ∀ a, s'.view s.storages.reverse a = s.view s.storages.reverse a) :
    MergedDown s s' where
  inv := hshape.inv h
  transactions := hshape.transactions
  bases := fun t _ ↦ hshape.bases t
  allocator := hallocator
  readOnly := hshape.readOnly
  view := by
    rw [hshape.storages]
    exact hview
  recycler := hshape.recycler
  lastCommittedVersion := hlast

private theorem MergedDown.trans {s s' s'' : Coordinator} (hshape : SameShape s s')
    (h : MergedDown s s') (h' : MergedDown s' s'') : MergedDown s s'' where
  inv := h'.inv
  transactions := h'.transactions.trans h.transactions
  bases := fun t ht ↦ (h'.bases t (h.transactions ▸ ht)).trans (h.bases t ht)
  allocator := by
    intro v hv
    rw [h'.allocator v (by rwa [hshape.storages, hshape.readers]), h.allocator v hv]
  readOnly := fun v ↦ (h'.readOnly v).trans (h.readOnly v)
  view := fun a ↦ (h'.view a).trans (h.view a)
  recycler := h'.recycler.trans h.recycler
  lastCommittedVersion := h'.lastCommittedVersion.trans h.lastCommittedVersion

/-- The versions that are kept can be chained. -/
theorem relink_kept {s : Coordinator} (hnodup : s.storages.Nodup) (hm : s.Marked) :
    ∃ (f : Coordinator) (previous : ℕ → Option ℕ),
      relink [] none s.kept { s.swept s.storages with storages := s.kept } = (.ok (), f) ∧
      (∀ v ∉ s.storages, previous v = (s.versions v).previous) ∧ f.Linked s.kept.reverse ∧
      f = s.rechained previous := by
  have hversion : ∀ v, ((s.swept s.storages).versions v).version = (s.versions v).version := by
    intro v
    unfold swept
    dsimp only
    split <;> rfl
  obtain ⟨hok, hlinked, previous, hprevious, hstate⟩ := relink_spec [] s.kept []
    { s.swept s.storages with storages := s.kept }
    (by simpa only [hversion] using hm.increasing.sublist kept_sublist) (by simp) (by simp) trivial
    (by simpa using hnodup.sublist kept_sublist)
  rw [List.head?_nil, List.append_nil] at hlinked
  rw [List.head?_nil] at hok hstate
  refine ⟨_, previous, Prod.ext hok rfl, fun v hv ↦ ?_, hlinked, hstate.trans ?_⟩
  · rw [hprevious v fun hin ↦ hv (kept_sublist.subset hin)]
    simp [swept, hv]
  · apply Coordinator.ext
    case versions =>
      ext1 v
      simp only [swept, rechained]
      split <;> rfl
    all_goals rfl

/-- What is left after the moves is forgotten or chained, and this does not throw. -/
theorem keepUnmerged_eq {s : Coordinator} (hnodup : s.storages.Nodup) (hne : s.storages ≠ [])
    (hm : s.Marked) :
    ∃ (f : Coordinator) (previous : ℕ → Option ℕ), s.keepUnmerged = (.ok (), f) ∧
      (∀ v ∉ s.storages, previous v = (s.versions v).previous) ∧ f.Linked s.kept.reverse ∧
      f = s.rechained previous := by
  obtain ⟨f, previous, hrelink, hprevious, hlinked, hf⟩ := relink_kept hnodup hm
  have hne' : f.storages ≠ [] := by
    rw [hf]
    exact hm.kept_ne_nil hne
  have hsweep : sweep s.storages [] s = (.ok s.kept, s.swept s.storages) :=
    sweep_eq _ _ _ hnodup hm.unused
  refine ⟨f, previous, ?_, hprevious, hlinked, hf⟩
  rw [keepUnmerged, hsweep]
  dsimp only
  rw [hrelink]
  exact if_neg hne'

private theorem keepUnmerged_spec {s : Coordinator} (h : s.Inv) (hm : s.Marked) :
    s.keepUnmerged.1 = .ok () ∧ MergedDown s s.keepUnmerged.2 := by
  obtain ⟨f, previous, hresult, hprevious, hlinked, hf⟩ := keepUnmerged_eq h.nodup h.nonempty hm
  rw [hresult]
  subst hf
  exact ⟨rfl, Rechains.mergedDown ⟨h, hm, hprevious, hlinked⟩⟩

/-- The moves mark idle versions, and empty what they mark. -/
theorem MovedWithin.marked {s s' : Coordinator} (h : MovedWithin s.storages.reverse s s')
    (hmarks : ∀ v ∈ s.storages, (s.versions v).merged = false)
    (hincreasing : s.storages.Pairwise fun u v ↦ (s.versions u).version < (s.versions v).version) :
    s'.Marked := by
  have hstorages := h.sameShape.storages
  constructor
  · intro v hv hmerged
    rw [h.sameShape.readers]
    by_contra hused
    rw [h.frame v (.inr hused), hmarks v (hstorages ▸ hv)] at hmerged
    cases hmerged
  · intro v hv
    apply h.emptied fun w hw ↦ hmarks w (List.mem_reverse.mp hw)
    exact List.mem_reverse.mpr (hstorages ▸ hv)
  · intro v hv
    rw [hstorages] at hv
    rw [Bool.eq_false_iff]
    intro hmerged
    have hmarked := h.last v (by rwa [List.getLast?_reverse]) hmerged
    rw [hmarks v (List.mem_of_mem_head? hv)] at hmarked
    cases hmarked
  · rw [hstorages]
    simpa only [h.sameShape.version] using hincreasing

/-- Merging idle versions keeps the invariant, the open transactions and what is seen. Where it
throws it has not got to change the list of the versions. -/
theorem mergeDown_spec {s : Coordinator} (h : s.Inv) :
    MergedDown s s.mergeDown.2 ∧
      ∀ e, s.mergeDown.1 = .error e → s.mergeDown.2.storages = s.storages := by
  unfold mergeDown
  split
  · exact ⟨.of_sameShape h (.refl s) rfl (fun _ _ ↦ rfl) fun _ ↦ rfl, fun _ _ ↦ rfl⟩
  obtain ⟨hshape, hlast, hallocator, -⟩ := checkOrder_spec 0 s.storages s
  have hcheck : MergedDown s (checkOrder 0 s.storages s).2 :=
    .of_sameShape h hshape hlast (fun v _ ↦ hallocator v)
      fun a ↦ view_congr a fun v _ ↦ by rw [hallocator]
  have hok := checkOrder_ok 0 s.storages s
  split
  · next e s₁ hresult =>
    rw [hresult] at hcheck hshape
    exact ⟨hcheck, fun _ _ ↦ hshape.storages⟩
  next u s₁ hresult =>
  rw [hresult] at hcheck hshape hok
  dsimp only at hcheck hshape hok
  obtain ⟨hmarks, -, hincreasing⟩ := hok rfl
  simp only [← hshape.version] at hincreasing
  rw [← hshape.storages] at hmarks hincreasing
  have hmoved := movedWithin_collectIdle s₁.storages.reverse [] s₁
    (List.nodup_reverse.mpr hcheck.inv.nodup) (by simp)
  rw [List.nil_append] at hmoved
  have hcollect : MergedDown s₁ (collectIdle s₁.storages.reverse [] s₁).2 :=
    .of_sameShape hcheck.inv hmoved.sameShape hmoved.lastCommittedVersion
      (fun v hv ↦ by rw [hmoved.frame v (hv.imp_left (List.mem_reverse.not.mpr))]) hmoved.view
  split
  · next e s₂ hresult₂ =>
    rw [hresult₂] at hcollect hmoved
    exact ⟨.trans hshape hcheck hcollect,
      fun _ _ ↦ hmoved.sameShape.storages.trans hshape.storages⟩
  next u₂ s₂ hresult₂ =>
  rw [hresult₂] at hcollect hmoved
  dsimp only at hcollect hmoved
  obtain ⟨hreturns, hkeep⟩ := keepUnmerged_spec hcollect.inv (hmoved.marked hmarks hincreasing)
  refine ⟨.trans hshape hcheck (.trans hmoved.sameShape hcollect hkeep), fun e hthrows ↦ ?_⟩
  rw [hreturns] at hthrows
  cases hthrows

/-! ### What merging throws -/

/-- A move returns where every block is newer than what it covers. -/
theorem move_ok_iff (s : Coordinator) (v dest : ℕ) :
    (s.move v dest).1 = .ok () ↔
      Allocator.Movable (s.traversals 0) (s.versions v).toAllocator
        (s.versions dest).toAllocator := by
  rw [← Allocator.move_iff_movable]
  unfold Coordinator.move
  dsimp only
  split <;> simp [*]

/-- A move that throws has found a version that is not newer. -/
theorem move_throws {s : Coordinator} {v dest : ℕ} {e : Thrown}
    (h : (s.move v dest).1 = .error e) : e = .invalidVersion := by
  unfold Coordinator.move at h
  dsimp only at h
  split at h
  · cases h
  · exact (Except.error.inj h).symm

/-- The versions are out of order, or one of them does not fit. -/
def Unmergeable (e : Thrown) : Prop := e = .invalidWriterOrder ∨ e = .invalidVersion

private theorem mergeIdle_throws {idle : List ℕ} {s : Coordinator} {e : Thrown}
    (h : (mergeIdle idle s).1 = .error e) : Unmergeable e := by
  fun_induction mergeIdle idle s with
  | case1 | case2 => cases h
  | case3 => exact .inl (Except.error.inj h).symm
  | case4 => exact .inr (Except.error.inj h).symm
  | case5 latest i idle s _ _ e' s' hmove =>
    cases h
    exact .inr (move_throws (congrArg Prod.fst hmove))
  | case6 latest i idle s _ _ _ s' _ ih => exact ih h

private theorem collectIdle_throws {rest idle : List ℕ} {s : Coordinator} {e : Thrown}
    (h : (collectIdle rest idle s).1 = .error e) : Unmergeable e := by
  fun_induction collectIdle rest idle s with
  | case1 idle s => exact mergeIdle_throws h
  | case2 c rest idle s _ ih => exact ih h
  | case3 c rest idle s _ e' s' hmerge =>
    cases h
    exact mergeIdle_throws (congrArg Prod.fst hmerge)
  | case4 c rest idle s _ _ s' _ ih => exact ih h

private theorem checkOrder_throws {version : ℕ} {l : List ℕ} {s : Coordinator} {e : Thrown}
    (h : (checkOrder version l s).1 = .error e) : Unmergeable e := by
  fun_induction checkOrder version l s with
  | case1 => cases h
  | case2 => exact .inl (Except.error.inj h).symm
  | case3 version c cs s _ ih => exact ih h

private theorem sweep_throws {l kept : List ℕ} {s : Coordinator} {e : Thrown}
    (h : (sweep l kept s).1 = .error e) : Unmergeable e := by
  fun_induction sweep l kept s with
  | case1 => cases h
  | case3 => exact .inr (Except.error.inj h).symm
  | case2 c cs kept s _ _ ih | case4 c cs kept s _ ih => exact ih h

private theorem relink_throws {verify : List ℕ} {prev : Option ℕ} {l : List ℕ} {s : Coordinator}
    {e : Thrown} (h : (relink verify prev l s).1 = .error e) : Unmergeable e := by
  fun_induction relink verify prev l s with
  | case1 => cases h
  | case2 => exact .inr (Except.error.inj h).symm
  | case3 => exact .inl (Except.error.inj h).symm
  | case4 verify prev c cs s _ s' _ ih => exact ih h

/-- `merge_down` throws for the versions alone. -/
theorem mergeDown_throws {s : Coordinator} {e : Thrown} (h : s.mergeDown.1 = .error e) :
    Unmergeable e := by
  unfold mergeDown at h
  split at h
  · cases h
  split at h
  · next hresult =>
    cases h
    exact checkOrder_throws (congrArg Prod.fst hresult)
  split at h
  · next hresult =>
    cases h
    exact collectIdle_throws (congrArg Prod.fst hresult)
  unfold keepUnmerged at h
  split at h
  · next hresult =>
    cases h
    exact sweep_throws (congrArg Prod.fst hresult)
  split at h
  · next hresult =>
    cases h
    exact relink_throws (congrArg Prod.fst hresult)
  split at h
  · exact .inr (Except.error.inj h).symm
  · cases h

end Coordinator

end LibSpaces.Transactions
