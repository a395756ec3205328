import Mathlib.Data.List.Chain
import LibSpaces.Transactions.FailedCommit

/-!
# What merging idle versions preserves

`merge_down` over versions that increase and whose blocks are stamped by their writers,
`src/src/storage/transactions/transactional_storage.h:1310–1369,2171–2240,2471–2590`. The readers
may be distributed in any way over the versions: every run of idle ones is moved into its oldest.
-/

namespace LibSpaces.Transactions

open LibSpaces.Base

namespace Allocator

/-- The blocks of one version are newer than a version and its blocks at the same address. -/
def Newer (s dest : Allocator) : Prop :=
  ∀ a b, s.block a = some b → dest.version < b.version ∧
    ∀ b', dest.block a = some b' → b'.version < b.version

/-- They are movable whatever is in memory. -/
theorem Newer.movable {s dest : Allocator} (h : s.Newer dest) (m : Traversal) :
    Movable m s dest := by
  rintro ⟨a, b⟩ hb
  obtain ⟨hversion, hblock⟩ := h a b (AList.mem_lookup_iff.2 hb)
  rw [versionAt]
  split
  · exact hversion
  · cases hd : dest.block a with
    | none => exact hversion
    | some b' => exact hblock b' hd

end Allocator

namespace Coordinator

/-- The blocks of a version as against those of another one. -/
def Newer (s : Coordinator) (v u : ℕ) : Prop :=
  (s.versions v).toAllocator.Newer (s.versions u).toAllocator

private theorem Newer.congr {s s' : Coordinator} {v u : ℕ} (h : s.Newer v u)
    (hv : (s'.versions v).toAllocator = (s.versions v).toAllocator)
    (hu : (s'.versions u).toAllocator = (s.versions u).toAllocator) : s'.Newer v u := by
  rw [Newer, hv, hu]
  exact h

/-- Newer blocks get to the version below. -/
theorem move_ok {s : Coordinator} {v dest : ℕ} (h : s.Newer v dest) :
    (s.move v dest).1 = .ok () :=
  (move_ok_iff s v dest).2 (h.movable _)

/-- The blocks of both are at the destination then. -/
theorem block_move {s : Coordinator} {v dest : ℕ} (hne : v ≠ dest) (h : s.Newer v dest) (a : ℕ) :
    ((s.move v dest).2.versions dest).block a =
      ((s.versions v).block a).or ((s.versions dest).block a) := by
  have hempty : ((s.move v dest).2.versions v).block a = none := by
    rw [Allocator.block, blocks_move s hne (move_ok h), AList.lookup_empty]
  rw [← or_block_move s hne a, hempty, Option.none_or]

/-- Versions from the newest to the oldest, each with blocks newer than those below. -/
structure Descending (s : Coordinator) (l : List ℕ) : Prop where
  nodup : l.Nodup
  versions : l.Pairwise fun u v ↦ (s.versions v).version < (s.versions u).version
  newer : l.Pairwise s.Newer

/-- Fewer versions descend where more do. -/
theorem Descending.sublist {s : Coordinator} {l l' : List ℕ} (h : s.Descending l)
    (hl : l'.Sublist l) : s.Descending l' :=
  ⟨h.nodup.sublist hl, h.versions.sublist hl, h.newer.sublist hl⟩

/-- Only the allocators of the versions count. -/
theorem Descending.congr {s s' : Coordinator} {l : List ℕ} (h : s.Descending l)
    (hsame : ∀ v ∈ l, (s'.versions v).toAllocator = (s.versions v).toAllocator) :
    s'.Descending l where
  nodup := h.nodup
  versions := h.versions.imp_of_mem fun hu hv hlt ↦ by rwa [hsame _ hu, hsame _ hv]
  newer := h.newer.imp_of_mem fun hu hv hnewer ↦ hnewer.congr (hsame _ hu) (hsame _ hv)

/-- The blocks of the listed versions come from listed versions. -/
def Stems (s s' : Coordinator) (l : List ℕ) : Prop :=
  ∀ v ∈ l, ∀ a b, (s'.versions v).block a = some b → ∃ u ∈ l, (s.versions u).block a = some b

private theorem Stems.trans {s s' s'' : Coordinator} {l : List ℕ} (h : Stems s s' l)
    (h' : Stems s' s'' l) : Stems s s'' l := by
  intro v hv a b hb
  obtain ⟨u, hu, hb⟩ := h' v hv a b hb
  exact h u hu a b hb

private theorem Stems.of_allocator {s s' : Coordinator} {l : List ℕ}
    (h : ∀ v ∈ l, (s'.versions v).toAllocator = (s.versions v).toAllocator) : Stems s s' l :=
  fun v hv _ _ hb ↦ ⟨v, hv, h v hv ▸ hb⟩

/-- A move between neighbours of the list. -/
structure Lowered (s s' : Coordinator) (l : List ℕ) : Prop where
  descending : s'.Descending l
  stems : Stems s s' l

private theorem Lowered.trans {s s' s'' : Coordinator} {l : List ℕ} (h : Lowered s s' l)
    (h' : Lowered s' s'' l) : Lowered s s'' l :=
  ⟨h'.descending, h.stems.trans h'.stems⟩

private theorem Descending.lowered {s s' : Coordinator} {l : List ℕ} (h : s.Descending l)
    (hsame : ∀ v ∈ l, (s'.versions v).toAllocator = (s.versions v).toAllocator) : Lowered s s' l :=
  ⟨h.congr hsame, .of_allocator hsame⟩

/-- A move to the version below keeps the order. -/
theorem Descending.move {s : Coordinator} {upper lower : List ℕ} {v dest : ℕ}
    (h : s.Descending (upper ++ v :: dest :: lower)) :
    Lowered s (s.move v dest).2 (upper ++ v :: dest :: lower) := by
  have hnodup := List.nodup_append.1 h.nodup
  have hnewer := List.pairwise_append.1 h.newer
  obtain ⟨hv, hd⟩ := List.nodup_cons.1 hnodup.2.1
  obtain ⟨hvnewer, hdnewer⟩ := List.pairwise_cons.1 hnewer.2.1
  have hne : v ≠ dest := fun he ↦ hv (he ▸ List.mem_cons_self)
  have hok : s.Newer v dest := hvnewer dest List.mem_cons_self
  have hshape := sameShape_move s hne
  have hother : ∀ u, u ≠ v → u ≠ dest → (s.move v dest).2.versions u = s.versions u := by
    intro u huv hud
    rw [versions_move s hne, if_neg hud, if_neg huv]
  have hempty : ∀ a, ((s.move v dest).2.versions v).block a = none := by
    intro a
    rw [Allocator.block, blocks_move s hne (move_ok hok), AList.lookup_empty]
  have hdest := fun a ↦ block_move hne hok a
  have hupper : ∀ u ∈ upper, u ≠ v ∧ u ≠ dest := fun u hu ↦
    ⟨hnodup.2.2 u hu v List.mem_cons_self,
      hnodup.2.2 u hu dest (List.mem_cons_of_mem _ List.mem_cons_self)⟩
  have hlower : ∀ u ∈ lower, u ≠ v ∧ u ≠ dest := fun u hu ↦
    ⟨fun he ↦ hv (he ▸ List.mem_cons_of_mem _ hu), fun he ↦ (List.nodup_cons.1 hd).1 (he ▸ hu)⟩
  have hsame : ∀ u w, u ≠ v → u ≠ dest → w ≠ v → w ≠ dest → s.Newer u w →
      (s.move v dest).2.Newer u w := fun u w hu hu' hw hw' huw ↦
    huw.congr (by rw [hother u hu hu']) (by rw [hother w hw hw'])
  refine ⟨⟨h.nodup, by simpa only [hshape.version] using h.versions, ?_⟩, ?_⟩
  · refine List.pairwise_append.2 ⟨?_, List.pairwise_cons.2 ⟨fun u _ a b hb ↦ ?_,
      List.pairwise_cons.2 ⟨fun u hu a b hb ↦ ?_, ?_⟩⟩, fun u hu w hw ↦ ?_⟩
    · exact hnewer.1.imp_of_mem fun {u w} hu hw ↦
        hsame u w (hupper u hu).1 (hupper u hu).2 (hupper w hw).1 (hupper w hw).2
    · rw [hempty] at hb
      cases hb
    · rw [hdest, Option.or_eq_some_iff] at hb
      rw [hother u (hlower u hu).1 (hlower u hu).2]
      rcases hb with hb | ⟨-, hb⟩
      · exact hvnewer u (List.mem_cons_of_mem _ hu) a b hb
      · exact (List.pairwise_cons.1 hdnewer).1 u hu a b hb
    · exact (List.pairwise_cons.1 hdnewer).2.imp_of_mem fun {u w} hu hw ↦
        hsame u w (hlower u hu).1 (hlower u hu).2 (hlower w hw).1 (hlower w hw).2
    · have huv := hnewer.2.2 u hu v List.mem_cons_self
      have hud := hnewer.2.2 u hu dest (List.mem_cons_of_mem _ List.mem_cons_self)
      intro a b hb
      rw [hother u (hupper u hu).1 (hupper u hu).2] at hb
      rw [hshape.version]
      refine ⟨(hnewer.2.2 u hu w hw a b hb).1, fun b' hb' ↦ ?_⟩
      rcases List.mem_cons.1 hw with rfl | hw
      · rw [hempty] at hb'
        cases hb'
      rcases List.mem_cons.1 hw with rfl | hw
      · rw [hdest, Option.or_eq_some_iff] at hb'
        rcases hb' with hb' | ⟨-, hb'⟩
        · exact (huv a b hb).2 b' hb'
        · exact (hud a b hb).2 b' hb'
      · rw [hother w (hlower w hw).1 (hlower w hw).2] at hb'
        have hin : w ∈ v :: dest :: lower := List.mem_cons_of_mem _ (List.mem_cons_of_mem _ hw)
        exact (hnewer.2.2 u hu w hin a b hb).2 b' hb'
  · intro u hu a b hb
    by_cases hud : u = dest
    · rw [hud, hdest, Option.or_eq_some_iff] at hb
      rcases hb with hb | ⟨-, hb⟩
      · exact ⟨v, by simp, hb⟩
      · exact ⟨dest, by simp, hb⟩
    by_cases huv : u = v
    · rw [huv, hempty] at hb
      cases hb
    · exact ⟨u, hu, by rwa [hother u huv hud] at hb⟩

/-- Idle neighbours are all moved into the oldest one, which alone is not merged. -/
theorem mergeIdle_ok (idle upper lower : List ℕ) (s : Coordinator)
    (h : s.Descending (upper ++ (idle ++ lower))) (hidle : ∀ v ∈ idle, (s.versions v).readers = 0) :
    (mergeIdle idle s).1 = .ok () ∧
      (idle.filter fun v ↦ !((mergeIdle idle s).2.versions v).merged) = idle.getLast?.toList ∧
      Lowered s (mergeIdle idle s).2 (upper ++ (idle ++ lower)) := by
  induction idle generalizing s upper with
  | nil => exact ⟨rfl, rfl, h.lowered fun _ _ ↦ rfl⟩
  | cons latest idle ih =>
    cases idle with
    | nil =>
      refine ⟨rfl, ?_, h.lowered fun v _ ↦ block_setMerged s latest v false⟩
      rw [mergeIdle]
      simp [versions_setMerged]
    | cons i idle =>
      have hgroup := h.sublist ((List.sublist_append_left _ lower).trans
        (List.sublist_append_right upper _))
      obtain ⟨hnot, hnodup⟩ := List.nodup_cons.1 hgroup.nodup
      have hne : latest ≠ i := fun he ↦ hnot (he ▸ List.mem_cons_self)
      have hmove : s.move latest i = (.ok (), (s.move latest i).2) :=
        Prod.ext (move_ok ((List.pairwise_cons.1 hgroup.newer).1 i List.mem_cons_self)) rfl
      have hshape := (sameShape_move s hne).trans (sameShape_setMerged _ latest true)
      have hmoved := h.move
      have hlowered := hmoved.trans (hmoved.descending.lowered fun v _ ↦
        block_setMerged (s.move latest i).2 latest v true)
      have hidle' : ∀ v ∈ i :: idle,
          (((s.move latest i).2.setMerged latest true).versions v).readers = 0 := by
        intro v hv
        rw [hshape.readers]
        exact hidle v (List.mem_cons_of_mem _ hv)
      have hsplit : upper ++ latest :: i :: (idle ++ lower) =
          (upper ++ [latest]) ++ ((i :: idle) ++ lower) := by
        simp only [List.append_assoc, List.cons_append, List.nil_append]
      obtain ⟨hok, hkept, hrest⟩ := ih (upper ++ [latest]) _ (hsplit ▸ hlowered.descending) hidle'
      have hresult : mergeIdle (latest :: i :: idle) s =
          mergeIdle (i :: idle) ((s.move latest i).2.setMerged latest true) := by
        have hversion := (List.pairwise_cons.1 hgroup.versions).1 i List.mem_cons_self
        rw [mergeIdle, if_neg (Nat.not_le.2 hversion),
          if_neg (not_not.2 (hidle i (List.mem_cons_of_mem _ List.mem_cons_self))), hmove]
      have hlatest : ((mergeIdle (i :: idle)
          ((s.move latest i).2.setMerged latest true)).2.versions latest).merged = true := by
        rw [(movedWithin_mergeIdle _ _ hnodup hidle').frame latest (.inl hnot), versions_setMerged,
          if_pos rfl]
      rw [hresult]
      refine ⟨hok, ?_, hlowered.trans (hsplit ▸ hrest)⟩
      rw [List.filter_cons_of_neg (by rw [hlatest]; decide), hkept, List.getLast?_cons_cons]

/-- One of two versions is in use. -/
def InUse (s : Coordinator) (u v : ℕ) : Prop :=
  (s.versions u).readers ≠ 0 ∨ (s.versions v).readers ≠ 0

/-- What collecting idle versions comes to: no two of the versions that are not merged are idle
neighbours, and one in use sees what it saw. -/
structure Collected (s s' : Coordinator) (idle rest : List ℕ) : Prop where
  inUse : ((idle ++ rest).filter fun v ↦ !(s'.versions v).merged).IsChain s.InUse
  view : ∀ upper v lower, rest = upper ++ v :: lower → (s.versions v).readers ≠ 0 →
    ∀ a, s'.view (v :: lower) a = s.view (v :: lower) a

/-- Idle versions that were merged into the last of them stand next to a version in use. -/
theorem isChain_collected {s s' : Coordinator} {idle rest : List ℕ} {c : ℕ}
    (hkept : (idle.filter fun v ↦ !(s'.versions v).merged) = idle.getLast?.toList)
    (hunmerged : (s'.versions c).merged = false) (hused : (s.versions c).readers ≠ 0)
    (htail : (rest.filter fun v ↦ !(s'.versions v).merged).IsChain s.InUse) :
    ((idle ++ c :: rest).filter fun v ↦ !(s'.versions v).merged).IsChain s.InUse := by
  rw [List.filter_append, hkept, List.filter_cons_of_pos (by rw [hunmerged]; rfl)]
  have hfrom : (c :: rest.filter fun v ↦ !(s'.versions v).merged).IsChain s.InUse :=
    List.isChain_cons.2 ⟨fun v _ ↦ .inl hused, htail⟩
  cases idle.getLast? with
  | none => exact hfrom
  | some i => exact List.isChain_cons.2 ⟨fun v hv ↦ .inr (by cases hv; exact hused), hfrom⟩

private theorem collectIdle_ok (rest idle upper : List ℕ) (s : Coordinator)
    (h : s.Descending (upper ++ (idle ++ rest))) (hidle : ∀ v ∈ idle, (s.versions v).readers = 0)
    (hmarks : ∀ v ∈ rest, (s.versions v).merged = false) :
    (collectIdle rest idle s).1 = .ok () ∧ Collected s (collectIdle rest idle s).2 idle rest ∧
      Lowered s (collectIdle rest idle s).2 (upper ++ (idle ++ rest)) := by
  fun_induction collectIdle rest idle s generalizing upper with
  | case1 idle s =>
    obtain ⟨hok, hkept, hlowered⟩ := mergeIdle_ok idle upper [] s h hidle
    refine ⟨hok, ⟨?_, fun upper v lower hrest ↦ ?_⟩, hlowered⟩
    · rw [List.append_nil, hkept]
      cases idle.getLast? with
      | none => exact .nil
      | some v => exact .singleton v
    · simp at hrest
  | case2 c rest idle s hunused ih =>
    have happend : idle ++ c :: rest = idle ++ [c] ++ rest := List.append_cons ..
    obtain ⟨hok, ⟨hinUse, hview⟩, hlowered⟩ := ih upper (happend ▸ h)
      (by
        intro v hv
        rcases List.mem_append.1 hv with hv | hv
        · exact hidle v hv
        · rw [List.mem_singleton.1 hv, hunused])
      fun v hv ↦ hmarks v (List.mem_cons_of_mem _ hv)
    refine ⟨hok, ⟨happend ▸ hinUse, fun upper v lower hrest hused ↦ ?_⟩, happend ▸ hlowered⟩
    cases upper with
    | nil =>
      cases hrest
      exact absurd hunused hused
    | cons _ upper =>
      cases hrest
      exact hview upper v lower rfl hused
  | case3 c rest idle s hused e s' hmerge =>
    have hok := (mergeIdle_ok idle upper (c :: rest) s h hidle).1
    rw [hmerge] at hok
    cases hok
  | case4 c rest idle s hused u s' hmerge ih =>
    have hs' : s' = (mergeIdle idle s).2 := by rw [hmerge]
    obtain ⟨-, hkept, hlowered⟩ := mergeIdle_ok idle upper (c :: rest) s h hidle
    have hlist := (List.nodup_append.1 h.nodup).2.1
    have hmoved := movedWithin_mergeIdle idle s (List.nodup_append.1 hlist).1 hidle
    rw [← hs'] at hkept hmoved hlowered
    have hdisjoint := (List.nodup_append.1 hlist).2.2
    have hsame : ∀ v ∈ c :: rest, s'.versions v = s.versions v :=
      fun v hv ↦ hmoved.frame v (.inl fun hin ↦ hdisjoint v hin v hv rfl)
    obtain ⟨hc, hnodup⟩ := List.nodup_cons.1 (List.nodup_append.1 hlist).2.1
    have hsplit : upper ++ (idle ++ c :: rest) = (upper ++ idle ++ [c]) ++ ([] ++ rest) := by
      simp only [List.append_assoc, List.cons_append, List.nil_append]
    obtain ⟨hok, ⟨hinUse, hview⟩, hlowered'⟩ := ih (upper ++ idle ++ [c])
      (hsplit ▸ hlowered.descending) (by simp)
      (fun v hv ↦ by
        rw [hsame v (List.mem_cons_of_mem _ hv)]
        exact hmarks v (List.mem_cons_of_mem _ hv))
    have hrest := movedWithin_collectIdle rest [] s' hnodup (by simp)
    rw [List.nil_append] at hinUse hrest
    refine ⟨hok, ⟨?_, fun upper v lower heq hv a ↦ ?_⟩, hlowered.trans (hsplit ▸ hlowered')⟩
    · refine isChain_collected ?_ ?_ hused (hinUse.imp fun u v hu ↦ ?_)
      · rw [← hkept]
        refine List.filter_congr fun v hv ↦ ?_
        rw [hrest.frame v (.inl fun hin ↦ hdisjoint v hv v (List.mem_cons_of_mem _ hin) rfl)]
      · rw [hrest.frame c (.inl hc), hsame c List.mem_cons_self]
        exact hmarks c List.mem_cons_self
      · rwa [InUse, hmoved.sameShape.readers, hmoved.sameShape.readers] at hu
    · have hbefore : ∀ l, l.Sublist (c :: rest) → s'.view l a = s.view l a := fun l hl ↦
        view_congr a fun v hv ↦ by rw [hsame v (hl.subset hv)]
      cases upper with
      | nil =>
        cases heq
        rw [view_cons, hrest.view, hrest.frame c (.inl hc), ← view_cons]
        exact hbefore _ (.refl _)
      | cons _ upper =>
        cases heq
        rw [hview upper v lower rfl (by rwa [hmoved.sameShape.readers])]
        exact hbefore _ ((List.sublist_append_right upper _).trans (List.sublist_cons_self ..))

/-- The committed versions are chained and increase, from above the version that none has, and
so do their blocks. -/
structure Ordered (s : Coordinator) : Prop where
  lt : ∀ v ∈ s.storages, v < s.size
  nonempty : s.storages ≠ []
  linked : s.Linked s.storages.reverse
  positive : ∀ v ∈ s.storages, 0 < (s.versions v).version
  descending : s.Descending s.storages.reverse

/-- The block at an address as seen from a version down the pointers. -/
def seen (s : Coordinator) (v : Option ℕ) (a : ℕ) : Option Block := s.view (s.chain s.size v) a

/-- The versions stay in order and those in use see what they saw. -/
structure ViewsKept (s s' : Coordinator) : Prop where
  increasing : s'.storages.Pairwise fun u v ↦ (s'.versions u).version < (s'.versions v).version
  linked : s'.Linked s'.storages.reverse
  newest : ∀ a, s'.seen s'.storages.getLast? a = s.seen s.storages.getLast? a
  used : ∀ v ∈ s.storages, (s.versions v).readers ≠ 0 →
    v ∈ s'.storages ∧ ∀ a, s'.seen (some v) a = s.seen (some v) a

/-- Below a version of a chain is the rest of the chain. -/
theorem seen_eq {s : Coordinator} {l l' : List ℕ} (hlinked : s.Linked l) (hnodup : l.Nodup)
    (hlt : ∀ v ∈ l, v < s.size) (hl : l' <:+ l) (a : ℕ) : s.seen l'.head? a = s.view l' a := by
  rw [seen, (hlinked.of_suffix hl).chain]
  exact length_le_of_lt (hnodup.sublist hl.sublist) fun v hv ↦ hlt v (hl.subset hv)

private theorem Ordered.seen {s : Coordinator} (h : s.Ordered) {l : List ℕ}
    (hl : l <:+ s.storages.reverse) (a : ℕ) : s.seen l.head? a = s.view l a :=
  seen_eq h.linked h.descending.nodup (fun v hv ↦ h.lt v (List.mem_reverse.1 hv)) hl a

private theorem Ordered.increasing {s : Coordinator} (h : s.Ordered) :
    s.storages.Pairwise fun u v ↦ (s.versions u).version < (s.versions v).version :=
  List.pairwise_reverse.1 h.descending.versions

/-- Versions that increase pass the check on their order. -/
theorem checkOrder_eq_ok (version : ℕ) (l : List ℕ) (s : Coordinator)
    (habove : ∀ v ∈ l, version < (s.versions v).version)
    (hincreasing : l.Pairwise fun u v ↦ (s.versions u).version < (s.versions v).version) :
    (checkOrder version l s).1 = .ok () := by
  induction l generalizing version s with
  | nil => rfl
  | cons c cs ih =>
    have hshape := sameShape_setMerged s c false
    obtain ⟨hc, hcs⟩ := List.pairwise_cons.1 hincreasing
    rw [checkOrder, if_neg (Nat.not_le.2 (habove c List.mem_cons_self))]
    apply ih
    · simpa only [hshape.version] using hc
    · simpa only [hshape.version] using hcs

/-- Forgetting merged versions keeps the views that the moves have kept. -/
theorem viewsKept_of_marked {s s₂ f : Coordinator} (h : s.Ordered) (hshape : SameShape s s₂)
    (hm : s₂.Marked) (hview : ∀ a, s₂.view s.storages.reverse a = s.view s.storages.reverse a)
    (hused : ∀ upper v lower, s.storages.reverse = upper ++ v :: lower →
      (s.versions v).readers ≠ 0 → ∀ a, s₂.view (v :: lower) a = s.view (v :: lower) a)
    (hlinked : f.Linked s₂.kept.reverse) (hstorages : f.storages = s₂.kept)
    (hsize : f.size = s₂.size)
    (hversions : ∀ v, (f.versions v).toAllocator = (s₂.versions v).toAllocator) :
    ViewsKept s f := by
  have hsub : s₂.kept.Sublist s.storages := hshape.storages ▸ List.filter_sublist
  have hkept : s₂.kept.reverse = s.storages.reverse.filter fun v ↦ !(s₂.versions v).merged := by
    rw [kept, hshape.storages, List.filter_reverse]
  have hseen : ∀ l, l <:+ s₂.kept.reverse → ∀ a, f.seen l.head? a = f.view l a := by
    refine fun l hl a ↦ seen_eq hlinked ?_ (fun v hv ↦ ?_) hl a
    · exact List.nodup_reverse.2 ((List.nodup_reverse.1 h.descending.nodup).sublist hsub)
    · rw [hsize, hshape.size]
      exact h.lt v (hsub.subset (List.mem_reverse.1 hv))
  have hfilter : ∀ l, l.Sublist s.storages.reverse → ∀ a,
      f.view (l.filter fun v ↦ !(s₂.versions v).merged) a = s₂.view l a := by
    intro l hl a
    refine Eq.trans (view_congr a fun v _ ↦ by rw [hversions])
      (view_filter _ a fun v hv hmerged ↦ ?_)
    rw [Bool.not_eq_false'] at hmerged
    have hin : v ∈ s₂.storages := hshape.storages ▸ List.mem_reverse.1 (hl.subset hv)
    rw [Allocator.block, hm.empty v hin hmerged, AList.lookup_empty]
  constructor
  case increasing =>
    rw [hstorages]
    refine (h.increasing.sublist hsub).imp fun {u v} hlt ↦ ?_
    rwa [hversions, hversions, hshape.version, hshape.version]
  case linked => exact hstorages ▸ hlinked
  case newest =>
    intro a
    rw [List.getLast?_eq_head?_reverse, List.getLast?_eq_head?_reverse, hstorages,
      hseen _ (List.suffix_refl _), h.seen (List.suffix_refl _), hkept, hfilter _ (.refl _), hview]
  case used =>
    intro v hv hreaders
    have hunmerged : (s₂.versions v).merged = false := by
      rw [Bool.eq_false_iff]
      intro hmerged
      have hunused := hm.unused v (hshape.storages ▸ hv) hmerged
      exact hreaders (hshape.readers v ▸ hunused)
    obtain ⟨upper, lower, hsplit⟩ := List.append_of_mem (List.mem_reverse.2 hv)
    have hlower : (v :: lower).filter (fun v ↦ !(s₂.versions v).merged) =
        v :: lower.filter fun v ↦ !(s₂.versions v).merged :=
      List.filter_cons_of_pos (by rw [hunmerged]; rfl)
    have hsuffix : v :: lower.filter (fun v ↦ !(s₂.versions v).merged) <:+ s₂.kept.reverse := by
      refine ⟨upper.filter fun v ↦ !(s₂.versions v).merged, ?_⟩
      rw [hkept, hsplit, List.filter_append, hlower]
    refine ⟨?_, fun a ↦ ?_⟩
    · rw [hstorages, ← List.mem_reverse]
      exact hsuffix.subset List.mem_cons_self
    · have hfrom := hseen _ hsuffix a
      have hbefore := h.seen (l := v :: lower) ⟨upper, hsplit.symm⟩ a
      rw [List.head?_cons] at hfrom hbefore
      rw [hfrom, hbefore, ← hlower, hfilter _ (hsplit ▸ List.sublist_append_right ..),
        hused upper v lower hsplit hreaders]

/-- Idle versions are merged: the views and the order are kept, and no idle neighbours are left
unless a journal synch is going on, when nothing is changed. -/
structure MergedInOrder (s s' : Coordinator) : Prop where
  views : ViewsKept s s'
  neighbours : s.journalSynching = false → s'.storages.IsChain s.InUse
  ordered : s'.Ordered
  shape : s'.size = s.size ∧ (∀ v, (s'.versions v).version = (s.versions v).version) ∧
    s'.storages.Sublist s.storages
  stems : ∀ v ∈ s'.storages, ∀ a b, (s'.versions v).block a = some b →
    ∃ u ∈ s.storages, (s.versions u).block a = some b

/-- Merging idle versions that are in order does not throw. -/
theorem mergeDown_ok {s : Coordinator} (h : s.Ordered) :
    s.mergeDown.1 = .ok () ∧ MergedInOrder s s.mergeDown.2 := by
  unfold mergeDown
  split
  · next hskip =>
    refine ⟨rfl, ⟨h.increasing, h.linked, fun _ ↦ rfl, fun v hv _ ↦ ⟨hv, fun _ ↦ rfl⟩⟩, ?_, h,
      ⟨rfl, fun _ ↦ rfl, .refl _⟩, fun v hv a b hb ↦ ⟨v, hv, hb⟩⟩
    intro hsynch
    rw [hsynch] at hskip
    exact absurd hskip (by simp [h.nonempty])
  obtain ⟨hshape₁, -, hallocator, -⟩ := checkOrder_spec 0 s.storages s
  have hok₁ := checkOrder_eq_ok 0 s.storages s h.positive h.increasing
  obtain ⟨hmarks, -, -⟩ := checkOrder_ok 0 s.storages s hok₁
  split
  · next hresult =>
    rw [hresult] at hok₁
    cases hok₁
  next s₁ hresult =>
  rw [hresult] at hshape₁ hallocator hmarks
  dsimp only at hshape₁ hallocator hmarks
  have hlowered₁ := h.descending.lowered fun v _ ↦ hallocator v
  obtain ⟨hok₂, ⟨hinUse, hused⟩, hlowered₂⟩ := collectIdle_ok s.storages.reverse [] [] s₁
    hlowered₁.descending (by simp) fun v hv ↦ hmarks v (List.mem_reverse.1 hv)
  have hmoved := movedWithin_collectIdle s.storages.reverse [] s₁ hlowered₁.descending.nodup
    (by simp)
  rw [hshape₁.storages]
  split
  · next hresult₂ =>
    rw [hresult₂] at hok₂
    cases hok₂
  next s₂ hresult₂ =>
  rw [hresult₂] at hinUse hused hmoved hlowered₂
  rw [List.nil_append] at hinUse hmoved
  have hlowered : Lowered s s₂ s.storages.reverse := hlowered₁.trans hlowered₂
  have hshape₂ := hshape₁.trans hmoved.sameShape
  have hsame : ∀ l a, s₁.view l a = s.view l a :=
    fun l a ↦ view_congr a fun v _ ↦ by rw [hallocator]
  have hmarked : s₂.Marked := by
    refine MovedWithin.marked (s := s₁) (hshape₁.storages ▸ hmoved) ?_ ?_
    · rwa [hshape₁.storages]
    · rw [hshape₁.storages]
      simpa only [hshape₁.version] using h.increasing
  have hnonempty : s₂.storages ≠ [] := by
    rw [hshape₂.storages]
    exact h.nonempty
  obtain ⟨f, previous, hresult₃, -, hlinked, hf⟩ := keepUnmerged_eq (s := s₂)
    (by rw [hshape₂.storages]; exact List.nodup_reverse.1 h.descending.nodup) hnonempty hmarked
  have hstorages : f.storages = s₂.kept := by rw [hf]; rfl
  have hsize : f.size = s₂.size := by rw [hf]; rfl
  have hversions : ∀ v, f.versions v = { s₂.versions v with previous := previous v } := by
    intro v
    rw [hf]
    rfl
  have hsub : f.storages.Sublist s.storages :=
    hstorages ▸ hshape₂.storages ▸ List.filter_sublist
  have hversion : ∀ v, (f.versions v).version = (s.versions v).version := by
    intro v
    rw [hversions]
    exact hshape₂.version v
  rw [hresult₃]
  refine ⟨rfl, ?_, fun _ ↦ ?_, ⟨?_, ?_, ?_, ?_, ?_⟩, ⟨hsize.trans hshape₂.size, hversion, hsub⟩, ?_⟩
  · refine viewsKept_of_marked h hshape₂ hmarked (fun a ↦ (hmoved.view a).trans (hsame _ a)) ?_
      hlinked hstorages hsize fun v ↦ by rw [hversions]
    intro upper v lower hsplit hreaders a
    rw [hused upper v lower hsplit (by rwa [hshape₁.readers]), hsame]
  · have hfilter : s₂.kept.reverse = s.storages.reverse.filter fun v ↦ !(s₂.versions v).merged := by
      rw [kept, hshape₂.storages, List.filter_reverse]
    rw [← hfilter, List.isChain_reverse] at hinUse
    dsimp only
    rw [hstorages]
    refine hinUse.imp fun {u v} huv ↦ ?_
    rw [InUse, hshape₁.readers, hshape₁.readers] at huv
    exact huv.symm
  · intro v hv
    dsimp only at hv ⊢
    rw [hsize, hshape₂.size]
    exact h.lt v (hsub.subset hv)
  · exact hstorages ▸ hmarked.kept_ne_nil hnonempty
  · exact hstorages ▸ hlinked
  · intro v hv
    dsimp only at hv ⊢
    rw [hversion]
    exact h.positive v (hsub.subset hv)
  · exact (hlowered.descending.sublist hsub.reverse).congr fun v _ ↦ by rw [hversions]
  · intro v hv a b hb
    dsimp only at hv hb
    rw [hversions] at hb
    obtain ⟨u, hu, hb⟩ := hlowered.stems v (List.mem_reverse.2 (hsub.subset hv)) a b hb
    exact ⟨u, List.mem_reverse.1 hu, hb⟩

end Coordinator

end LibSpaces.Transactions
