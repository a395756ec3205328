import LibSpaces.Stx.MapRuns

/-!
# Pages that can be saved

Whatever a tree looks like, an operation on it leaves pages that `save` takes, also where a page no
longer belongs to the tree: such a page stays registered and is saved without occupants,
`src/src/stx/btree.h:1621–1656,6199–6216,6657–6706`. The first pages are those of the boot values.
-/

namespace LibSpaces.Stx

variable {K V : Type}

/-- What is in a node has slots, and the level of an interior one is not above the topmost. -/
def Node.Fits (tr : Traits) (top : ℕ) : Node K V → Prop
  | .surface n => n.kvs.length ≤ tr.surfaces
  | .interior n => n.keys.length ≤ tr.interiorslots ∧ 0 < n.level ∧ n.level ≤ top

namespace Btree

variable {tr : Traits} {top : ℕ} {s s' s₁ s₂ : Btree K V}

/-- The pages lie behind the boot values and their nodes can be saved. -/
structure Saveable (tr : Traits) (top : ℕ) (s : Btree K V) : Prop where
  room : 32 ≤ s.storage.lastAddress
  above : ∀ w, (s.load w).isSome → 32 < w
  fits : ∀ w n, s.load w = some n → n.Fits tr top

/-- A level from 1 on that is not above the topmost one. -/
abbrev LevelIn (top level : ℕ) : Prop := 0 < level ∧ level ≤ top

private theorem depth_of_load {n : Node K V} (h : s.load s.root = some n) :
    s.depth = n.level + 1 := by
  rw [depth, h]

private theorem depth_of_level (hroot : s'.root = s.root)
    (h : (s'.load s.root).map Node.level = (s.load s.root).map Node.level) :
    s'.depth = s.depth := by
  unfold depth
  rw [hroot]
  cases hs' : s'.load s.root <;> cases hs : s.load s.root <;> simp_all

namespace Saveable

private theorem put (h : Saveable tr top s) {w : ℕ} {n : Node K V} (hw : 32 < w)
    (hn : n.Fits tr top) :
    Saveable tr top (s.put w n) where
  room := h.room
  above := by
    intro v hv
    rw [load_put] at hv
    split at hv
    · next heq => exact heq ▸ hw
    · exact h.above v hv
  fits := by
    intro v m hm
    rw [load_put] at hm
    split at hm
    · cases hm
      exact hn
    · exact h.fits v m hm

private theorem putSurface (h : Saveable tr top s) {w next preceding : ℕ} {kvs : List (K × V)}
    (hw : 32 < w) (hkvs : kvs.length ≤ tr.surfaces) :
    Saveable tr top (s.put w (.surface ⟨kvs, next, preceding⟩)) := h.put hw hkvs

private theorem putInterior (h : Saveable tr top s) {w level : ℕ} {keys : List K} {childid : List ℕ}
    (hw : 32 < w) (hkeys : keys.length ≤ tr.interiorslots) (hlevel : LevelIn top level) :
    Saveable tr top (s.put w (.interior ⟨level, keys, childid⟩)) := h.put hw ⟨hkeys, hlevel⟩

private theorem of_load (h : Saveable tr top s) (hload : s'.load = s.load)
    (hlast : s.storage.lastAddress ≤ s'.storage.lastAddress) : Saveable tr top s' where
  room := h.room.trans hlast
  above := by
    intro w hw
    apply h.above w
    rwa [← hload]
  fits := by
    intro w n hn
    apply h.fits w n
    rwa [← hload]

private theorem allocate (h : Saveable tr top s) {n : Node K V} (hn : n.Fits tr top) :
    Saveable tr top (s.allocate n).2 := by
  have hroom := h.room
  have hlater : Saveable tr top
      { s with storage := { s.storage with lastAddress := s.storage.lastAddress + 1 } } :=
    h.of_load rfl (Nat.le_succ _)
  have hnew : 32 < s.storage.lastAddress + 1 := by omega
  exact hlater.put hnew hn

private theorem setLast (h : Saveable tr top s) (w : ℕ) :
    Saveable tr top { s with lastSurface := w } :=
  h.of_load rfl le_rfl

private theorem setSize (h : Saveable tr top s) (c : Prop) [Decidable c] (size : ℕ) :
    Saveable tr top (if c then { s with stats := { s.stats with treeSize := size } } else s) := by
  split
  · exact h.of_load rfl le_rfl
  · exact h

private theorem load_of_surfaceAt {w : ℕ} {n : Surface K V} (hn : s.surfaceAt w = some n) :
    s.load w = some (.surface n) := by
  unfold Btree.surfaceAt at hn
  split at hn
  · next hload => exact hload.trans (congrArg _ (congrArg _ (Option.some.inj hn)))
  · cases hn

private theorem surfaceAt (h : Saveable tr top s) {w : ℕ} {n : Surface K V}
    (hn : s.surfaceAt w = some n) : 32 < w ∧ n.kvs.length ≤ tr.surfaces :=
  have hload := load_of_surfaceAt hn
  ⟨h.above w (hload ▸ rfl), h.fits w _ hload⟩

private theorem load_of_interiorAt {w : ℕ} {n : Interior K} (hn : s.interiorAt w = some n) :
    s.load w = some (.interior n) := by
  unfold Btree.interiorAt at hn
  split at hn
  · next hload => exact hload.trans (congrArg _ (congrArg _ (Option.some.inj hn)))
  · cases hn

private theorem interiorAt (h : Saveable tr top s) {w : ℕ} {n : Interior K}
    (hn : s.interiorAt w = some n) :
    32 < w ∧ n.keys.length ≤ tr.interiorslots ∧ LevelIn top n.level :=
  have hload := load_of_interiorAt hn
  ⟨h.above w (hload ▸ rfl), h.fits w _ hload⟩

private theorem change (h : Saveable tr top s) {w : ℕ} (heq : s.change w = some s') :
    Saveable tr top s' := by
  obtain ⟨n, hn, rfl⟩ := Option.map_eq_some_iff.1 heq
  exact h.put (h.above w (hn ▸ rfl)) (h.fits w n hn)

private theorem setPreceding (h : Saveable tr top s) {w p : ℕ}
    (heq : s.setPreceding w p = some s') :
    Saveable tr top s' := by
  obtain ⟨n, hn, heq⟩ := Option.bind_eq_some_iff.1 heq
  cases heq
  obtain ⟨hw, hkvs⟩ := h.surfaceAt hn
  exact h.putSurface hw hkvs

/-- A child is put where there is a slot for its key. -/
theorem putChild (h : Saveable tr top s) {w slot nc : ℕ} {k : K}
    (hslot : ∀ n, s.interiorAt w = some n → n.keys.length < tr.interiorslots)
    (heq : s.putChild w slot k nc = some s') : Saveable tr top s' := by
  obtain ⟨n, hn, heq⟩ := Option.bind_eq_some_iff.1 heq
  cases heq
  obtain ⟨hw, -, hlevel⟩ := h.interiorAt hn
  have hlt := hslot n hn
  refine h.putInterior hw ?_ hlevel
  exact List.length_insertIdx_le_succ.trans hlt

private theorem ensureRoot (h : Saveable tr top s) : Saveable tr top s.ensureRoot := by
  unfold Btree.ensureRoot
  split
  · exact (h.allocate (n := .surface ⟨[], 0, 0⟩) (Nat.zero_le _)).of_load rfl le_rfl
  · exact h

/-- The new root is a level above the one that was split. -/
theorem growRoot (h : Saveable tr top s) {k : K} {nc : ℕ} (heq : s.growRoot k nc = some s')
    (hdepth : s'.root ≠ 0 → s'.depth ≤ top + 1) : Saveable tr top s' := by
  obtain ⟨root, -, heq⟩ := Option.bind_eq_some_iff.1 heq
  dsimp only at heq
  obtain ⟨s₁, hchange, heq⟩ := Option.bind_eq_some_iff.1 heq
  cases heq
  have hload : s₁.load (s.storage.lastAddress + 1) =
      some (.interior ⟨root.level + 1, [k], [s.root, nc]⟩) := by
    obtain ⟨n, hn, rfl⟩ := Option.map_eq_some_iff.1 hchange
    rw [load_put_same hn, load_allocate, if_pos rfl]
  have hlevel : root.level + 1 ≤ top := by
    have hroot : ({ s₁ with root := s.storage.lastAddress + 1 } : Btree K V).depth =
        root.level + 1 + 1 := by
      apply depth_of_load (n := .interior ⟨root.level + 1, [k], [s.root, nc]⟩)
      exact hload
    have := hroot.symm.trans_le (hdepth (Nat.succ_ne_zero _))
    omega
  have hnew : Node.Fits (V := V) tr top (.interior ⟨root.level + 1, [k], [s.root, nc]⟩) := by
    have := tr.four_le_interiorslots
    exact ⟨by simp only [List.length_singleton]; omega, Nat.succ_pos _, hlevel⟩
  exact ((h.allocate hnew).change hchange).of_load rfl le_rfl

private theorem mergeLeaves (h : Saveable tr top s) {left right : ℕ}
    (hroom : ∀ l r, s.surfaceAt left = some l → s.surfaceAt right = some r →
      l.kvs.length + r.kvs.length ≤ tr.surfaces)
    (heq : s.mergeLeaves left right = some s') : Saveable tr top s' := by
  obtain ⟨l, hl, heq⟩ := Option.bind_eq_some_iff.1 heq
  obtain ⟨r, hr, heq⟩ := Option.bind_eq_some_iff.1 heq
  have hmerged : (l.kvs ++ r.kvs).length ≤ tr.surfaces := by
    rw [List.length_append]
    exact hroom l r hl hr
  have hleft : Saveable tr top (s.put left (.surface ⟨l.kvs ++ r.kvs, r.next, l.preceding⟩)) :=
    h.putSurface (h.surfaceAt hl).1 hmerged
  have hright : Saveable tr top ((s.put left (.surface ⟨l.kvs ++ r.kvs, r.next,
      l.preceding⟩)).put right (.surface ⟨[], r.next, r.preceding⟩)) :=
    hleft.putSurface (h.surfaceAt hr).1 (Nat.zero_le _)
  dsimp only at heq
  split at heq
  · cases heq
    exact hright.setLast left
  · exact hright.setPreceding heq

section Keys

variable [Inhabited K]

omit [Inhabited K] in
/-- Of a change of the links the pairs stay. -/
theorem kvs_of_setPreceding {w v p : ℕ} {n : Surface K V} (heq : s.setPreceding w p = some s')
    (hn : s'.surfaceAt v = some n) : ∃ m, s.surfaceAt v = some m ∧ m.kvs = n.kvs := by
  obtain ⟨m, hm, heq⟩ := Option.bind_eq_some_iff.1 heq
  cases heq
  have hload := load_of_surfaceAt hn
  rw [load_put] at hload
  split at hload
  · next hv =>
    cases hload
    exact ⟨m, hv ▸ hm, rfl⟩
  · exact ⟨n, surfaceAt_eq hload, rfl⟩

/-- Both parts of a leaf that was split have a slot for another pair. -/
theorem splitSurfaceNode (h : Saveable tr top s) {w : ℕ} {out : K × ℕ}
    (heq : s.splitSurfaceNode w = some (s', out)) :
    Saveable tr top s' ∧ 32 < w ∧ 32 < out.2 ∧ ∀ v, v = w ∨ v = out.2 → ∀ n,
      s'.surfaceAt v = some n → n.kvs.length < tr.surfaces := by
  have hroom := h.room
  have hfour := tr.four_le_surfaces
  obtain ⟨n, hn, heq⟩ := Option.bind_eq_some_iff.1 heq
  obtain ⟨s₀, hchange, heq⟩ := Option.bind_eq_some_iff.1 heq
  have h₀ := h.change hchange
  have hlast : s₀.storage.lastAddress = s.storage.lastAddress := by
    obtain ⟨m, -, rfl⟩ := Option.map_eq_some_iff.1 hchange
    rfl
  obtain ⟨hw, hslots⟩ := h.surfaceAt hn
  have hkept : (n.kvs.take (n.kvs.length / 2)).length < tr.surfaces := by
    rw [List.length_take]
    omega
  have hmoved : (n.kvs.drop (n.kvs.length / 2)).length < tr.surfaces := by
    rw [List.length_drop]
    omega
  have hnew := h₀.allocate (n := .surface ⟨n.kvs.drop (n.kvs.length / 2), n.next, w⟩) hmoved.le
  have hsibling (m : Surface K V) (hm : (s₀.allocate (.surface ⟨n.kvs.drop (n.kvs.length / 2),
      n.next, w⟩)).2.surfaceAt (s₀.storage.lastAddress + 1) = some m) :
      m.kvs.length < tr.surfaces := by
    have hload := load_of_surfaceAt hm
    rw [load_allocate, if_pos rfl] at hload
    cases hload
    exact hmoved
  have hparts (x : Btree K V) (hx : ∀ m, x.surfaceAt (s₀.storage.lastAddress + 1) = some m →
      m.kvs.length < tr.surfaces) (next : ℕ) (v : ℕ) (hv : v = w ∨ v = s₀.storage.lastAddress + 1)
      (m : Surface K V) (hm : (x.put w (.surface ⟨n.kvs.take (n.kvs.length / 2), next,
        n.preceding⟩)).surfaceAt v = some m) : m.kvs.length < tr.surfaces := by
    have hload := load_of_surfaceAt hm
    rw [load_put] at hload
    split at hload
    · cases hload
      exact hkept
    · next hne => exact hx m (hv.resolve_left hne ▸ surfaceAt_eq hload)
  dsimp only at heq
  split at heq
  · cases heq
    exact ⟨(hnew.setLast _).putSurface hw hkept.le, hw, Nat.lt_succ_of_le (hlast ▸ hroom),
      hparts { (s₀.allocate _).2 with lastSurface := s₀.storage.lastAddress + 1 } hsibling _⟩
  · obtain ⟨s₁, hlink, heq⟩ := Option.bind_eq_some_iff.1 heq
    cases heq
    refine ⟨(hnew.setPreceding hlink).putSurface hw hkept.le, hw, Nat.lt_succ_of_le (hlast ▸ hroom),
      hparts s₁ (fun m hm ↦ ?_) _⟩
    obtain ⟨m', hm', hkvs⟩ := kvs_of_setPreceding hlink hm
    rw [← hkvs]
    exact hsibling m' hm'

/-- Both parts of a node that was split have a slot for another key. -/
theorem splitInteriorNode (h : Saveable tr top s) {w addslot : ℕ} {out : K × ℕ}
    (heq : s.splitInteriorNode w addslot = some (s', out)) :
    Saveable tr top s' ∧ ∀ v, v = w ∨ v = out.2 → ∀ n, s'.interiorAt v = some n →
      n.keys.length < tr.interiorslots := by
  obtain ⟨n, hn, heq⟩ := Option.bind_eq_some_iff.1 heq
  obtain ⟨hw, hslots, hlevel⟩ := h.interiorAt hn
  have hfour := tr.four_le_interiorslots
  dsimp only at heq
  generalize hmid : (if addslot ≤ n.keys.length / 2 ∧
    n.keys.length / 2 > n.keys.length - (n.keys.length / 2 + 1) then n.keys.length / 2 - 1
    else n.keys.length / 2) = mid at heq
  have hle : mid ≤ n.keys.length / 2 := by
    rw [← hmid]
    split <;> omega
  cases heq
  have hkept : (n.keys.take mid).length < tr.interiorslots := by
    rw [List.length_take]
    omega
  have hmoved : (n.keys.drop (mid + 1)).length < tr.interiorslots := by
    rw [List.length_drop]
    omega
  constructor
  · refine putInterior (allocate h ?_) hw hkept.le hlevel
    exact ⟨hmoved.le, hlevel⟩
  · intro v hv m hm
    have hload := load_of_interiorAt hm
    rw [load_put, load_allocate] at hload
    split at hload
    · cases hload
      exact hkept
    · next hne =>
      have hnew : v = s.storage.lastAddress + 1 := hv.resolve_left hne
      rw [if_pos hnew] at hload
      cases hload
      exact hmoved

private theorem insertChild (h : Saveable tr top s) {w slot nc : ℕ} {k : K} {out : Option (K × ℕ)}
    (heq : s.insertChild tr w slot k nc = some (s', out)) : Saveable tr top s' := by
  obtain ⟨n, hn, heq⟩ := Option.bind_eq_some_iff.1 heq
  split at heq
  · obtain ⟨⟨s₁, splitkey, splitnode⟩, hsplit, heq⟩ := Option.bind_eq_some_iff.1 heq
    obtain ⟨h₁, hslot⟩ := h.splitInteriorNode hsplit
    obtain ⟨m, hm, heq⟩ := Option.bind_eq_some_iff.1 heq
    obtain ⟨p, hp, heq⟩ := Option.bind_eq_some_iff.1 heq
    dsimp only at heq
    split at heq
    · cases heq
      obtain ⟨hw, -, hlevel⟩ := h₁.interiorAt hm
      obtain ⟨hw', hslots', hlevel'⟩ := h₁.interiorAt hp
      have hlt := hslot w (.inl rfl) m hm
      refine putInterior (putInterior h₁ hw ?_ hlevel) hw' hslots' hlevel'
      rw [List.length_append, List.length_singleton]
      omega
    · split at heq
      · obtain ⟨s₂, hput, heq⟩ := Option.bind_eq_some_iff.1 heq
        cases heq
        exact h₁.putChild (hslot splitnode (.inr rfl)) hput
      · obtain ⟨s₂, hput, heq⟩ := Option.bind_eq_some_iff.1 heq
        cases heq
        exact h₁.putChild (hslot w (.inl rfl)) hput
  · next hfull =>
    obtain ⟨s₁, hput, heq⟩ := Option.bind_eq_some_iff.1 heq
    cases heq
    refine h.putChild (fun m hm ↦ ?_) hput
    obtain rfl := Option.some.inj (hn.symm.trans hm)
    exact lt_of_le_of_ne (h.interiorAt hn).2.1 hfull

/-- Two nodes and the key between them get into one. -/
theorem mergeInterior (h : Saveable tr top s) {left right parent parentslot : ℕ}
    (hroom : ∀ l r, s.interiorAt left = some l → s.interiorAt right = some r →
      l.keys.length + r.keys.length < tr.interiorslots)
    (heq : s.mergeInterior left right parent parentslot = some s') : Saveable tr top s' := by
  obtain ⟨l, hl, heq⟩ := Option.bind_eq_some_iff.1 heq
  obtain ⟨r, hr, heq⟩ := Option.bind_eq_some_iff.1 heq
  obtain ⟨p, -, heq⟩ := Option.bind_eq_some_iff.1 heq
  cases heq
  obtain ⟨hleft, -, hlevel⟩ := h.interiorAt hl
  obtain ⟨hright, -, hlevel'⟩ := h.interiorAt hr
  have := hroom l r hl hr
  refine putInterior (putInterior h hleft ?_ hlevel) hright (Nat.zero_le _) hlevel'
  simp only [List.length_append, List.length_cons]
  omega

private theorem shiftLeftSurface (h : Saveable tr top s) {left right parent parentslot : ℕ}
    {out : Option K} (hfew : ∀ l, s.surfaceAt left = some l → l.kvs.length < tr.minslots 0)
    (heq : s.shiftLeftSurface left right parent parentslot = some (s', out)) :
    Saveable tr top s' := by
  obtain ⟨l, hl, heq⟩ := Option.bind_eq_some_iff.1 heq
  obtain ⟨r, hr, heq⟩ := Option.bind_eq_some_iff.1 heq
  obtain ⟨p, hp, heq⟩ := Option.bind_eq_some_iff.1 heq
  cases heq
  obtain ⟨hleft, -⟩ := h.surfaceAt hl
  obtain ⟨hright, hkvs⟩ := h.surfaceAt hr
  obtain ⟨hparent, hslots, hlevel⟩ := h.interiorAt hp
  have hmin : tr.minslots 0 = tr.surfaces / 2 := rfl
  have := hfew l hl
  refine putInterior (putSurface (putSurface h hleft ?_) hright ?_) hparent ?_ hlevel
  · simp only [List.length_append, List.length_take]
    omega
  · rw [List.length_drop]
    omega
  · rwa [List.length_set]

private theorem shiftRightSurface (h : Saveable tr top s) {left right parent parentslot : ℕ}
    (hfew : ∀ r, s.surfaceAt right = some r → r.kvs.length < tr.minslots 0)
    (heq : s.shiftRightSurface left right parent parentslot = some s') : Saveable tr top s' := by
  obtain ⟨l, hl, heq⟩ := Option.bind_eq_some_iff.1 heq
  obtain ⟨r, hr, heq⟩ := Option.bind_eq_some_iff.1 heq
  obtain ⟨p, hp, heq⟩ := Option.bind_eq_some_iff.1 heq
  cases heq
  obtain ⟨hleft, hkvs⟩ := h.surfaceAt hl
  obtain ⟨hright, -⟩ := h.surfaceAt hr
  obtain ⟨hparent, hslots, hlevel⟩ := h.interiorAt hp
  have hmin : tr.minslots 0 = tr.surfaces / 2 := rfl
  have := hfew r hr
  refine putInterior (putSurface (putSurface h hright ?_) hleft ?_) hparent ?_ hlevel
  · simp only [List.length_append, List.length_drop]
    omega
  · rw [List.length_take]
    omega
  · rwa [List.length_set]

private theorem shiftLeftInterior (h : Saveable tr top s) {left right parent parentslot : ℕ}
    (hfew : ∀ l, s.interiorAt left = some l → l.keys.length < tr.minslots 1)
    (heq : s.shiftLeftInterior left right parent parentslot = some s') : Saveable tr top s' := by
  obtain ⟨l, hl, heq⟩ := Option.bind_eq_some_iff.1 heq
  obtain ⟨r, hr, heq⟩ := Option.bind_eq_some_iff.1 heq
  obtain ⟨p, hp, heq⟩ := Option.bind_eq_some_iff.1 heq
  cases heq
  obtain ⟨hleft, -, hlevel⟩ := h.interiorAt hl
  obtain ⟨hright, hslots', hlevel'⟩ := h.interiorAt hr
  obtain ⟨hparent, hslots, hlevel''⟩ := h.interiorAt hp
  have hmin : tr.minslots 1 = tr.interiorslots / 2 := rfl
  have := hfew l hl
  refine putInterior (putInterior (putInterior h hleft ?_ hlevel) hright ?_ hlevel') hparent ?_
    hlevel''
  · simp only [List.length_append, List.length_cons, List.length_take]
    omega
  · rw [List.length_drop]
    omega
  · rwa [List.length_set]

private theorem shiftRightInterior (h : Saveable tr top s) {left right parent parentslot : ℕ}
    (hfew : ∀ r, s.interiorAt right = some r → r.keys.length < tr.minslots 1)
    (heq : s.shiftRightInterior left right parent parentslot = some s') : Saveable tr top s' := by
  obtain ⟨l, hl, heq⟩ := Option.bind_eq_some_iff.1 heq
  obtain ⟨r, hr, heq⟩ := Option.bind_eq_some_iff.1 heq
  obtain ⟨p, hp, heq⟩ := Option.bind_eq_some_iff.1 heq
  cases heq
  obtain ⟨hleft, hslots', hlevel⟩ := h.interiorAt hl
  obtain ⟨hright, -, hlevel'⟩ := h.interiorAt hr
  obtain ⟨hparent, hslots, hlevel''⟩ := h.interiorAt hp
  have hmin : tr.minslots 1 = tr.interiorslots / 2 := rfl
  have := hfew r hr
  refine putInterior (putInterior (putInterior h hright ?_ hlevel') hleft ?_ hlevel) hparent ?_
    hlevel''
  · simp only [List.length_append, List.length_cons, List.length_drop]
    omega
  · rw [List.length_take]
    omega
  · rwa [List.length_set]

/-! ### Underflows -/

omit [Inhabited K] in
/-- A node is merged with one that has few occupants. -/
theorem few_of_chooseBalance (least : ℕ) (place : Place) (left right : Option ℕ) :
    match chooseBalance least place left right with
    | .mergeLeft => left.all (· ≤ least)
    | .mergeRight => right.all (· ≤ least)
    | _ => True := by
  unfold chooseBalance
  dsimp only
  split_ifs with hfew _ hleft _ hright
  · exact hfew.1
  · exact hfew.2
  · trivial
  · exact hleft.2.1
  · trivial
  · exact hright.2.2
  all_goals trivial

omit [Inhabited K] in
private theorem occupants_of_neighbour (h : Saveable tr top s) {w least : ℕ} {occupants : Option ℕ}
    (hneighbour : s.neighbour w = some occupants) (hfew : occupants.all (· ≤ least))
    {n : Node K V} (hn : s.load w = some n) : n.occupants ≤ least := by
  have hw := h.above w (hn ▸ rfl)
  unfold neighbour at hneighbour
  rw [if_neg (by omega), hn] at hneighbour
  cases hneighbour
  exact of_decide_eq_true hfew

private theorem balanceSurface (h : Saveable tr top s) {w : ℕ} {place : Place}
    {myres out : Result K}
    (heq : s.balanceSurface tr w place myres = some (s', out)) : Saveable tr top s' := by
  obtain ⟨n, hn, heq⟩ := Option.bind_eq_some_iff.1 heq
  have hmin : tr.minslots 0 = tr.surfaces / 2 := rfl
  dsimp only at heq
  split at heq
  · next hunderflow =>
    have hself : ∀ m, s.surfaceAt w = some m → m.kvs.length < tr.minslots 0 := by
      intro m hm
      obtain rfl := Option.some.inj (hn.symm.trans hm)
      exact hunderflow.1
    split at heq
    · cases heq
      exact h.of_load rfl le_rfl
    · obtain ⟨left, hleft, heq⟩ := Option.bind_eq_some_iff.1 heq
      obtain ⟨right, hright, heq⟩ := Option.bind_eq_some_iff.1 heq
      have hfew := few_of_chooseBalance (tr.minslots 0) place left right
      generalize chooseBalance (tr.minslots 0) place left right = choice at hfew heq
      cases choice
      all_goals
        obtain ⟨x, hx, heq⟩ := Option.bind_eq_some_iff.1 heq
        cases heq
      · refine h.mergeLeaves (fun l r hl hr ↦ ?_) hx
        have hle : l.kvs.length ≤ tr.minslots 0 :=
          h.occupants_of_neighbour hleft hfew (load_of_surfaceAt hl)
        have := hself r hr
        omega
      · refine h.mergeLeaves (fun l r hl hr ↦ ?_) hx
        have hle : r.kvs.length ≤ tr.minslots 0 :=
          h.occupants_of_neighbour hright hfew (load_of_surfaceAt hr)
        have := hself l hl
        omega
      · exact h.shiftLeftSurface hself hx
      · exact h.shiftRightSurface hself hx
  · cases heq
    exact h

/-- A merged node has no more keys than slots, a shifted one not either. -/
theorem balanceInterior (h : Saveable tr top s) {w : ℕ} {place : Place} {myres out : Result K}
    (heq : s.balanceInterior tr w place myres = some (s', out)) : Saveable tr top s' := by
  obtain ⟨n, hn, heq⟩ := Option.bind_eq_some_iff.1 heq
  have hmin : tr.minslots 1 = tr.interiorslots / 2 := rfl
  dsimp only at heq
  split at heq
  · next hunderflow =>
    have hself : ∀ m, s.interiorAt w = some m → m.keys.length < tr.minslots 1 := by
      intro m hm
      obtain rfl := Option.some.inj (hn.symm.trans hm)
      exact hunderflow.1
    split at heq
    · cases heq
      obtain ⟨hw, -, hlevel⟩ := h.interiorAt hn
      exact (putInterior h hw (Nat.zero_le _) hlevel).of_load rfl le_rfl
    · obtain ⟨left, hleft, heq⟩ := Option.bind_eq_some_iff.1 heq
      obtain ⟨right, hright, heq⟩ := Option.bind_eq_some_iff.1 heq
      have hfew := few_of_chooseBalance (tr.minslots 1) place left right
      generalize chooseBalance (tr.minslots 1) place left right = choice at hfew heq
      cases choice
      all_goals
        obtain ⟨x, hx, heq⟩ := Option.bind_eq_some_iff.1 heq
        cases heq
      · refine h.mergeInterior (fun l r hl hr ↦ ?_) hx
        have hle : l.keys.length ≤ tr.minslots 1 :=
          h.occupants_of_neighbour hleft hfew (load_of_interiorAt hl)
        have := hself r hr
        omega
      · refine h.mergeInterior (fun l r hl hr ↦ ?_) hx
        have hle : r.keys.length ≤ tr.minslots 1 :=
          h.occupants_of_neighbour hright hfew (load_of_interiorAt hr)
        have := hself l hl
        omega
      · exact h.shiftLeftInterior hself hx
      · exact h.shiftRightInterior hself hx
  · cases heq
    exact h

omit [Inhabited K] in
private theorem setKey (h : Saveable tr top s) {w slot : ℕ} {key : K} {n : Interior K}
    (hn : s.interiorAt w = some n) :
    Saveable tr top (s.put w (.interior { n with keys := n.keys.set slot key })) := by
  obtain ⟨hw, hslots, hlevel⟩ := h.interiorAt hn
  apply h.putInterior hw _ hlevel
  rwa [List.length_set]

private theorem updateLastkey (h : Saveable tr top s) {place : Place} {lastkey : Option K}
    {out : Result K}
    (heq : s.updateLastkey place lastkey = some (s', out)) : Saveable tr top s' := by
  unfold Btree.updateLastkey at heq
  split at heq
  · obtain ⟨p, hp, heq⟩ := Option.bind_eq_some_iff.1 heq
    split at heq
    · cases heq
      exact h.setKey hp
    · cases heq
      exact h
  · cases heq
    exact h

private theorem fixmerge (h : Saveable tr top s) {w slot : ℕ} (heq : s.fixmerge w slot = some s') :
    Saveable tr top s' := by
  obtain ⟨n, hn, heq⟩ := Option.bind_eq_some_iff.1 heq
  obtain ⟨child, -, heq⟩ := Option.bind_eq_some_iff.1 heq
  obtain ⟨hw, hslots, hlevel⟩ := h.interiorAt hn
  have hkeys (i : ℕ) : (n.keys.eraseIdx i).length ≤ tr.interiorslots :=
    (List.length_eraseIdx_le n.keys i).trans hslots
  dsimp only at heq
  generalize (if child.occupants ≠ 0 then slot + 1 else slot) = slot' at heq
  split at heq
  · obtain ⟨leaf, -, heq⟩ := Option.bind_eq_some_iff.1 heq
    cases heq
    apply h.putInterior hw _ hlevel
    rw [List.length_set]
    exact hkeys _
  · cases heq
    exact h.putInterior hw (hkeys _) hlevel

end Keys

section Operations

variable [LinearOrder K] [Inhabited K] {key : K} {value : V}

private theorem insertSurface (h : Saveable tr top s) {w : ℕ} {surface : Surface K V}
    {r : Inserted K} (hload : s.load w = some (.surface surface))
    (heq : s.insertSurface tr w surface key value = some (s', r)) : Saveable tr top s' := by
  obtain ⟨hw, hslots⟩ := h.surfaceAt (surfaceAt_eq hload)
  have hinserted {slot : ℕ} {kvs : List (K × V)} (hlt : kvs.length < tr.surfaces) :
      (kvs.insertIdx slot (key, value)).length ≤ tr.surfaces :=
    List.length_insertIdx_le_succ.trans hlt
  unfold Btree.insertSurface at heq
  dsimp only at heq
  split at heq
  · obtain ⟨s₁, hchange, heq⟩ := Option.bind_eq_some_iff.1 heq
    cases heq
    exact h.change hchange
  · split at heq
    · obtain ⟨⟨s₁, splitkey, splitnode⟩, hsplit, heq⟩ := Option.bind_eq_some_iff.1 heq
      obtain ⟨h₁, -, hsibling, hslot⟩ := h.splitSurfaceNode hsplit
      obtain ⟨n, hn, heq⟩ := Option.bind_eq_some_iff.1 heq
      split at heq
      · obtain ⟨m, hm, heq⟩ := Option.bind_eq_some_iff.1 heq
        cases heq
        exact h₁.putSurface hsibling (hinserted (hslot splitnode (.inr rfl) m hm))
      · cases heq
        exact h₁.putSurface hw (hinserted (hslot w (.inl rfl) n hn))
    · next hfull =>
      cases heq
      exact h.putSurface hw (hinserted (lt_of_le_of_ne hslots hfull))

/-- The induction is on the bound of the descent. -/
theorem insertDescend {fuel w : ℕ} {r : Inserted K} (h : Saveable tr top s)
    (heq : Btree.insertDescend tr fuel s w key value = some (s', r)) : Saveable tr top s' := by
  induction fuel generalizing s w s' r with
  | zero => cases heq
  | succ fuel ih =>
    unfold Btree.insertDescend at heq
    obtain ⟨n, hn, heq⟩ := Option.bind_eq_some_iff.1 heq
    cases n with
    | surface surface => exact h.insertSurface hn heq
    | interior interior =>
      obtain ⟨⟨s₁, r₁⟩, hbelow, heq⟩ := Option.bind_eq_some_iff.1 heq
      have h₁ := ih h hbelow
      dsimp only at heq
      split at heq
      · cases heq
        exact h₁
      · obtain ⟨s₂, hchange, heq⟩ := Option.bind_eq_some_iff.1 heq
        obtain ⟨⟨s₃, split⟩, hinsert, heq⟩ := Option.bind_eq_some_iff.1 heq
        cases heq
        exact (h₁.change hchange).insertChild hinsert

private theorem insertStart (h : Saveable tr top s) {i : Iterator} {inserted : Bool}
    (heq : s.insertStart tr key value = some (s', i, inserted))
    (hdepth : s'.root ≠ 0 → s'.depth ≤ top + 1) : Saveable tr top s' := by
  unfold Btree.insertStart at heq
  obtain ⟨⟨s₁, r⟩, hbelow, heq⟩ := Option.bind_eq_some_iff.1 heq
  have h₁ := h.ensureRoot.insertDescend hbelow
  dsimp only at heq
  split at heq
  · cases heq
    exact h₁.setSize _ _
  · obtain ⟨s₂, hgrow, heq⟩ := Option.bind_eq_some_iff.1 heq
    cases heq
    apply setSize
    apply h₁.growRoot hgrow
    split at hdepth <;> exact hdepth

omit [LinearOrder K] [Inhabited K] in
private theorem write (h : Saveable tr top s) {i : Iterator} (heq : s.write i value = some s') :
    Saveable tr top s' := by
  obtain ⟨n, hn, heq⟩ := Option.bind_eq_some_iff.1 heq
  obtain ⟨p, -, heq⟩ := Option.bind_eq_some_iff.1 heq
  cases heq
  obtain ⟨hw, hslots⟩ := h.surfaceAt hn
  have hput : Saveable tr top
      (s.put i.1 (.surface { n with kvs := n.kvs.set i.2 (p.1, value) })) := by
    apply h.putSurface hw
    rwa [List.length_set]
  exact hput.of_load rfl le_rfl

omit [LinearOrder K] [Inhabited K] in
/-- A write to a leaf does not change the level of the root. -/
theorem depth_write {i : Iterator} (heq : s.write i value = some s') :
    s'.root = s.root ∧ s'.depth = s.depth := by
  obtain ⟨n, hn, heq⟩ := Option.bind_eq_some_iff.1 heq
  obtain ⟨p, -, heq⟩ := Option.bind_eq_some_iff.1 heq
  cases heq
  refine ⟨rfl, ?_⟩
  have hload := load_of_surfaceAt hn
  set n' : Surface K V := { n with kvs := n.kvs.set i.2 (p.1, value) }
  have hlevel : ((s.put i.1 (.surface n')).load s.root).map Node.level =
      (s.load s.root).map Node.level := by
    by_cases hroot : s.root = i.1
    · simp [hroot, hload, Node.level]
    · rw [load_put_ne _ hroot]
  exact depth_of_level rfl hlevel

private theorem eraseSurface (h : Saveable tr top s) {w : ℕ} {surface : Surface K V} {place : Place}
    {r : Result K} (hload : s.load w = some (.surface surface))
    (heq : s.eraseSurface tr w surface key place = some (s', r)) : Saveable tr top s' := by
  unfold Btree.eraseSurface at heq
  obtain ⟨hw, hslots⟩ := h.surfaceAt (surfaceAt_eq hload)
  have hput (slot : ℕ) : Saveable tr top
      (s.put w (.surface { surface with kvs := surface.kvs.eraseIdx slot })) :=
    h.putSurface hw ((List.length_eraseIdx_le surface.kvs slot).trans hslots)
  dsimp only at heq
  split at heq
  · obtain ⟨s₁, hchange, heq⟩ := Option.bind_eq_some_iff.1 heq
    cases heq
    exact h.change hchange
  · split at heq
    · obtain ⟨⟨s₂, myres⟩, hupdate, heq⟩ := Option.bind_eq_some_iff.1 heq
      exact ((hput _).updateLastkey hupdate).balanceSurface heq
    · exact (hput _).balanceSurface heq

private theorem eraseOneDescend {fuel w : ℕ} {place : Place} {r : Result K} (h : Saveable tr top s)
    (heq : Btree.eraseOneDescend tr fuel s key w place = some (s', r)) : Saveable tr top s' := by
  induction fuel generalizing s w place s' r with
  | zero => cases heq
  | succ fuel ih =>
    unfold Btree.eraseOneDescend at heq
    obtain ⟨n, hn, heq⟩ := Option.bind_eq_some_iff.1 heq
    cases n with
    | surface surface => exact h.eraseSurface hn heq
    | interior interior =>
      obtain ⟨below, -, heq⟩ := Option.bind_eq_some_iff.1 heq
      obtain ⟨⟨s₁, r₁⟩, hbelow, heq⟩ := Option.bind_eq_some_iff.1 heq
      have h₁ := ih h hbelow
      dsimp only at heq
      split at heq
      · cases heq
        exact h₁
      · have hrest {x : Btree K V} (hx : Saveable tr top x) (myres : Result K)
            (heq : (if r₁.fixmerge then x.fixmerge w (findLower interior.keys key) >>=
              fun x ↦ x.balanceInterior tr w place myres
              else x.balanceInterior tr w place myres) = some (s', r)) : Saveable tr top s' := by
          split at heq
          · obtain ⟨y, hmerge, heq⟩ := Option.bind_eq_some_iff.1 heq
            exact (hx.fixmerge hmerge).balanceInterior heq
          · exact hx.balanceInterior heq
        split at heq
        · obtain ⟨⟨s₂, myres⟩, hupdate, heq⟩ := Option.bind_eq_some_iff.1 heq
          exact hrest (h₁.updateLastkey hupdate) myres heq
        · exact hrest h₁ Result.ok heq

private theorem eraseOne (h : Saveable tr top s) {erased : Bool}
    (heq : s.eraseOne tr key = some (s', erased)) : Saveable tr top s' := by
  unfold Btree.eraseOne at heq
  split at heq
  · cases heq
    exact h
  · obtain ⟨⟨s₁, r⟩, hbelow, heq⟩ := Option.bind_eq_some_iff.1 heq
    have h₁ := h.eraseOneDescend hbelow
    dsimp only at heq
    split at heq
    · cases heq
      exact h₁
    · cases heq
      exact h₁.of_load rfl le_rfl

/-- An operation leaves pages that can be saved, whatever the tree looks like, unless it gets too
high. -/
theorem step [Inhabited V] (h : Saveable tr top s) {op : MapOp K V} {answer : Answer V}
    (heq : s.step tr op = some (s', answer)) (hdepth : s'.root ≠ 0 → s'.depth ≤ top + 1) :
    Saveable tr top s' := by
  cases op with
  | insert key value =>
    obtain ⟨⟨s₁, i, inserted⟩, hinsert, heq⟩ := Option.bind_eq_some_iff.1 heq
    cases heq
    exact h.insertStart hinsert hdepth
  | subscript key =>
    obtain ⟨⟨s₁, i⟩, hsubscript, heq⟩ := Option.bind_eq_some_iff.1 heq
    obtain ⟨⟨s₂, j, inserted⟩, hinsert, hsubscript⟩ := Option.bind_eq_some_iff.1 hsubscript
    cases hsubscript
    cases heq
    exact h.insertStart hinsert hdepth
  | assign key value =>
    obtain ⟨s₁, hassign, heq⟩ := Option.bind_eq_some_iff.1 heq
    obtain ⟨⟨s₂, i⟩, hsubscript, hwrite⟩ := Option.bind_eq_some_iff.1 hassign
    obtain ⟨⟨s₃, j, inserted⟩, hinsert, hsubscript⟩ := Option.bind_eq_some_iff.1 hsubscript
    cases hsubscript
    cases heq
    obtain ⟨hroot, hsame⟩ := depth_write hwrite
    rw [hroot, hsame] at hdepth
    exact (h.insertStart hinsert hdepth).write hwrite
  | eraseOne key =>
    obtain ⟨⟨s₁, erased⟩, herase, heq⟩ := Option.bind_eq_some_iff.1 heq
    cases heq
    exact h.eraseOne herase
  | erase key =>
    obtain ⟨⟨s₁, count⟩, herase, heq⟩ := Option.bind_eq_some_iff.1 heq
    obtain ⟨⟨s₂, erased⟩, hone, hcount⟩ := Option.bind_eq_some_iff.1 herase
    cases hcount
    cases heq
    exact h.eraseOne hone

end Operations

end Saveable

end Btree

end LibSpaces.Stx
