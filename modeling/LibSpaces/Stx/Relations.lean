import LibSpaces.Base.Transition
import LibSpaces.Stx.MapRuns

/-!
# Relations that the operations keep

An operation of a tree reads it through `load`, the root and the last address, and changes it by
the steps of `Kept`. A relation between trees that these steps keep is kept by every operation,
whatever the trees look like.
-/

namespace LibSpaces.Stx.Btree

open LibSpaces.Base

variable {K V : Type} {s t : Btree K V} {R : Btree K V → Btree K V → Prop}

/-- A relation between trees that every step inside an insertion or a removal keeps. -/
structure Kept (R : Btree K V → Btree K V → Prop) : Prop where
  load : ∀ {s t}, R s t → s.load = t.load
  root : ∀ {s t}, R s t → s.root = t.root
  lastAddress : ∀ {s t}, R s t → s.storage.lastAddress = t.storage.lastAddress
  modified : ∀ {s t}, R s t → s.modified = t.modified
  put : ∀ {s t}, R s t → ∀ w n, R (s.put w n) (t.put w n)
  allocate : ∀ {s t}, R s t → ∀ n, R (s.allocate n).2 (t.allocate n).2
  setRoot : ∀ {s t}, R s t → ∀ w, R { s with root := w } { t with root := w }
  setHead : ∀ {s t}, R s t → ∀ w, R { s with headsurface := w } { t with headsurface := w }
  setLast : ∀ {s t}, R s t → ∀ w, R { s with lastSurface := w } { t with lastSurface := w }
  setSize : ∀ {s t}, R s t → ∀ f : ℕ → ℕ,
    R { s with stats := { s.stats with treeSize := f s.stats.treeSize } }
      { t with stats := { t.stats with treeSize := f t.stats.treeSize } }
  write : ∀ {s t}, R s t → ∀ w ∈ s.modified, ∀ n,
    R { s with nodesLoaded := Function.update s.nodesLoaded w (some n) }
      { t with nodesLoaded := Function.update t.nodesLoaded w (some n) }

/-- Both computations fail, or they lead to related trees and the same answer. -/
abbrev Agree {α : Type} (R : Btree K V → Btree K V → Prop) :
    Option (Btree K V × α) → Option (Btree K V × α) → Prop :=
  Option.Rel fun a b ↦ R a.1 b.1 ∧ a.2 = b.2

namespace Kept

private theorem surfaceAt (hR : Kept R) (h : R s t) : s.surfaceAt = t.surfaceAt := by
  funext w
  rw [Btree.surfaceAt, Btree.surfaceAt, hR.load h]

private theorem interiorAt (hR : Kept R) (h : R s t) : s.interiorAt = t.interiorAt := by
  funext w
  rw [Btree.interiorAt, Btree.interiorAt, hR.load h]

private theorem fst_allocate (hR : Kept R) (h : R s t) (n : Node K V) :
    (s.allocate n).1 = (t.allocate n).1 :=
  congrArg (· + 1) (hR.lastAddress h)

private theorem setPreceding (hR : Kept R) (h : R s t) (w p : ℕ) :
    Option.Rel R (s.setPreceding w p) (t.setPreceding w p) := by
  unfold Btree.setPreceding
  rw [hR.surfaceAt h]
  exact rel_bind_same fun n ↦ .some (hR.put h w _)

private theorem change (hR : Kept R) (h : R s t) (w : ℕ) :
    Option.Rel R (s.change w) (t.change w) := by
  unfold Btree.change
  rw [hR.load h]
  cases t.load w with
  | none => exact .none
  | some n => exact .some (hR.put h w n)

private theorem putChild (hR : Kept R) (h : R s t) (w slot : ℕ) (k : K) (nc : ℕ) :
    Option.Rel R (s.putChild w slot k nc) (t.putChild w slot k nc) := by
  unfold Btree.putChild
  rw [hR.interiorAt h]
  exact rel_bind_same fun interior ↦ .some (hR.put h w _)

private theorem depth (hR : Kept R) (h : R s t) : s.depth = t.depth := by
  unfold Btree.depth
  rw [hR.load h, hR.root h]

private theorem ensureRoot (hR : Kept R) (h : R s t) : R s.ensureRoot t.ensureRoot := by
  unfold Btree.ensureRoot
  rw [hR.root h]
  split
  · dsimp only
    rw [hR.fst_allocate h]
    have h' := hR.allocate h (.surface ⟨[], 0, 0⟩)
    obtain ⟨w, hw⟩ : ∃ w, (t.allocate (.surface ⟨[], 0, 0⟩)).1 = w := ⟨_, rfl⟩
    rw [hw]
    exact hR.setRoot (hR.setHead (hR.setLast h' w) w) w
  · exact h

private theorem growRoot (hR : Kept R) (h : R s t) (k : K) (nc : ℕ) :
    Option.Rel R (s.growRoot k nc) (t.growRoot k nc) := by
  unfold Btree.growRoot
  rw [hR.load h, hR.root h]
  refine rel_bind_same fun root ↦ ?_
  dsimp only
  have h' := hR.allocate h (.interior ⟨root.level + 1, [k], [t.root, nc]⟩)
  rw [hR.fst_allocate h]
  have hroot := hR.root h'
  refine rel_bind (r := R) ?_ fun _ _ h ↦ .some (hR.setRoot h _)
  rw [hroot]
  exact hR.change h' _

private theorem mergeLeaves (hR : Kept R) (h : R s t) (left right : ℕ) :
    Option.Rel R (s.mergeLeaves left right) (t.mergeLeaves left right) := by
  unfold Btree.mergeLeaves
  rw [hR.surfaceAt h]
  refine rel_bind_same fun l ↦ rel_bind_same fun r ↦ ?_
  have hleft := hR.put h left (.surface { l with kvs := l.kvs ++ r.kvs, next := r.next })
  have hright := hR.put hleft right (.surface { r with kvs := [] })
  dsimp only
  split
  · exact .some (hR.setLast hright left)
  · exact hR.setPreceding hright _ _

private theorem neighbour (hR : Kept R) (h : R s t) (w : ℕ) : s.neighbour w = t.neighbour w := by
  unfold Btree.neighbour
  rw [hR.load h]

private theorem childPlace (hR : Kept R) (h : R s t) (w : ℕ) (interior : Interior K) (slot : ℕ)
    (place : Place) : s.childPlace w interior slot place = t.childPlace w interior slot place := by
  unfold Btree.childPlace
  rw [hR.interiorAt h]

variable [Inhabited K]

private theorem splitSurfaceNode (hR : Kept R) (h : R s t) (w : ℕ) :
    Agree R (s.splitSurfaceNode w) (t.splitSurfaceNode w) := by
  unfold Btree.splitSurfaceNode
  rw [hR.surfaceAt h]
  refine rel_bind_same fun surface ↦ rel_bind (hR.change h w) fun s₁ t₁ h₁ ↦ ?_
  dsimp only
  have h' := hR.allocate h₁ (.surface ⟨surface.kvs.drop (surface.kvs.length / 2), surface.next, w⟩)
  rw [hR.fst_allocate h₁]
  split
  · exact rel_bind (.some (hR.setLast h' _)) fun _ _ h ↦ .some ⟨hR.put h w _, rfl⟩
  · exact rel_bind (hR.setPreceding h' _ _) fun _ _ h ↦ .some ⟨hR.put h w _, rfl⟩

private theorem splitInteriorNode (hR : Kept R) (h : R s t) (w addslot : ℕ) :
    Agree R (s.splitInteriorNode w addslot) (t.splitInteriorNode w addslot) := by
  unfold Btree.splitInteriorNode
  rw [hR.interiorAt h]
  refine rel_bind_same fun interior ↦ ?_
  dsimp only
  rw [hR.fst_allocate h]
  exact .some ⟨hR.put (hR.allocate h _) w _, rfl⟩

private theorem mergeInterior (hR : Kept R) (h : R s t) (left right parent parentslot : ℕ) :
    Option.Rel R (s.mergeInterior left right parent parentslot)
      (t.mergeInterior left right parent parentslot) := by
  unfold Btree.mergeInterior
  rw [hR.interiorAt h]
  exact rel_bind_same fun l ↦ rel_bind_same fun r ↦ rel_bind_same fun p ↦
    .some (hR.put (hR.put h left _) right _)

private theorem shiftLeftSurface (hR : Kept R) (h : R s t) (left right parent parentslot : ℕ) :
    Agree R (s.shiftLeftSurface left right parent parentslot)
      (t.shiftLeftSurface left right parent parentslot) := by
  unfold Btree.shiftLeftSurface
  rw [hR.surfaceAt h, hR.interiorAt h]
  exact rel_bind_same fun l ↦ rel_bind_same fun r ↦ rel_bind_same fun p ↦
    .some ⟨hR.put (hR.put (hR.put h left _) right _) parent _, rfl⟩

private theorem shiftLeftInterior (hR : Kept R) (h : R s t) (left right parent parentslot : ℕ) :
    Option.Rel R (s.shiftLeftInterior left right parent parentslot)
      (t.shiftLeftInterior left right parent parentslot) := by
  unfold Btree.shiftLeftInterior
  rw [hR.interiorAt h]
  exact rel_bind_same fun l ↦ rel_bind_same fun r ↦ rel_bind_same fun p ↦
    .some (hR.put (hR.put (hR.put h left _) right _) parent _)

private theorem shiftRightSurface (hR : Kept R) (h : R s t) (left right parent parentslot : ℕ) :
    Option.Rel R (s.shiftRightSurface left right parent parentslot)
      (t.shiftRightSurface left right parent parentslot) := by
  unfold Btree.shiftRightSurface
  rw [hR.surfaceAt h, hR.interiorAt h]
  exact rel_bind_same fun l ↦ rel_bind_same fun r ↦ rel_bind_same fun p ↦
    .some (hR.put (hR.put (hR.put h right _) left _) parent _)

private theorem shiftRightInterior (hR : Kept R) (h : R s t) (left right parent parentslot : ℕ) :
    Option.Rel R (s.shiftRightInterior left right parent parentslot)
      (t.shiftRightInterior left right parent parentslot) := by
  unfold Btree.shiftRightInterior
  rw [hR.interiorAt h]
  exact rel_bind_same fun l ↦ rel_bind_same fun r ↦ rel_bind_same fun p ↦
    .some (hR.put (hR.put (hR.put h right _) left _) parent _)

private theorem updateLastkey (hR : Kept R) (h : R s t) (place : Place) (lastkey : Option K) :
    Agree R (s.updateLastkey place lastkey) (t.updateLastkey place lastkey) := by
  unfold Btree.updateLastkey
  split
  · rw [hR.interiorAt h]
    refine rel_bind_same fun p ↦ ?_
    split
    · exact .some ⟨hR.put h _ _, rfl⟩
    · exact .some ⟨h, rfl⟩
  · exact .some ⟨h, rfl⟩

private theorem fixmerge (hR : Kept R) (h : R s t) (w slot : ℕ) :
    Option.Rel R (s.fixmerge w slot) (t.fixmerge w slot) := by
  unfold Btree.fixmerge
  rw [hR.interiorAt h, hR.load h, hR.surfaceAt h]
  refine rel_bind_same fun interior ↦ rel_bind_same fun child ↦ ?_
  dsimp only
  split
  · exact rel_bind_same fun child ↦ .some (hR.put h w _)
  · exact .some (hR.put h w _)

private theorem insertChild (hR : Kept R) (h : R s t) (tr : Traits) (w slot : ℕ) (k : K) (nc : ℕ) :
    Agree R (s.insertChild tr w slot k nc) (t.insertChild tr w slot k nc) := by
  unfold Btree.insertChild
  rw [hR.interiorAt h]
  refine rel_bind_same fun interior ↦ ?_
  split
  · refine rel_bind (hR.splitInteriorNode h w slot) ?_
    rintro ⟨s', splitkey, splitnode⟩ ⟨t', _⟩ ⟨h', rfl⟩
    dsimp only at h' ⊢
    rw [hR.interiorAt h']
    refine rel_bind_same fun interior ↦ rel_bind_same fun splitinterior ↦ ?_
    split
    · exact .some ⟨hR.put (hR.put h' w _) splitnode _, rfl⟩
    · split
      · exact rel_bind (hR.putChild h' _ _ k nc) fun _ _ h ↦ .some ⟨h, rfl⟩
      · exact rel_bind (hR.putChild h' _ _ k nc) fun _ _ h ↦ .some ⟨h, rfl⟩
  · exact rel_bind (hR.putChild h w slot k nc) fun _ _ h ↦ .some ⟨h, rfl⟩

private theorem balanceSurface (hR : Kept R) (h : R s t) (tr : Traits) (w : ℕ) (place : Place)
    (myres : Result K) :
    Agree R (s.balanceSurface tr w place myres) (t.balanceSurface tr w place myres) := by
  unfold Btree.balanceSurface
  rw [hR.surfaceAt h, hR.root h]
  refine rel_bind_same fun surface ↦ ?_
  dsimp only
  split
  · split
    · exact .some ⟨hR.setRoot (hR.setHead (hR.setLast h 0) 0) 0, rfl⟩
    · simp only [hR.neighbour h]
      refine rel_bind_same fun left ↦ rel_bind_same fun right ↦ ?_
      cases chooseBalance (tr.minslots 0) place left right with
      | mergeLeft => exact rel_bind (hR.mergeLeaves h _ _) fun _ _ h ↦ .some ⟨h, rfl⟩
      | mergeRight => exact rel_bind (hR.mergeLeaves h _ _) fun _ _ h ↦ .some ⟨h, rfl⟩
      | shiftLeft =>
        exact rel_bind (hR.shiftLeftSurface h _ _ _ _) fun _ _ hab ↦
          .some ⟨hab.1, by rw [hab.2]⟩
      | shiftRight => exact rel_bind (hR.shiftRightSurface h _ _ _ _) fun _ _ h ↦ .some ⟨h, rfl⟩
  · exact .some ⟨h, rfl⟩

private theorem balanceInterior (hR : Kept R) (h : R s t) (tr : Traits) (w : ℕ) (place : Place)
    (myres : Result K) :
    Agree R (s.balanceInterior tr w place myres) (t.balanceInterior tr w place myres) := by
  unfold Btree.balanceInterior
  rw [hR.interiorAt h, hR.root h]
  refine rel_bind_same fun interior ↦ ?_
  dsimp only
  split
  · split
    · exact .some ⟨hR.setRoot (hR.put h w _) _, rfl⟩
    · simp only [hR.neighbour h]
      refine rel_bind_same fun left ↦ rel_bind_same fun right ↦ ?_
      cases chooseBalance (tr.minslots 1) place left right with
      | mergeLeft => exact rel_bind (hR.mergeInterior h _ _ _ _) fun _ _ h ↦ .some ⟨h, rfl⟩
      | mergeRight => exact rel_bind (hR.mergeInterior h _ _ _ _) fun _ _ h ↦ .some ⟨h, rfl⟩
      | shiftLeft => exact rel_bind (hR.shiftLeftInterior h _ _ _ _) fun _ _ h ↦ .some ⟨h, rfl⟩
      | shiftRight => exact rel_bind (hR.shiftRightInterior h _ _ _ _) fun _ _ h ↦ .some ⟨h, rfl⟩
  · exact .some ⟨h, rfl⟩

variable [LinearOrder K]

private theorem insertSurface (hR : Kept R) (h : R s t) (tr : Traits) (w : ℕ)
    (surface : Surface K V) (key : K) (value : V) :
    Agree R (s.insertSurface tr w surface key value) (t.insertSurface tr w surface key value) := by
  unfold Btree.insertSurface
  dsimp only
  split
  · exact rel_bind (hR.change h w) fun _ _ h ↦ .some ⟨h, rfl⟩
  · split
    · refine rel_bind (hR.splitSurfaceNode h w) ?_
      rintro ⟨s', splitkey, splitnode⟩ ⟨t', _⟩ ⟨h', rfl⟩
      dsimp only at h' ⊢
      rw [hR.surfaceAt h']
      refine rel_bind_same fun surface' ↦ ?_
      split
      · exact rel_bind_same fun sibling ↦ .some ⟨hR.put h' splitnode _, rfl⟩
      · exact .some ⟨hR.put h' w _, rfl⟩
    · exact .some ⟨hR.put h w _, rfl⟩

private theorem insertDescend (hR : Kept R) (tr : Traits) (key : K) (value : V) {fuel : ℕ}
    (h : R s t) (w : ℕ) :
    Agree R (Btree.insertDescend tr fuel s w key value)
      (Btree.insertDescend tr fuel t w key value) := by
  induction fuel generalizing s t w with
  | zero => exact .none
  | succ fuel ih =>
    unfold Btree.insertDescend
    rw [hR.load h]
    refine rel_bind_same fun n ↦ ?_
    cases n with
    | surface surface => exact hR.insertSurface h tr w surface key value
    | interior interior =>
      refine rel_bind (ih h _) ?_
      rintro ⟨s', r⟩ ⟨t', _⟩ ⟨h', rfl⟩
      dsimp only at h' ⊢
      cases hsplit : r.split with
      | none => exact .some ⟨h', rfl⟩
      | some out =>
        refine rel_bind (hR.change h' _) fun _ _ h ↦ ?_
        refine rel_bind (hR.insertChild h tr w _ _ _) fun _ _ hab ↦ ?_
        exact .some ⟨hab.1, by rw [hab.2]⟩

private theorem insertStart (hR : Kept R) (h : R s t) (tr : Traits) (key : K) (value : V) :
    Agree R (s.insertStart tr key value) (t.insertStart tr key value) := by
  unfold Btree.insertStart
  have h' := hR.ensureRoot h
  dsimp only
  rw [hR.depth h', hR.root h']
  refine rel_bind (hR.insertDescend tr key value h' _) ?_
  rintro ⟨s', r⟩ ⟨t', _⟩ ⟨h', rfl⟩
  dsimp only at h' ⊢
  have hcount {s' t' : Btree K V} (h : R s' t') :
      R (if r.inserted then
          { s' with stats := { s'.stats with treeSize := s'.stats.treeSize + 1 } } else s')
        (if r.inserted then
          { t' with stats := { t'.stats with treeSize := t'.stats.treeSize + 1 } } else t') := by
    split
    · exact hR.setSize h (· + 1)
    · exact h
  cases hsplit : r.split with
  | none => exact .some ⟨hcount h', rfl⟩
  | some out => exact rel_bind (hR.growRoot h' _ _) fun _ _ h ↦ .some ⟨hcount h, rfl⟩

private theorem eraseSurface (hR : Kept R) (h : R s t) (tr : Traits) (w : ℕ) (surface : Surface K V)
    (key : K) (place : Place) :
    Agree R (s.eraseSurface tr w surface key place) (t.eraseSurface tr w surface key place) := by
  unfold Btree.eraseSurface
  dsimp only
  split
  · exact rel_bind (hR.change h w) fun _ _ h' ↦ .some ⟨h', rfl⟩
  · split
    · refine rel_bind (hR.updateLastkey (hR.put h w _) _ _) ?_
      rintro ⟨_, myres⟩ ⟨_, _⟩ ⟨h', rfl⟩
      exact hR.balanceSurface h' tr w place _
    · exact hR.balanceSurface (hR.put h w _) tr w place _

private theorem eraseOneDescend (hR : Kept R) (tr : Traits) (key : K) {fuel : ℕ} (h : R s t) (w : ℕ)
    (place : Place) :
    Agree R (Btree.eraseOneDescend tr fuel s key w place)
      (Btree.eraseOneDescend tr fuel t key w place) := by
  induction fuel generalizing s t w place with
  | zero => exact .none
  | succ fuel ih =>
    unfold Btree.eraseOneDescend
    rw [hR.load h]
    refine rel_bind_same fun n ↦ ?_
    cases n with
    | surface surface => exact hR.eraseSurface h tr w surface key place
    | interior interior =>
      dsimp only
      rw [hR.childPlace h]
      refine rel_bind_same fun below ↦ rel_bind (ih h _ below) ?_
      rintro ⟨s', r⟩ ⟨t', _⟩ ⟨h', rfl⟩
      dsimp only at h' ⊢
      split
      · exact .some ⟨h', rfl⟩
      · have hmerge {s' t' : Btree K V} (h : R s' t') (myres : Result K) :
            Agree R
              (if r.fixmerge then s'.fixmerge w (findLower interior.keys key) >>=
                fun s ↦ s.balanceInterior tr w place myres
              else s'.balanceInterior tr w place myres)
              (if r.fixmerge then t'.fixmerge w (findLower interior.keys key) >>=
                fun t ↦ t.balanceInterior tr w place myres
              else t'.balanceInterior tr w place myres) := by
          split
          · exact rel_bind (hR.fixmerge h w _) fun _ _ h ↦ hR.balanceInterior h tr w place myres
          · exact hR.balanceInterior h tr w place myres
        cases r.lastkey with
        | none => exact hmerge h' Result.ok
        | some k =>
          refine rel_bind (hR.updateLastkey h' _ _) ?_
          rintro ⟨_, myres⟩ ⟨_, _⟩ ⟨h', rfl⟩
          exact hmerge h' _

private theorem eraseOne (hR : Kept R) (h : R s t) (tr : Traits) (key : K) :
    Agree R (s.eraseOne tr key) (t.eraseOne tr key) := by
  unfold Btree.eraseOne
  rw [hR.root h, hR.depth h]
  split
  · exact .some ⟨h, rfl⟩
  · refine rel_bind (hR.eraseOneDescend tr key h _ _) ?_
    rintro ⟨s', r⟩ ⟨t', _⟩ ⟨h', rfl⟩
    dsimp only at h' ⊢
    split
    · exact .some ⟨h', rfl⟩
    · exact .some ⟨hR.setSize h' (· - 1), rfl⟩

private theorem erase (hR : Kept R) (h : R s t) (tr : Traits) (key : K) :
    Agree R (s.erase tr key) (t.erase tr key) := by
  unfold Btree.erase
  exact rel_bind (hR.eraseOne h tr key) fun _ _ hab ↦ .some ⟨hab.1, by rw [hab.2]⟩

private theorem subscript [Inhabited V] (hR : Kept R) (h : R s t) (tr : Traits) (key : K) :
    Agree R (s.subscript tr key) (t.subscript tr key) := by
  unfold Btree.subscript
  exact rel_bind (hR.insertStart h tr key default) fun _ _ hab ↦
    .some ⟨hab.1, congrArg Prod.fst hab.2⟩

end Kept

section Self

variable {P : Btree K V → Prop} {α : Type} {x : Option (Btree K V × α)}

/-- What every step inside an insertion or a removal keeps. -/
abbrev KeptOf (P : Btree K V → Prop) : Prop := Kept fun s t : Btree K V ↦ s = t ∧ P s

/-- What agrees with itself under a predicate has it. -/
theorem of_agree (h : Agree (fun s t ↦ s = t ∧ P s) x x) {a : α} (hx : x = some (s, a)) : P s := by
  rw [hx] at h
  cases h with
  | some hab => exact hab.1.2

private theorem of_rel {x : Option (Btree K V)} (h : Option.Rel (fun s t ↦ s = t ∧ P s) x x)
    (hx : x = some s) : P s := by
  rw [hx] at h
  cases h with
  | some hab => exact hab.2

end Self

private theorem keptOf_mem_modified (w : ℕ) : KeptOf fun s : Btree K V ↦ w ∈ s.modified where
  load h := by rw [h.1]
  root h := by rw [h.1]
  lastAddress h := by rw [h.1]
  modified h := by rw [h.1]
  put h _ _ := ⟨by rw [h.1], List.mem_insert_iff.2 (.inr h.2)⟩
  allocate h _ := ⟨by rw [h.1], List.mem_insert_iff.2 (.inr h.2)⟩
  setRoot h _ := ⟨by rw [h.1], h.2⟩
  setHead h _ := ⟨by rw [h.1], h.2⟩
  setLast h _ := ⟨by rw [h.1], h.2⟩
  setSize h _ := ⟨by rw [h.1], h.2⟩
  write h _ _ _ := ⟨by rw [h.1], h.2⟩

/-! ### The page of an insertion -/

section Registered

variable {s' : Btree K V} {tr : Traits} {key : K} {value : V}

private theorem mem_modified_put (w : ℕ) (n : Node K V) : w ∈ (s.put w n).modified :=
  List.mem_insert_self

private theorem mem_modified_change {w : ℕ} (h : s.change w = some s') : w ∈ s'.modified := by
  obtain ⟨n, -, rfl⟩ := Option.map_eq_some_iff.1 h
  exact mem_modified_put w n

variable [LinearOrder K] [Inhabited K]

private theorem registered_insertSurface {w : ℕ} {surface : Surface K V} {r : Inserted K}
    (h : s.insertSurface tr w surface key value = some (s', r)) : r.iterator.1 ∈ s'.modified := by
  unfold insertSurface at h
  dsimp only at h
  split at h
  · obtain ⟨s₁, hchange, h⟩ := Option.bind_eq_some_iff.1 h
    cases h
    exact mem_modified_change hchange
  · split at h
    · obtain ⟨⟨s₁, splitkey, splitnode⟩, -, h⟩ := Option.bind_eq_some_iff.1 h
      obtain ⟨surface', -, h⟩ := Option.bind_eq_some_iff.1 h
      split at h
      · obtain ⟨sibling, -, h⟩ := Option.bind_eq_some_iff.1 h
        cases h
        exact mem_modified_put splitnode _
      · cases h
        exact mem_modified_put w _
    · cases h
      exact mem_modified_put w _

private theorem registered_insertDescend {fuel w : ℕ} {r : Inserted K}
    (h : insertDescend tr fuel s w key value = some (s', r)) : r.iterator.1 ∈ s'.modified := by
  induction fuel generalizing s w s' r with
  | zero => cases h
  | succ fuel ih =>
    unfold insertDescend at h
    obtain ⟨n, -, h⟩ := Option.bind_eq_some_iff.1 h
    cases n with
    | surface surface => exact registered_insertSurface h
    | interior interior =>
      obtain ⟨⟨s₁, r₁⟩, hbelow, h⟩ := Option.bind_eq_some_iff.1 h
      have hmem := ih hbelow
      have hkept := keptOf_mem_modified (K := K) (V := V) r₁.iterator.1
      dsimp only at h
      split at h
      · cases h
        exact hmem
      · obtain ⟨s₂, hchange, h⟩ := Option.bind_eq_some_iff.1 h
        obtain ⟨⟨s₃, split⟩, hinsert, h⟩ := Option.bind_eq_some_iff.1 h
        cases h
        have hmem₂ := of_rel (hkept.change ⟨rfl, hmem⟩ _) hchange
        exact of_agree (hkept.insertChild ⟨rfl, hmem₂⟩ _ _ _ _ _) hinsert

private theorem registered_insertStart {i : Iterator} {inserted : Bool}
    (h : s.insertStart tr key value = some (s', i, inserted)) : i.1 ∈ s'.modified := by
  unfold insertStart at h
  obtain ⟨⟨s₁, r⟩, hbelow, h⟩ := Option.bind_eq_some_iff.1 h
  have hmem := registered_insertDescend hbelow
  have hkept := keptOf_mem_modified (K := K) (V := V) r.iterator.1
  have hcount {x : Btree K V} (hx : r.iterator.1 ∈ x.modified) : r.iterator.1 ∈
      (if r.inserted then { x with stats := { x.stats with treeSize := x.stats.treeSize + 1 } }
        else x).modified := by
    split <;> exact hx
  dsimp only at h
  split at h
  · cases h
    exact hcount hmem
  · obtain ⟨s₂, hgrow, h⟩ := Option.bind_eq_some_iff.1 h
    cases h
    exact hcount (of_rel (hkept.growRoot ⟨rfl, hmem⟩ _ _) hgrow)

end Registered

/-! ### Operations -/

namespace Kept

variable [LinearOrder K] [Inhabited K] [Inhabited V]

/-- Assignment keeps every relation that its parts keep. -/
theorem assign (hR : Kept R) (h : R s t) (tr : Traits) (key : K) (value : V) :
    Option.Rel R (s.assign tr key value) (t.assign tr key value) := by
  unfold Btree.assign
  refine rel_bind_of_eq (hR.subscript h tr key) fun ⟨s', i⟩ ⟨t', _⟩ hs hab ↦ ?_
  obtain ⟨h', rfl⟩ := hab
  obtain ⟨⟨s₁, i₁, inserted⟩, hinsert, hout⟩ := Option.bind_eq_some_iff.1 hs
  cases hout
  have hmem := registered_insertStart hinsert
  dsimp only at h' ⊢
  unfold Btree.write
  rw [hR.surfaceAt h']
  exact rel_bind_same fun surface ↦ rel_bind_same fun p ↦ .some (hR.write h' _ hmem _)

/-- So does each operation. -/
theorem step (hR : Kept R) (h : R s t) (tr : Traits) (op : MapOp K V) :
    Agree R (s.step tr op) (t.step tr op) := by
  cases op with
  | insert key value =>
    exact rel_bind (hR.insertStart h tr key value) fun _ _ hab ↦
      .some ⟨hab.1, congrArg (Answer.done ∘ Prod.snd) hab.2⟩
  | subscript key =>
    refine rel_bind (hR.subscript h tr key) fun _ _ hab ↦ .some ⟨hab.1, ?_⟩
    unfold deref
    rw [hR.surfaceAt hab.1, hab.2]
  | assign key value => exact rel_bind (hR.assign h tr key value) fun _ _ h ↦ .some ⟨h, rfl⟩
  | eraseOne key =>
    exact rel_bind (hR.eraseOne h tr key) fun _ _ hab ↦ .some ⟨hab.1, congrArg Answer.done hab.2⟩
  | erase key =>
    exact rel_bind (hR.erase h tr key) fun _ _ hab ↦ .some ⟨hab.1, congrArg Answer.count hab.2⟩

/-- So does every series of operations. -/
theorem run (hR : Kept R) (h : R s t) (tr : Traits) (ops : List (MapOp K V)) :
    Agree R (s.run tr ops) (t.run tr ops) := by
  induction ops generalizing s t with
  | nil => exact .some ⟨h, rfl⟩
  | cons op ops ih =>
    unfold Btree.run
    refine rel_bind (hR.step h tr op) ?_
    rintro ⟨s', answer⟩ ⟨t', _⟩ ⟨h', rfl⟩
    exact rel_bind (ih h') fun _ _ hab ↦ .some ⟨hab.1, congrArg (answer :: ·) hab.2⟩

end Kept

end LibSpaces.Stx.Btree
