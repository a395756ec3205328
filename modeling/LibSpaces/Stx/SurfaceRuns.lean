import LibSpaces.Stx.SurfaceMoves

/-!
# Runs over surface nodes

Any sequence of what the tree does to the slots of its surface nodes, and the lists of pairs that
the nodes stand for.
-/

namespace LibSpaces.Stx

open LibSpaces.Base

/-- What the tree does to surface nodes, which are told apart by numbers. -/
inductive SlotAction (K V : Type)
  | allocate (i : ℕ)
  | insert (i pos : ℕ) (key : K) (value : V)
  | setKv (i pos : ℕ) (key : K) (value : V)
  | erase (i slot : ℕ)
  | load (i order address : ℕ) (buffer : Bytes)
  | split (i j : ℕ)
  | merge (i j : ℕ)
  | shiftLeft (i j : ℕ)
  | shiftRight (i j : ℕ)

namespace SlotAction

variable {K V : Type} (tr : Traits) (keys : Codec K) (values : Codec V)

/-- Two nodes are changed. -/
def update₂ {α : Type} (s : ℕ → α) (i j : ℕ) (a b : α) : ℕ → α :=
  Function.update (Function.update s i a) j b

/-- An action with what it throws. -/
def act (s : ℕ → SurfaceNode K V) : SlotAction K V → Except LoadError (ℕ → SurfaceNode K V)
  | .allocate i => return Function.update s i ((s i).initialized tr)
  | .insert i pos key value => do return Function.update s i (← (s i).insert tr pos key value)
  | .setKv i pos key value => do return Function.update s i (← (s i).setKv tr pos key value)
  | .erase i slot => do return Function.update s i (← (s i).erase tr slot)
  | .load i order address buffer => do
    return Function.update s i (← (s i).load tr keys values order address buffer)
  | .split i j => do
    let (_, surface, newsurface) ← SurfaceNode.split tr (s i) (s j)
    return update₂ s i j surface newsurface
  | .merge i j => do
    let (left, right) ← SurfaceNode.mergeLeaves tr (s i) (s j)
    return update₂ s i j left right
  | .shiftLeft i j => do
    let (_, left, right) ← SurfaceNode.shiftLeft tr (s i) (s j)
    return update₂ s i j left right
  | .shiftRight i j => do
    let (_, left, right) ← SurfaceNode.shiftRight tr (s i) (s j)
    return update₂ s i j left right

/-- An action that does not throw. -/
def step (s : ℕ → SurfaceNode K V) (a : SlotAction K V) : Option (ℕ → SurfaceNode K V) :=
  (act tr keys values s a).toOption

/-- The arguments that the tree passes. -/
def Allowed (s : ℕ → SurfaceNode K V) : SlotAction K V → Prop
  | .allocate _ | .load .. => True
  | .insert i pos _ _ => pos ≤ (s i).occupants ∧ (s i).occupants < tr.surfaces
  | .setKv i pos _ _ => pos ≤ (s i).allocated ∧ pos < tr.surfaces
  | .erase i slot => 0 < (s i).occupants → slot < (s i).occupants
  | .split i j => i ≠ j ∧ 1 < (s i).occupants
  | .merge i j => i ≠ j ∧ (s i).occupants + (s j).occupants ≤ tr.surfaces
  | .shiftLeft i j => i ≠ j ∧ (s i).occupants < (s j).occupants ∧ 1 < (s j).occupants
  | .shiftRight i j => i ≠ j ∧ (s j).occupants < (s i).occupants

/-- What the actions are for: lists of pairs without slots, where only a page can be wrong. -/
def effect (s : ℕ → List (K × V)) : SlotAction K V → Except LoadError (ℕ → List (K × V))
  | .allocate i => return Function.update s i []
  | .insert i pos key value => return Function.update s i ((s i).insertIdx pos (key, value))
  | .setKv i pos key value => return Function.update s i ((s i).set pos (key, value))
  | .erase i slot => return Function.update s i ((s i).eraseIdx slot)
  | .load i order address buffer => do
    let (page, _) ← Surface.load tr keys values order address buffer
    return Function.update s i page.kvs
  | .split i j =>
    let mid := (s i).length / 2
    return update₂ s i j ((s i).take mid) ((s i).drop mid)
  | .merge i j => return update₂ s i j (s i ++ s j) []
  | .shiftLeft i j =>
    let shiftnum := ((s j).length - (s i).length) / 2
    return update₂ s i j (s i ++ (s j).take shiftnum) ((s j).drop shiftnum)
  | .shiftRight i j =>
    let kept := (s i).length - ((s i).length - (s j).length) / 2
    return update₂ s i j ((s i).take kept) ((s i).drop kept ++ s j)

/-- Every node holds its list. -/
def Stores (s : ℕ → SurfaceNode K V) (l : ℕ → List (K × V)) : Prop := ∀ i, (s i).Stores tr (l i)

variable {tr keys values} {s : ℕ → SurfaceNode K V} {l : ℕ → List (K × V)}

private theorem Stores.update (h : Stores tr s l) (i : ℕ) {n : SurfaceNode K V} {l' : List (K × V)}
    (hn : n.Stores tr l') : Stores tr (Function.update s i n) (Function.update l i l') := by
  intro j
  by_cases hj : j = i
  · subst hj
    rwa [Function.update_self, Function.update_self]
  · rw [Function.update_of_ne hj, Function.update_of_ne hj]
    exact h j

private theorem Stores.occupants (h : Stores tr s l) (i : ℕ) : (s i).occupants = (l i).length := by
  obtain ⟨g, hheld, -, -⟩ := h i
  exact hheld.occupants

variable (keys values) in
/-- An action has the effect that it is for, and throws where that is an error. -/
theorem act_effect (h : Stores tr s l) {a : SlotAction K V} (ha : Allowed tr s a) :
    (∃ t l', act tr keys values s a = .ok t ∧ effect tr keys values l a = .ok l' ∧
        Stores tr t l') ∨
      ∃ i order address buffer e, a = .load i order address buffer ∧
        Surface.load tr keys values order address buffer = .error e ∧
        act tr keys values s a = .error e ∧ effect tr keys values l a = .error e := by
  cases a with
  | allocate i =>
    exact .inl ⟨_, _, rfl, rfl, h.update i (SurfaceNode.Stores.initialized tr (s i))⟩
  | insert i pos key value =>
    obtain ⟨hpos, hroom⟩ := ha
    rw [h.occupants] at hpos hroom
    obtain ⟨n, hn, hstored⟩ := (h i).insert hpos hroom key value
    exact .inl ⟨_, _, by simp only [act, hn, ok_bind]; rfl, rfl, h.update i hstored⟩
  | setKv i pos key value =>
    obtain ⟨n, hn, hstored⟩ := (h i).setKv ha.1 ha.2 key value
    exact .inl ⟨_, _, by simp only [act, hn, ok_bind]; rfl, rfl, h.update i hstored⟩
  | erase i slot =>
    have hslot : 0 < (l i).length → slot < (l i).length := h.occupants i ▸ ha
    obtain ⟨n, hn, hstored⟩ := (h i).erase hslot
    exact .inl ⟨_, _, by simp only [act, hn, ok_bind]; rfl, rfl, h.update i hstored⟩
  | load i order address buffer =>
    cases hpage : Surface.load tr keys values order address buffer with
    | ok page =>
      obtain ⟨n, hn, hstored⟩ := (h i).load hpage
      refine .inl ⟨_, _, ?_, ?_, h.update i hstored⟩
      · simp only [act, hn, ok_bind]
        rfl
      · simp only [effect, hpage, ok_bind]
        rfl
    | error e =>
      refine .inr ⟨i, order, address, buffer, e, rfl, hpage, ?_, ?_⟩
      · simp only [act, SurfaceNode.load, hpage]
        rfl
      · simp only [effect, hpage]
        rfl
  | split i j =>
    obtain ⟨-, hlen⟩ := ha
    rw [h.occupants] at hlen
    obtain ⟨kv, n₁, n₂, hn, -, h₁, h₂⟩ := (h i).split hlen (s j)
    exact .inl ⟨_, _, by simp only [act, hn, ok_bind]; rfl, rfl, (h.update i h₁).update j h₂⟩
  | merge i j =>
    obtain ⟨-, hroom⟩ := ha
    rw [h.occupants, h.occupants] at hroom
    obtain ⟨n₁, n₂, hn, h₁, h₂⟩ := (h i).mergeLeaves (h j) hroom
    exact .inl ⟨_, _, by simp only [act, hn, ok_bind]; rfl, rfl, (h.update i h₁).update j h₂⟩
  | shiftLeft i j =>
    obtain ⟨-, hlt, hmany⟩ := ha
    rw [h.occupants, h.occupants] at hlt
    rw [h.occupants] at hmany
    obtain ⟨kv, n₁, n₂, hn, -, h₁, h₂⟩ := (h i).shiftLeft (h j) hlt hmany
    exact .inl ⟨_, _, by simp only [act, hn, ok_bind]; rfl, rfl, (h.update i h₁).update j h₂⟩
  | shiftRight i j =>
    obtain ⟨-, hlt⟩ := ha
    rw [h.occupants, h.occupants] at hlt
    obtain ⟨kv, n₁, n₂, hn, -, h₁, h₂⟩ := (h i).shiftRight (h j) hlt
    exact .inl ⟨_, _, by simp only [act, hn, ok_bind]; rfl, rfl, (h.update i h₁).update j h₂⟩

/-- In every state reached the nodes hold lists. -/
theorem exists_stores_of_reached {nodes : ℕ → SurfaceNode K V}
    (h : Reached (step tr keys values) (Allowed tr) (fun i ↦ (nodes i).initialized tr) s) :
    ∃ l, Stores tr s l := by
  refine h.invariant (fun s ↦ ∃ l, Stores tr s l)
    ⟨fun _ ↦ [], fun i ↦ SurfaceNode.Stores.initialized tr (nodes i)⟩ ?_
  rintro s s' a ⟨l, hl⟩ ha hstep
  obtain ⟨t, l', hact, -, hstored⟩ | ⟨_, _, _, _, e, -, -, hact, -⟩ :=
    act_effect keys values hl ha
  · rw [step, hact] at hstep
    cases hstep
    exact ⟨l', hstored⟩
  · rw [step, hact] at hstep
    cases hstep

private theorem Stores.live (h : Stores tr s l) : (fun i ↦ (s i).live) = l :=
  funext fun i ↦ (SurfaceNode.stores_iff.1 (h i)).2

/-- After any sequence of actions each node is slotted, no two occupied positions share a slot, the
next action does to the pairs what it is for, and it throws only where the page it loads is
wrong. -/
theorem slotted_of_reached {nodes : ℕ → SurfaceNode K V}
    (h : Reached (step tr keys values) (Allowed tr) (fun i ↦ (nodes i).initialized tr) s) :
    (∀ i, (s i).Slotted tr ∧ Set.InjOn (s i).permutations (Set.Iio (s i).occupants)) ∧
      ∀ a, Allowed tr s a →
        (act tr keys values s a).map (fun t i ↦ (t i).live) =
            effect tr keys values (fun i ↦ (s i).live) a ∧
          ∀ e, act tr keys values s a = .error e → ∃ i order address buffer,
            a = .load i order address buffer ∧
              Surface.load tr keys values order address buffer = .error e := by
  obtain ⟨l, hl⟩ := exists_stores_of_reached h
  refine ⟨fun i ↦ ?_, fun a ha ↦ ?_⟩
  · have hslot := (SurfaceNode.stores_iff.1 (hl i)).1
    exact ⟨hslot, hslot.bijOn.injOn.mono fun p hp ↦ lt_of_lt_of_le hp hslot.occupants_le⟩
  · rw [hl.live]
    obtain ⟨t, l', hact, heffect, hstored⟩ |
      ⟨i, order, address, buffer, e, rfl, hpage, hact, heffect⟩ :=
      act_effect keys values hl ha
    · rw [hact, heffect]
      exact ⟨congrArg Except.ok hstored.live, fun e he ↦ nomatch he⟩
    · rw [hact, heffect]
      refine ⟨rfl, fun e' he ↦ ⟨i, order, address, buffer, rfl, ?_⟩⟩
      cases he
      exact hpage

/-- Nodes of bytes as they are allocated. -/
def freshNodes : ℕ → SurfaceNode UInt8 UInt8 :=
  fun _ ↦ SurfaceNode.initialized .perPage ⟨fun _ ↦ 0, 0, 0, fun _ ↦ 0, fun _ ↦ 0⟩

/-- Two insertions into a fresh node, which is then split. -/
theorem slotted_of_reached_two : ∃ s : ℕ → SurfaceNode UInt8 UInt8,
    run (step .perPage Node.byteCodec Node.byteCodec) freshNodes
        [.insert 0 0 7 9, .insert 0 0 5 1] = some s ∧
      (s 0).Slotted .perPage ∧
      (act .perPage Node.byteCodec Node.byteCodec s (.split 0 1)).map (fun t i ↦ (t i).live) =
        effect .perPage Node.byteCodec Node.byteCodec (fun i ↦ (s i).live) (.split 0 1) := by
  have hone : Reached (step .perPage Node.byteCodec Node.byteCodec) (Allowed .perPage)
      freshNodes _ :=
    .next .start (a := .insert 0 0 7 9) ⟨by decide, by decide⟩ rfl
  have htwo : Reached (step .perPage Node.byteCodec Node.byteCodec) (Allowed .perPage)
      freshNodes _ :=
    .next hone (a := .insert 0 0 5 1) ⟨by decide, by decide⟩ rfl
  obtain ⟨hslot, hact⟩ := slotted_of_reached htwo
  exact ⟨_, rfl, (hslot 0).1, (hact (.split 0 1) ⟨by decide, by decide⟩).1⟩

/-- A node with a gap is not slotted. -/
theorem not_slotted_of_gap {K V : Type} {tr : Traits} {n : SurfaceNode K V}
    (hfree : n.permutations 0 = tr.surfaces) (hpos : 0 < n.allocated) : ¬n.Slotted tr := by
  intro h
  have hlt : n.permutations 0 < n.allocated := h.bijOn.mapsTo hpos
  have hle := h.allocated_le
  omega

/-- A page for 129 pairs is refused, and a position too far behind leaves a gap. -/
theorem not_slotted_anyAction :
    (¬∀ s, Reached (step .perPage Node.byteCodec Node.byteCodec) (fun _ _ ↦ True) freshNodes s →
      (∀ i, (s i).occupants < Traits.perPage.surfaces) → ∀ a,
        act .perPage Node.byteCodec Node.byteCodec s a ≠ .error .badFormat) ∧
    ∀ as ∈ [[.setKv 0 1 7 9], [.insert 0 1 7 9], [.insert 0 0 7 9, .erase 0 1]],
      ∃ s, run (step .perPage Node.byteCodec Node.byteCodec) freshNodes as = some s ∧
        ¬(s 0).Slotted .perPage := by
  constructor
  · intro h
    have hroom : ∀ i, (freshNodes i).occupants < Traits.perPage.surfaces := fun _ ↦ Nat.succ_pos 127
    exact h freshNodes .start hroom (.load 0 1 0 [0x81, 0x01, 0x00]) rfl
  · intro as has
    simp only [List.mem_cons, List.not_mem_nil, or_false] at has
    obtain rfl | rfl | rfl := has <;> exact ⟨_, rfl, not_slotted_of_gap rfl (by decide)⟩

end SlotAction

end LibSpaces.Stx
