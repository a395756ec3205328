import LibSpaces.Spaces.Identities
import LibSpaces.Stx.PageBlocks

/-!
# A tree on the blocks of a transaction

What a tree sees of the blocks of its transaction, and the blocks that `flush` writes,
`src/src/stx/btree.h:2364–2471,2619–2662,4268–4291,4459–4524`. A tree that is flushed and opened
again holds the same pairs.
-/

namespace LibSpaces.Spaces

open LibSpaces.Base LibSpaces.Base.Memory LibSpaces.Stx LibSpaces.Stx.Btree

variable {K V : Type}

/-- A boot value as an address or a size. -/
def bootAddress (block : Option Bytes) : Option ℕ :=
  (bootValue block).map fun v ↦ (BitVec.ofInt 64 v).toNat

/-- The pages and the boot values that a tree sees, with what its load buffer holds when it loads
a page. -/
def seen (ty : TreeType K V) (order : ℕ) (loadBuffer : ℕ → Memory) (blocks : ℕ → Option Bytes)
    (lastAddress : ℕ) : Storage K V where
  pages w := ty.page order (loadBuffer w) w (blocks w)
  boot i := if i ≤ 5 then bootAddress (blocks i) else none
  lastAddress := lastAddress

/-- The block that `save` stores a page in, with what its buffer holds. -/
def saveBlock (ty : TreeType K V) (saveBuffer : ℕ → Memory) (s : Btree K V) (w : ℕ) :
    Option (ℕ × Bytes) :=
  match s.nodesLoaded w with
  | none => none
  | some n =>
    if refuses w n then none
    else match savePage ty.traits ty.keys ty.values ty.unencoded (saveBuffer w) n.occupied with
      | .ok (some block) => some (w, block)
      | _ => none

/-- A boot value is set where it is not the one that is remembered. -/
def bootWrite (i start value : ℕ) : List (ℕ × Bytes) :=
  if start ≠ value then [(i, writeSigned (signed value))] else []

/-- The blocks that `write_boot_values` writes. -/
def bootWrites (s : Btree K V) : List (ℕ × Bytes) :=
  if s.stats.changes = 0 then []
  else
    bootWrite 1 s.stats.startRoot s.root ++
    bootWrite 2 s.stats.startTreeSize s.stats.treeSize ++
    bootWrite 3 (if s.stats.startRoot ≠ s.root then s.root else s.stats.startHead) s.headsurface ++
    bootWrite 4 s.stats.startLast s.lastSurface

/-- The blocks that `flush` writes; `none` where `save` throws. -/
def flushWrites (ty : TreeType K V) (saveBuffer : ℕ → Memory) (s : Btree K V) :
    Option (List (ℕ × Bytes)) :=
  if s.stats.treeSize = 0 then some []
  else (s.modified.mapM (saveBlock ty saveBuffer s)).map (· ++ bootWrites s.savedAll)

/-- The blocks after some of them were written. -/
def overwritten (blocks : ℕ → Option Bytes) (writes : List (ℕ × Bytes)) : ℕ → Option Bytes :=
  writes.foldl (fun blocks write ↦ Function.update blocks write.1 (some write.2)) blocks

section Blocks

variable {blocks : ℕ → Option Bytes} {writes writes' : List (ℕ × Bytes)} {w i : ℕ}

@[simp] private theorem overwritten_nil : overwritten blocks [] = blocks := rfl

private theorem overwritten_append :
    overwritten blocks (writes ++ writes') = overwritten (overwritten blocks writes) writes' :=
  List.foldl_append

/-- Only the blocks that are written change. -/
theorem overwritten_of_notMem (h : ∀ write ∈ writes, write.1 ≠ w) :
    overwritten blocks writes w = blocks w := by
  induction writes generalizing blocks with
  | nil => rfl
  | cons write writes ih =>
    obtain ⟨hfirst, hrest⟩ := List.forall_mem_cons.1 h
    exact (ih hrest).trans (Function.update_of_ne hfirst.symm _ _)

/-- A block is as it was or what was written to it. -/
theorem overwritten_cases (blocks : ℕ → Option Bytes) (writes : List (ℕ × Bytes)) (w : ℕ) :
    overwritten blocks writes w = blocks w ∨
      ∃ write ∈ writes, write.1 = w ∧ overwritten blocks writes w = some write.2 := by
  induction writes generalizing blocks with
  | nil => exact .inl rfl
  | cons write writes ih =>
    rcases ih (Function.update blocks write.1 (some write.2)) with hsame | ⟨write', hmem, hw, heq⟩
    · by_cases hw : w = write.1
      · right
        refine ⟨write, List.mem_cons_self, hw.symm, hsame.trans ?_⟩
        rw [hw, Function.update_self]
      · exact .inl (hsame.trans (Function.update_of_ne hw _ _))
    · exact .inr ⟨write', List.mem_cons_of_mem _ hmem, hw, heq⟩

/-- Blocks that are written each by its address. -/
theorem overwritten_map (blocks : ℕ → Option Bytes) (w : ℕ) (f : ℕ → Bytes) (l : List ℕ) :
    overwritten blocks (l.map fun v ↦ (v, f v)) w = if w ∈ l then some (f w) else blocks w := by
  induction l generalizing blocks with
  | nil => rfl
  | cons v l ih =>
    refine (ih _).trans ?_
    by_cases hw : w ∈ l
    · rw [if_pos hw, if_pos (List.mem_cons_of_mem v hw)]
    · rw [if_neg hw]
      by_cases hv : w = v
      · rw [if_pos (hv ▸ List.mem_cons_self), hv]
        exact Function.update_self _ _ _
      · rw [if_neg fun hmem ↦ (List.mem_cons.1 hmem).elim hv hw]
        exact Function.update_of_ne hv _ _

private theorem mapM_eq_map {α β : Type} {f : α → Option β} {g : α → β} {l : List α}
    (h : ∀ x ∈ l, f x = some (g x)) : l.mapM f = some (l.map g) := by
  induction l with
  | nil => rfl
  | cons x l ih =>
    obtain ⟨hfirst, hrest⟩ := List.forall_mem_cons.1 h
    rw [List.mapM_cons, hfirst, ih hrest]
    rfl

/-! ### Boot values -/

private theorem bootAddress_writeSigned {v : ℕ} (hv : v < 2 ^ 64) :
    bootAddress (some (writeSigned (signed v))) = some v := by
  have hread := readSigned64_writeSigned (BitVec.ofNat 64 v) []
  rw [List.append_nil] at hread
  obtain ⟨byte, bytes, hbytes⟩ : ∃ byte bytes, writeSigned (signed v) = byte :: bytes :=
    List.exists_cons_of_ne_nil (coded_writeSigned (BitVec.ofNat 64 v)).1.ne_nil
  have hvalue : bootValue (some (writeSigned (signed v))) = some (signed v) := by
    rw [signed] at hbytes ⊢
    rw [hbytes] at hread ⊢
    rw [bootValue, hread]
  rw [bootAddress, hvalue, Option.map_some, signed, BitVec.ofInt_toInt, BitVec.toNat_ofNat,
    Nat.mod_eq_of_lt hv]

private theorem signed_bounds (v : ℕ) : -2 ^ 63 ≤ signed v ∧ signed v < 2 ^ 63 :=
  ⟨BitVec.le_toInt _, BitVec.toInt_lt⟩

/-- Boot values are written to the first blocks. -/
theorem mem_bootWrites {s : Btree K V} {write : ℕ × Bytes} (h : write ∈ bootWrites s) :
    0 < write.1 ∧ write.1 ≤ 4 ∧ ∃ v : ℕ, write.2 = writeSigned (signed v) := by
  have hwrite {i start value : ℕ} (h : write ∈ bootWrite i start value) :
      write = (i, writeSigned (signed value)) := by
    unfold bootWrite at h
    split at h
    · exact List.mem_singleton.1 h
    · cases h
  unfold bootWrites at h
  split at h
  · cases h
  · simp only [List.mem_append] at h
    rcases h with ((h | h) | h) | h
    all_goals
      obtain rfl := hwrite h
      exact ⟨Nat.succ_pos _, by dsimp only; omega, _, rfl⟩

private theorem overwritten_bootWrite (i start value w : ℕ) :
    overwritten blocks (bootWrite i start value) w =
      if w = i ∧ start ≠ value then some (writeSigned (signed value)) else blocks w := by
  unfold bootWrite
  split
  · next hne =>
    by_cases hw : w = i
    · rw [if_pos ⟨hw, hne⟩, hw]
      exact Function.update_self _ _ _
    · rw [if_neg fun h ↦ hw h.1]
      exact Function.update_of_ne hw _ _
  · next heq => rw [if_neg fun h ↦ heq h.2, overwritten_nil]

/-- The root and the size are found where `write_boot_values` has written them. -/
theorem bootAddress_bootWrites {s : Btree K V} (hi : i = 1 ∨ i = 2)
    (hboot : s.storage.boot i = bootAddress (blocks i)) (hroot : s.root < 2 ^ 63)
    (hsize : s.stats.treeSize < 2 ^ 63) :
    bootAddress (overwritten blocks (bootWrites s) i) = s.writeBootValues.storage.boot i := by
  by_cases hchanges : s.stats.changes = 0
  · rw [bootWrites, if_pos hchanges, overwritten_nil, writeBootValues, if_pos hchanges, hboot]
  have hwritten := bootWritten_writeBootValues hchanges
  rw [bootWrites, if_neg hchanges]
  simp only [overwritten_append, overwritten_bootWrite]
  rcases hi with rfl | rfl
  · rw [hwritten.root]
    simp only [true_and, OfNat.one_ne_ofNat, false_and, if_false]
    split
    · exact bootAddress_writeSigned (by omega)
    · exact hboot.symm
  · rw [hwritten.treeSize]
    simp only [true_and, OfNat.ofNat_ne_one, Nat.reduceEqDiff, false_and, if_false]
    split
    · exact bootAddress_writeSigned (by omega)
    · exact hboot.symm

end Blocks

/-! ### What a tree sees -/

section Seen

variable {ty : TreeType K V} {order last w : ℕ} {loadBuffer : ℕ → Memory}
  {blocks blocks' : ℕ → Option Bytes} {n : Surface K V}

/-- A leaf that is loaded is not followed by itself. -/
theorem next_ne_of_page {buffer : Memory} {block : Option Bytes}
    (h : ty.page order buffer w block = some (.surface n)) : n.next ≠ w := by
  unfold TreeType.page at h
  split at h
  · next m hload =>
    cases h
    obtain ⟨decoded, -, hread⟩ : ∃ decoded : ℤ × Memory,
        rDecompressLz4 buffer (block.getD []) = some decoded ∧
        readPage ty.traits ty.keys ty.values order w (slice decoded.2 0 decoded.1.toNat) =
          .ok (.surface n) := by
      rw [loadPage] at hload
      split at hload
      · cases hload
      · exact Option.map_eq_some_iff.1 hload
    simp only [readPage, bind_eq_ok] at hread
    obtain ⟨_, -, _, -, hread⟩ := hread
    split at hread
    · obtain ⟨k, hsurface, hread⟩ := bind_eq_ok.1 hread
      cases hread
      simp only [Surface.load, bind_eq_ok] at hsurface
      obtain ⟨_, -, _, -, _, -, _, -, _, -, _, -, _, -, _, -, _, hnext, _, -, _, -, _, -, _, -, _,
        -, _, -, hresult⟩ := hsurface
      cases hresult
      exact reject_eq_ok.1 hnext
    · obtain ⟨k, -, hread⟩ := bind_eq_ok.1 hread
      cases hread
  · cases h

private theorem unlooped_seen : (seen ty order loadBuffer blocks last).Unlooped :=
  fun _ _ h ↦ next_ne_of_page h

/-- A tree sees the same in both, and the second ones are no fewer. -/
structure SeenAlike (ty : TreeType K V) (blocks blocks' : ℕ → Option Bytes) : Prop where
  pages : ∀ order, order ≠ 0 → ∀ loadBuffer w,
    ty.page order loadBuffer w (blocks' w) = ty.page order loadBuffer w (blocks w)
  boot : ∀ i, i ≤ 5 → bootValue (blocks' i) = bootValue (blocks i)
  grows : ∀ w, (blocks w).isSome → (blocks' w).isSome

/-- The same blocks are seen alike. -/
theorem SeenAlike.refl (blocks : ℕ → Option Bytes) : SeenAlike ty blocks blocks :=
  ⟨fun _ _ _ _ ↦ rfl, fun _ _ ↦ rfl, fun _ ↦ id⟩

/-- The relation is transitive. -/
theorem SeenAlike.trans {blocks'' : ℕ → Option Bytes} (h : SeenAlike ty blocks blocks')
    (h' : SeenAlike ty blocks' blocks'') : SeenAlike ty blocks blocks'' where
  pages order horder loadBuffer w :=
    (h'.pages order horder loadBuffer w).trans (h.pages order horder loadBuffer w)
  boot i hi := (h'.boot i hi).trans (h.boot i hi)
  grows w hw := h'.grows w (h.grows w hw)

private theorem SeenAlike.bootAddress (h : SeenAlike ty blocks blocks') {i : ℕ} (hi : i ≤ 5) :
    bootAddress (blocks' i) = bootAddress (blocks i) := by
  rw [Spaces.bootAddress, h.boot i hi, Spaces.bootAddress]

private theorem SeenAlike.seen (h : SeenAlike ty blocks blocks') (horder : order ≠ 0) :
    seen ty order loadBuffer blocks' last = seen ty order loadBuffer blocks last := by
  have hpages : (fun w ↦ ty.page order (loadBuffer w) w (blocks' w)) =
      fun w ↦ ty.page order (loadBuffer w) w (blocks w) :=
    funext fun w ↦ h.pages order horder (loadBuffer w) w
  have hboot : (fun i ↦ if i ≤ 5 then Spaces.bootAddress (blocks' i) else none) =
      fun i ↦ if i ≤ 5 then Spaces.bootAddress (blocks i) else none := by
    funext i
    split
    · next hi => exact h.bootAddress hi
    · rfl
  rw [Spaces.seen, Spaces.seen, hpages, hboot]

private theorem SeenAlike.settled (h : SeenAlike ty blocks blocks') (hs : ty.Settled w (blocks w)) :
    ty.Settled w (blocks' w) where
  same order horder loadBuffer := by
    rw [h.pages order horder, h.pages 1 one_ne_zero, hs.same order horder]
  above := by
    rw [h.pages 1 one_ne_zero]
    exact hs.above
  fits := by
    rw [h.pages 1 one_ne_zero]
    exact hs.fits

/-- A block that is not there is created. -/
theorem seenAlike_create (hnone : blocks w = none) :
    SeenAlike ty blocks (Function.update blocks w (some [])) := by
  have hcases (v : ℕ) : Function.update blocks w (some []) v = blocks v ∨
      v = w ∧ Function.update blocks w (some []) v = some [] := by
    by_cases hv : v = w
    · rw [hv]
      exact .inr ⟨rfl, Function.update_self _ _ _⟩
    · exact .inl (Function.update_of_ne hv _ _)
  constructor
  · intro order _ loadBuffer v
    rcases hcases v with hsame | ⟨rfl, hempty⟩
    · rw [hsame]
    · rw [hempty, hnone, TreeType.page_of_empty (.inl rfl), TreeType.page_of_empty (.inr rfl)]
  · intro i _
    rcases hcases i with hsame | ⟨rfl, hempty⟩
    · rw [hsame]
    · rw [hempty, hnone, bootValue, bootValue]
  · intro v hv
    rcases hcases v with hsame | ⟨-, hempty⟩
    · rwa [hsame]
    · rw [hempty]
      rfl

/-- The identity that is saved is not a block of the tree. -/
theorem seenAlike_saveId {id : ℤ} (hlow : -2 ^ 63 ≤ id) (hhigh : id < 2 ^ 63)
    (hs : ty.Settled idAddress (blocks idAddress)) :
    SeenAlike ty blocks (Function.update blocks idAddress (some (writeSigned id))) := by
  constructor
  · intro order horder loadBuffer v
    by_cases hv : v = idAddress
    · subst hv
      have hnone : ty.page order loadBuffer idAddress (blocks idAddress) = none := by
        rw [Option.eq_none_iff_forall_not_mem]
        intro n hn
        have habove := (hs.page horder hn).1
        exact absurd habove (by decide)
      rw [Function.update_self, TreeType.page_writeSigned hlow hhigh, hnone]
    · rw [Function.update_of_ne hv]
  · intro i hi
    rw [Function.update_of_ne]
    rw [idAddress]
    omega
  · intro v hv
    by_cases heq : v = idAddress
    · rw [heq, Function.update_self]
      rfl
    · rwa [Function.update_of_ne heq]

end Seen

/-! ### Trees on blocks -/

section Trees

variable [LinearOrder K] [Inhabited K] [Inhabited V] {ty : TreeType K V} {order last : ℕ}
  {loadBuffer : ℕ → Memory} {blocks blocks' : ℕ → Option Bytes} {m : OrderedMap K V}
  {ops : List (MapOp K V)} {s : Btree K V} {kvs : List (K × V)}

/-- A tree that is opened on the blocks holds the pairs, whatever its buffers hold. Without pairs
there is no root. -/
structure Durable (ty : TreeType K V) (blocks : ℕ → Option Bytes) (kvs : List (K × V)) : Prop where
  settled : ∀ w, ty.Settled w (blocks w)
  opens : ∀ (order : ℕ) (loadBuffer : ℕ → Memory) (last : ℕ), order ≠ 0 →
    (∀ w, (blocks w).isSome → w ≤ last) →
    ∃ s, opened (seen ty order loadBuffer blocks last) = some s ∧ Holds ty.traits s kvs
  blank : kvs = [] → bootValue (blocks 1) = none

/-- A tree that was opened on the blocks with the pairs of a map and has run operations. -/
structure Mounted (ty : TreeType K V) (blocks : ℕ → Option Bytes) (m : OrderedMap K V)
    (ops : List (MapOp K V)) (s : Btree K V) : Prop where
  durable : Durable ty blocks m.pairs
  run : ∃ st s₀ answers, opened st = some s₀ ∧ (s₀.root = 0 → s₀ = Btree.blank st) ∧
    Holds ty.traits s₀ m.pairs ∧ s₀.run ty.traits ops = some (s, answers)
  saveable : Saveable ty.traits 128 s
  storage : ∃ (order : ℕ) (loadBuffer : ℕ → Memory), order ≠ 0 ∧
    s.storage = seen ty order loadBuffer blocks s.storage.lastAddress

omit [Inhabited V] in
private theorem Durable.congr (h : Durable ty blocks kvs) (hs : SeenAlike ty blocks blocks') :
    Durable ty blocks' kvs where
  settled w := hs.settled (h.settled w)
  opens order loadBuffer last horder hbound := by
    rw [hs.seen horder]
    exact h.opens order loadBuffer last horder fun w hw ↦ hbound w (hs.grows w hw)
  blank hnil := (hs.boot 1 (by decide)).trans (h.blank hnil)

/-- A tree is mounted on all blocks that are seen alike. -/
theorem Mounted.congr (h : Mounted ty blocks m ops s) (hs : SeenAlike ty blocks blocks') :
    Mounted ty blocks' m ops s where
  durable := h.durable.congr hs
  run := h.run
  saveable := h.saveable
  storage := by
    obtain ⟨order, loadBuffer, horder, hstorage⟩ := h.storage
    exact ⟨order, loadBuffer, horder, hstorage.trans (hs.seen horder).symm⟩

omit [Inhabited V] in
/-- A storage without blocks holds the empty tree. -/
theorem durable_empty : Durable ty (fun _ ↦ none) [] where
  settled _ := .of_empty (.inl rfl)
  opens order loadBuffer last _ _ := by
    have hunlooped : (seen ty order loadBuffer (fun _ ↦ none) last).Unlooped := unlooped_seen
    exact ⟨_, holds_blank hunlooped rfl⟩
  blank _ := rfl

/-- A tree is opened. -/
theorem Durable.mounted (h : Durable ty blocks m.pairs) (horder : order ≠ 0)
    (hbound : ∀ w, (blocks w).isSome → w ≤ last) (hlast : 32 ≤ last) :
    ∃ s, opened (seen ty order loadBuffer blocks last) = some s ∧ Mounted ty blocks m [] s ∧
      s.storage.lastAddress = last := by
  obtain ⟨s, hopen, hholds⟩ := h.opens order loadBuffer last horder hbound
  have hfresh := fresh_of_opened hopen
  have hload (w : ℕ) : s.load w = ty.page order (loadBuffer w) w (blocks w) := by
    rw [load, hfresh.nodesLoaded, hfresh.storage]
    rfl
  refine ⟨s, hopen, ⟨h, ⟨_, s, [], hopen, ?_, hholds, rfl⟩, ⟨?_, ?_, ?_⟩,
    order, loadBuffer, horder, by rw [hfresh.storage]; rfl⟩,
    congrArg Storage.lastAddress hfresh.storage⟩
  · intro hroot
    have hnone : (seen ty order loadBuffer blocks last).boot 1 = none := by
      show bootAddress (blocks 1) = none
      rw [bootAddress, h.blank (hholds.root_eq_zero.1 hroot)]
      rfl
    exact Option.some.inj (hopen.symm.trans (opened_of_none hnone))
  · rw [hfresh.storage]
    exact hlast
  · intro w hw
    rw [hload] at hw
    obtain ⟨n, hn⟩ := Option.isSome_iff_exists.1 hw
    exact ((h.settled w).page horder hn).1
  · intro w n hn
    rw [hload] at hn
    exact ((h.settled w).page horder hn).2

/-- What the tree holds after the operations. -/
theorem Mounted.holds (h : Mounted ty blocks m ops s) :
    ∃ st s₀, opened st = some s₀ ∧ (s₀.root = 0 → s₀ = Btree.blank st) ∧
      Holds ty.traits s₀ m.pairs ∧ Holds ty.traits s (specRun m ops).1.pairs ∧ Session s₀ s := by
  obtain ⟨st, s₀, answers, hopen, hblank, h₀, hrun⟩ := h.run
  obtain ⟨s', hrun', hs, hsession⟩ := h₀.run ops
  rw [hrun] at hrun'
  cases hrun'
  exact ⟨st, s₀, hopen, hblank, h₀, hs, hsession⟩

/-- An operation on the tree gives the answer of the ordered map. -/
theorem Mounted.step (h : Mounted ty blocks m ops s) (op : MapOp K V) :
    ∃ s', s.step ty.traits op = some (s', (op.spec (specRun m ops).1).2) ∧
      s.storage.lastAddress ≤ s'.storage.lastAddress ∧
      (s'.storage.lastAddress < 2 ^ 64 → Mounted ty blocks m (ops ++ [op]) s') := by
  obtain ⟨-, -, -, -, -, hs, -⟩ := h.holds
  obtain ⟨s', hrun', hs', hsession⟩ := hs.run [op]
  obtain ⟨⟨s₁, answer⟩, hstep, hrest⟩ := Option.bind_eq_some_iff.1 hrun'
  cases hrest
  refine ⟨s', hstep, hsession.lastAddress, fun hlast ↦ ⟨h.durable, ?_, ?_, ?_⟩⟩
  · obtain ⟨st, s₀, answers, hopen, hblank, h₀, hrun⟩ := h.run
    exact ⟨st, s₀, _, hopen, hblank, h₀, run_concat hrun hstep⟩
  · refine h.saveable.step hstep fun hroot ↦ (hs'.depth_le hroot hlast).trans ?_
    decide
  · obtain ⟨order, loadBuffer, horder, hstorage⟩ := h.storage
    refine ⟨order, loadBuffer, horder, ?_⟩
    calc s'.storage = ⟨s'.storage.pages, s'.storage.boot, s'.storage.lastAddress⟩ := rfl
      _ = ⟨s.storage.pages, s.storage.boot, s'.storage.lastAddress⟩ := by
          rw [hsession.pages, hsession.boot]
      _ = seen ty order loadBuffer blocks s'.storage.lastAddress := by
          rw [hstorage]
          rfl

/-- Whatever is in the buffers, the tree sees the same. -/
theorem Mounted.attached (h : Mounted ty blocks m ops s) (horder : order ≠ 0) :
    { s with storage := seen ty order loadBuffer blocks s.storage.lastAddress } = s := by
  obtain ⟨order', loadBuffer', horder', hstorage⟩ := h.storage
  have hsame : seen ty order loadBuffer blocks s.storage.lastAddress = s.storage := by
    rw [hstorage]
    simp only [seen, Storage.mk.injEq, and_true]
    funext w
    have hsettled := h.durable.settled w
    rw [hsettled.same order horder, hsettled.same order' horder']
  rw [hsame]

/-- A tree without a root and without changes is as it was constructed. -/
theorem Mounted.eq_blank (h : Mounted ty blocks m ops s) (hroot : s.root = 0)
    (hmodified : s.modified = []) : s = Btree.blank s.storage := by
  obtain ⟨st, s₀, answers, hopen, hblank, h₀, hrun⟩ := h.run
  obtain ⟨s', hrun', -, hsession⟩ := h₀.run ops
  rw [hrun] at hrun'
  cases hrun'
  obtain ⟨-, hsame, -⟩ := hsession.unchanged hmodified
  obtain rfl := hblank (hsame ▸ hroot)
  have hpairs : m.pairs = [] := h₀.root_eq_zero.1 rfl
  have hrep : Represents ty.traits (Btree.blank st) m.pairs := by
    rw [hpairs]
    exact represents_blank h₀.unlooped
  obtain ⟨s', hrun', -, hwithin⟩ := run_spec hrep ops
  rw [hrun] at hrun'
  cases hrun'
  obtain rfl := hwithin.dirty.resolve_right (not_not.2 hmodified)
  rfl

/-- The blocks of the registered nodes. -/
theorem Mounted.exists_saveBlock (h : Mounted ty blocks m ops s)
    (hsize : ∀ w ∈ s.modified, ∀ n, s.load w = some n → ty.pageSize n < pageLimit)
    (saveBuffer : ℕ → Memory) {w : ℕ} (hw : w ∈ s.modified) :
    ∃ block, saveBlock ty saveBuffer s w = some (w, block) ∧ ∃ n, s.load w = some n ∧
      ∀ order loadBuffer v, ty.page order loadBuffer v (some block) =
        (readPage ty.traits ty.keys ty.values order v (ty.written n.occupied)).toOption := by
  obtain ⟨st, s₀, hopen, -, -, hs, hsession⟩ := h.holds
  obtain ⟨n, hn⟩ := Option.isSome_iff_exists.1 ((hsession.tracked_of_opened hopen w).2 hw)
  have hload : s.load w = some n := by
    rw [load, hn]
    rfl
  obtain ⟨block, hblock, hpage⟩ :=
    TreeType.exists_savePage (h.saveable.fits w n hload) (hsize w hw n hload) (saveBuffer w)
  refine ⟨block, ?_, n, hload, hpage⟩
  rw [saveBlock, hn]
  dsimp only
  rw [not_refuses hs.unlooped hn, if_neg Bool.false_ne_true, hblock]

/-- The blocks after a flush: the pages of the registered nodes, and boot values. -/
structure Flushed (ty : TreeType K V) (blocks : ℕ → Option Bytes) (s : Btree K V)
    (blocks' : ℕ → Option Bytes) : Prop where
  page : ∀ w ∈ s.modified, ∃ n, s.load w = some n ∧
    ∀ (order : ℕ) (loadBuffer : Memory), ty.page order loadBuffer w (blocks' w) =
      (readPage ty.traits ty.keys ty.values order w (ty.written n.occupied)).toOption
  kept : ∀ w, w ∉ s.modified → 4 < w → blocks' w = blocks w
  boot : ∀ w, w ≤ 4 → blocks' w = blocks w ∨ ∃ v : ℕ, blocks' w = some (writeSigned (signed v))
  root : bootAddress (blocks' 1) = some s.root
  treeSize : bootAddress (blocks' 2) = some s.stats.treeSize

private theorem Mounted.exists_flushed (h : Mounted ty blocks m ops s)
    (hlast : s.storage.lastAddress < 2 ^ 31)
    (hsize : ∀ w ∈ s.modified, ∀ n, s.load w = some n → ty.pageSize n < pageLimit)
    (hroot : s.root ≠ 0) (hnonempty : s.stats.treeSize ≠ 0) (saveBuffer : ℕ → Memory) :
    ∃ writes, flushWrites ty saveBuffer s = some writes ∧
      (∀ write ∈ writes, 0 < write.1 ∧ write.1 ≤ 4 ∨ 32 < write.1) ∧
      Flushed ty blocks s (overwritten blocks writes) := by
  obtain ⟨st, s₀, hopen, -, -, hs, hsession⟩ := h.holds
  have hblocks := fun w (hw : w ∈ s.modified) ↦ h.exists_saveBlock hsize saveBuffer hw
  choose! block hsave hblock using hblocks
  have habove (w : ℕ) (hw : w ∈ s.modified) : 32 < w := by
    obtain ⟨n, hn, -⟩ := hblock w hw
    exact h.saveable.above w (hn ▸ rfl)
  have hpages : s.modified.mapM (saveBlock ty saveBuffer s) =
      some (s.modified.map fun w ↦ (w, block w)) := mapM_eq_map hsave
  have hmap (w : ℕ) := overwritten_map blocks w block s.modified
  have hsame (w : ℕ) (hw : w ≤ 4) :
      overwritten blocks (s.modified.map fun w ↦ (w, block w)) w = blocks w := by
    rw [hmap, if_neg]
    intro hmem
    have := habove w hmem
    omega
  have hafter (w : ℕ) (hw : 4 < w) : overwritten blocks
      ((s.modified.map fun w ↦ (w, block w)) ++ bootWrites s.savedAll) w =
        if w ∈ s.modified then some (block w) else blocks w := by
    rw [overwritten_append, overwritten_of_notMem, hmap]
    intro write hwrite
    have := (mem_bootWrites hwrite).2.1
    omega
  have hboots : ∀ i, i = 1 ∨ i = 2 → bootAddress (overwritten blocks
      ((s.modified.map fun w ↦ (w, block w)) ++ bootWrites s.savedAll) i) =
        s.savedAll.writeBootValues.storage.boot i := by
    intro i hi
    obtain ⟨hrootlt, hsizelt⟩ := hs.boot_lt hlast
    rw [overwritten_append]
    refine bootAddress_bootWrites hi ?_ hrootlt hsizelt
    rw [hsame i (by omega)]
    obtain ⟨order, loadBuffer, -, hstorage⟩ := h.storage
    exact (congrFun (congrArg Storage.boot hstorage) i).trans (if_pos (by omega))
  obtain ⟨hboot₁, hboot₂⟩ := boot_of_flush hopen hsession hroot hnonempty
  refine ⟨_, ?_, ?_, ?_, ?_, ?_, (hboots 1 (.inl rfl)).trans hboot₁,
    (hboots 2 (.inr rfl)).trans hboot₂⟩
  · rw [flushWrites, if_neg hnonempty, hpages, Option.map_some]
  · intro write hwrite
    rcases List.mem_append.1 hwrite with hwrite | hwrite
    · obtain ⟨w, hw, rfl⟩ := List.mem_map.1 hwrite
      exact .inr (habove w hw)
    · have hbound := mem_bootWrites hwrite
      exact .inl ⟨hbound.1, hbound.2.1⟩
  · intro w hw
    obtain ⟨n, hn, hpage⟩ := hblock w hw
    refine ⟨n, hn, fun order loadBuffer ↦ ?_⟩
    have := habove w hw
    rw [hafter w (by omega), if_pos hw, hpage]
  · intro w hw hfour
    rw [hafter w hfour, if_neg hw]
  · intro w hw
    rw [overwritten_append]
    rcases overwritten_cases (overwritten blocks (s.modified.map fun w ↦ (w, block w)))
      (bootWrites s.savedAll) w with hunchanged | ⟨write, hwrite, -, hvalue⟩
    · exact .inl (hunchanged.trans (hsame w hw))
    · obtain ⟨-, -, v, hv⟩ := mem_bootWrites hwrite
      exact .inr ⟨v, hvalue.trans (congrArg some hv)⟩

private theorem Flushed.settled (hf : Flushed ty blocks s blocks') (h : Mounted ty blocks m ops s)
    (w : ℕ) :
    ty.Settled w (blocks' w) := by
  by_cases hw : w ∈ s.modified
  · obtain ⟨n, hn, hpage⟩ := hf.page w hw
    exact TreeType.settled_of_saved (h.saveable.fits w n hn)
      (h.saveable.above w (hn ▸ rfl)) hpage
  · by_cases hfour : 4 < w
    · rw [hf.kept w hw hfour]
      exact h.durable.settled w
    · rcases hf.boot w (by omega) with hsame | ⟨v, hv⟩
      · rw [hsame]
        exact h.durable.settled w
      · rw [hv]
        exact .of_none fun order loadBuffer ↦
          TreeType.page_writeSigned (signed_bounds v).1 (signed_bounds v).2

/-- The blocks of a flush hold what the tree holds. -/
theorem Flushed.durable (hf : Flushed ty blocks s blocks') (h : Mounted ty blocks m ops s)
    (hlast : s.storage.lastAddress < 2 ^ 31)
    (hsize : ∀ w ∈ s.modified, ∀ n, s.load w = some n → ty.pageSize n < pageLimit)
    (hne : (specRun m ops).1.pairs ≠ []) : Durable ty blocks' (specRun m ops).1.pairs where
  settled := hf.settled h
  blank hnil := absurd hnil hne
  opens order loadBuffer last horder hbound := by
    obtain ⟨st, s₀, hopen, -, -, hs, hsession⟩ := h.holds
    have htracked := hsession.tracked_of_opened hopen
    have hload (w : ℕ) (n : Node K V) (hn : s.load w = some n) (hbelongs : ty.Belongs w n) :
        ty.page order (loadBuffer w) w (blocks' w) = some n := by
      by_cases hw : w ∈ s.modified
      · obtain ⟨n', hn', hpage⟩ := hf.page w hw
        obtain rfl := Option.some.inj (hn.symm.trans hn')
        rw [hpage, hbelongs.readPage (h.saveable.fits w n hn) (hsize w hw n hn) horder]
        rfl
      · have habove := h.saveable.above w (hn ▸ rfl)
        have hnone := mt (htracked w).1 hw
        rw [Option.not_isSome_iff_eq_none] at hnone
        rw [load, hnone] at hn
        obtain ⟨order', loadBuffer', horder', hstorage⟩ := h.storage
        have hsettled := h.durable.settled w
        rw [hf.kept w hw (by omega), hsettled.same order horder,
          ← hsettled.same order' horder' (loadBuffer' w)]
        exact (congrFun (congrArg Storage.pages hstorage) w).symm.trans hn
    have hholds : Holds ty.traits (described (seen ty order loadBuffer blocks' last) s.root)
        (specRun m ops).1.pairs := by
      refine hs.of_belonging hlast rfl ?_ ?_ fun w n hn hbelongs ↦ ?_
      · show (Option.getD (if 2 ≤ 5 then bootAddress (blocks' 2) else none) 0) = _
        rw [hf.treeSize]
        rfl
      · intro w n hn
        rw [load_described] at hn
        exact unlooped_seen w n hn
      · have hpage := hload w n hn hbelongs
        refine ⟨(congrFun (load_described _ _) w).trans hpage, hbound w ?_⟩
        rw [Option.isSome_iff_ne_none]
        intro hnone
        rw [TreeType.page_of_empty (.inl hnone)] at hpage
        cases hpage
    refine ⟨_, opened_of_some hf.root (.inr ?_), hholds⟩
    have hsome := hholds.exists_root hne
    rw [load_described] at hsome
    exact hsome

/-- What a flush leaves: the blocks hold the pairs of the tree. -/
theorem Mounted.flushed (h : Mounted ty blocks m ops s) (hlive : s.root ≠ 0 ∨ s.modified = [])
    (hlast : s.storage.lastAddress < 2 ^ 31)
    (hsize : ∀ w ∈ s.modified, ∀ n, s.load w = some n → ty.pageSize n < pageLimit)
    (saveBuffer : ℕ → Memory) :
    ∃ writes s₁, flushWrites ty saveBuffer s = some writes ∧ s.flush = some s₁ ∧
      (∀ write ∈ writes, 0 < write.1 ∧ write.1 ≤ 4 ∨ 32 < write.1) ∧
      Durable ty (overwritten blocks writes) (specRun m ops).1.pairs ∧
      (s₁.root = 0 → s₁ = Btree.blank s₁.storage) := by
  obtain ⟨st, s₀, hopen, -, h₀, hs, hsession⟩ := h.holds
  by_cases hne : (specRun m ops).1.pairs = []
  · have hroot : s.root = 0 := hs.root_eq_zero.2 hne
    have hmodified : s.modified = [] := hlive.resolve_left (not_not.2 hroot)
    have hempty : s.stats.treeSize = 0 := by
      rw [hs.treeSize, hne]
      rfl
    obtain ⟨-, hsame, -⟩ := hsession.unchanged hmodified
    have hpairs : m.pairs = [] := h₀.root_eq_zero.1 (hsame ▸ hroot)
    refine ⟨[], s, if_pos hempty, if_pos hempty, nofun, ?_, fun _ ↦ h.eq_blank hroot hmodified⟩
    rw [hne, ← hpairs, overwritten_nil]
    exact h.durable
  · have hroot : s.root ≠ 0 := mt hs.root_eq_zero.1 hne
    have hnonempty : s.stats.treeSize ≠ 0 := by
      rw [hs.treeSize]
      exact mt List.length_eq_zero_iff.1 hne
    have htracked := hsession.tracked_of_opened hopen
    obtain ⟨writes, hwrites, haddresses, hf⟩ :=
      h.exists_flushed hlast hsize hroot hnonempty saveBuffer
    refine ⟨writes, _, hwrites, flush_eq hs.unlooped (fun w ↦ (htracked w).2) hnonempty,
      haddresses, hf.durable h hlast hsize hne, fun hzero ↦ ?_⟩
    rw [(sameTree_writeBootValues s.savedAll).root] at hzero
    exact absurd hzero hroot

omit [LinearOrder K] [Inhabited K] [Inhabited V] in
/-- A tree that was flushed or rolled back is opened again by `reload`. -/
theorem reload_of_blank (h : s.root = 0 → s = Btree.blank s.storage) (st : Storage K V) :
    { s with storage := st }.reload = opened st := by
  by_cases hroot : s.root = 0
  · have hblank : { s with storage := st } = Btree.blank st := by
      rw [h hroot]
      rfl
    rw [hblank]
    rfl
  · rw [reload, clear, if_neg hroot]
    rfl

omit [LinearOrder K] [Inhabited K] [Inhabited V] in
/-- A tree that is cleared is as it was constructed. -/
theorem clear_blank (hs : s.root = 0 → s = Btree.blank s.storage) :
    s.clear = Btree.blank s.clear.storage := by
  unfold Btree.clear
  split
  · next hzero => exact hs hzero
  · rfl

end Trees

end LibSpaces.Spaces
