import Mathlib.Data.Finset.Basic
import Mathlib.Data.List.AList
import Mathlib.Data.List.Sort
import LibSpaces.Base.Bytes

/-!
# The block storage of one version

The parts of `sqlite_allocator`, `src/src/storage/transactions/transactional_storage.h:
907–1030,1162–1175,1310–1369`, that the coordinator of the versions relies on. The map holds
the blocks of the version, those in memory and those in its table alike. What is in memory at a
move, and the order in which its hash map is traversed, are chosen anew for each move: blocks that
are read or flushed get into memory and out of it at any time. The blocks of an open transaction
stay in memory.
-/

namespace LibSpaces.Transactions

open LibSpaces.Base

/-- `block_descriptor`: a block with the version that it was written by. -/
structure Block where
  content : Bytes
  version : ℕ
  deriving DecidableEq

/-- The blocks of a version with the last address given out and the number of changes. -/
structure Allocator where
  version : ℕ
  next : ℕ
  changes : ℕ
  blocks : AList fun _ : ℕ ↦ Block

/-- What a move finds: where the hash map of the addresses to be moved has each of them, and which
blocks of the destination are in its table only. -/
structure Traversal where
  slot : ℕ → ℕ
  stored : Finset ℕ

namespace Allocator

/-- The block at an address. -/
def block (s : Allocator) (a : ℕ) : Option Block := s.blocks.lookup a

/-- A block takes the place of the one at its address. -/
def setBlock (s : Allocator) (a : ℕ) (b : Block) : Allocator :=
  { s with blocks := s.blocks.insert a b }

/-- `create_block`, `transactional_storage.h:974–981`: a new block is empty and gets the version of
the allocator. -/
def replace (s : Allocator) (a : ℕ) : Allocator :=
  { s.setBlock a ⟨[], s.version⟩ with changes := s.changes + 1, next := max a s.next }

/-- `_allocate` to create the block at a given address, `transactional_storage.h:938–1014`: a
block in memory is kept. -/
def create (s : Allocator) (a : ℕ) : Allocator :=
  match s.block a with
  | some _ => { s with changes := s.changes + 1 }
  | none => s.replace a

/-- `create` where some blocks are in the table only. It does not look there. -/
def createOver (stored : Finset ℕ) (s : Allocator) (a : ℕ) : Allocator :=
  if a ∈ stored then s.replace a else s.create a

/-- `_allocate` to create a block at an address of its own, `transactional_storage.h:991–1001`. -/
def createNext (s : Allocator) : Allocator :=
  { s.setBlock ((s.next + 1) % 2 ^ 64) ⟨[], s.version⟩ with
    changes := s.changes + 1
    next := (s.next + 1) % 2 ^ 64 }

/-- The version that the block at an address has once `createOver` was called for it. -/
def versionAt (stored : Finset ℕ) (s : Allocator) (a : ℕ) : ℕ :=
  if a ∈ stored then s.version else ((s.block a).map Block.version).getD s.version

/-- `move`, `transactional_storage.h:1311–1369`: each block takes the place of the destination's
block, unless its version is not above that of the destination's, which ends the move with an
exception. The allocators and whether the move came to its end are returned. -/
def moveBlocks (stored : Finset ℕ) :
    List (Σ _ : ℕ, Block) → Allocator → Allocator → Bool × Allocator × Allocator
  | [], s, dest => (true, { s with blocks := ∅, changes := 0 }, dest)
  | ⟨a, current⟩ :: todo, s, dest =>
    if current.version ≤ (dest.createOver stored a).versionAt ∅ a then
      (false, s, dest.createOver stored a)
    else
      moveBlocks stored todo { s with blocks := s.blocks.erase a }
        ((dest.createOver stored a).setBlock a current)

/-- The blocks that a move comes to, in its order. -/
def todo (m : Traversal) (s : Allocator) : List (Σ _ : ℕ, Block) :=
  s.blocks.entries.insertionSort fun b c ↦ m.slot b.1 ≤ m.slot c.1

/-- `move` of all the blocks there are at the start. -/
def move (m : Traversal) (s dest : Allocator) : Bool × Allocator × Allocator :=
  moveBlocks m.stored (s.todo m) s dest

/-- Every block is newer than what the destination has in memory at its address, or than the
destination itself. -/
def Movable (m : Traversal) (s dest : Allocator) : Prop :=
  ∀ b ∈ s.blocks.entries, dest.versionAt m.stored b.1 < b.2.version

instance (m : Traversal) (s dest : Allocator) : Decidable (Movable m s dest) :=
  inferInstanceAs (Decidable (∀ b ∈ s.blocks.entries, _))

/-- Only the block that is set changes. -/
theorem block_setBlock (s : Allocator) (a a' : ℕ) (b : Block) :
    (s.setBlock a b).block a' = if a' = a then some b else s.block a' := by
  rw [block, setBlock]
  split
  · next h => rw [h, AList.lookup_insert]
  · next h => rw [AList.lookup_insert_ne h, block]

/-- Setting a block leaves the version as it is. -/
@[simp] theorem version_setBlock (s : Allocator) (a : ℕ) (b : Block) :
    (s.setBlock a b).version = s.version := rfl

/-- The counter of addresses is not below the replaced address. -/
@[simp] theorem next_replace (s : Allocator) (a : ℕ) : (s.replace a).next = max a s.next := rfl

/-- Creating a block leaves the version as it is. -/
@[simp] theorem version_create (s : Allocator) (a : ℕ) : (s.create a).version = s.version := by
  unfold create
  split <;> rfl

/-- So it does over a table. -/
@[simp] theorem version_createOver (stored : Finset ℕ) (s : Allocator) (a : ℕ) :
    (s.createOver stored a).version = s.version := by
  unfold createOver
  split
  · rfl
  · exact version_create s a

private theorem block_replace (s : Allocator) (a a' : ℕ) :
    (s.replace a).block a' = if a' = a then some ⟨[], s.version⟩ else s.block a' :=
  block_setBlock s a a' _

/-- Creating leaves the blocks of other addresses. -/
theorem block_create_ne (s : Allocator) {a a' : ℕ} (h : a' ≠ a) :
    (s.create a).block a' = s.block a' := by
  unfold create
  split
  · rfl
  · exact (block_replace s a a').trans (if_neg h)

/-- What is there is kept. -/
theorem block_create (s : Allocator) (a : ℕ) :
    (s.create a).block a = some ((s.block a).getD ⟨[], s.version⟩) := by
  unfold create
  split
  · next b h =>
    rw [h]
    exact h
  · next h =>
    rw [h]
    exact (block_replace s a a).trans (if_pos rfl)

/-- Only the created block changes. -/
theorem block_createOver_ne (stored : Finset ℕ) (s : Allocator) {a a' : ℕ} (h : a' ≠ a) :
    (s.createOver stored a).block a' = s.block a' := by
  unfold createOver
  split
  · exact (block_replace s a a').trans (if_neg h)
  · exact block_create_ne s h

/-- What is in memory is kept. -/
theorem block_createOver (stored : Finset ℕ) (s : Allocator) (a : ℕ) :
    (s.createOver stored a).block a =
      some (if a ∈ stored then ⟨[], s.version⟩ else (s.block a).getD ⟨[], s.version⟩) := by
  unfold createOver
  split
  · exact (block_replace s a a).trans (if_pos rfl)
  · exact block_create s a

private theorem versionAt_empty (s : Allocator) (a : ℕ) :
    s.versionAt ∅ a = ((s.block a).map Block.version).getD s.version :=
  if_neg (Finset.notMem_empty a)

private theorem versionAt_createOver (stored : Finset ℕ) (s : Allocator) (a : ℕ) :
    (s.createOver stored a).versionAt ∅ a = s.versionAt stored a := by
  rw [versionAt_empty, block_createOver, versionAt]
  split
  · rfl
  · cases s.block a <;> rfl

/-- What a block becomes at the destination leaves the versions at other addresses. -/
theorem versionAt_moved (stored : Finset ℕ) (s : Allocator) {a a' : ℕ} (b : Block) (h : a' ≠ a) :
    ((s.createOver stored a).setBlock a b).versionAt stored a' = s.versionAt stored a' := by
  rw [versionAt, block_setBlock, if_neg h, version_setBlock, version_createOver,
    block_createOver_ne stored s h, versionAt]

@[simp] private theorem version_moveBlocks (stored : Finset ℕ) (todo : List (Σ _ : ℕ, Block))
    (s dest : Allocator) :
    (moveBlocks stored todo s dest).2.1.version = s.version ∧
      (moveBlocks stored todo s dest).2.2.version = dest.version := by
  induction todo generalizing s dest with
  | nil => exact ⟨rfl, rfl⟩
  | cons b todo ih =>
    rw [moveBlocks]
    split
    · exact ⟨rfl, version_createOver stored dest _⟩
    · have h := ih { s with blocks := s.blocks.erase b.1 }
        ((dest.createOver stored b.1).setBlock b.1 b.2)
      rw [version_setBlock, version_createOver] at h
      exact h

/-- A move leaves both versions as they are. -/
@[simp] theorem version_move (m : Traversal) (s dest : Allocator) :
    (s.move m dest).2.1.version = s.version ∧ (s.move m dest).2.2.version = dest.version :=
  version_moveBlocks _ _ s dest

/-- A move leaves the counter of addresses as it is. -/
theorem next_move (m : Traversal) (s dest : Allocator) : (s.move m dest).2.1.next = s.next := by
  have hblocks (todo : List (Σ _ : ℕ, Block)) (s dest : Allocator) :
      (moveBlocks m.stored todo s dest).2.1.next = s.next := by
    induction todo generalizing s dest with
    | nil => rfl
    | cons b todo ih =>
      rw [moveBlocks]
      split
      · rfl
      · exact ih _ _
  exact hblocks _ s dest

/-! ### The order of a move -/

/-- A traversal visits every block of the allocator once. -/
theorem perm_todo (m : Traversal) (s : Allocator) : (s.todo m).Perm s.blocks.entries :=
  List.perm_insertionSort _ _

private theorem nodupKeys_todo (m : Traversal) (s : Allocator) : (s.todo m).NodupKeys :=
  (List.perm_nodupKeys (s.perm_todo m)).mpr s.blocks.nodupKeys

private theorem dlookup_todo (m : Traversal) (s : Allocator) (a : ℕ) :
    (s.todo m).dlookup a = s.block a :=
  List.perm_dlookup a (s.nodupKeys_todo m) (s.perm_todo m)

/-! ### What a move leaves -/

/-- Seen through the source first, a move changes no block, whether it ends or not. -/
theorem or_block_moveBlocks (stored : Finset ℕ) (todo : List (Σ _ : ℕ, Block)) (s dest : Allocator)
    (hnodup : todo.NodupKeys) (htodo : ∀ a, s.block a = todo.dlookup a) (a : ℕ) :
    ((moveBlocks stored todo s dest).2.1.block a).or
        ((moveBlocks stored todo s dest).2.2.block a) = (s.block a).or (dest.block a) := by
  induction todo generalizing s dest with
  | nil =>
    have hs : s.block a = none := htodo a
    rw [hs]
    rfl
  | cons b todo ih =>
    obtain ⟨at', current⟩ := b
    have hcurrent : s.block at' = some current := (htodo at').trans (List.dlookup_cons_eq ..)
    rw [moveBlocks]
    split
    · by_cases ha : a = at'
      · rw [ha, hcurrent]
        rfl
      · rw [block_createOver_ne stored dest ha]
    · have hrest : ∀ a, ({ s with blocks := s.blocks.erase at' } : Allocator).block a =
          todo.dlookup a := by
        intro a
        by_cases ha : a = at'
        · subst ha
          have hnot := List.notMem_keys_of_nodupKeys_cons hnodup
          rw [List.dlookup_eq_none.mpr hnot]
          exact AList.lookup_erase ..
        · exact (AList.lookup_erase_ne ha).trans ((htodo a).trans (List.dlookup_cons_ne _ _ ha))
      rw [ih _ _ (List.nodupKeys_of_nodupKeys_cons hnodup) hrest]
      by_cases ha : a = at'
      · subst ha
        have hnone : ({ s with blocks := s.blocks.erase a } : Allocator).block a = none :=
          AList.lookup_erase ..
        rw [hnone, hcurrent, block_setBlock, if_pos rfl]
        rfl
      · have hsame : ({ s with blocks := s.blocks.erase at' } : Allocator).block a = s.block a :=
          AList.lookup_erase_ne ha
        rw [hsame, block_setBlock, if_neg ha, block_createOver_ne stored dest ha]

/-- Seen through the source first, a move changes no block. -/
theorem or_block_move (m : Traversal) (s dest : Allocator) (a : ℕ) :
    ((s.move m dest).2.1.block a).or ((s.move m dest).2.2.block a) =
      (s.block a).or (dest.block a) :=
  or_block_moveBlocks _ _ s dest (s.nodupKeys_todo m) (fun a ↦ (s.dlookup_todo m a).symm) a

/-- A move that comes to its end leaves nothing at the source. -/
theorem blocks_moveBlocks (stored : Finset ℕ) (todo : List (Σ _ : ℕ, Block)) (s dest : Allocator)
    (h : (moveBlocks stored todo s dest).1 = true) :
    (moveBlocks stored todo s dest).2.1.blocks = ∅ := by
  induction todo generalizing s dest with
  | nil => rfl
  | cons b todo ih =>
    rw [moveBlocks] at h ⊢
    split at h
    · cases h
    · next hnewer =>
      rw [if_neg hnewer]
      exact ih _ _ h

/-- Newer blocks all get to the destination. -/
theorem moveBlocks_of_newer (stored : Finset ℕ) (todo : List (Σ _ : ℕ, Block))
    (s dest : Allocator) (hnodup : todo.NodupKeys)
    (h : ∀ b ∈ todo, dest.versionAt stored b.1 < b.2.version) :
    (moveBlocks stored todo s dest).1 = true := by
  induction todo generalizing s dest with
  | nil => rfl
  | cons b todo ih =>
    have hb : ¬b.2.version ≤ (dest.createOver stored b.1).versionAt ∅ b.1 := by
      rw [versionAt_createOver]
      exact Nat.not_le.mpr (h b List.mem_cons_self)
    rw [moveBlocks, if_neg hb]
    apply ih _ _ (List.nodupKeys_of_nodupKeys_cons hnodup)
    intro c hc
    have hne : c.1 ≠ b.1 := by
      intro he
      have hnot := List.notMem_keys_of_nodupKeys_cons hnodup
      exact hnot (he ▸ List.mem_keys_of_mem hc)
    rw [versionAt_moved _ _ _ hne]
    exact h c (List.mem_cons_of_mem _ hc)

/-- Only newer blocks do. -/
theorem newer_of_moveBlocks (stored : Finset ℕ) (todo : List (Σ _ : ℕ, Block))
    (s dest : Allocator) (hnodup : todo.NodupKeys)
    (h : (moveBlocks stored todo s dest).1 = true) :
    ∀ b ∈ todo, dest.versionAt stored b.1 < b.2.version := by
  induction todo generalizing s dest with
  | nil => exact nofun
  | cons b todo ih =>
    rw [moveBlocks] at h
    split at h
    · cases h
    next hnewer =>
    rw [versionAt_createOver, Nat.not_le] at hnewer
    intro c hc
    rcases List.mem_cons.mp hc with rfl | hc
    · exact hnewer
    · have hne : c.1 ≠ b.1 := fun he ↦
        List.notMem_keys_of_nodupKeys_cons hnodup (he ▸ List.mem_keys_of_mem hc)
      have hlt := ih _ _ (List.nodupKeys_of_nodupKeys_cons hnodup) h c hc
      rwa [versionAt_moved _ _ _ hne] at hlt

/-- A move ends if and only if every block is newer than the one it replaces. -/
theorem move_iff_movable (m : Traversal) (s dest : Allocator) :
    (s.move m dest).1 = true ↔ Movable m s dest := by
  constructor
  · intro h b hb
    exact newer_of_moveBlocks _ _ s dest (s.nodupKeys_todo m) h b ((s.perm_todo m).mem_iff.mpr hb)
  · intro h
    exact moveBlocks_of_newer _ _ s dest (s.nodupKeys_todo m)
      fun b hb ↦ h b ((s.perm_todo m).mem_iff.mp hb)

/-- A movable source is moved. -/
theorem Movable.move {m : Traversal} {s dest : Allocator} (h : Movable m s dest) :
    (s.move m dest).1 = true ∧ (s.move m dest).2.1.blocks = ∅ := by
  have hmove := (move_iff_movable m s dest).mpr h
  exact ⟨hmove, blocks_moveBlocks _ _ s dest hmove⟩

/-! ### A move that breaks off -/

/-- The source never gets a block. -/
theorem block_moveBlocks_of_none (stored : Finset ℕ) (todo : List (Σ _ : ℕ, Block))
    (s dest : Allocator) {a : ℕ} (h : s.block a = none) :
    (moveBlocks stored todo s dest).2.1.block a = none := by
  induction todo generalizing s dest with
  | nil => rfl
  | cons b todo ih =>
    rw [moveBlocks]
    split
    · exact h
    · apply ih
      by_cases ha : a = b.1
      · rw [ha]
        exact AList.lookup_erase ..
      · exact (AList.lookup_erase_ne ha).trans h

end Allocator

end LibSpaces.Transactions
