import Mathlib.Logic.Function.Basic
import LibSpaces.Stx.Node

/-!
# The state of a B+ tree over its storage

`src/src/stx/btree.h:600–700,2300–2480,2619–2665,4180–4291,4450–4530,4720–4900`. A node that is
loaded and not changed equals its stored page, so only changed nodes are kept in `nodesLoaded`
and a read leaves the state as it is. `change_before` and the write after it are one `put`; it
registers the page whatever the state of the node is, which is what the source does with a node
that no flush has saved. No page is evicted, the transaction is a writing one. `change_before` reads
each node before it is written to, so that one `put` stands for both. The statistics of the nodes
are left out.
-/

namespace LibSpaces.Stx

/-- What the transaction of a tree sees of the storage: the pages, the boot blocks and the last
address given out. -/
structure Storage (K V : Type) where
  pages : ℕ → Option (Node K V)
  boot : ℕ → Option ℕ
  lastAddress : ℕ

/-- `tree_stats`, `btree.h:4180–4250`. -/
structure Stats where
  treeSize : ℕ
  changes : ℕ
  startRoot : ℕ
  startTreeSize : ℕ
  startHead : ℕ
  startLast : ℕ
  deriving DecidableEq

/-- What `change` knows of the last leaf: the nodes that are `created` or `changed`, whether
`last_surface` has its node, and `last_surface_size`. -/
structure Noted where
  changed : List ℕ
  lastLoaded : Bool
  size : ℕ
  deriving DecidableEq

/-- `btree`. -/
structure Btree (K V : Type) where
  storage : Storage K V
  nodesLoaded : ℕ → Option (Node K V)
  modified : List ℕ
  root : ℕ
  headsurface : ℕ
  lastSurface : ℕ
  stats : Stats
  noted : Noted

/-- `tree_stats()`. -/
def Stats.empty : Stats := ⟨0, 0, 0, 0, 0, 0⟩

/-- Nothing is changed; a `last_surface` that is null has nothing to load. -/
def Noted.empty : Noted := ⟨[], true, 0⟩

namespace Btree

variable {K V : Type} (s : Btree K V)

/-- `btree(storage)` before `initialize_contexts`, `btree.h:4298–4310`. -/
def blank (storage : Storage K V) : Btree K V :=
  ⟨storage, fun _ ↦ none, [], 0, 0, 0, Stats.empty, Noted.empty⟩

/-- `load`, `btree.h:2619–2663`: a loaded node goes before the stored page, a page that is not
there throws. -/
def load (w : ℕ) : Option (Node K V) := s.nodesLoaded w <|> s.storage.pages w

/-- The surface node at an address. -/
def surfaceAt (w : ℕ) : Option (Surface K V) :=
  match s.load w with
  | some (.surface n) => some n
  | _ => none

/-- The interior node at an address. -/
def interiorAt (w : ℕ) : Option (Interior K) :=
  match s.load w with
  | some (.interior n) => some n
  | _ => none

/-- `change_before` of a node: unless it is `created` or `changed` it is `changed` now, and `change`
notes the size that the last leaf has so far when it is that leaf, `btree.h:671–686,2351–2354`. The
first look at the node of `last_surface` loads it, which makes its state `loaded` again
(2622–2627). -/
def noteChange (w : ℕ) : Noted :=
  if w ∈ s.noted.changed then s.noted
  else if w = s.lastSurface then
    ⟨if s.noted.lastLoaded then w :: s.noted.changed else s.noted.changed, true,
      ((s.surfaceAt w).map fun n ↦ n.kvs.length).getD s.noted.size⟩
  else { s.noted with changed := w :: s.noted.changed }

/-- A write to a node after `change_before`, `btree.h:671–686,2344–2362`. -/
def put (w : ℕ) (n : Node K V) : Btree K V :=
  { s with
    nodesLoaded := Function.update s.nodesLoaded w (some n)
    modified := s.modified.insert w
    noted := s.noteChange w }

/-- `change_before` alone: the node is registered as it is. -/
def change (w : ℕ) : Option (Btree K V) := (s.load w).map (s.put w)

/-- `allocate_surface` and `allocate_interior` with `create`, `btree.h:652–667,4735–4780`. -/
def allocate (n : Node K V) : ℕ × Btree K V :=
  let w := s.storage.lastAddress + 1
  (w, { s with storage := { s.storage with lastAddress := w } }.put w n)

/-- `set_next_preceding`: the node at `w` gets another predecessor. -/
def setPreceding (w preceding : ℕ) : Option (Btree K V) := do
  let n ← s.surfaceAt w
  return s.put w (.surface { n with preceding := preceding })

/-! ### What a step keeps -/

/-- The registered pages are the ones held in memory. -/
def Tracked : Prop := ∀ w, (s.nodesLoaded w).isSome ↔ w ∈ s.modified

/-- What every step inside an insertion or a removal keeps, wherever it writes. -/
structure Extends (s s' : Btree K V) : Prop where
  pages : s'.storage.pages = s.storage.pages
  boot : s'.storage.boot = s.storage.boot
  lastAddress : s.storage.lastAddress ≤ s'.storage.lastAddress
  root : s'.root = s.root
  headsurface : s'.headsurface = s.headsurface
  stats : s'.stats = s.stats
  tracked : s.Tracked → s'.Tracked
  modified : s.modified ⊆ s'.modified
  loads : ∀ w, (s.load w).isSome → (s'.load w).isSome

variable {s} {s₁ s₂ : Btree K V}

/-- A step that does nothing. -/
theorem Extends.refl (s : Btree K V) : Extends s s :=
  ⟨rfl, rfl, le_rfl, rfl, rfl, rfl, id, List.Subset.refl _, fun _ ↦ id⟩

/-- One step after another. -/
theorem Extends.trans (h : Extends s s₁) (h' : Extends s₁ s₂) : Extends s s₂ where
  pages := h'.pages.trans h.pages
  boot := h'.boot.trans h.boot
  lastAddress := h.lastAddress.trans h'.lastAddress
  root := h'.root.trans h.root
  headsurface := h'.headsurface.trans h.headsurface
  stats := h'.stats.trans h.stats
  tracked := h'.tracked ∘ h.tracked
  modified := fun _ hx ↦ h'.modified (h.modified hx)
  loads := fun w hw ↦ h'.loads w (h.loads w hw)

/-- Only the page that is written is loaded differently. -/
theorem load_put (w w' : ℕ) (n : Node K V) :
    (s.put w n).load w' = if w' = w then some n else s.load w' := by
  simp only [load, put, Function.update_apply]
  split <;> rfl

/-- The page that is written is loaded as it was written. -/
@[simp] theorem load_put_self (w : ℕ) (n : Node K V) : (s.put w n).load w = some n := by
  rw [load_put, if_pos rfl]

/-- The other pages are loaded as before. -/
theorem load_put_ne {w w' : ℕ} (n : Node K V) (h : w' ≠ w) :
    (s.put w n).load w' = s.load w' := by
  rw [load_put, if_neg h]

private theorem isSome_load_put (w : ℕ) (n : Node K V) (w' : ℕ) (h : (s.load w').isSome) :
    ((s.put w n).load w').isSome := by
  rw [load_put]
  split
  · rfl
  · exact h

private theorem Tracked.put (h : s.Tracked) (w : ℕ) (n : Node K V) : (s.put w n).Tracked := by
  intro w'
  simp only [Btree.put, List.mem_insert_iff, Function.update_apply, ← h w']
  split
  next heq => exact ⟨fun _ ↦ .inl heq, fun _ ↦ rfl⟩
  next hne => exact ⟨.inr, fun hor ↦ hor.resolve_left hne⟩

/-- Writing a page keeps what the tree knows. -/
theorem extends_put (w : ℕ) (n : Node K V) : Extends s (s.put w n) where
  pages := rfl
  boot := rfl
  lastAddress := le_rfl
  root := rfl
  headsurface := rfl
  stats := rfl
  tracked := fun h ↦ h.put w n
  modified := fun _ hx ↦ List.mem_insert_iff.2 (.inr hx)
  loads := isSome_load_put w n

/-- A page that is written is modified. -/
theorem modified_put_ne_nil (w : ℕ) (n : Node K V) : (s.put w n).modified ≠ [] :=
  List.ne_nil_of_mem (List.mem_insert_self)

/-- Modified pages stay modified. -/
theorem Extends.dirty (h : Extends s s₁) (hd : s.modified ≠ []) : s₁.modified ≠ [] := by
  obtain ⟨w, hw⟩ := List.exists_mem_of_ne_nil _ hd
  exact List.ne_nil_of_mem (h.modified hw)

/-- Allocating a page keeps what the tree knows. -/
theorem extends_allocate (n : Node K V) : Extends s (s.allocate n).2 where
  pages := rfl
  boot := rfl
  lastAddress := Nat.le_succ _
  root := rfl
  headsurface := rfl
  stats := rfl
  tracked := fun h ↦
    Tracked.put (s := { s with storage := { s.storage with lastAddress := _ } }) h _ n
  modified := fun _ hx ↦ List.mem_insert_iff.2 (.inr hx)
  loads := isSome_load_put (s := { s with storage := { s.storage with lastAddress := _ } }) _ n

/-- So does remembering another last leaf. -/
theorem extends_lastSurface (w : ℕ) : Extends s { s with lastSurface := w } :=
  ⟨rfl, rfl, le_rfl, rfl, rfl, rfl, id, List.Subset.refl _, fun _ ↦ id⟩

/-- The allocated page is the one behind the last address. -/
theorem load_allocate (n : Node K V) (w : ℕ) :
    (s.allocate n).2.load w = if w = s.storage.lastAddress + 1 then some n else s.load w :=
  load_put _ _ _

/-- The pages up to the last address are loaded as before. -/
theorem load_allocate_of_le {n : Node K V} {w : ℕ} (h : w ≤ s.storage.lastAddress) :
    (s.allocate n).2.load w = s.load w := by
  rw [load_allocate, if_neg (Nat.lt_succ_of_le h).ne]

/-- A change of a loaded page registers it. -/
theorem change_eq {w : ℕ} {n : Node K V} (h : s.load w = some n) :
    s.change w = some (s.put w n) := by
  rw [change, h, Option.map_some]

/-- Registering a page changes no node. -/
theorem load_put_same {w : ℕ} {n : Node K V} (h : s.load w = some n) (w' : ℕ) :
    (s.put w n).load w' = s.load w' := by
  rw [load_put]
  split
  next heq => rw [heq, h]
  next => rfl

/-- A leaf that is loaded. -/
theorem surfaceAt_eq {w : ℕ} {n : Surface K V} (h : s.load w = some (.surface n)) :
    s.surfaceAt w = some n := by
  rw [surfaceAt, h]

/-- An interior node that is loaded. -/
theorem interiorAt_eq {w : ℕ} {n : Interior K} (h : s.load w = some (.interior n)) :
    s.interiorAt w = some n := by
  rw [interiorAt, h]

/-- The link back of a leaf is written to its page. -/
theorem setPreceding_eq {w p : ℕ} {n : Surface K V} (h : s.load w = some (.surface n)) :
    s.setPreceding w p = some (s.put w (.surface { n with preceding := p })) := by
  rw [setPreceding, surfaceAt_eq h, Option.bind_eq_bind, Option.bind_some, Option.pure_def]

end Btree

end LibSpaces.Stx
