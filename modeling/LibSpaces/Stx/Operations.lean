import LibSpaces.Stx.Tree

/-!
# Insertion, removal and search in a B+ tree

`src/src/stx/btree.h:4900–4920,5195–5353,5545–5862,5930–6300,6610–6977`. The recursive functions
take a bound on their depth; the level of the root is enough. `childid` of a slot that is not
there is `NULL_REF`.
-/

namespace LibSpaces.Stx

/-- `level` of a node. -/
def Node.level {K V : Type} : Node K V → ℕ
  | .surface _ => 0
  | .interior n => n.level

/-- An iterator: the address of a leaf and a slot in it. -/
abbrev Iterator := ℕ × ℕ

/-- What an insertion below a node returns: the iterator, whether the key is new, and the key
and the address of the sibling when the node was split. -/
structure Inserted (K : Type) where
  iterator : Iterator
  inserted : Bool
  split : Option (K × ℕ)

/-- `result_t`, `btree.h:5880–5925`. `lastkey` is set when `btree_update_lastkey` is. -/
structure Result (K : Type) where
  notFound : Bool
  lastkey : Option K
  fixmerge : Bool

/-- `btree_ok`. -/
def Result.ok {K : Type} : Result K := ⟨false, none, false⟩

/-- `btree_fixmerge` is added. -/
def Result.withFixmerge {K : Type} (r : Result K) : Result K := { r with fixmerge := true }

/-- The neighbours of a node during a removal, as `erase_one_descend` gets them. -/
structure Place where
  left : ℕ
  right : ℕ
  leftparent : ℕ
  rightparent : ℕ
  parent : ℕ
  parentslot : ℕ

/-- How an underflow is resolved. -/
inductive Balance
  | mergeLeft | mergeRight | shiftLeft | shiftRight
  deriving DecidableEq

namespace Btree

variable {K V : Type} [LinearOrder K] [Inhabited K] (tr : Traits) (s : Btree K V)

/-! ### Insertion -/

/-- `split_surface_node`, `btree.h:5768–5813`. -/
def splitSurfaceNode (w : ℕ) : Option (Btree K V × K × ℕ) := do
  let surface ← s.surfaceAt w
  let s ← s.change w
  let mid := surface.kvs.length / 2
  let (newsurface, s) := s.allocate (.surface ⟨surface.kvs.drop mid, surface.next, w⟩)
  let s ← if surface.next = 0 then some { s with lastSurface := newsurface }
    else s.setPreceding surface.next newsurface
  let kvs := surface.kvs.take mid
  let s := s.put w (.surface { surface with kvs := kvs, next := newsurface })
  return (s, lastKey kvs, newsurface)

/-- `split_interior_node`, `btree.h:5819–5862`. -/
def splitInteriorNode (w : ℕ) (addslot : ℕ) : Option (Btree K V × K × ℕ) := do
  let interior ← s.interiorAt w
  let occupants := interior.keys.length
  let mid := occupants / 2
  let mid := if addslot ≤ mid ∧ mid > occupants - (mid + 1) then mid - 1 else mid
  let (newinterior, s) := s.allocate (.interior
    ⟨interior.level, interior.keys.drop (mid + 1), interior.childid.drop (mid + 1)⟩)
  let s := s.put w (.interior
    { interior with keys := interior.keys.take mid, childid := interior.childid.take (mid + 1) })
  return (s, getKey interior.keys mid, newinterior)

/-- A child is put behind the one at `slot`, `btree.h:5684–5699`. -/
def putChild (w : ℕ) (slot : ℕ) (newkey : K) (newchild : ℕ) : Option (Btree K V) := do
  let interior ← s.interiorAt w
  return s.put w (.interior { interior with
    keys := interior.keys.insertIdx slot newkey
    childid := interior.childid.insertIdx (slot + 1) newchild })

/-- What `insert_descend` does to an interior node whose child was split,
`btree.h:5623–5701`. -/
def insertChild (w : ℕ) (slot : ℕ) (newkey : K) (newchild : ℕ) :
    Option (Btree K V × Option (K × ℕ)) := do
  let interior ← s.interiorAt w
  if interior.keys.length = tr.interiorslots then
    let (s, splitkey, splitnode) ← s.splitInteriorNode w slot
    let interior ← s.interiorAt w
    let splitinterior ← s.interiorAt splitnode
    let occupants := interior.keys.length
    if slot = occupants + 1 ∧ occupants < splitinterior.keys.length then
      -- the new child is the first one of the sibling, its key becomes the split key
      let s := s.put w (.interior { interior with
        keys := interior.keys ++ [splitkey]
        childid := interior.childid ++ [splitinterior.childid.getD 0 0] })
      let s := s.put splitnode (.interior
        { splitinterior with childid := splitinterior.childid.set 0 newchild })
      return (s, some (newkey, splitnode))
    else if slot ≥ occupants + 1 then
      let s ← s.putChild splitnode (slot - (occupants + 1)) newkey newchild
      return (s, some (splitkey, splitnode))
    else
      let s ← s.putChild w slot newkey newchild
      return (s, some (splitkey, splitnode))
  else
    let s ← s.putChild w slot newkey newchild
    return (s, none)

/-- What `insert_descend` does to a surface node, `btree.h:5709–5759`. -/
def insertSurface (w : ℕ) (surface : Surface K V) (key : K) (value : V) :
    Option (Btree K V × Inserted K) := do
  let slot := findLower (surface.kvs.map Prod.fst) key
  if slot < surface.kvs.length ∧ key = getKey (surface.kvs.map Prod.fst) slot then
    let s ← s.change w
    return (s, ⟨(w, slot), false, none⟩)
  else if surface.kvs.length = tr.surfaces then
    let (s, splitkey, splitnode) ← s.splitSurfaceNode w
    let surface ← s.surfaceAt w
    if slot ≥ surface.kvs.length then
      let slot := slot - surface.kvs.length
      let surface ← s.surfaceAt splitnode
      let s := s.put splitnode
        (.surface { surface with kvs := surface.kvs.insertIdx slot (key, value) })
      return (s, ⟨(splitnode, slot), true, some (splitkey, splitnode)⟩)
    else
      let kvs := surface.kvs.insertIdx slot (key, value)
      let s := s.put w (.surface { surface with kvs := kvs })
      -- the last key of the old node may be the inserted one
      let splitkey := if slot = kvs.length - 1 then key else splitkey
      return (s, ⟨(w, slot), true, some (splitkey, splitnode)⟩)
  else
    let s := s.put w (.surface { surface with kvs := surface.kvs.insertIdx slot (key, value) })
    return (s, ⟨(w, slot), true, none⟩)

/-- `insert_descend`, `btree.h:5604–5762`. -/
def insertDescend : ℕ → Btree K V → ℕ → K → V → Option (Btree K V × Inserted K)
  | 0, _, _, _, _ => none
  | fuel + 1, s, w, key, value => do
    match ← s.load w with
    | .interior interior =>
      let slot := findLower interior.keys key
      let (s, r) ← insertDescend fuel s (interior.childid.getD slot 0) key value
      match r.split with
      | none => return (s, r)
      | some (newkey, newchild) =>
        let s ← s.change newchild
        let (s, split) ← s.insertChild tr w slot newkey newchild
        return (s, { r with split := split })
    | .surface surface => s.insertSurface tr w surface key value

/-- The bound on a descent from the root. -/
def depth : ℕ :=
  match s.load s.root with
  | some n => n.level + 1
  | none => 1

/-- The empty tree gets a leaf, `btree.h:5556–5562`. -/
def ensureRoot : Btree K V :=
  if s.root = 0 then
    let (w, s) := s.allocate (.surface ⟨[], 0, 0⟩)
    { s with lastSurface := w, headsurface := w, root := w }
  else s

/-- The root was split, `btree.h:5566–5579`. -/
def growRoot (newkey : K) (newchild : ℕ) : Option (Btree K V) := do
  let root ← s.load s.root
  let (newroot, s) := s.allocate (.interior ⟨root.level + 1, [newkey], [s.root, newchild]⟩)
  let s ← s.change s.root
  return { s with root := newroot }

/-- `insert_start`, `btree.h:5549–5595`. -/
def insertStart (key : K) (value : V) : Option (Btree K V × Iterator × Bool) := do
  let s := s.ensureRoot
  let (s, r) ← insertDescend tr s.depth s s.root key value
  let s ← match r.split with
    | none => some s
    | some (newkey, newchild) => s.growRoot newkey newchild
  let s := if r.inserted then
    { s with stats := { s.stats with treeSize := s.stats.treeSize + 1 } } else s
  return (s, r.iterator, r.inserted)

/-- The data of the pair an iterator refers to is written, without `change_before`. -/
def write (i : Iterator) (value : V) : Option (Btree K V) := do
  let surface ← s.surfaceAt i.1
  let p ← surface.kvs[i.2]?
  let kvs := surface.kvs.set i.2 (p.1, value)
  return { s with
    nodesLoaded := Function.update s.nodesLoaded i.1 (some (.surface { surface with kvs := kvs })) }

/-- `operator[]`, `src/src/stx/btree_map.h:538–546`. -/
def subscript [Inhabited V] (key : K) : Option (Btree K V × Iterator) := do
  let (s, i, _) ← s.insertStart tr key default
  return (s, i)

/-- A write to what `operator[]` returns. -/
def assign [Inhabited V] (key : K) (value : V) : Option (Btree K V) := do
  let (s, i) ← s.subscript tr key
  s.write i value

/-! ### Removal -/

/-- `merge_leaves`, `btree.h:6617–6652`. -/
def mergeLeaves (left right : ℕ) : Option (Btree K V) := do
  let l ← s.surfaceAt left
  let r ← s.surfaceAt right
  let s := s.put left (.surface { l with kvs := l.kvs ++ r.kvs, next := r.next })
  let s := s.put right (.surface { r with kvs := [] })
  if r.next = 0 then return { s with lastSurface := left } else s.setPreceding r.next left

/-- `merge_interior`, `btree.h:6657–6706`. -/
def mergeInterior (left right parent : ℕ) (parentslot : ℕ) : Option (Btree K V) := do
  let l ← s.interiorAt left
  let r ← s.interiorAt right
  let p ← s.interiorAt parent
  let s := s.put left (.interior { l with
    keys := l.keys ++ getKey p.keys parentslot :: r.keys
    childid := l.childid ++ r.childid })
  return s.put right (.interior { r with keys := [] })

/-- `shift_left_surface`, `btree.h:6711–6765`; the key is returned when the parent has none for
the left node. -/
def shiftLeftSurface (left right parent : ℕ) (parentslot : ℕ) :
    Option (Btree K V × Option K) := do
  let l ← s.surfaceAt left
  let r ← s.surfaceAt right
  let p ← s.interiorAt parent
  let shiftnum := (r.kvs.length - l.kvs.length) / 2
  let kvs := l.kvs ++ r.kvs.take shiftnum
  let s := s.put left (.surface { l with kvs := kvs })
  let s := s.put right (.surface { r with kvs := r.kvs.drop shiftnum })
  let s := s.put parent (.interior { p with keys := p.keys.set parentslot (lastKey kvs) })
  return (s, if parentslot < p.keys.length then none else some (lastKey kvs))

/-- `shift_left_interior`, `btree.h:6770–6830`. -/
def shiftLeftInterior (left right parent : ℕ) (parentslot : ℕ) : Option (Btree K V) := do
  let l ← s.interiorAt left
  let r ← s.interiorAt right
  let p ← s.interiorAt parent
  let shiftnum := (r.keys.length - l.keys.length) / 2
  let s := s.put left (.interior { l with
    keys := l.keys ++ getKey p.keys parentslot :: r.keys.take (shiftnum - 1)
    childid := l.childid ++ r.childid.take shiftnum })
  let s := s.put right (.interior
    { r with keys := r.keys.drop shiftnum, childid := r.childid.drop shiftnum })
  return s.put parent (.interior
    { p with keys := p.keys.set parentslot (getKey r.keys (shiftnum - 1)) })

/-- `shift_right_surface`, `btree.h:6835–6900`. -/
def shiftRightSurface (left right parent : ℕ) (parentslot : ℕ) : Option (Btree K V) := do
  let l ← s.surfaceAt left
  let r ← s.surfaceAt right
  let p ← s.interiorAt parent
  let kept := l.kvs.length - (l.kvs.length - r.kvs.length) / 2
  let kvs := l.kvs.take kept
  let s := s.put right (.surface { r with kvs := l.kvs.drop kept ++ r.kvs })
  let s := s.put left (.surface { l with kvs := kvs })
  return s.put parent (.interior { p with keys := p.keys.set parentslot (lastKey kvs) })

/-- `shift_right_interior`, `btree.h:6905–6977`. -/
def shiftRightInterior (left right parent : ℕ) (parentslot : ℕ) : Option (Btree K V) := do
  let l ← s.interiorAt left
  let r ← s.interiorAt right
  let p ← s.interiorAt parent
  let kept := l.keys.length - (l.keys.length - r.keys.length) / 2
  let s := s.put right (.interior { r with
    keys := l.keys.drop (kept + 1) ++ getKey p.keys parentslot :: r.keys
    childid := l.childid.drop (kept + 1) ++ r.childid })
  let s := s.put left (.interior
    { l with keys := l.keys.take kept, childid := l.childid.take (kept + 1) })
  return s.put parent (.interior
    { p with keys := p.keys.set parentslot (getKey l.keys kept) })

/-- The occupants of a neighbour, if there is one. -/
def neighbour (w : ℕ) : Option (Option ℕ) :=
  if w = 0 then some none else (s.load w).map fun n ↦ some n.occupants

/-- Which node resolves an underflow, `btree.h:6095–6135` and `:6244–6292`. `least` is the
minimum of occupants: a node with no more than that is `isfew`. -/
def chooseBalance (least : ℕ) (place : Place) (left right : Option ℕ) : Balance :=
  let few (n : Option ℕ) : Bool := n.all (· ≤ least)
  if few left ∧ few right then
    if place.leftparent = place.parent then .mergeLeft else .mergeRight
  else if left.isSome ∧ few left ∧ ¬ few right then
    if place.rightparent = place.parent then .shiftLeft else .mergeLeft
  else if ¬ few left ∧ right.isSome ∧ few right then
    if place.leftparent = place.parent then .shiftRight else .mergeRight
  else if place.leftparent = place.rightparent then
    if left.getD 0 ≤ right.getD 0 then .shiftLeft else .shiftRight
  else if place.leftparent = place.parent then .shiftRight
  else .shiftLeft

/-- The underflow of a surface node, `btree.h:6068–6137`. -/
def balanceSurface (w : ℕ) (place : Place) (myres : Result K) :
    Option (Btree K V × Result K) := do
  let surface ← s.surfaceAt w
  let occupants := surface.kvs.length
  if occupants < tr.minslots 0 ∧ ¬ (w = s.root ∧ occupants ≥ 1) then
    if place.left = 0 ∧ place.right = 0 then
      return ({ s with root := 0, headsurface := 0, lastSurface := 0 }, Result.ok)
    else
      let left ← s.neighbour place.left
      let right ← s.neighbour place.right
      match chooseBalance (tr.minslots 0) place left right with
      | .mergeLeft =>
        let s ← s.mergeLeaves place.left w
        return (s, myres.withFixmerge)
      | .mergeRight =>
        let s ← s.mergeLeaves w place.right
        return (s, myres.withFixmerge)
      | .shiftLeft =>
        let (s, lastkey) ← s.shiftLeftSurface w place.right place.rightparent place.parentslot
        return (s, { myres with lastkey := lastkey <|> myres.lastkey })
      | .shiftRight =>
        let s ← s.shiftRightSurface place.left w place.leftparent (place.parentslot - 1)
        return (s, myres)
  else return (s, myres)

/-- The underflow of an interior node, `btree.h:6218–6294`. -/
def balanceInterior (w : ℕ) (place : Place) (myres : Result K) :
    Option (Btree K V × Result K) := do
  let interior ← s.interiorAt w
  let occupants := interior.keys.length
  if occupants < tr.minslots 1 ∧ ¬ (w = s.root ∧ occupants ≥ 1) then
    if place.left = 0 ∧ place.right = 0 then
      -- the only child of the root becomes the root
      let s := s.put w (.interior { interior with keys := [] })
      return ({ s with root := interior.childid.getD 0 0 }, Result.ok)
    else
      let left ← s.neighbour place.left
      let right ← s.neighbour place.right
      match chooseBalance (tr.minslots 1) place left right with
      | .mergeLeft =>
        let s ← s.mergeInterior place.left w place.leftparent (place.parentslot - 1)
        return (s, myres.withFixmerge)
      | .mergeRight =>
        let s ← s.mergeInterior w place.right place.rightparent place.parentslot
        return (s, myres.withFixmerge)
      | .shiftLeft =>
        let s ← s.shiftLeftInterior w place.right place.rightparent place.parentslot
        return (s, myres)
      | .shiftRight =>
        let s ← s.shiftRightInterior place.left w place.leftparent (place.parentslot - 1)
        return (s, myres)
  else return (s, myres)

/-- The last key below a node has changed: the parent takes it, or it is handed up, if there is
one, when the parent has no key for the node, `btree.h:6041–6064` and `:6183–6197`. -/
def updateLastkey (place : Place) (lastkey : Option K) : Option (Btree K V × Result K) := do
  if place.parent ≠ 0 then
    let p ← s.interiorAt place.parent
    if place.parentslot < p.keys.length then
      let keys := p.keys.set place.parentslot (lastkey.getD default)
      return (s.put place.parent (.interior { p with keys := keys }), Result.ok)
    else return (s, ⟨false, lastkey, false⟩)
  else return (s, ⟨false, lastkey, false⟩)

/-- A child without occupants is taken out of its parent, `btree.h:6199–6216`. -/
def fixmerge (w : ℕ) (slot : ℕ) : Option (Btree K V) := do
  let interior ← s.interiorAt w
  let child ← s.load (interior.childid.getD slot 0)
  let slot := if child.occupants ≠ 0 then slot + 1 else slot
  let keys := interior.keys.eraseIdx (slot - 1)
  let childid := interior.childid.eraseIdx slot
  if interior.level = 1 then
    let child ← s.surfaceAt (childid.getD (slot - 1) 0)
    return s.put w (.interior
      { interior with keys := keys.set (slot - 1) (lastKey child.kvs), childid := childid })
  else return s.put w (.interior { interior with keys := keys, childid := childid })

/-- The neighbours of the child at `slot`, `btree.h:6150–6173`. -/
def childPlace (w : ℕ) (interior : Interior K) (slot : ℕ) (place : Place) : Option Place := do
  let left ← if slot = 0 then
      if place.left = 0 then some 0
      else do
        let l ← s.interiorAt place.left
        some (l.childid.getD (l.keys.length - 1) 0)
    else some (interior.childid.getD (slot - 1) 0)
  let right ← if slot = interior.keys.length then
      if place.right = 0 then some 0
      else do
        let r ← s.interiorAt place.right
        some (r.childid.getD 0 0)
    else some (interior.childid.getD (slot + 1) 0)
  return {
    left := left
    right := right
    leftparent := if slot = 0 then place.leftparent else w
    rightparent := if slot = interior.keys.length then place.rightparent else w
    parent := w
    parentslot := slot }

/-- `erase_one_descend` of a surface node up to the check for an underflow,
`btree.h:6020–6066`. -/
def eraseSurface (w : ℕ) (surface : Surface K V) (key : K) (place : Place) :
    Option (Btree K V × Result K) := do
  let slot := findLower (surface.kvs.map Prod.fst) key
  if slot ≥ surface.kvs.length ∨ key ≠ getKey (surface.kvs.map Prod.fst) slot then
    let s ← s.change w
    return (s, ⟨true, none, false⟩)
  else
    let kvs := surface.kvs.eraseIdx slot
    let s := s.put w (.surface { surface with kvs := kvs })
    let (s, myres) ← if slot = kvs.length then
        s.updateLastkey place (if kvs.length ≥ 1 then some (lastKey kvs) else none)
      else some (s, Result.ok)
    s.balanceSurface tr w place myres

/-- `erase_one_descend`, `btree.h:6011–6300`. -/
def eraseOneDescend : ℕ → Btree K V → K → ℕ → Place → Option (Btree K V × Result K)
  | 0, _, _, _, _ => none
  | fuel + 1, s, key, w, place => do
    match ← s.load w with
    | .surface surface => s.eraseSurface tr w surface key place
    | .interior interior =>
      let slot := findLower interior.keys key
      let below ← s.childPlace w interior slot place
      let (s, result) ← eraseOneDescend fuel s key (interior.childid.getD slot 0) below
      if result.notFound then return (s, result)
      else
        let (s, myres) ← match result.lastkey with
          | some lastkey => s.updateLastkey place (some lastkey)
          | none => some (s, Result.ok)
        let s ← if result.fixmerge then s.fixmerge w slot else some s
        s.balanceInterior tr w place myres

/-- `erase_one`, `btree.h:5930–5950`. -/
def eraseOne (key : K) : Option (Btree K V × Bool) := do
  if s.root = 0 then return (s, false)
  else
    let (s, result) ← eraseOneDescend tr s.depth s key s.root ⟨0, 0, 0, 0, 0, 0⟩
    if result.notFound then return (s, false)
    else
      return ({ s with stats := { s.stats with treeSize := s.stats.treeSize - 1 } }, true)

/-- `erase` of a key without duplicates, `btree.h:5954–5968`: the number of pairs removed. -/
def erase (key : K) : Option (Btree K V × ℕ) := do
  let (s, erased) ← s.eraseOne tr key
  return (s, if erased then 1 else 0)

/-! ### Search -/

/-- The descent of a search to a leaf. -/
def findSurface (search : List K → K → ℕ) (key : K) : ℕ → ℕ → Option (ℕ × Surface K V)
  | 0, _ => none
  | fuel + 1, w => do
    match ← s.load w with
    | .surface n => return (w, n)
    | .interior n => findSurface search key fuel (n.childid.getD (search n.keys key) 0)

/-- `end`, `btree.h:4911–4919`. -/
def endIterator : Option Iterator :=
  if s.lastSurface = 0 then some (0, 0)
  else (s.surfaceAt s.lastSurface).map fun n ↦ (s.lastSurface, n.kvs.length)

/-- `find`, `btree.h:5202–5222`. -/
def find (key : K) : Option Iterator := do
  if s.root = 0 then s.endIterator
  else
    let (w, surface) ← s.findSurface findLower key s.depth s.root
    let slot := findLower (surface.kvs.map Prod.fst) key
    if slot < surface.kvs.length ∧ key = getKey (surface.kvs.map Prod.fst) slot then
      return (w, slot)
    else s.endIterator

/-- `lower_bound` and `upper_bound` by the search in a node. -/
def bound (search : List K → K → ℕ) (key : K) : Option Iterator := do
  if s.root = 0 then s.endIterator
  else
    let (w, surface) ← s.findSurface search key s.depth s.root
    return (w, search (surface.kvs.map Prod.fst) key)

/-- `lower_bound`, `btree.h:5280–5307`. -/
def lowerBound (key : K) : Option Iterator := s.bound findLower key

/-- `upper_bound`, `btree.h:5331–5353`. -/
def upperBound (key : K) : Option Iterator := s.bound findUpper key

/-- The pair an iterator refers to. -/
def deref (i : Iterator) : Option (K × V) := do
  let surface ← s.surfaceAt i.1
  surface.kvs[i.2]?

/-- The pairs along the leaves from one on, `begin` to `end`. -/
def walk : ℕ → ℕ → Option (List (K × V))
  | 0, w => if w = 0 then some [] else none
  | fuel + 1, w =>
    if w = 0 then some []
    else do
      let surface ← s.surfaceAt w
      let rest ← walk fuel surface.next
      return surface.kvs ++ rest

/-- The pairs below a node, in order. -/
def inorder : ℕ → ℕ → Option (List (K × V))
  | 0, _ => none
  | fuel + 1, w => do
    match ← s.load w with
    | .surface n => return n.kvs
    | .interior n => return (← n.childid.mapM (inorder fuel)).flatten

/-- The pairs a tree holds. -/
def held : Option (List (K × V)) :=
  if s.root = 0 then some [] else s.inorder s.depth s.root

end Btree

end LibSpaces.Stx
