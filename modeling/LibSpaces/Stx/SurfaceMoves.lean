import LibSpaces.Base.Transition
import LibSpaces.Stx.SurfaceSlots

/-!
# Pairs moved between surface nodes

`src/src/stx/btree.h:5766–5812,6617–6656,6714–6772,6848–6909`: what the balancing of the tree does
to the slots of two neighbours. The number of occupants does not change within a loop.
-/

namespace LibSpaces.Stx

open LibSpaces.Base

namespace SurfaceNode

variable {K V : Type} (tr : Traits)

/-- One round of a loop that copies a pair into another node. -/
def copyPair (dst src : SurfaceNode K V) (dest start : ℕ) :
    Except LoadError (SurfaceNode K V × SurfaceNode K V) := do
  let (key, src) ← src.getKey tr start
  let dst ← dst.assignKey tr dest key
  let (value, src) ← src.getValue tr start
  let dst ← dst.assignValue tr dest value
  return (dst, src)

/-- A loop that copies a number of pairs into another node. -/
def copyPairs : ℕ → SurfaceNode K V → SurfaceNode K V → ℕ → ℕ →
    Except LoadError (SurfaceNode K V × SurfaceNode K V)
  | 0, dst, src, _, _ => .ok (dst, src)
  | count + 1, dst, src, dest, start => do
    let (dst, src) ← copyPair tr dst src dest start
    copyPairs count dst src (dest + 1) (start + 1)

/-- One round of a loop that moves a pair within a node. -/
def movePair (n : SurfaceNode K V) (dest start : ℕ) : Except LoadError (SurfaceNode K V) := do
  let (key, n) ← n.getKey tr start
  let n ← n.assignKey tr dest key
  let (value, n) ← n.getValue tr start
  n.assignValue tr dest value

/-- The second loop of `shift_left_surface`, `btree.h:6753–6757`, from position `i` on. -/
def moveLeft (shiftnum : ℕ) : ℕ → ℕ → SurfaceNode K V → Except LoadError (SurfaceNode K V)
  | 0, _, n => .ok n
  | count + 1, i, n => do
    let n ← n.movePair tr i (i + shiftnum)
    moveLeft shiftnum count (i + 1) n

/-- The first loop of `shift_right_surface`, `btree.h:6891–6895`, from the last position down. -/
def moveRight (shiftnum : ℕ) : ℕ → SurfaceNode K V → Except LoadError (SurfaceNode K V)
  | 0, n => .ok n
  | i + 1, n => do
    let n ← n.movePair tr (i + shiftnum) i
    moveRight shiftnum i n

/-- The loop of `split_surface_node`, `btree.h:5794–5798`. -/
def splitPairs : ℕ → SurfaceNode K V → SurfaceNode K V → ℕ → ℕ →
    Except LoadError (SurfaceNode K V × SurfaceNode K V)
  | 0, newsurface, surface, _, _ => .ok (newsurface, surface)
  | count + 1, newsurface, surface, ni, slot => do
    let (key, surface) ← surface.getKey tr slot
    let (value, surface) ← surface.getValue tr slot
    let newsurface ← newsurface.setKv tr ni key value
    splitPairs count newsurface surface (ni + 1) (slot + 1)

/-- `split_surface_node`, `btree.h:5766–5812`, into a fresh node; the key is `_newkey`. -/
def split (surface newsurface : SurfaceNode K V) :
    Except LoadError (K × SurfaceNode K V × SurfaceNode K V) := do
  let occupants ← surface.getOccupants tr
  let mid := occupants / 2
  let newsurface ← (newsurface.initialized tr).setOccupants tr (occupants - mid)
  let (newsurface, surface) ← splitPairs tr (occupants - mid) newsurface surface 0 mid
  let surface ← surface.setOccupants tr mid
  let occupants ← surface.getOccupants tr
  let (key, surface) ← surface.getKey tr (occupants - 1)
  return (key, surface, newsurface)

/-- `merge_leaves`, `btree.h:6617–6656`. -/
def mergeLeaves (left right : SurfaceNode K V) :
    Except LoadError (SurfaceNode K V × SurfaceNode K V) := do
  let r ← right.getOccupants tr
  let l ← left.getOccupants tr
  let (left, right) ← copyPairs tr r left right l 0
  let left ← left.setOccupants tr (l + r)
  let right ← right.setOccupants tr 0
  return (left, right)

/-- `shift_left_surface`, `btree.h:6714–6772`; the key goes to the parents. -/
def shiftLeft (left right : SurfaceNode K V) :
    Except LoadError (K × SurfaceNode K V × SurfaceNode K V) := do
  let r ← right.getOccupants tr
  let l ← left.getOccupants tr
  let shiftnum := (r - l) / 2
  let (left, right) ← copyPairs tr shiftnum left right l 0
  let left ← left.setOccupants tr (l + shiftnum)
  let right ← right.setOccupants tr (r - shiftnum)
  let right ← moveLeft tr shiftnum (r - shiftnum) 0 right
  let occupants ← left.getOccupants tr
  let (key, left) ← left.getKey tr (occupants - 1)
  return (key, left, right)

/-- `shift_right_surface`, `btree.h:6848–6909`; the key goes to the parent. -/
def shiftRight (left right : SurfaceNode K V) :
    Except LoadError (K × SurfaceNode K V × SurfaceNode K V) := do
  let l ← left.getOccupants tr
  let r ← right.getOccupants tr
  let shiftnum := (l - r) / 2
  let right ← moveRight tr shiftnum r right
  let right ← right.setOccupants tr (r + shiftnum)
  let (right, left) ← copyPairs tr shiftnum right left 0 (l - shiftnum)
  let left ← left.setOccupants tr (l - shiftnum)
  let occupants ← left.getOccupants tr
  let (key, left) ← left.getKey tr (occupants - 1)
  return (key, left, right)

variable {tr} {n dst src : SurfaceNode K V} {o o' : ℕ} {g g' : ℕ → Option (K × V)}
  {dest start : ℕ}

/-! ### One round -/

private theorem Holds.copyPair (hd : Holds tr dst o g) (hs : Holds tr src o' g') {kv : K × V}
    (hstart : g' start = some kv) (hdest : dest < tr.surfaces) :
    ∃ dst', SurfaceNode.copyPair tr dst src dest start = .ok (dst', src) ∧
      Holds tr dst' o (Function.update g dest (some kv)) := by
  obtain ⟨d₁, d₂, hkey, hvalue, hpair⟩ := hd.assignPair hdest kv.1 kv.2
  refine ⟨d₂, ?_, hpair⟩
  simp only [SurfaceNode.copyPair, hs.getKey hstart, hkey, hs.getValue hstart, hvalue, ok_bind]
  rfl

/-- Where the pair stays at its position the key is there already when the value is read. -/
theorem Holds.movePair (h : Holds tr n o g) {kv : K × V} (hstart : g start = some kv)
    (hdest : dest < tr.surfaces) :
    ∃ n', n.movePair tr dest start = .ok n' ∧
      Holds tr n' o (Function.update g dest (some kv)) := by
  obtain ⟨n₁, w, hn₁, h₁, hkept⟩ := h.assignKey hdest kv.1
  obtain ⟨kv', hkv', hvalue⟩ :
      ∃ kv', Function.update g dest (some (kv.1, w)) start = some kv' ∧ kv'.2 = kv.2 := by
    by_cases heq : start = dest
    · subst heq
      exact ⟨_, Function.update_self .., (hkept kv hstart).symm⟩
    · exact ⟨kv, (Function.update_of_ne heq ..).trans hstart, rfl⟩
  obtain ⟨n₂, hn₂, h₂⟩ := h₁.assignValue (Function.update_self ..) kv.2
  rw [Function.update_idem] at h₂
  refine ⟨n₂, ?_, h₂⟩
  simp only [SurfaceNode.movePair, h.getKey hstart, hn₁, h₁.getValue hkv', hvalue, hn₂, ok_bind]

/-! ### The loops -/

private theorem Holds.copyPairs (hd : Holds tr dst o g) (hs : Holds tr src o' g') {l : List (K × V)}
    (hread : Reads g' start l) (hroom : dest + l.length ≤ tr.surfaces) :
    ∃ dst', SurfaceNode.copyPairs tr l.length dst src dest start = .ok (dst', src) ∧
      Holds tr dst' o (splice g dest l) := by
  induction l generalizing dst g dest start with
  | nil => exact ⟨dst, rfl, (splice_nil g dest).symm ▸ hd⟩
  | cons x l ih =>
    rw [List.length_cons] at hroom
    obtain ⟨hhead, hrest⟩ := hread.of_cons
    have hfirst : dest < tr.surfaces := by omega
    have hbehind : dest + 1 + l.length ≤ tr.surfaces := by omega
    obtain ⟨d₁, hd₁, h₁⟩ := hd.copyPair hs hhead hfirst
    obtain ⟨d₂, hd₂, h₂⟩ := ih h₁ hrest hbehind
    rw [splice_cons] at h₂
    refine ⟨d₂, ?_, h₂⟩
    simp only [List.length_cons, SurfaceNode.copyPairs, hd₁, hd₂, ok_bind]

private theorem Holds.splitPairs (hd : Holds tr dst o g) (hs : Holds tr src o' g')
    {l : List (K × V)} (hread : Reads g' start l) (hroom : dest + l.length ≤ tr.surfaces) :
    ∃ dst', SurfaceNode.splitPairs tr l.length dst src dest start = .ok (dst', src) ∧
      Holds tr dst' o (splice g dest l) := by
  induction l generalizing dst g dest start with
  | nil => exact ⟨dst, rfl, (splice_nil g dest).symm ▸ hd⟩
  | cons x l ih =>
    rw [List.length_cons] at hroom
    obtain ⟨hhead, hrest⟩ := hread.of_cons
    have hfirst : dest < tr.surfaces := by omega
    have hbehind : dest + 1 + l.length ≤ tr.surfaces := by omega
    obtain ⟨d₁, hd₁, h₁⟩ := hd.setKv hfirst x.1 x.2
    obtain ⟨d₂, hd₂, h₂⟩ := ih h₁ hrest hbehind
    rw [splice_cons] at h₂
    refine ⟨d₂, ?_, h₂⟩
    simp only [List.length_cons, SurfaceNode.splitPairs, hs.getKey hhead, hs.getValue hhead, hd₁,
      hd₂, ok_bind]

/-- The pairs move down one after the other, none is overwritten before it has moved. -/
theorem Holds.moveLeft (h : Holds tr n o g) {shiftnum i : ℕ} {l : List (K × V)}
    (hread : Reads g (i + shiftnum) l) (hroom : i + l.length ≤ tr.surfaces) :
    ∃ n', SurfaceNode.moveLeft tr shiftnum l.length i n = .ok n' ∧
      Holds tr n' o (splice g i l) := by
  induction l generalizing n g i with
  | nil => exact ⟨n, rfl, (splice_nil g i).symm ▸ h⟩
  | cons x l ih =>
    rw [List.length_cons] at hroom
    obtain ⟨hhead, hrest⟩ := hread.of_cons
    have hfirst : i < tr.surfaces := by omega
    obtain ⟨n₁, hn₁, h₁⟩ := h.movePair hhead hfirst
    have hkept : Reads (Function.update g i (some x)) (i + 1 + shiftnum) l := by
      rw [Nat.add_right_comm]
      exact hrest.congr fun p hp _ ↦ Function.update_of_ne (by omega) ..
    obtain ⟨n₂, hn₂, h₂⟩ := ih h₁ hkept (by omega)
    rw [splice_cons] at h₂
    refine ⟨n₂, ?_, h₂⟩
    simp only [List.length_cons, SurfaceNode.moveLeft, hn₁, hn₂, ok_bind]

/-- The pairs move up, the last one first. -/
theorem Holds.moveRight (h : Holds tr n o g) {shiftnum : ℕ} {l : List (K × V)}
    (hread : Reads g 0 l) (hroom : shiftnum + l.length ≤ tr.surfaces) :
    ∃ n', SurfaceNode.moveRight tr shiftnum l.length n = .ok n' ∧
      Holds tr n' o (splice g shiftnum l) := by
  induction l using List.reverseRecOn generalizing n g with
  | nil => exact ⟨n, rfl, (splice_nil g shiftnum).symm ▸ h⟩
  | append_singleton l x ih =>
    rw [List.length_append, List.length_singleton] at hroom ⊢
    have hlast : g l.length = some x := by
      rw [hread.getElem? (by simp), List.getElem?_concat_length]
    have hrest : Reads g 0 l := by
      simpa using hread.take l.length
    have hfirst : l.length + shiftnum < tr.surfaces := by omega
    obtain ⟨n₁, hn₁, h₁⟩ := h.movePair hlast hfirst
    have hkept : Reads (Function.update g (l.length + shiftnum) (some x)) 0 l :=
      hrest.congr fun p _ hp ↦ Function.update_of_ne (by omega) ..
    obtain ⟨n₂, hn₂, h₂⟩ := ih h₁ hkept (by omega)
    rw [Nat.add_comm l.length shiftnum, splice_concat] at h₂
    refine ⟨n₂, ?_, h₂⟩
    simp only [SurfaceNode.moveRight, hn₁, hn₂, ok_bind]

/-! ### Two nodes -/

/-- The key that separates a node from the next one. -/
theorem Holds.getLastKey {l : List (K × V)} (h : Holds tr n o g) (hread : Reads g 0 l)
    (hpos : 0 < l.length) :
    ∃ kv, l.getLast? = some kv ∧ n.getKey tr (l.length - 1) = .ok (kv.1, n) := by
  have hlt : l.length - 1 < l.length := by omega
  refine ⟨l[l.length - 1], ?_, h.getKey ?_⟩
  · rw [List.getLast?_eq_getElem?, List.getElem?_eq_getElem hlt]
  · rw [hread.getElem? hlt, List.getElem?_eq_getElem hlt]

/-- The occupants are counted anew, the pairs of the positions behind are left where they are. -/
theorem Holds.stores {l : List (K × V)} (h : Holds tr n o g) (hgap : Gapless g)
    (hread : Reads g 0 l) (ho : o ≤ tr.surfaces) :
    ∃ n', n.setOccupants tr l.length = .ok n' ∧ Holds tr n' l.length g ∧ n'.Stores tr l := by
  obtain ⟨n', hn', h'⟩ := h.setOccupants ho l.length
  exact ⟨n', hn', h', g, h', hgap, hread⟩

namespace Stores

variable {left right : SurfaceNode K V} {l r : List (K × V)}

/-- The second half of the pairs goes to the new node. -/
theorem split (h : n.Stores tr l) (hlen : 1 < l.length) (newsurface : SurfaceNode K V) :
    ∃ kv n₁ n₂, SurfaceNode.split tr n newsurface = .ok (kv.1, n₁, n₂) ∧
      (l.take (l.length / 2)).getLast? = some kv ∧
      n₁.Stores tr (l.take (l.length / 2)) ∧ n₂.Stores tr (l.drop (l.length / 2)) := by
  have hfull := h.length_le
  obtain ⟨g, hheld, hgap, hread⟩ := h
  have htake : (l.take (l.length / 2)).length = l.length / 2 := by
    rw [List.length_take]
    omega
  have hdrop : (l.drop (l.length / 2)).length = l.length - l.length / 2 := List.length_drop
  obtain ⟨m, hm, hm'⟩ := (Holds.initialized tr newsurface).setOccupants (Nat.zero_le _)
    (l.length - l.length / 2)
  have hbehind := hread.drop (l.length / 2)
  rw [Nat.zero_add] at hbehind
  have hroom : 0 + (l.drop (l.length / 2)).length ≤ tr.surfaces := by omega
  obtain ⟨n₂, hn₂, h₂⟩ := hm'.splitPairs hheld hbehind hroom
  obtain ⟨n₁, hn₁, h₁, hstored⟩ := hheld.stores hgap (hread.take (l.length / 2)) hfull
  obtain ⟨kv, hlast, hkey⟩ := h₁.getLastKey (hread.take (l.length / 2)) (by omega)
  rw [htake] at hn₁ h₁ hkey
  rw [hdrop] at hn₂
  refine ⟨kv, n₁, n₂, ?_, hlast, hstored, _, hdrop ▸ h₂, gapless_none.splice_front _,
    Reads.splice_self _ 0 _⟩
  simp only [SurfaceNode.split, hheld.getOccupants hfull, hm, hn₂, hn₁,
    h₁.getOccupants (by omega), hkey, ok_bind]
  rfl

/-- The pairs of the right node go to the left one. -/
theorem mergeLeaves (hl : left.Stores tr l) (hr : right.Stores tr r)
    (hroom : l.length + r.length ≤ tr.surfaces) :
    ∃ n₁ n₂, SurfaceNode.mergeLeaves tr left right = .ok (n₁, n₂) ∧
      n₁.Stores tr (l ++ r) ∧ n₂.Stores tr [] := by
  have hfull := hr.length_le
  obtain ⟨g, hheld, hgap, hread⟩ := hl
  obtain ⟨g', hheld', hgap', hread'⟩ := hr
  obtain ⟨m, hm, h₁⟩ := hheld.copyPairs hheld' hread' hroom
  obtain ⟨n₁, hn₁, -, hstored⟩ :=
    h₁.stores (hgap.splice_append hread r) (hread.append_splice r) (by omega)
  have hnil : Reads g' 0 [] := fun _ hi ↦ absurd hi (Nat.not_lt_zero _)
  obtain ⟨n₂, hn₂, -, hempty⟩ := hheld'.stores hgap' hnil hfull
  refine ⟨n₁, n₂, ?_, hstored, hempty⟩
  rw [List.length_append] at hn₁
  rw [List.length_nil] at hn₂
  simp only [SurfaceNode.mergeLeaves, hheld'.getOccupants hfull,
    hheld.getOccupants (o := l.length) (by omega), hm, hn₁, hn₂, ok_bind]
  rfl

/-- The left node takes half of what the right one has more, from its front. -/
theorem shiftLeft (hl : left.Stores tr l) (hr : right.Stores tr r) (hlt : l.length < r.length)
    (hmany : 1 < r.length) :
    ∃ kv n₁ n₂, SurfaceNode.shiftLeft tr left right = .ok (kv.1, n₁, n₂) ∧
      (l ++ r.take ((r.length - l.length) / 2)).getLast? = some kv ∧
      n₁.Stores tr (l ++ r.take ((r.length - l.length) / 2)) ∧
      n₂.Stores tr (r.drop ((r.length - l.length) / 2)) := by
  have hfull := hr.length_le
  obtain ⟨g, hheld, hgap, hread⟩ := hl
  obtain ⟨g', hheld', hgap', hread'⟩ := hr
  generalize hs : (r.length - l.length) / 2 = s
  have htake : (r.take s).length = s := by
    rw [List.length_take]
    omega
  have hdrop : (r.drop s).length = r.length - s := List.length_drop
  have hlen : (l ++ r.take s).length = l.length + s := by
    rw [List.length_append, htake]
  have hbehind := hread'.drop s
  -- the front of the right node joins the left one
  have hroom : l.length + (r.take s).length ≤ tr.surfaces := by omega
  obtain ⟨m, hm, h₁⟩ := hheld.copyPairs hheld' (hread'.take s) hroom
  have hall := hread.append_splice (r.take s)
  obtain ⟨n₁, hn₁, h₁, hstored⟩ := h₁.stores (hgap.splice_append hread _) hall (by omega)
  obtain ⟨kv, hlast, hkey⟩ := h₁.getLastKey hall (by omega)
  -- what is behind it moves to the front
  obtain ⟨m', hm', h₂⟩ := hheld'.setOccupants hfull (r.drop s).length
  obtain ⟨n₂, hn₂, h₂⟩ := h₂.moveLeft (i := 0) hbehind (by omega)
  refine ⟨kv, n₁, n₂, ?_, hlast, hstored, _, h₂, hgap'.splice_front _, Reads.splice_self g' 0 _⟩
  rw [htake] at hm
  rw [hlen] at hn₁ h₁ hkey
  rw [hdrop] at hm' hn₂
  simp only [SurfaceNode.shiftLeft, hheld'.getOccupants hfull,
    hheld.getOccupants (o := l.length) (by omega), hs, hm, hn₁, hm', hn₂,
    h₁.getOccupants (by omega), hkey, ok_bind]
  rfl

/-- The right node takes half of what the left one has more, from its end. -/
theorem shiftRight (hl : left.Stores tr l) (hr : right.Stores tr r) (hlt : r.length < l.length) :
    ∃ kv n₁ n₂, SurfaceNode.shiftRight tr left right = .ok (kv.1, n₁, n₂) ∧
      (l.take (l.length - (l.length - r.length) / 2)).getLast? = some kv ∧
      n₁.Stores tr (l.take (l.length - (l.length - r.length) / 2)) ∧
      n₂.Stores tr (l.drop (l.length - (l.length - r.length) / 2) ++ r) := by
  have hfull := hl.length_le
  obtain ⟨g, hheld, hgap, hread⟩ := hl
  obtain ⟨g', hheld', hgap', hread'⟩ := hr
  generalize hs : (l.length - r.length) / 2 = s
  have htake : (l.take (l.length - s)).length = l.length - s := by
    rw [List.length_take]
    omega
  have hdrop : (l.drop (l.length - s)).length = s := by
    rw [List.length_drop]
    omega
  have hlen : (l.drop (l.length - s) ++ r).length = r.length + s := by
    rw [List.length_append, hdrop, Nat.add_comm]
  have hbehind := hread.drop (l.length - s)
  rw [Nat.zero_add] at hbehind
  -- the pairs of the right node make room, which may leave a gap
  have hroom : s + r.length ≤ tr.surfaces := by omega
  obtain ⟨m, hm, h₂⟩ := hheld'.moveRight hread' hroom
  obtain ⟨m', hm', h₂⟩ := h₂.setOccupants (by omega) (l.drop (l.length - s) ++ r).length
  -- the end of the left node fills it
  have hfill : 0 + (l.drop (l.length - s)).length ≤ tr.surfaces := by omega
  obtain ⟨n₂, hn₂, h₂⟩ := h₂.copyPairs hheld hbehind hfill
  have hmoved : Reads (splice (splice g' s r) 0 (l.drop (l.length - s))) s r :=
    (Reads.splice_self g' s r).congr fun p hp _ ↦ splice_of_le (by omega)
  have hall : Reads (splice (splice g' s r) 0 (l.drop (l.length - s))) 0
      (l.drop (l.length - s) ++ r) := by
    refine (Reads.splice_self _ 0 _).append ?_
    rwa [Nat.zero_add, hdrop]
  have hgap₂ : Gapless (splice (splice g' s r) 0 (l.drop (l.length - s))) := by
    refine hgap'.of_front (fun p hp ↦ hall.isSome hp) fun p hp ↦ ?_
    rw [splice_of_le (by omega), splice_of_le (by omega)]
  obtain ⟨n₁, hn₁, h₁, hstored⟩ := hheld.stores hgap (hread.take (l.length - s)) hfull
  obtain ⟨kv, hlast, hkey⟩ := h₁.getLastKey (hread.take (l.length - s)) (by omega)
  refine ⟨kv, n₁, n₂, ?_, hlast, hstored, _, h₂, hgap₂, hall⟩
  rw [htake] at hn₁ h₁ hkey
  rw [hlen] at hm'
  rw [hdrop] at hn₂
  simp only [SurfaceNode.shiftRight, hheld.getOccupants hfull,
    hheld'.getOccupants (o := r.length) (by omega), hs, hm, hm', hn₂, hn₁,
    h₁.getOccupants (by omega), hkey, ok_bind]
  rfl

end Stores

end SurfaceNode

end LibSpaces.Stx
