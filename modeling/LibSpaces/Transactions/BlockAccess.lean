import LibSpaces.Transactions.Operations

/-!
# The access to a block through the versions

`version_based_allocator::allocate`, `is_end` and `complete` with what they call of
`sqlite_allocator`, `src/src/storage/transactions/transactional_storage.h:938–1014,1633–1698,
2139–2249`: the buffer that is returned, and how deep the mutex of the coordinator and those of the
allocators are locked. `last_base` is null whenever `allocate` has returned. A version object that
is in use has an allocator.
-/

namespace LibSpaces.Transactions

open LibSpaces.Base

/-- What `allocate` returns a reference to: a block, the end of an allocator, or the empty block of
a version object. -/
inductive Buffer
  | block (v a : ℕ)
  | endOf (v : ℕ)
  | empty (v : ℕ)
  deriving DecidableEq

/-- The versions with the depths of the locks and the allocators in which an allocation is not
complete. -/
structure Access where
  coordinator : Coordinator
  depth : ℕ
  depths : ℕ → ℕ
  busy : ℕ → Bool

namespace Access

/-- Nothing is locked. -/
def unlocked (s : Coordinator) : Access := ⟨s, 0, fun _ ↦ 0, fun _ ↦ false⟩

/-- The allocator of a version changes. -/
def setAllocator (x : Access) (v : ℕ) (y : Allocator) : Access :=
  { x with coordinator :=
    x.coordinator.setVersion v { x.coordinator.versions v with toAllocator := y } }

/-- `_allocate` locks the allocator, `transactional_storage.h:940–945`. -/
def lockIn (x : Access) (v : ℕ) : Access :=
  { x with
    depths := Function.update x.depths v (x.depths v + 1)
    busy := Function.update x.busy v true }

/-- What `_allocate` returns of a block that it does not create. -/
def found (y : Allocator) (v which : ℕ) : Buffer :=
  if (y.block which).isSome then .block v which else .endOf v

/-- `sqlite_allocator::allocate`, `transactional_storage.h:938–1014,1643–1648`. -/
def allocateIn (x : Access) (v which : ℕ) (how : StorageAction) : Except Thrown Buffer × Access :=
  let y := (x.coordinator.versions v).toAllocator
  let x := x.lockIn v
  match how with
  | .create =>
    if which = 0 then (.ok (.block v y.createNext.next), x.setAllocator v y.createNext)
    else (.ok (.block v which), x.setAllocator v (y.create which))
  | .write =>
    let x := x.setAllocator v { y with changes := y.changes + 1 }
    if which = 0 then (.error .invalidStorageAction, x)
    else (.ok (found y v which), x)
  | .read =>
    if which = 0 then (.error .invalidStorageAction, x)
    else (.ok (found y v which), x)

/-- `sqlite_allocator::complete`, `transactional_storage.h:1685–1698`. -/
def completeIn (x : Access) (v : ℕ) : Access :=
  if x.busy v then
    { x with
      depths := Function.update x.depths v (x.depths v - 1)
      busy := Function.update x.busy v false }
  else x

/-- `u = r`: the contents of a block are copied to another one. -/
def copy (x : Access) (u r : Buffer) : Access :=
  match u, r with
  | .block v a, .block v' a' =>
    match (x.coordinator.versions v').block a' with
    | some b => { x with coordinator := x.coordinator.assign (v, a) b.content }
    | none => x
  | _, _ => x

/-- The loop of `allocate` over the versions it is based on, `transactional_storage.h:2211–2238`. -/
def walk (t which : ℕ) (how : StorageAction) :
    List ℕ → Access → Except Thrown Buffer × Access
  | [], x => (.ok (.empty t), x)
  | b :: bases, x =>
    match x.allocateIn b which .read with
    | (.error e, x) => (.error e, x)
    | (.ok r, x) =>
      if r = .endOf b then walk t which how bases (x.completeIn b)
      else if how = .write then
        match x.allocateIn t which .create with
        | (.error e, x) => (.error e, x)
        | (.ok u, x) => (.ok u, (x.copy u r).completeIn b)
      else (.ok r, x.completeIn b)

/-- `allocate`, `transactional_storage.h:2171–2239`. -/
def allocate (x : Access) (t which : ℕ) (how : StorageAction) : Except Thrown Buffer × Access :=
  let x := { x with depth := x.depth + 1 }
  if (x.coordinator.versions t).readOnly = true ∧ how ≠ .read then
    (.error .invalidStorageAction, x)
  else if how = .create then x.allocateIn t which how
  else match x.allocateIn t which how with
    | (.error e, x) => (.error e, x)
    | (.ok r, x) =>
      if r = .endOf t then walk t which how (x.coordinator.bases t) (x.completeIn t)
      else (.ok r, x)

/-- `complete`, `transactional_storage.h:2240–2249`. -/
def complete (x : Access) (t : ℕ) : Access :=
  let x := x.completeIn t
  { x with depth := x.depth - 1 }

/-- `is_end`, `transactional_storage.h:2141–2151`: the buffer is the end of one of the
allocators. -/
def isEnd (x : Access) (t : ℕ) (r : Buffer) : Bool :=
  (t :: x.coordinator.bases t).any fun v ↦ r = .endOf v

/-- The block a buffer is. -/
def place : Buffer → Option (ℕ × ℕ)
  | .block v a => some (v, a)
  | .endOf _ | .empty _ => none

variable {x : Access} {t v which a : ℕ} {how : StorageAction}

/-- A lock changes no version. -/
@[simp] theorem coordinator_lockIn (x : Access) (v : ℕ) :
    (x.lockIn v).coordinator = x.coordinator := rfl

@[simp] private theorem coordinator_completeIn (x : Access) (v : ℕ) :
    (x.completeIn v).coordinator = x.coordinator := by
  rw [completeIn]
  split <;> rfl

private theorem allocateIn_read (x : Access) (v : ℕ) (hwhich : which ≠ 0) :
    x.allocateIn v which .read =
      (.ok (found (x.coordinator.versions v).toAllocator v which), x.lockIn v) := if_neg hwhich

private theorem allocateIn_write (x : Access) (v : ℕ) (hwhich : which ≠ 0) :
    x.allocateIn v which .write =
      (.ok (found (x.coordinator.versions v).toAllocator v which),
        (x.lockIn v).setAllocator v { (x.coordinator.versions v).toAllocator with
          changes := (x.coordinator.versions v).changes + 1 }) := if_neg hwhich

private theorem allocateIn_create (x : Access) (v : ℕ) (hwhich : which ≠ 0) :
    x.allocateIn v which .create = (.ok (.block v which),
      (x.lockIn v).setAllocator v ((x.coordinator.versions v).toAllocator.create which)) :=
  if_neg hwhich

private theorem found_eq_endOf {y : Allocator} :
    found y v which = .endOf v ↔ y.block which = none := by
  rw [found]
  cases y.block which <;> simp

private theorem found_of_some {y : Allocator} {b : Block} (h : y.block which = some b) :
    found y v which = .block v which := by
  rw [found, h]
  rfl

/-- The version holds the address. -/
def holds (s : Coordinator) (a v : ℕ) : Bool := ((s.versions v).block a).isSome

/-- The newest version of the chain that holds the address. -/
def newest (s : Coordinator) (t a : ℕ) : Option ℕ := (t :: s.bases t).find? (holds s a)

private theorem holds_eq_false {s : Coordinator} :
    holds s a v = false ↔ (s.versions v).block a = none := by
  rw [holds]
  cases (s.versions v).block a <;> simp

/-- An allocator is replaced in its version. -/
@[simp] theorem coordinator_setAllocator (x : Access) (v : ℕ) (y : Allocator) :
    (x.setAllocator v y).coordinator =
      x.coordinator.setVersion v { x.coordinator.versions v with toAllocator := y } := rfl

/-! ### The walk over the based versions -/

section Walk

variable {b : ℕ} {bases : List ℕ}

private theorem walk_cons_none (hwhich : which ≠ 0) (h : holds x.coordinator which b = false) :
    walk t which how (b :: bases) x = walk t which how bases ((x.lockIn b).completeIn b) := by
  rw [walk, allocateIn_read x b hwhich]
  exact if_pos (found_eq_endOf.2 (holds_eq_false.1 h))

/-- The block of the version that is found. -/
theorem walk_cons_read (hwhich : which ≠ 0) (h : holds x.coordinator which b = true) :
    walk t which .read (b :: bases) x = (.ok (.block b which), (x.lockIn b).completeIn b) := by
  obtain ⟨block, hblock⟩ := Option.isSome_iff_exists.1 h
  rw [walk, allocateIn_read x b hwhich, found_of_some hblock]
  rfl

/-- The block of the version that is found is copied to one of its own. -/
theorem walk_cons_write (hwhich : which ≠ 0) (h : holds x.coordinator which b = true) :
    walk t which .write (b :: bases) x = (.ok (.block t which),
      ((((x.lockIn b).lockIn t).setAllocator t
        ((x.coordinator.versions t).toAllocator.create which)).copy (.block t which)
          (.block b which)).completeIn b) := by
  obtain ⟨block, hblock⟩ := Option.isSome_iff_exists.1 h
  rw [walk, allocateIn_read x b hwhich, found_of_some hblock]
  have hne : ¬ Buffer.block b which = .endOf b := nofun
  simp only [if_neg hne, if_true, allocateIn_create _ t hwhich, coordinator_lockIn]

/-- What a walk does with the contents: nothing unless it copies a block to write to it. -/
theorem walk_coordinator (hwhich : which ≠ 0) (hhow : how ≠ .create)
    (hown : (x.coordinator.versions t).block which = none) :
    ∃ x', walk t which how bases x = (.ok (match bases.find? (holds x.coordinator which) with
        | some v => .block (if how = .read then v else t) which
        | none => .empty t), x') ∧
      (how = .read → x'.coordinator = x.coordinator) ∧
      (bases.find? (holds x.coordinator which) = none → x'.coordinator = x.coordinator) ∧
      ∀ v block, bases.find? (holds x.coordinator which) = some v →
        (x.coordinator.versions v).block which = some block → how = .write →
        x'.coordinator = x.coordinator.setVersion t { x.coordinator.versions t with
          toAllocator := ((x.coordinator.versions t).create which).setBlock which
            ⟨block.content, (x.coordinator.versions t).version⟩ } := by
  induction bases generalizing x with
  | nil => exact ⟨x, rfl, fun _ ↦ rfl, fun _ ↦ rfl, nofun⟩
  | cons b bases ih =>
    cases hb : holds x.coordinator which b with
    | false =>
      obtain ⟨x', hwalk, hread, hnone, hwrite⟩ := ih (x := (x.lockIn b).completeIn b)
        (by simpa using hown)
      rw [List.find?_cons_of_neg (by simp [hb]), walk_cons_none hwhich hb]
      simp only [coordinator_completeIn, coordinator_lockIn] at hwalk hread hnone hwrite
      exact ⟨x', hwalk, hread, hnone, hwrite⟩
    | true =>
      rw [List.find?_cons_of_pos hb]
      cases how with
      | create => exact absurd rfl hhow
      | read =>
        exact ⟨_, walk_cons_read hwhich hb, fun _ ↦ by simp, nofun, nofun⟩
      | write =>
        refine ⟨_, walk_cons_write hwhich hb, nofun, nofun, fun v block hv hblock _ ↦ ?_⟩
        obtain rfl := Option.some.inj hv
        have hne : b ≠ t := by
          rintro rfl
          exact absurd (holds_eq_false.2 hown) (by simp [hb])
        have hcopied : ((((x.lockIn b).lockIn t).setAllocator t
            ((x.coordinator.versions t).toAllocator.create which)).coordinator.versions b).block
              which = some block := by
          simp only [coordinator_setAllocator, coordinator_lockIn, Coordinator.setVersion,
            Function.update_of_ne hne, hblock]
        have hcreated : ((x.coordinator.versions t).toAllocator.create which).block which =
            some ⟨[], (x.coordinator.versions t).version⟩ := by
          rw [Allocator.block_create, hown, Option.getD_none]
        rw [coordinator_completeIn, copy, hcopied]
        simp only [Coordinator.assign, coordinator_setAllocator, coordinator_lockIn,
          Coordinator.setVersion, Function.update_self, hcreated, Function.update_idem]

end Walk

/-! ### The allocation -/

/-- Every access but one to read is counted as a change. -/
def counted (s : Coordinator) (t : ℕ) (how : StorageAction) : Coordinator :=
  if how = .read then s
  else s.setVersion t { s.versions t with changes := (s.versions t).changes + 1 }

private theorem sameShape_counted (s : Coordinator) (t : ℕ) (how : StorageAction) :
    Coordinator.SameShape s (counted s t how) := by
  rw [counted]
  split
  · rfl
  · exact Coordinator.SameShape.setVersion _ _ _ rfl

private theorem block_counted (s : Coordinator) (t v : ℕ) (how : StorageAction) :
    ((counted s t how).versions v).block = (s.versions v).block := by
  rw [counted]
  split
  · rfl
  · by_cases hv : v = t
    · subst hv
      simp only [Coordinator.setVersion, Function.update_self]
      rfl
    · simp only [Coordinator.setVersion, Function.update_of_ne hv]

private theorem holds_counted (s : Coordinator) (t : ℕ) (how : StorageAction) :
    holds (counted s t how) = holds s := by
  funext a v
  rw [holds, holds, block_counted]

/-- The coordinator is locked. -/
def lock (x : Access) : Access := { x with depth := x.depth + 1 }

/-- The own allocator is asked for a block. -/
def asked (x : Access) (t : ℕ) (how : StorageAction) : Access :=
  { x.lockIn t with
    coordinator := counted x.coordinator t how
    depth := x.depth + 1 }

@[simp] private theorem coordinator_asked (x : Access) (t : ℕ) (how : StorageAction) :
    (x.asked t how).coordinator = counted x.coordinator t how := rfl

/-- An allocation that does not create a block asks the own allocator first and walks where that
has no such block. -/
theorem allocate_eq (hwhich : which ≠ 0) (hhow : how ≠ .create)
    (hro : ¬((x.coordinator.versions t).readOnly = true ∧ how ≠ .read)) :
    x.allocate t which how =
      if holds x.coordinator which t then (.ok (.block t which), x.asked t how)
      else walk t which how (x.coordinator.bases t) ((x.asked t how).completeIn t) := by
  have hasked : { x with depth := x.depth + 1 : Access }.allocateIn t which how =
      (.ok (found (x.coordinator.versions t).toAllocator t which), x.asked t how) := by
    cases how with
    | create => exact absurd rfl hhow
    | read => exact allocateIn_read _ t hwhich
    | write => exact allocateIn_write _ t hwhich
  rw [allocate, if_neg hro, if_neg hhow, hasked]
  cases h : holds x.coordinator which t with
  | false =>
    have hbases := (sameShape_counted x.coordinator t how).bases t
    simp only [found_eq_endOf.2 (holds_eq_false.1 h), if_true, coordinator_asked, hbases]
    rfl
  | true =>
    obtain ⟨block, hblock⟩ := Option.isSome_iff_exists.1 h
    have hne : ¬ Buffer.block t which = .endOf t := nofun
    simp only [found_of_some hblock, if_neg hne, if_true]

private theorem findSome_block (s : Coordinator) (a : ℕ) (l : List ℕ) :
    (l.findSome? fun v ↦ (s.versions v).block a) =
      (l.find? (holds s a)).bind fun v ↦ (s.versions v).block a := by
  induction l with
  | nil => rfl
  | cons v l ih =>
    cases h : (s.versions v).block a with
    | none => rw [List.findSome?_cons, List.find?_cons_of_neg (by simp [holds, h]), h, ih]
    | some b => rw [List.findSome?_cons, List.find?_cons_of_pos (by simp [holds, h]), h,
        Option.bind_some, h]

/-- The versions and what is returned are those of the allocation in which the locks are not
told apart. -/
theorem allocate_refines (x : Access) (t which : ℕ) (how : StorageAction) :
    ((x.allocate t which how).1.map place, (x.allocate t which how).2.coordinator) =
      x.coordinator.allocate t which how := by
  by_cases hro : (x.coordinator.versions t).readOnly = true ∧ how ≠ .read
  · simp only [allocate, Coordinator.allocate, if_pos hro]
    rfl
  by_cases hwhich : which = 0
  · cases how <;> simp [allocate, Coordinator.allocate, hwhich, allocateIn] <;>
      simp_all [Except.map, place]
  by_cases hcreate : how = .create
  · subst hcreate
    simp only [allocate, Coordinator.allocate, if_neg hro, if_neg hwhich, if_true,
      allocateIn_create _ t hwhich]
    rfl
  rw [allocate_eq hwhich hcreate hro]
  cases h : holds x.coordinator which t with
  | true =>
    obtain ⟨block, hblock⟩ := Option.isSome_iff_exists.1 h
    cases how with
    | create => exact absurd rfl hcreate
    | read =>
      simp only [Coordinator.allocate, if_neg hro, if_neg hwhich, hblock, Option.isSome_some]
      rfl
    | write =>
      have hown : Allocator.block { (x.coordinator.versions t).toAllocator with
          changes := (x.coordinator.versions t).changes + 1 } which = some block := hblock
      simp only [Coordinator.allocate, if_neg hro, if_neg hwhich, hown, Option.isSome_some]
      rfl
  | false =>
    have hnone := holds_eq_false.1 h
    obtain ⟨x', hwalk, hread, hmissing, hcopied⟩ := @walk_coordinator
      ((x.asked t how).completeIn t) t which how (x.coordinator.bases t) hwhich hcreate
      (by simpa [block_counted] using hnone)
    simp only [coordinator_completeIn, coordinator_asked, holds_counted] at hwalk hread hmissing
    simp only [coordinator_completeIn, coordinator_asked, holds_counted] at hcopied
    cases how with
    | create => exact absurd rfl hcreate
    | read =>
      have hx' : x'.coordinator = x.coordinator := hread rfl
      have hfind : (x.coordinator.bases t).find? (holds x.coordinator which) =
        (x.coordinator.bases t).find? fun v ↦ ((x.coordinator.versions v).block which).isSome := rfl
      simp only [Bool.false_eq_true, if_false, hwalk, hx', Coordinator.allocate, if_neg hro,
        if_neg hwhich, hnone, Option.isSome_none, ← hfind]
      cases (x.coordinator.bases t).find? (holds x.coordinator which) <;> rfl
    | write =>
      have hbases := (sameShape_counted x.coordinator t .write).bases t
      have hown : Allocator.block { (x.coordinator.versions t).toAllocator with
          changes := (x.coordinator.versions t).changes + 1 } which = none := hnone
      have hallocate : x.coordinator.allocate t which .write =
          match (x.coordinator.bases t).findSome? fun v ↦
            ((counted x.coordinator t .write).versions v).block which with
          | some r => (.ok (some (t, which)), (counted x.coordinator t .write).setVersion t
              { (counted x.coordinator t .write).versions t with
                toAllocator := (((counted x.coordinator t .write).versions t).create
                  which).setBlock which
                    ⟨r.content, ((counted x.coordinator t .write).versions t).version⟩ })
          | none => (.ok none, counted x.coordinator t .write) := by
        have hversion : (counted x.coordinator t .write).versions t =
            { x.coordinator.versions t with changes := (x.coordinator.versions t).changes + 1 } :=
          Function.update_self ..
        rw [← hbases, hversion]
        simp only [Coordinator.allocate, if_neg hro, if_neg hwhich, hown, Option.isSome_none]
        rfl
      rw [hallocate, findSome_block, holds_counted]
      simp only [Bool.false_eq_true, if_false, hwalk]
      cases hfind : (x.coordinator.bases t).find? (holds x.coordinator which) with
      | none =>
        rw [hmissing hfind]
        rfl
      | some v =>
        have hv : holds x.coordinator which v = true := List.find?_some hfind
        obtain ⟨block, hblock⟩ := Option.isSome_iff_exists.1 hv
        rw [← block_counted x.coordinator t v .write] at hblock
        rw [hcopied v block hfind hblock rfl]
        simp only [Option.bind_some, hblock]
        rfl

/-! ### What is found -/

/-- The bytes of a buffer. -/
def content (s : Coordinator) : Buffer → Bytes
  | .block v a => (((s.versions v).block a).map Block.content).getD []
  | .endOf _ | .empty _ => []

/-- What is returned for an address that is not created: the block of the newest version that
holds it, or a block of its own with the same bytes to write to. -/
theorem allocate_lookup (ha : a ≠ 0) (hhow : how ≠ .create)
    (hro : ¬((x.coordinator.versions t).readOnly = true ∧ how ≠ .read)) :
    ∃ x', x.allocate t a how = (.ok (match newest x.coordinator t a with
        | some v => .block (if how = .read then v else t) a
        | none => .empty t), x') ∧
      (how = .read → x'.coordinator = x.coordinator) ∧
      (∀ u ≠ t, x'.coordinator.versions u = x.coordinator.versions u) ∧
      ∀ v, newest x.coordinator t a = some v → how = .write →
        content x'.coordinator (.block t a) = content x.coordinator (.block v a) := by
  have hcounted : ∀ u ≠ t, (counted x.coordinator t how).versions u = x.coordinator.versions u := by
    intro u hu
    rw [counted]
    split
    · rfl
    · exact Function.update_of_ne hu ..
  rw [allocate_eq ha hhow hro]
  cases h : holds x.coordinator a t with
  | true =>
    have hnewest : newest x.coordinator t a = some t := List.find?_cons_of_pos h
    rw [hnewest]
    refine ⟨x.asked t how, ?_, fun hread ↦ if_pos hread, hcounted, ?_⟩
    · simp only [if_true, ite_self]
    · intro v hv _
      obtain rfl := Option.some.inj hv
      simp only [content, coordinator_asked, block_counted]
  | false =>
    have hnewest : newest x.coordinator t a =
        (x.coordinator.bases t).find? (holds x.coordinator a) :=
      List.find?_cons_of_neg (by simp [h])
    obtain ⟨x', hwalk, hread, hmissing, hcopied⟩ := walk_coordinator (t := t)
      (x := (x.asked t how).completeIn t) ha hhow
      (by simpa [block_counted] using holds_eq_false.1 h)
    simp only [coordinator_completeIn, coordinator_asked, holds_counted] at hwalk hread hmissing
    simp only [coordinator_completeIn, coordinator_asked, holds_counted] at hcopied
    rw [hnewest]
    refine ⟨x', by rw [hwalk]; rfl, fun h ↦ (hread h).trans (if_pos h), ?_, ?_⟩
    · intro u hu
      cases hfind : (x.coordinator.bases t).find? (holds x.coordinator a) with
      | none => rw [hmissing hfind, hcounted u hu]
      | some v =>
        have hv : holds x.coordinator a v = true := List.find?_some hfind
        obtain ⟨block, hblock⟩ := Option.isSome_iff_exists.1 hv
        rw [← block_counted x.coordinator t v how] at hblock
        cases how with
        | create => exact absurd rfl hhow
        | read => rw [hread rfl, hcounted u hu]
        | write =>
          rw [hcopied v block hfind hblock rfl, Coordinator.setVersion]
          simp only [Function.update_of_ne hu, hcounted u hu]
    · rintro v hfind rfl
      have hv : holds x.coordinator a v = true := List.find?_some hfind
      obtain ⟨block, hblock⟩ := Option.isSome_iff_exists.1 hv
      have hcounts := hblock
      rw [← block_counted x.coordinator t v .write] at hcounts
      simp only [hcopied v block hfind hcounts rfl, content, hblock, Coordinator.setVersion,
        Function.update_self, Allocator.block_setBlock, if_true, Option.map_some, Option.getD_some]

/-- The lookup of an address through the versions: a read finds the block of the newest version
that holds it, a write gives a block of the transaction's own with the same bytes and leaves the
other versions as they are, and the buffer is an end where no version holds the address. -/
structure Lookup (x : Access) (t a : ℕ) : Prop where
  read : ∀ v, newest x.coordinator t a = some v → ∃ x',
    x.allocate t a .read = (.ok (.block v a), x') ∧
    content x'.coordinator (.block v a) = content x.coordinator (.block v a)
  write : (x.coordinator.versions t).readOnly = false → ∀ v, newest x.coordinator t a = some v →
    ∃ x', x.allocate t a .write = (.ok (.block t a), x') ∧
      content x'.coordinator (.block t a) = content x.coordinator (.block v a) ∧
      ∀ u ≠ t, x'.coordinator.versions u = x.coordinator.versions u
  isEnd : ∀ how ≠ .create, ∀ r x', x.allocate t a how = (.ok r, x') →
    (x'.isEnd t r = true ↔ newest x.coordinator t a = none)

/-- What is returned for an address that is not created is never an end. -/
theorem isEnd_of_allocate {r : Buffer} {x' : Access} (ha : a ≠ 0) (hhow : how ≠ .create)
    (h : x.allocate t a how = (.ok r, x')) : x'.isEnd t r = false := by
  by_cases hro : (x.coordinator.versions t).readOnly = true ∧ how ≠ .read
  · rw [allocate, if_pos hro] at h
    cases h
  · obtain ⟨x₁, hx₁, -⟩ := allocate_lookup ha hhow hro
    rw [h, Prod.mk.injEq, Except.ok.injEq] at hx₁
    have hr : ∀ v, r ≠ .endOf v := by
      intro v
      rw [hx₁.1]
      split <;> nofun
    simp [isEnd, hr]

/-- Where no version holds the address the empty block of the transaction is returned, which is
not the end of an allocator. -/
theorem not_lookup (ha : a ≠ 0) (hnone : newest x.coordinator t a = none) : ¬Lookup x t a := by
  intro hlookup
  obtain ⟨x', hx', -⟩ := allocate_lookup (x := x) (t := t) ha
    (show StorageAction.read ≠ .create from nofun) fun h ↦ h.2 rfl
  have hfalse := isEnd_of_allocate ha (show StorageAction.read ≠ .create from nofun) hx'
  rw [(hlookup.isEnd .read nofun _ x' hx').2 hnone] at hfalse
  cases hfalse

/-- The lookup is right exactly where a version holds the address. The locks change nothing in it:
what is returned and the versions are those of the coordinator's own allocation
(`allocate_refines`). -/
theorem lookup_iff (x : Access) (t : ℕ) (ha : a ≠ 0) :
    Lookup x t a ↔
      ∃ v ∈ t :: x.coordinator.bases t, ((x.coordinator.versions v).block a).isSome = true := by
  have hread : ¬((x.coordinator.versions t).readOnly = true ∧ StorageAction.read ≠ .read) :=
    fun h ↦ h.2 rfl
  have hnewest : (∃ v ∈ t :: x.coordinator.bases t,
      ((x.coordinator.versions v).block a).isSome = true) ↔ newest x.coordinator t a ≠ none := by
    rw [← Option.isSome_iff_ne_none, newest, List.find?_isSome]
    rfl
  rw [hnewest]
  constructor
  · exact fun hlookup hnone ↦ not_lookup ha hnone hlookup
  · intro hsome
    refine ⟨fun v hv ↦ ?_, fun hwritable v hv ↦ ?_, fun how hhow r x' hx' ↦ ?_⟩
    · obtain ⟨x', hx', hsame, -⟩ :=
        allocate_lookup ha (show StorageAction.read ≠ .create from nofun) hread
      rw [hv] at hx'
      exact ⟨x', hx', by rw [hsame rfl]⟩
    · obtain ⟨x', hx', -, hothers, hcopied⟩ := allocate_lookup (x := x) (t := t) ha
        (show StorageAction.write ≠ .create from nofun) (by simp [hwritable])
      rw [hv] at hx'
      exact ⟨x', hx', hcopied v hv rfl, hothers⟩
    · rw [isEnd_of_allocate ha hhow hx']
      simp [hsome]

/-- A writing transaction over a storage with one block. -/
theorem lookup_of_create :
    Lookup
      (unlocked
        ((Coordinator.start (.plain (Allocator.create ⟨1, 32, 0, ∅⟩ 33))).begin true 2 true).2)
      1 33 :=
  (lookup_iff _ 1 (by decide)).2 (by decide)

/-- A writing transaction on an empty storage: address 5 is nowhere and no end is returned. -/
theorem not_lookup_empty :
    ¬Lookup (unlocked ((Coordinator.start (.plain ⟨1, 32, 0, ∅⟩)).begin true 2 true).2) 1 5 :=
  not_lookup (by decide) (by decide)

/-! ### The depths of the locks -/

@[simp] private theorem depth_completeIn (x : Access) (v : ℕ) :
    (x.completeIn v).depth = x.depth := by
  rw [completeIn]
  split <;> rfl

private theorem completeIn_lockIn (x : Access) (v : ℕ) :
    (x.lockIn v).completeIn v = { x with busy := Function.update x.busy v false } := by
  simp [completeIn, lockIn]

/-- Only blocks change when one is copied. -/
theorem copy_eq (x : Access) (u r : Buffer) :
    x.copy u r = { x with coordinator := (x.copy u r).coordinator } := by
  unfold copy
  split
  · split <;> rfl
  · rfl

/-- The locks are held as before, except that of a version in which an allocation is not
complete. -/
structure Holds (x x' : Access) (t : ℕ) : Prop where
  depth : x'.depth = x.depth
  others : ∀ v ≠ t, x'.depths v = x.depths v
  own : x'.depths t = x.depths t + if x'.busy t then 1 else 0

/-- A walk completes what it locks of the based versions. -/
theorem walk_holds {bases : List ℕ} {r : Buffer} {x' : Access} (hwhich : which ≠ 0)
    (hhow : how ≠ .create) (hown : holds x.coordinator which t = false) (hidle : x.busy t = false)
    (h : walk t which how bases x = (.ok r, x')) : Holds x x' t := by
  induction bases generalizing x with
  | nil =>
    cases h
    exact ⟨rfl, fun _ _ ↦ rfl, by simp [hidle]⟩
  | cons b bases ih =>
    cases hb : holds x.coordinator which b with
    | false =>
      rw [walk_cons_none hwhich hb, completeIn_lockIn] at h
      have hidle' : Function.update x.busy b false t = false := by
        rw [Function.update_apply]
        split
        · rfl
        · exact hidle
      obtain ⟨hdepth, hothers, howns⟩ :=
        ih (x := { x with busy := Function.update x.busy b false }) hown hidle' h
      exact ⟨hdepth, hothers, howns⟩
    | true =>
      have hne : b ≠ t := by
        rintro rfl
        rw [hown] at hb
        cases hb
      cases how with
      | create => exact absurd rfl hhow
      | read =>
        rw [walk_cons_read hwhich hb, completeIn_lockIn] at h
        cases h
        exact ⟨rfl, fun _ _ ↦ rfl, by simp [hne.symm, hidle]⟩
      | write =>
        rw [walk_cons_write hwhich hb, copy_eq] at h
        cases h
        have hbusy : Function.update (Function.update x.busy b true) t true b = true := by
          simp [hne]
        simp only [completeIn, setAllocator, lockIn, hbusy, if_true]
        refine ⟨rfl, fun v hv ↦ ?_, ?_⟩
        · by_cases hvb : v = b
          · simp [hvb, hne]
          · simp [hvb, hv]
        · simp [hne.symm]

/-- An allocation that returns holds the lock of the coordinator, and that of the own allocator
unless it is complete there. -/
theorem allocate_holds {r : Buffer} {x' : Access}
    (h : x.allocate t which how = (.ok r, x')) : Holds x.lock x' t := by
  have hlocked : ∀ s, Holds x.lock { x.lock.lockIn t with coordinator := s } t := fun s ↦
    ⟨rfl, fun v hv ↦ Function.update_of_ne hv .., by simp [lockIn]⟩
  by_cases hro : (x.coordinator.versions t).readOnly = true ∧ how ≠ .read
  · rw [allocate, if_pos hro] at h
    cases h
  by_cases hcreate : how = .create
  · subst hcreate
    rw [allocate, if_neg hro, if_pos rfl] at h
    by_cases hwhich : which = 0
    · simp only [allocateIn, if_pos hwhich] at h
      cases h
      exact hlocked _
    · rw [allocateIn_create _ t hwhich] at h
      cases h
      exact hlocked _
  by_cases hwhich : which = 0
  · rw [allocate, if_neg hro, if_neg hcreate] at h
    cases how with
    | create => exact absurd rfl hcreate
    | read =>
      simp only [allocateIn, if_pos hwhich] at h
      cases h
    | write =>
      simp only [allocateIn, if_pos hwhich] at h
      cases h
  rw [allocate_eq hwhich hcreate hro] at h
  cases hown : holds x.coordinator which t with
  | true =>
    rw [hown] at h
    cases h
    exact hlocked _
  | false =>
    rw [hown] at h
    have hidle : ((x.asked t how).completeIn t).busy t = false := by
      simp [completeIn, asked, lockIn]
    have hnone : holds ((x.asked t how).completeIn t).coordinator which t = false := by
      rw [coordinator_completeIn, coordinator_asked, holds_counted, hown]
    obtain ⟨hdepth, hothers, howns⟩ := walk_holds hwhich hcreate hnone hidle h
    have hdepths : ((x.asked t how).completeIn t).depths = x.depths := by
      simp [completeIn, asked, lockIn]
    rw [hdepths] at hothers howns
    exact ⟨hdepth.trans (depth_completeIn ..), hothers, howns⟩

/-- `set_readonly` and `unset_readonly`, `transactional_storage.h:1995–2001`. -/
def setReadOnly (x : Access) (v : ℕ) (readOnly : Bool) : Access :=
  { x with coordinator :=
    x.coordinator.setVersion v { x.coordinator.versions v with readOnly := readOnly } }

/-- An allocation in a version that is read only or not. -/
structure Call where
  version : ℕ
  readOnly : Bool
  which : ℕ
  how : StorageAction

/-- The call does not throw. -/
def Call.Allowed (c : Call) : Prop :=
  (c.readOnly = true → c.how = .read) ∧ (c.which = 0 → c.how = .create)

/-- A call that is completed where it returned. -/
def call (x : Access) (c : Call) : Access :=
  match (x.setReadOnly c.version c.readOnly).allocate c.version c.which c.how with
  | (.ok _, x) => x.complete c.version
  | (.error _, x) => x

/-- One call after the other. -/
def calls (x : Access) (l : List Call) : Access := l.foldl call x

/-- The completion of an allocation that returned leaves the locks as they were. -/
theorem complete_of_holds {x' : Access} (h : Holds x.lock x' t) :
    (x'.complete t).depth = x.depth ∧ (x'.complete t).depths = x.depths := by
  obtain ⟨hdepth, hothers, hown⟩ := h
  refine ⟨?_, funext fun v ↦ ?_⟩
  · rw [complete, depth_completeIn, hdepth, lock, Nat.add_sub_cancel]
  · change (x'.completeIn t).depths v = x.depths v
    rw [completeIn]
    cases hbusy : x'.busy t with
    | false =>
      simp only [hbusy, Bool.false_eq_true, if_false, Nat.add_zero] at hown ⊢
      by_cases hv : v = t
      · rw [hv, hown, lock]
      · rw [hothers v hv, lock]
    | true =>
      simp only [hbusy, if_true] at hown ⊢
      by_cases hv : v = t
      · rw [hv, Function.update_self, hown, lock, Nat.add_sub_cancel]
      · rw [Function.update_of_ne hv, hothers v hv, lock]

private theorem readOnly_setReadOnly (x : Access) (v : ℕ) (readOnly : Bool) :
    ((x.setReadOnly v readOnly).coordinator.versions v).readOnly = readOnly := by
  simp only [setReadOnly, Coordinator.setVersion, Function.update_self]

private theorem allocate_returns (hro : ¬((x.coordinator.versions t).readOnly = true ∧ how ≠ .read))
    (hzero : which = 0 → how = .create) :
    ∃ r x', x.allocate t which how = (.ok r, x') := by
  by_cases hcreate : how = .create
  · subst hcreate
    rw [allocate, if_neg hro, if_pos rfl]
    by_cases hwhich : which = 0
    · exact ⟨_, _, if_pos hwhich⟩
    · exact ⟨_, _, allocateIn_create _ t hwhich⟩
  · obtain ⟨x', hx', -⟩ := allocate_lookup (fun h ↦ hcreate (hzero h)) hcreate hro
    exact ⟨_, x', hx'⟩

/-- A call that throws leaves the coordinator locked. -/
theorem allocate_throws (h : ((x.coordinator.versions t).readOnly = true ∧ how ≠ .read) ∨
    which = 0 ∧ how ≠ .create) :
    ∃ e x', x.allocate t which how = (.error e, x') ∧ x'.depth = x.depth + 1 := by
  by_cases hro : (x.coordinator.versions t).readOnly = true ∧ how ≠ .read
  · exact ⟨_, _, if_pos hro, rfl⟩
  · obtain ⟨hwhich, hcreate⟩ := h.resolve_left hro
    rw [allocate, if_neg hro, if_neg hcreate]
    cases how with
    | create => exact absurd rfl hcreate
    | read => exact ⟨_, _, by simp only [allocateIn, if_pos hwhich]; rfl, rfl⟩
    | write => exact ⟨_, _, by simp only [allocateIn, if_pos hwhich]; rfl, rfl⟩

private theorem call_balanced_iff (x : Access) (c : Call) :
    ((x.call c).depth = x.depth ∧ (x.call c).depths = x.depths) ↔ c.Allowed := by
  have hreadOnly := readOnly_setReadOnly x c.version c.readOnly
  constructor
  · intro hbalanced
    by_contra hrefused
    have hthrows : (c.readOnly = true ∧ c.how ≠ .read) ∨ c.which = 0 ∧ c.how ≠ .create := by
      rw [Call.Allowed] at hrefused
      tauto
    rw [← hreadOnly] at hthrows
    obtain ⟨e, x', hx', hdepth⟩ := allocate_throws hthrows
    rw [call, hx'] at hbalanced
    exact Nat.succ_ne_self _ (hdepth.symm.trans hbalanced.1)
  · rintro ⟨hread, hcreate⟩
    obtain ⟨r, x', hx'⟩ := allocate_returns (x := x.setReadOnly c.version c.readOnly)
      (by rw [hreadOnly]; exact fun h ↦ h.2 (hread h.1)) hcreate
    rw [call, hx']
    exact complete_of_holds (x := x.setReadOnly c.version c.readOnly) (allocate_holds hx')

/-- The locks are held as before after each of the calls exactly where none of them throws. -/
theorem calls_balanced_iff (x : Access) (l : List Call) :
    (∀ p, p <+: l → (x.calls p).depth = x.depth ∧ (x.calls p).depths = x.depths) ↔
      ∀ c ∈ l, c.Allowed := by
  induction l generalizing x with
  | nil => simp [calls]
  | cons c l ih =>
    rw [List.forall_mem_cons, ← call_balanced_iff x c]
    constructor
    · intro h
      have hc := h [c] (by simp)
      refine ⟨hc, (ih (x.call c)).1 fun p hp ↦ ?_⟩
      have hcp := h (c :: p) (by simpa using hp)
      exact ⟨hcp.1.trans hc.1.symm, hcp.2.trans hc.2.symm⟩
    · rintro ⟨hc, hl⟩ p hp
      cases p with
      | nil => exact ⟨rfl, rfl⟩
      | cons d p =>
        obtain ⟨rfl, hpl⟩ := List.cons_prefix_cons.1 hp
        have hcp := (ih (x.call d)).2 hl p hpl
        exact ⟨hcp.1.trans hc.1, hcp.2.trans hc.2⟩

/-- A read at address 0 leaves the coordinator locked. -/
theorem not_balanced_zero :
    ¬∀ p, p <+: [(⟨0, false, 0, .read⟩ : Call)] →
      ((unlocked (Coordinator.start (.plain ⟨1, 32, 0, ∅⟩))).calls p).depth =
        (unlocked (Coordinator.start (.plain ⟨1, 32, 0, ∅⟩))).depth ∧
      ((unlocked (Coordinator.start (.plain ⟨1, 32, 0, ∅⟩))).calls p).depths =
        (unlocked (Coordinator.start (.plain ⟨1, 32, 0, ∅⟩))).depths :=
  fun h ↦ absurd (h _ List.prefix_rfl).1 (by decide)

end Access

end LibSpaces.Transactions
