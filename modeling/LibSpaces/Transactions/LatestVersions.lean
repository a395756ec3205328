import LibSpaces.Transactions.BlockVersions

/-!
# The latest version of a block

What the committed versions of a storage know of a block, and what a change notification leaves of
it, `src/src/storage/transactions/transactional_storage.h:907–916,1053–1073,1143–1159,2763–2782,
3101–3111`. Each storage comes with what the replicants answer it during the call.
-/

namespace LibSpaces.Transactions

open LibSpaces.Base

/-- The descriptors of changed blocks: addresses with versions. -/
abbrev Resources := List (ℕ × ℕ)

/-- A committed version with what its replicants answer when they are asked. -/
abbrev Answering := VersionedAllocator × ReplicaRead

namespace VersionedAllocator

/-- `get_latest_version`, `transactional_storage.h:1053–1070`, none where `get_buffer` throws or the
process ends in it. -/
def getLatestVersion (s : VersionedAllocator) (reply : ReplicaRead) (w : ℕ) :
    Option ℕ × VersionedAllocator :=
  match s.versions.lookup w with
  | some v => (some v, s)
  | none => match s.allocations.lookup w with
    | some d => (some d.version, s)
    | none =>
      if w = 0 then (none, s)
      else match s.getBuffer reply w with
        | none => (none, s)
        | some (true, s) =>
          (some s.currentVersion, { s with versions := s.versions.insert w s.currentVersion })
        | some (false, s) => (some 0, s)

/-- `is_latest`, `transactional_storage.h:1071–1073`. -/
def isLatest (s : VersionedAllocator) (reply : ReplicaRead) (w latest : ℕ) :
    Option Bool × VersionedAllocator :=
  ((s.getLatestVersion reply w).1.map fun v ↦ decide (v < latest), (s.getLatestVersion reply w).2)

/-- A block that is not modified and has another version than a descriptor gives. -/
def isStale (resources : Resources) (w : ℕ) (d : Descriptor) : Bool :=
  d.mod = .read ∧ ∃ r ∈ resources, r.1 = w ∧ d.version ≠ r.2

/-- `release_stale_resource_states`, `transactional_storage.h:1143–1159`, with `recycle_block`. -/
def releaseStaleResourceStates (size : ℕ → ℤ) :
    Resources → VersionedAllocator → VersionedAllocator
  | [], s => s
  | (a, version) :: resources, s =>
    releaseStaleResourceStates size resources <|
      match s.allocations.lookup a with
      | some d => if d.version ≠ version ∧ d.mod = .read then s.modify (·.drop size a) else s
      | none => s

/-! ### What is known of a block -/

/-- The replicants have to be asked before `current_version` holds any bytes, and the process
ends. -/
def Ends (s : VersionedAllocator) (reply : ReplicaRead) : Prop :=
  s.repl = true ∧ s.currentFilled = false ∧ reply ≠ .failed

/-- Nothing but the storage can tell of a block, and it gives no answer: for address 0 it throws,
for others the process may end. -/
def Silent (s : VersionedAllocator) (cached : Option Descriptor) (reply : ReplicaRead) (w : ℕ) :
    Prop :=
  s.versions.lookup w = none ∧ cached = none ∧ (w = 0 ∨ s.Ends reply)

/-- The version of a block as it is read: that of the row, or the one that was left when the
replicants had the block. -/
def readVersion (s : VersionedAllocator) (reply : ReplicaRead) (w : ℕ) : ℕ :=
  if s.repl then
    match reply with
    | .failed => 0
    | .unset | .found _ => s.currentVersion
  else if s.isNew then 0
  else ((s.rows.lookup w).map Block.version).getD 0

/-- The version that is known of a block where `cached` is the one in memory, 0 where there is no
such block: first that of the map of versions. -/
def knownVersion (s : VersionedAllocator) (cached : Option Descriptor) (reply : ReplicaRead)
    (w : ℕ) : ℕ :=
  ((s.versions.lookup w).or (cached.map Descriptor.version)).getD (s.readVersion reply w)

end VersionedAllocator

namespace VersionedAllocator

/-- What `get_latest_version` takes from `get_buffer`, unless the process ends. -/
theorem getBuffer_version (s : VersionedAllocator) (reply : ReplicaRead) (w : ℕ) :
    (s.Ends reply ∧ s.getBuffer reply w = none) ∨ ¬s.Ends reply ∧
      ∃ found s', s.getBuffer reply w = some (found, s') ∧
        (if found then s'.currentVersion else 0) = s.readVersion reply w := by
  cases hrepl : s.repl with
  | true =>
    unfold getBuffer readVersion Ends
    rw [if_pos hrepl, if_pos hrepl]
    cases reply with
    | failed => exact .inr ⟨fun h ↦ h.2.2 rfl, _, _, rfl, rfl⟩
    | unset | found b =>
      cases hfilled : s.currentFilled with
      | true => exact .inr ⟨fun h ↦ Bool.noConfusion h.2.1, _, _, rfl, rfl⟩
      | false => exact .inl ⟨⟨hrepl, rfl, by rintro ⟨⟩⟩, rfl⟩
  | false =>
    refine .inr ⟨fun h ↦ Bool.noConfusion (hrepl.symm.trans h.1), ?_⟩
    unfold readVersion
    rw [getBuffer_local hrepl, if_neg (Bool.eq_false_iff.1 hrepl)]
    cases hnew : s.isNew with
    | true => exact ⟨_, _, rfl, rfl⟩
    | false =>
      rw [if_neg Bool.false_ne_true, if_neg Bool.false_ne_true]
      refine ⟨_, _, rfl, ?_⟩
      dsimp only
      cases hrow : s.rows.lookup w with
      | some b =>
        rw [SqliteAllocator.getBuffer_of_row hnew hrow]
        rfl
      | none =>
        rw [SqliteAllocator.getBuffer_of_none hnew hrow]
        exact ite_self 0

/-- A storage answers with the version that it knows, or gives no answer. -/
theorem getLatestVersion_eq (s : VersionedAllocator) (reply : ReplicaRead) (w : ℕ) :
    (s.Silent (s.allocations.lookup w) reply w ∧ (s.getLatestVersion reply w).1 = none) ∨
      ¬s.Silent (s.allocations.lookup w) reply w ∧
        (s.getLatestVersion reply w).1 =
          some (s.knownVersion (s.allocations.lookup w) reply w) := by
  rw [getLatestVersion, knownVersion, Silent]
  cases hversion : s.versions.lookup w with
  | some v => exact .inr ⟨fun h ↦ Option.some_ne_none v h.1, rfl⟩
  | none =>
    cases hcached : s.allocations.lookup w with
    | some d => exact .inr ⟨fun h ↦ Option.some_ne_none d h.2.1, rfl⟩
    | none =>
      dsimp only
      by_cases hzero : w = 0
      · rw [if_pos hzero]
        exact .inl ⟨⟨rfl, rfl, .inl hzero⟩, rfl⟩
      · rw [if_neg hzero, Option.map_none, Option.or_none, Option.getD_none]
        rcases s.getBuffer_version reply w with
          ⟨hends, hbuffer⟩ | ⟨hends, found, s', hbuffer, hread⟩
        · rw [hbuffer]
          exact .inl ⟨⟨rfl, rfl, .inr hends⟩, rfl⟩
        · rw [hbuffer, ← hread]
          refine .inr ⟨fun h ↦ h.2.2.elim hzero hends, ?_⟩
          cases found <;> rfl

/-! ### What a notification changes -/

/-- What a notification does to a storage: blocks that are stale leave the memory. -/
structure Releases (resources : Resources) (s s' : VersionedAllocator) : Prop where
  lookup : ∀ w, s'.allocations.lookup w =
    (s.allocations.lookup w).filter fun d ↦ !isStale resources w d
  versions : s'.versions = s.versions
  repl : s'.repl = s.repl
  isNew : s'.isNew = s.isNew
  rows : s'.rows = s.rows
  currentVersion : s'.currentVersion = s.currentVersion
  currentFilled : s'.currentFilled = s.currentFilled

private theorem isStale_cons (a version : ℕ) (resources : Resources) (w : ℕ) (d : Descriptor) :
    isStale ((a, version) :: resources) w d =
      (decide (a = w ∧ d.version ≠ version ∧ d.mod = .read) || isStale resources w d) := by
  rw [isStale, isStale, ← Bool.decide_or, decide_eq_decide, List.exists_mem_cons_iff]
  tauto

private theorem lookup_drop (s : SqliteAllocator) (size : ℕ → ℤ) (a w : ℕ) :
    (s.drop size a).allocations.lookup w = if a = w then none else s.allocations.lookup w := by
  rw [SqliteAllocator.drop]
  split
  · next h =>
    subst h
    exact AList.lookup_erase _ _
  · next h =>
    refine (AList.lookup_erase_ne (Ne.symm h)).trans ?_
    rw [SqliteAllocator.reflectUse]
    split
    · exact AList.lookup_insert_ne (Ne.symm h)
    · rfl

/-- A descriptor that concerns no block. -/
theorem filter_singleton {o : Option Descriptor} {a version w : ℕ}
    (h : ∀ d ∈ o, decide (a = w ∧ d.version ≠ version ∧ d.mod = .read) = false) :
    o.filter (fun d ↦ !isStale [(a, version)] w d) = o := by
  cases o with
  | none => rfl
  | some d =>
    refine Option.filter_some_pos ?_
    rw [isStale_cons, h d rfl]
    simp [isStale]

private theorem releases_drop {s : VersionedAllocator} {size : ℕ → ℤ} {a version : ℕ}
    {d : Descriptor}
    (hd : s.allocations.lookup a = some d) (hstale : d.version ≠ version ∧ d.mod = .read) :
    Releases [(a, version)] s (s.modify (·.drop size a)) := by
  have hkept : (s.modify (·.drop size a)).isNew = s.isNew ∧
      (s.modify (·.drop size a)).rows = s.rows ∧
      (s.modify (·.drop size a)).currentVersion = s.currentVersion := by
    rw [toSqliteAllocator_modify, SqliteAllocator.drop, SqliteAllocator.reflectUse]
    split <;> exact ⟨rfl, rfl, rfl⟩
  refine ⟨fun w ↦ ?_, rfl, rfl, hkept.1, hkept.2.1, hkept.2.2, rfl⟩
  rw [toSqliteAllocator_modify, lookup_drop]
  split
  · next h =>
    subst h
    have hdrop : isStale [(a, version)] a d = true := by
      rw [isStale_cons, decide_eq_true ⟨rfl, hstale⟩, Bool.true_or]
    rw [hd, Option.filter_some, hdrop]
    rfl
  · next h =>
    exact (filter_singleton fun e _ ↦ decide_eq_false fun he ↦ h he.1).symm

/-- Nothing is released where the block is not there, is modified or has the version. -/
theorem releases_self {s : VersionedAllocator} {a version : ℕ}
    (h : ∀ d ∈ s.allocations.lookup a, ¬(d.version ≠ version ∧ d.mod = .read)) :
    Releases [(a, version)] s s := by
  refine ⟨fun w ↦ (filter_singleton fun d hd ↦ decide_eq_false ?_).symm, rfl, rfl, rfl, rfl, rfl,
    rfl⟩
  rintro ⟨rfl, hstale⟩
  exact h d hd hstale

private theorem Releases.cons {r : ℕ × ℕ} {resources : Resources} {s s' s'' : VersionedAllocator}
    (h : Releases [r] s s') (h' : Releases resources s' s'') : Releases (r :: resources) s s'' := by
  refine ⟨fun w ↦ ?_, h'.versions.trans h.versions, h'.repl.trans h.repl, h'.isNew.trans h.isNew,
    h'.rows.trans h.rows, h'.currentVersion.trans h.currentVersion,
    h'.currentFilled.trans h.currentFilled⟩
  rw [h'.lookup, h.lookup, Option.filter_filter]
  refine congrArg (Option.filter · _) (funext fun d ↦ ?_)
  rw [isStale_cons, isStale_cons]
  simp [isStale]

private theorem Releases.readVersion {resources : Resources} {s s' : VersionedAllocator}
    (h : Releases resources s s') (reply : ReplicaRead) (w : ℕ) :
    s'.readVersion reply w = s.readVersion reply w := by
  unfold VersionedAllocator.readVersion
  rw [h.repl, h.isNew, h.rows, h.currentVersion]

private theorem Releases.knownVersion {resources : Resources} {s s' : VersionedAllocator}
    (h : Releases resources s s') (cached : Option Descriptor) (reply : ReplicaRead) (w : ℕ) :
    s'.knownVersion cached reply w = s.knownVersion cached reply w := by
  rw [VersionedAllocator.knownVersion, VersionedAllocator.knownVersion, h.versions, h.readVersion]

private theorem Releases.silent_iff {resources : Resources} {s s' : VersionedAllocator}
    (h : Releases resources s s') (cached : Option Descriptor) (reply : ReplicaRead) (w : ℕ) :
    s'.Silent cached reply w ↔ s.Silent cached reply w := by
  rw [Silent, Silent, Ends, Ends, h.versions, h.repl, h.currentFilled]

private theorem Releases.stored {resources : Resources} {s s' : VersionedAllocator}
    (h : Releases resources s s') (reply : ReplicaRead) (w : ℕ) :
    s'.stored reply w = s.stored reply w := by
  unfold VersionedAllocator.stored
  rw [h.repl, h.isNew, h.rows]

private theorem releases (size : ℕ → ℤ) (resources : Resources) (s : VersionedAllocator) :
    Releases resources s (s.releaseStaleResourceStates size resources) := by
  induction resources generalizing s with
  | nil =>
    refine ⟨fun w ↦ ?_, rfl, rfl, rfl, rfl, rfl, rfl⟩
    cases hw : s.allocations.lookup w with
    | none => exact hw
    | some d => exact hw.trans (Option.filter_some_pos (by simp [isStale])).symm
  | cons r resources ih =>
    obtain ⟨a, version⟩ := r
    rw [releaseStaleResourceStates]
    cases ha : s.allocations.lookup a with
    | none => exact (releases_self fun d hd ↦ by rw [ha] at hd; cases hd).cons (ih s)
    | some d =>
      dsimp only
      split
      · next hstale => exact (releases_drop ha hstale).cons (ih _)
      · next hstale =>
        refine (releases_self fun e he ↦ ?_).cons (ih s)
        rw [ha] at he
        cases he
        exact hstale

end VersionedAllocator

/-! ### The coordinator -/

namespace Storages

open VersionedAllocator

/-- `mvcc_coordinator::get_latest_version`, `transactional_storage.h:2763–2773`, from the greatest
version so far. -/
def getLatestVersion (w : ℕ) : ℕ → List Answering → Option ℕ × List VersionedAllocator
  | latest, [] => (some latest, [])
  | latest, (s, reply) :: rest =>
    match s.getLatestVersion reply w with
    | (none, s) => (none, s :: rest.map Prod.fst)
    | (some current, s) =>
      let result := getLatestVersion w (if latest < current then current else latest) rest
      (result.1, s :: result.2)

/-- `mvcc_coordinator::is_latest`, `transactional_storage.h:2774–2782`. -/
def isLatest (w latest : ℕ) : List Answering → Option Bool × List VersionedAllocator
  | [] => (some true, [])
  | (s, reply) :: rest =>
    match s.isLatest reply w latest with
    | (none, s) => (none, s :: rest.map Prod.fst)
    | (some false, s) => (some false, s :: rest.map Prod.fst)
    | (some true, s) => ((isLatest w latest rest).1, s :: (isLatest w latest rest).2)

/-- `notify_changes`, `transactional_storage.h:3101–3111`. -/
def notifyChanges (size : ℕ → ℤ) (resources : Resources) (storages : List Answering) :
    List Answering :=
  storages.map fun s ↦ (s.1.releaseStaleResourceStates size resources, s.2)

/-- What a storage knows of a block. -/
def known (w : ℕ) (s : Answering) : ℕ := s.1.knownVersion (s.1.allocations.lookup w) s.2 w

/-- A storage gives no answer when it is asked for a block. -/
def silent (w : ℕ) (s : Answering) : Prop := s.1.Silent (s.1.allocations.lookup w) s.2 w

/-- The greatest version that the storages know. -/
theorem getLatestVersion_le_iff {w latest m : ℕ} {storages : List Answering}
    (hm : (getLatestVersion w latest storages).1 = some m) (v : ℕ) :
    m ≤ v ↔ latest ≤ v ∧ ∀ s ∈ storages, known w s ≤ v := by
  induction storages generalizing latest with
  | nil =>
    cases hm
    simp
  | cons s storages ih =>
    obtain ⟨s, reply⟩ := s
    rw [getLatestVersion] at hm
    rcases s.getLatestVersion_eq reply w with ⟨-, hnone⟩ | ⟨-, hsome⟩
    · generalize s.getLatestVersion reply w = result at hm hnone
      obtain ⟨current, t⟩ := result
      cases hnone
      cases hm
    · generalize s.getLatestVersion reply w = result at hm hsome
      obtain ⟨current, t⟩ := result
      cases hsome
      rw [ih hm, List.forall_mem_cons, ← and_assoc]
      refine and_congr_left fun _ ↦ ?_
      rw [known]
      dsimp only
      split <;> omega

/-- Where the coordinator gives no answer. -/
theorem getLatestVersion_eq_none {w latest : ℕ} {storages : List Answering} :
    (getLatestVersion w latest storages).1 = none ↔ ∃ s ∈ storages, silent w s := by
  induction storages generalizing latest with
  | nil => simp [getLatestVersion]
  | cons s storages ih =>
    obtain ⟨s, reply⟩ := s
    rw [getLatestVersion, List.exists_mem_cons_iff]
    rcases s.getLatestVersion_eq reply w with ⟨hsilent, hnone⟩ | ⟨hsilent, hsome⟩
    · generalize s.getLatestVersion reply w = result at hnone
      obtain ⟨current, t⟩ := result
      cases hnone
      exact iff_of_true rfl (.inl hsilent)
    · generalize s.getLatestVersion reply w = result at hsome
      obtain ⟨current, t⟩ := result
      cases hsome
      exact ih.trans (or_iff_right hsilent).symm

/-- All storages know older versions only. -/
theorem isLatest_iff {w v : ℕ} {storages : List Answering} (hs : ∀ s ∈ storages, ¬silent w s) :
    (isLatest w v storages).1 = some true ↔ ∀ s ∈ storages, known w s < v := by
  induction storages with
  | nil => simp [isLatest]
  | cons s storages ih =>
    obtain ⟨s, reply⟩ := s
    rw [List.forall_mem_cons] at hs ⊢
    rw [isLatest, VersionedAllocator.isLatest]
    rcases s.getLatestVersion_eq reply w with ⟨hsilent, -⟩ | ⟨-, hsome⟩
    · exact absurd hsilent hs.1
    · rw [hsome, Option.map_some]
      by_cases hlt : s.knownVersion (s.allocations.lookup w) reply w < v
      · rw [decide_eq_true hlt]
        exact (ih hs.2).trans ⟨fun h ↦ ⟨hlt, h⟩, fun h ↦ h.2⟩
      · rw [decide_eq_false hlt]
        exact iff_of_false (by simp) fun h ↦ hlt h.1

/-- `is_latest` is the order on versions: the latest version is known, but for address 0, and the
comparison with it is the answer. -/
def IsOrder (storages : List Answering) (w v : ℕ) : Prop :=
  (w ≠ 0 → (getLatestVersion w 0 storages).1 ≠ none) ∧
    ∀ m, (getLatestVersion w 0 storages).1 = some m →
      ((isLatest w v storages).1 = some true ↔ m ≤ v)

/-- For all storages, addresses and versions: `is_latest` is the order on versions if and only if
every storage answers, but for address 0, and no storage knows the block in the version itself, or
one knows a newer version, or throws. -/
theorem isOrder_iff (storages : List Answering) (w v : ℕ) :
    IsOrder storages w v ↔ (w ≠ 0 → ∀ s ∈ storages, ¬silent w s) ∧
      ((∃ s ∈ storages, silent w s) ∨ (∃ s ∈ storages, v < known w s) ∨
        ∀ s ∈ storages, known w s ≠ v) := by
  have hanswers : (getLatestVersion w 0 storages).1 ≠ none ↔ ¬∃ s ∈ storages, silent w s :=
    not_congr getLatestVersion_eq_none
  rw [IsOrder, hanswers]
  by_cases hsilent : ∃ s ∈ storages, silent w s
  · have hnone : (getLatestVersion w 0 storages).1 = none := getLatestVersion_eq_none.2 hsilent
    refine ⟨fun h ↦ ⟨fun hne s hs hnot ↦ h.1 hne ⟨s, hs, hnot⟩, .inl hsilent⟩,
      fun h ↦ ⟨fun hne ↦ ?_, fun m hm ↦ ?_⟩⟩
    · obtain ⟨s, hs, hnot⟩ := hsilent
      exact absurd hnot (h.1 hne s hs)
    · rw [hnone] at hm
      cases hm
  · have hlatest := isLatest_iff (v := v) fun s hs h ↦ hsilent ⟨s, hs, h⟩
    obtain ⟨m, hm⟩ : ∃ m, (getLatestVersion w 0 storages).1 = some m :=
      Option.ne_none_iff_exists'.1 (mt getLatestVersion_eq_none.1 hsilent)
    have hle := getLatestVersion_le_iff hm v
    rw [or_iff_right hsilent]
    constructor
    · rintro ⟨-, h⟩
      refine ⟨fun _ s hs hnot ↦ hsilent ⟨s, hs, hnot⟩, ?_⟩
      by_contra hnot
      rw [not_or] at hnot
      obtain ⟨hnewer, hsome⟩ := hnot
      have hall : ∀ s ∈ storages, known w s ≤ v :=
        fun s hs ↦ Nat.not_lt.1 fun hlt ↦ hnewer ⟨s, hs, hlt⟩
      have htrue := (h m hm).2 (hle.2 ⟨Nat.zero_le v, hall⟩)
      exact hsome fun s hs ↦ (hlatest.1 htrue s hs).ne
    · rintro ⟨-, h⟩
      refine ⟨fun _ ↦ hsilent, fun m' hm' ↦ ?_⟩
      cases hm.symm.trans hm'
      rw [hlatest, hle]
      refine ⟨fun hlt ↦ ⟨Nat.zero_le v, fun s hs ↦ (hlt s hs).le⟩, fun hall s hs ↦ ?_⟩
      rcases h with ⟨s', hs', hnewer⟩ | hne
      · exact absurd hnewer (Nat.not_lt.2 (hall.2 s' hs'))
      · exact lt_of_le_of_ne (hall.2 s hs) (hne s hs)

/-- A storage with one row knows its version: that version is the latest one, and is denied. And one
that asks its replicants first gives no answer. -/
theorem not_isOrder :
    ¬IsOrder [(.start false true true 1 32 0 (some ([⟨33, ⟨[1], 5⟩⟩] : List _).toAList), .failed)]
      33 5 ∧
    ¬IsOrder [({ VersionedAllocator.start false true true 1 32 0 none with repl := true },
      .found ⟨[2], 3⟩)] 34 1 :=
  ⟨fun h ↦ absurd ((h.2 5 (by decide)).2 le_rfl) (by decide),
    fun h ↦ h.1 (by decide) (by decide)⟩

/-! ### Notifications -/

/-- A block in memory, a row or what the replicants have of a version. -/
def HasCopy (w v : ℕ) (s : Answering) : Prop :=
  (∃ d ∈ s.1.allocations.lookup w, d.version = v) ∨ (∃ b ∈ s.1.rows.lookup w, b.version = v) ∨
    ∃ b ∈ s.1.stored s.2 w, b.version = v

/-- A notification removes what is stale: of the listed addresses only modified blocks and those of
the version are left, all other blocks stay, and a version that was removed is only reported where
there is still a copy. Version 0 is the one of a block that is not known. -/
structure Invalidates (size : ℕ → ℤ) (resources : Resources) (storages : List Answering) :
    Prop where
  removed : ∀ s ∈ notifyChanges size resources storages, ∀ r ∈ resources,
    ∀ d ∈ s.1.allocations.lookup r.1, d.mod = .read → d.version = r.2
  kept : ∀ s ∈ storages, ∀ w, (∀ r ∈ resources, r.1 ≠ w) ∨
      (∃ d ∈ s.1.allocations.lookup w, d.mod ≠ .read) →
    (s.1.releaseStaleResourceStates size resources).allocations.lookup w = s.1.allocations.lookup w
  reported : ∀ s ∈ storages, ∀ w, ∀ d ∈ s.1.allocations.lookup w,
    (s.1.releaseStaleResourceStates size resources).allocations.lookup w = none → d.version ≠ 0 →
      (getLatestVersion w 0 (notifyChanges size resources storages)).1 = some d.version →
        ∃ s' ∈ notifyChanges size resources storages, HasCopy w d.version s'

/-- The block of a storage that stays in memory. -/
def remaining (resources : Resources) (w : ℕ) (s : Answering) : Option Descriptor :=
  (s.1.allocations.lookup w).filter fun d ↦ !isStale resources w d

/-- A version that is not from a block: the map of versions has it, or it was left by the
statements and is taken for the one of a block that the replicants have. -/
def HasEntry (resources : Resources) (w v : ℕ) (s : Answering) : Prop :=
  s.1.versions.lookup w = some v ∨ s.1.versions.lookup w = none ∧ remaining resources w s = none ∧
    s.1.repl = true ∧ s.1.currentVersion = v ∧ s.2 ≠ .failed

/-- For every block that is removed, no version is left without a block, or a copy is left, or a
newer version is known, or a storage gives no answer. -/
def NoEntryLeft (resources : Resources) (storages : List Answering) : Prop :=
  ∀ s ∈ storages, ∀ w, ∀ d ∈ s.1.allocations.lookup w, isStale resources w d = true →
    d.version ≠ 0 →
      (∀ s' ∈ storages, ¬HasEntry resources w d.version s') ∨
      (∃ s' ∈ storages, (∃ e ∈ remaining resources w s', e.version = d.version) ∨
        (∃ b ∈ s'.1.rows.lookup w, b.version = d.version) ∨
        ∃ b ∈ s'.1.stored s'.2 w, b.version = d.version) ∨
      (∃ s' ∈ storages, d.version < s'.1.knownVersion (remaining resources w s') s'.2 w) ∨
      ∃ s' ∈ storages, s'.1.Silent (remaining resources w s') s'.2 w

/-- Stale blocks are removed from every storage, and no others. -/
theorem isStale_iff {resources : Resources} {w : ℕ} {d : Descriptor} :
    isStale resources w d = true ↔ d.mod = .read ∧ ∃ r ∈ resources, r.1 = w ∧ d.version ≠ r.2 :=
  decide_eq_true_iff

/-- A block that a notification leaves. -/
theorem lookup_notify {size : ℕ → ℤ} {resources : Resources} {s : VersionedAllocator} {w : ℕ}
    {d : Descriptor}
    (hd : (s.releaseStaleResourceStates size resources).allocations.lookup w = some d) :
    s.allocations.lookup w = some d ∧ isStale resources w d = false := by
  rw [(releases size resources s).lookup, Option.filter_eq_some_iff] at hd
  exact ⟨hd.1, by simpa using hd.2⟩

variable {size : ℕ → ℤ} {resources : Resources} {storages : List Answering} {w : ℕ}

variable (size) in
/-- The version of a removed block is reported as long as an entry is left and nothing newer is
known. -/
theorem getLatestVersion_of_hasEntry {v : ℕ} {s : Answering} (hs : s ∈ storages)
    (hentry : HasEntry resources w v s)
    (hsilent : ∀ s ∈ storages, ¬s.1.Silent (remaining resources w s) s.2 w)
    (hnewer : ∀ s ∈ storages, s.1.knownVersion (remaining resources w s) s.2 w ≤ v) :
    (getLatestVersion w 0 (notifyChanges size resources storages)).1 = some v := by
  have hknown : ∀ s : Answering, known w (s.1.releaseStaleResourceStates size resources, s.2) =
      s.1.knownVersion (remaining resources w s) s.2 w := by
    intro s
    rw [known, (releases size resources s.1).lookup, (releases size resources s.1).knownVersion,
      remaining]
  have hv : s.1.knownVersion (remaining resources w s) s.2 w = v := by
    rw [VersionedAllocator.knownVersion]
    rcases hentry with hversion | ⟨hversion, hremaining, hrepl, hcurrent, hreply⟩
    · rw [hversion]
      rfl
    · rw [hversion, hremaining]
      unfold readVersion
      rw [if_pos hrepl]
      generalize s.2 = reply at hreply
      cases reply with
      | failed => exact absurd rfl hreply
      | unset | found b => exact hcurrent
  obtain ⟨m, hm⟩ :
      ∃ m, (getLatestVersion w 0 (notifyChanges size resources storages)).1 = some m := by
    refine Option.ne_none_iff_exists'.1 fun hnone ↦ ?_
    obtain ⟨s', hs', hnot⟩ := getLatestVersion_eq_none.1 hnone
    obtain ⟨s, hs, rfl⟩ := List.mem_map.1 hs'
    refine hsilent s hs ?_
    rw [silent, (releases size resources s.1).lookup,
      (releases size resources s.1).silent_iff] at hnot
    exact hnot
  have hle := fun v ↦ getLatestVersion_le_iff hm v
  refine hm.trans (congrArg some (le_antisymm ((hle v).2 ⟨Nat.zero_le v, fun s' hs' ↦ ?_⟩) ?_))
  · obtain ⟨s, hs, rfl⟩ := List.mem_map.1 hs'
    exact (hknown s).trans_le (hnewer s hs)
  · have := ((hle m).1 le_rfl).2 _ (List.mem_map.2 ⟨s, hs, rfl⟩)
    rwa [hknown, hv] at this

/-- A version that is reported after a notification is that of a copy or of an entry that is
left. -/
theorem copy_or_hasEntry {v : ℕ} (hv : v ≠ 0)
    (hlatest : (getLatestVersion w 0 (notifyChanges size resources storages)).1 = some v) :
    ∃ s ∈ storages, HasEntry resources w v s ∨ (∃ e ∈ remaining resources w s, e.version = v) ∨
      ∃ b ∈ s.1.stored s.2 w, b.version = v := by
  obtain ⟨s', hs', hle⟩ : ∃ s' ∈ notifyChanges size resources storages, v ≤ known w s' := by
    by_contra hnot
    have hall : ∀ s' ∈ notifyChanges size resources storages, known w s' ≤ v - 1 := by
      intro s' hs'
      have hlt : known w s' < v := Nat.not_le.1 fun hle ↦ hnot ⟨s', hs', hle⟩
      omega
    have := (getLatestVersion_le_iff hlatest (v - 1)).2 ⟨Nat.zero_le _, hall⟩
    omega
  have hknown : known w s' = v :=
    le_antisymm (((getLatestVersion_le_iff hlatest v).1 le_rfl).2 s' hs') hle
  obtain ⟨s, hs, rfl⟩ := List.mem_map.1 hs'
  refine ⟨s, hs, ?_⟩
  rw [known, (releases size resources s.1).lookup, (releases size resources s.1).knownVersion,
    VersionedAllocator.knownVersion] at hknown
  change ((s.1.versions.lookup w).or ((remaining resources w s).map Descriptor.version)).getD
    (s.1.readVersion s.2 w) = v at hknown
  cases hversion : s.1.versions.lookup w with
  | some u =>
    rw [hversion] at hknown
    exact .inl (.inl (hversion.trans (congrArg some hknown)))
  | none =>
    rw [hversion, Option.none_or] at hknown
    cases hremaining : remaining resources w s with
    | some e =>
      rw [hremaining] at hknown
      exact .inr (.inl ⟨e, rfl, hknown⟩)
    | none =>
      rw [hremaining, Option.map_none, Option.getD_none] at hknown
      unfold readVersion at hknown
      cases hrepl : s.1.repl with
      | true =>
        rw [if_pos hrepl] at hknown
        cases hreply : s.2 with
        | failed =>
          rw [hreply] at hknown
          exact absurd hknown.symm hv
        | unset | found b =>
          rw [hreply] at hknown
          exact .inl (.inr ⟨hversion, hremaining, hrepl, hknown, by rw [hreply]; exact nofun⟩)
      | false =>
        rw [if_neg (Bool.eq_false_iff.1 hrepl)] at hknown
        split at hknown
        · exact absurd hknown.symm hv
        · next hnew =>
          cases hrow : s.1.rows.lookup w with
          | none =>
            rw [hrow] at hknown
            exact absurd hknown.symm hv
          | some b =>
            rw [hrow] at hknown
            refine .inr (.inr ⟨b, ?_, hknown⟩)
            unfold stored
            rw [if_neg (Bool.eq_false_iff.1 hrepl), if_neg hnew]
            exact hrow

/-- For all storages, notifications and answers of the replicants: a notification invalidates what
is stale if and only if of every removed block no entry is left, or a copy, or something newer is
known. -/
theorem invalidates_iff (size : ℕ → ℤ) (resources : Resources) (storages : List Answering) :
    Invalidates size resources storages ↔ NoEntryLeft resources storages := by
  constructor
  · intro h s hs w d hd hstale hzero
    by_contra hnot
    rw [not_or, not_or, not_or] at hnot
    obtain ⟨hentry, hcopy, hnewer, hsilent⟩ := hnot
    obtain ⟨s', hentry⟩ := not_forall.1 hentry
    obtain ⟨hs', hentry⟩ := Classical.not_imp.1 hentry
    have hgone : (s.1.releaseStaleResourceStates size resources).allocations.lookup w = none := by
      rw [(releases size resources s.1).lookup, hd, Option.filter_some, hstale]
      rfl
    have hlatest := getLatestVersion_of_hasEntry size hs' (not_not.1 hentry)
      (fun s hs hunanswered ↦ hsilent ⟨s, hs, hunanswered⟩)
      fun s hs ↦ Nat.not_lt.1 fun hlt ↦ hnewer ⟨s, hs, hlt⟩
    obtain ⟨s'', hs'', hhas⟩ := h.reported s hs w d hd hgone hzero hlatest
    obtain ⟨s, hs, rfl⟩ := List.mem_map.1 hs''
    rw [HasCopy, (releases size resources s.1).lookup, (releases size resources s.1).rows,
      (releases size resources s.1).stored] at hhas
    exact hcopy ⟨s, hs, hhas⟩
  · intro h
    refine ⟨fun s' hs' r hr d hd hread ↦ ?_, fun s hs w hw ↦ ?_,
      fun s hs w d hd hgone hzero hlatest ↦ ?_⟩
    · obtain ⟨s, hs, rfl⟩ := List.mem_map.1 hs'
      obtain ⟨-, hstale⟩ := lookup_notify hd
      by_contra hne
      rw [isStale_iff.2 ⟨hread, r, hr, rfl, hne⟩] at hstale
      cases hstale
    · rw [(releases size resources s.1).lookup]
      cases hlookup : s.1.allocations.lookup w with
      | none => rfl
      | some d =>
        refine Option.filter_some_pos ?_
        rw [Bool.not_eq_true', Bool.eq_false_iff]
        intro hstale
        obtain ⟨hread, r, hr, hrw, -⟩ := isStale_iff.1 hstale
        rcases hw with hlisted | ⟨e, he, hmod⟩
        · exact hlisted r hr hrw
        · rw [hlookup] at he
          cases he
          exact hmod hread
    · have hstale : isStale resources w d = true := by
        rw [(releases size resources s.1).lookup, hd, Option.filter_eq_none_iff] at hgone
        simpa using hgone d rfl
      have hcopied : ∀ s ∈ storages, (∃ e ∈ remaining resources w s, e.version = d.version) ∨
          (∃ b ∈ s.1.rows.lookup w, b.version = d.version) ∨
          (∃ b ∈ s.1.stored s.2 w, b.version = d.version) →
            ∃ s' ∈ notifyChanges size resources storages, HasCopy w d.version s' := by
        intro s hs hhas
        refine ⟨_, List.mem_map.2 ⟨s, hs, rfl⟩, ?_⟩
        rw [HasCopy, (releases size resources s.1).lookup, (releases size resources s.1).rows,
          (releases size resources s.1).stored]
        exact hhas
      obtain ⟨s₁, hs₁, hentry | hhas⟩ := copy_or_hasEntry hzero hlatest
      · rcases h s hs w d hd hstale hzero with hnone | ⟨s₂, hs₂, hhas⟩ | ⟨s₂, hs₂, hnewer⟩ |
          ⟨s₂, hs₂, hunanswered⟩
        · exact absurd hentry (hnone s₁ hs₁)
        · exact hcopied s₂ hs₂ hhas
        · have hle := ((getLatestVersion_le_iff hlatest d.version).1 le_rfl).2 _
            (List.mem_map.2 ⟨s₂, hs₂, rfl⟩)
          rw [known, (releases size resources s₂.1).lookup,
            (releases size resources s₂.1).knownVersion] at hle
          exact absurd hnewer (Nat.not_lt.2 hle)
        · have hnone : ∃ s ∈ notifyChanges size resources storages, silent w s := by
            refine ⟨_, List.mem_map.2 ⟨s₂, hs₂, rfl⟩, ?_⟩
            rw [silent, (releases size resources s₂.1).lookup,
              (releases size resources s₂.1).silent_iff]
            exact hunanswered
          rw [getLatestVersion_eq_none.2 hnone] at hlatest
          cases hlatest
      · exact hcopied s₁ hs₁ (hhas.imp_right .inr)

/-- The state after a series of calls, as far as the process goes. -/
def after (s : VersionedAllocator) : List Load → VersionedAllocator
  | [] => s
  | x :: xs => match s.step x with
    | some r => after r.2 xs
    | none => s

/-- A storage has loaded a block of version 5 from the table and one of version 5 from the
replicants, which the replicants replace by one of version 7. -/
def loaded : VersionedAllocator :=
  after (VersionedAllocator.start false true true 0 32 0
      (some ([⟨34, ⟨[1], 5⟩⟩] : List _).toAList))
    [.allocate (fun _ ↦ 1) false .failed 34 .read, .setReplicationControl true,
      .allocate (fun _ ↦ 1) false (.found ⟨[2], 5⟩) 33 .read]

/-- The block is removed when the storage is notified of version 7, and version 5 is still
reported. -/
theorem not_invalidates :
    (getLatestVersion 33 0 (notifyChanges (fun _ ↦ 1) [(33, 7)] [(loaded, .found ⟨[3], 7⟩)])).1 =
        some 5 ∧
      ¬Invalidates (fun _ ↦ 1) [(33, 7)] [(loaded, .found ⟨[3], 7⟩)] := by
  have hlatest : (getLatestVersion 33 0
      (notifyChanges (fun _ ↦ 1) [(33, 7)] [(loaded, .found ⟨[3], 7⟩)])).1 = some 5 := by
    decide +kernel
  have hcached : (loaded.allocations.lookup 33).map Descriptor.version = some 5 := by
    decide +kernel
  have hgone : ((loaded.releaseStaleResourceStates (fun _ ↦ 1) [(33, 7)]).allocations.lookup
      33).isNone = true := by decide +kernel
  have hrows : ((loaded.releaseStaleResourceStates (fun _ ↦ 1) [(33, 7)]).rows.lookup 33).isNone =
      true := by decide +kernel
  have hstored : ((loaded.releaseStaleResourceStates (fun _ ↦ 1) [(33, 7)]).stored
      (.found ⟨[3], 7⟩) 33).map Block.version = some 7 := by decide +kernel
  rw [Option.isNone_iff_eq_none] at hgone hrows
  obtain ⟨d, hd, hversion⟩ := Option.map_eq_some_iff.1 hcached
  refine ⟨hlatest, fun h ↦ ?_⟩
  obtain ⟨s', hs', hcopy⟩ := h.reported _ List.mem_cons_self 33 d hd hgone
    (by rw [hversion]; decide) (by rw [hversion]; exact hlatest)
  obtain rfl := List.mem_singleton.1 hs'
  rcases hcopy with ⟨e, he, -⟩ | ⟨b, hb, -⟩ | ⟨b, hb, hb'⟩
  · exact Option.some_ne_none e (he.symm.trans hgone)
  · exact Option.some_ne_none b (hb.symm.trans hrows)
  · have hb'' : b.version = 7 :=
      Option.some.inj ((congrArg (Option.map Block.version) hb).symm.trans hstored)
    exact absurd (hb''.symm.trans (hb'.trans hversion)) (by decide)

end Storages

end LibSpaces.Transactions
