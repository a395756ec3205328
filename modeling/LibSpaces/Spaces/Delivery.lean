import LibSpaces.Spaces.LargeValues

/-!
# What indexing and iterating deliver

`push_space`, `src/src/storage/interface/spaces_lua.cpp:346–396`, `push_pair` and `l_pairs_iter`,
`src/src/storage/interface/space_lua.h:599–656` and `spaces_lua.cpp:517–536`, and the steps that
make the records that are stored. The name that goes before a pair, the metatable of a space and the
transactions of the storage behind a route are left out.
-/

namespace LibSpaces.Spaces

open LibSpaces.Base LibSpaces.Stx LibSpaces.Stx.Btree

/-- What `push_data` puts on the stack. -/
inductive LuaValue
  | nil
  | number (bits : UInt64)
  | boolean (b : Bool)
  | string (s : Bytes)
  deriving DecidableEq

/-- `push_data`, `space_lua.h:599–629`. -/
def pushData (d : Data) : Option LuaValue :=
  match d.type with
  | .numeric => d.getNumber.map .number
  | .boolean => d.getInteger.map fun b ↦ .boolean (b.toUInt32 != 0)
  | .text => some (.string d.sequence.stdStr)
  | .infinity => some (.number 0x7ff0000000000000)
  | _ => some .nil

/-- A value, or a space of a storage with its key and its record. -/
inductive Delivered (N : Type)
  | value (v : LuaValue)
  | space (storage : Bytes) (first : NameKey N) (second : Record)

namespace SpacesSession

variable {N : Type} [LinearOrder N] [Inhabited N] (tr : Traits) (name : UInt32 → N)
  (s : SpacesSession N) (storage : Bytes) (rounds : ℕ)

/-- `resolve_route`, `spaces_lua.cpp:351–366`: the storage and whether it is another one. -/
def resolveRoute (value : Record) : Option (Bytes × Bool) := do
  if value.isFlag .route then
    let mapped ← s.mapData name rounds value
    if storage ≠ mapped.value.sequence.stdStr then return (mapped.value.sequence.stdStr, true)
    else return (storage, false)
  else return (storage, false)

/-- `push_space`, `spaces_lua.cpp:374–396`. -/
def pushSpace (key : NameKey N) (value : Record) : Option (Delivered N) := do
  if value.isFlag .large = false ∧ value.identity ≠ 0 then
    let (storage, routed) ← s.resolveRoute name storage rounds value
    let second := if routed then
      { value.clearFlag .route with value := value.value.clear } else value
    return .space storage key second
  else
    let mapped ← s.mapData name rounds value
    let v ← pushData mapped.value
    return .value v

end SpacesSession

variable {N : Type}

/-- `push_pair`, `space_lua.h:641–655`; also `l_pairs_iter_pair`, `spaces_lua.cpp:735–745`, at an
entry. -/
def pushPair (storage : Bytes) (k : NameKey N) (v : Record) : Option (Delivered N) :=
  if v.identity ≠ 0 then some (.space storage k v) else (pushData v.value).map .value

/-- `l_pairs_iter`, `spaces_lua.cpp:517–536`, at an entry. -/
def SpacesSession.pushPairIter [LinearOrder N] [Inhabited N] (name : UInt32 → N)
    (s : SpacesSession N) (storage : Bytes) (rounds : ℕ) (k : NameKey N) (v : Record) :
    Option (Delivered N) := do
  let (storage, _) ← s.resolveRoute name storage rounds v
  pushPair storage k v

/-- `link`, `spaces_session.h:423–438`, to a space of another storage or of this one. -/
def Record.link (r : Record) (storage : Bytes) (identity : UInt64) (other : Bytes) :
    Bool × Record :=
  if identity ≠ 0 then
    if storage ≠ other then
      (true, Record.setFlag ⟨r.flags, identity, r.value.setText other⟩ .route)
    else (true, { r with identity := identity })
  else (false, r)

/-- What `insert_or_replace` leaves of a record and stores under its key. -/
def Record.left (r : Record) (id : UInt64) : Record :=
  if SpacesSession.maxBucket < r.size then ⟨(r.setFlag .large).flags, id, r.value.clear⟩ else r

/-- The records that storing and linking make. -/
inductive Made : Record → Prop
  /-- A value that is set in a record without flags; also one that `map_data` has put together. -/
  | value {d : Data} (hd : d.Produced) : Made ⟨0, 0, d⟩
  | link {d : Data} (hd : d.Produced) (storage : Bytes) (identity : UInt64) (other : Bytes) :
    Made (Record.link ⟨0, 0, d⟩ storage identity other).2
  /-- `resolve_id`. -/
  | identified {r : Record} (hr : Made r) (id : UInt64) : Made { r with identity := id }
  /-- `insert_or_replace`. -/
  | stored {r : Record} (hr : Made r) (id : UInt64) : Made (r.left id)
  /-- The record of a space that was delivered over a route. -/
  | routed {r : Record} (hr : Made r) : Made { r.clearFlag .route with value := r.value.clear }

/-- The same value, or the same space: its storage, its key and its identity. -/
def Delivered.Alike : Delivered N → Delivered N → Prop
  | .value v, .value w => v = w
  | .space storage first second, .space storage' first' second' =>
    storage = storage' ∧ first = first' ∧ second.identity = second'.identity
  | _, _ => False

variable [LinearOrder N] [Inhabited N]

/-- Indexing delivers what `pairs` and what a range delivers. -/
def DeliveredAlike (name : UInt32 → N) (s : SpacesSession N) (storage : Bytes) (k : NameKey N)
    (v : Record) : Prop :=
  ∃ rounds a b c, s.pushSpace name storage rounds k v = some a ∧
    s.pushPairIter name storage rounds k v = some b ∧ pushPair storage k v = some c ∧
    a.Alike b ∧ a.Alike c

/-- The call ends, and what is stored under the key is delivered alike. -/
def StoredAlike (tr : Traits) (name : UInt32 → N) (s : SpacesSession N) (storage : Bytes)
    (id : UInt64) (k : NameKey N) (r : Record) : Prop :=
  ∃ rounds s' v i stored, SpacesSession.insertOrReplace tr name s id rounds k r = some (s', v) ∧
    s'.set.find k = some i ∧ s'.set.deref i = some (k, stored) ∧
    DeliveredAlike name s' storage k stored

/-! ### The records -/

private theorem Data.Sized.clear {d : Data} : d.clear.Sized := AString.size_clear _

private theorem Data.Sized.exists_pushData {d : Data} (hd : d.Sized) :
    ∃ v, pushData d = some v := by
  obtain ⟨type, sequence⟩ := d
  have hnumber (hsize : sequence.size = 8) : ∃ n, Data.getNumber ⟨type, sequence⟩ = some n :=
    ⟨_, Data.getInteger_of_size (d := ⟨type, sequence⟩) hsize.ge⟩
  cases type with
  | numeric =>
    obtain ⟨n, hn⟩ := hnumber hd
    exact ⟨.number n, by rw [pushData, hn]; rfl⟩
  | boolean =>
    obtain ⟨n, hn⟩ := hnumber hd
    exact ⟨.boolean (UInt64.toUInt32 n != 0), by rw [pushData, Data.getInteger, hn]; rfl⟩
  | none => exact ⟨_, rfl⟩
  | text => exact ⟨_, rfl⟩
  | function => exact ⟨_, rfl⟩
  | multi => exact ⟨_, rfl⟩
  | infinity => exact ⟨_, rfl⟩

/-- A record that is flagged as large has no value of its own. -/
theorem Made.spec {r : Record} (hr : Made r) :
    r.value.Sized ∧ (r.isFlag .large = true → r.value.type = .none) := by
  have hplain : ¬(0 &&& Flag.large.bit != 0) = true := by decide
  induction hr with
  | value hd => exact ⟨hd.sized, fun h ↦ absurd h hplain⟩
  | @link d hd storage identity other =>
    rw [Record.link]
    split
    · split
      · refine ⟨trivial, fun h ↦ ?_⟩
        rw [(Record.isFlag_of_ne (by decide)).1] at h
        exact absurd h hplain
      · exact ⟨hd.sized, fun h ↦ absurd h hplain⟩
    · exact ⟨hd.sized, fun h ↦ absurd h hplain⟩
  | identified hr id ih => exact ih
  | @stored r hr id ih =>
    rw [Record.left]
    split
    · exact ⟨.clear, fun _ ↦ rfl⟩
    · exact ih
  | routed hr ih => exact ⟨.clear, fun _ ↦ rfl⟩

/-! ### What is delivered -/

variable {tr : Traits} {name : UInt32 → N} {s : SpacesSession N} {kvs : List (NameKey N × Record)}
  {storage : Bytes} {id : UInt64} {k : NameKey N} {r : Record}

private theorem resolveRoute_of_not_large (hlarge : r.isFlag .large = false) (rounds : ℕ) :
    s.resolveRoute name storage rounds r =
      some (if r.isFlag .route = true ∧ storage ≠ r.value.sequence.stdStr then
        (r.value.sequence.stdStr, true) else (storage, false)) := by
  rw [SpacesSession.resolveRoute, SpacesSession.mapData_of_not_large hlarge]
  by_cases hroute : r.isFlag .route = true
  · by_cases hname : storage = r.value.sequence.stdStr
    · simp [hroute, ← hname]
    · simp [hroute, hname]
  · simp [hroute]

/-- A record without identity is delivered by its value. -/
theorem deliveredAlike_of_value (hr : r.value.Sized) (hlarge : r.isFlag .large = false)
    (hidentity : r.identity = 0) : DeliveredAlike name s storage k r := by
  obtain ⟨v, hv⟩ := hr.exists_pushData
  have hspace : s.pushSpace name storage 0 k r = some (.value v) := by
    rw [SpacesSession.pushSpace, if_neg fun h ↦ h.2 hidentity,
      SpacesSession.mapData_of_not_large hlarge]
    show (pushData r.value).bind _ = _
    rw [hv]
    rfl
  have hpair (storage : Bytes) : pushPair storage k r = some (.value v) := by
    rw [pushPair, if_neg (not_not.2 hidentity), hv]
    rfl
  have hiter : s.pushPairIter name storage 0 k r = some (.value v) := by
    rw [SpacesSession.pushPairIter, resolveRoute_of_not_large hlarge]
    exact hpair _
  exact ⟨0, _, _, _, hspace, hiter, hpair storage, rfl, rfl⟩

/-- A record with an identity is delivered as a space, by indexing and by `pairs` of the storage
that it is routed to, by a range of this one. -/
theorem deliveredAlike_iff_of_space (hlarge : r.isFlag .large = false)
    (hidentity : r.identity ≠ 0) :
    DeliveredAlike name s storage k r ↔
      (r.isFlag .route = true → storage = r.value.sequence.stdStr) := by
  have hspace (rounds : ℕ) : s.pushSpace name storage rounds k r = some
      (if r.isFlag .route = true ∧ storage ≠ r.value.sequence.stdStr then
        .space r.value.sequence.stdStr k { r.clearFlag .route with value := r.value.clear }
      else .space storage k r) := by
    rw [SpacesSession.pushSpace, if_pos ⟨hlarge, hidentity⟩, resolveRoute_of_not_large hlarge]
    split <;> rfl
  have hpair (storage : Bytes) : pushPair storage k r = some (.space storage k r) :=
    if_pos hidentity
  have hiter (rounds : ℕ) : s.pushPairIter name storage rounds k r = some
      (.space (if r.isFlag .route = true ∧ storage ≠ r.value.sequence.stdStr then
        r.value.sequence.stdStr else storage) k r) := by
    rw [SpacesSession.pushPairIter, resolveRoute_of_not_large hlarge, ← hpair]
    split <;> rfl
  constructor
  · rintro ⟨rounds, a, b, c, ha, -, hc, -, hac⟩ hroute
    by_contra hname
    rw [hspace, if_pos ⟨hroute, hname⟩] at ha
    rw [hpair] at hc
    cases ha
    cases hc
    exact hname hac.1.symm
  · intro hroute
    have hnot : ¬(r.isFlag .route = true ∧ storage ≠ r.value.sequence.stdStr) :=
      fun h ↦ h.2 (hroute h.1)
    have ha := hspace 0
    have hb := hiter 0
    rw [if_neg hnot] at ha hb
    exact ⟨0, _, _, _, ha, hb, hpair storage, ⟨rfl, rfl, rfl⟩, ⟨rfl, rfl, rfl⟩⟩

/-- A large text is delivered as a text by indexing, as a space or as nil by `pairs`. -/
theorem not_deliveredAlike_of_large (hlarge : r.isFlag .large = true)
    (hnone : r.value.type = .none) : ¬DeliveredAlike name s storage k r := by
  rintro ⟨rounds, a, b, c, ha, -, hc, -, hac⟩
  obtain ⟨text, rfl⟩ : ∃ text, a = .value (.string text) := by
    rw [SpacesSession.pushSpace, if_neg (by simp [hlarge]), SpacesSession.mapData,
      if_pos hlarge] at ha
    simp only [Option.bind_eq_bind, Option.bind_eq_some_iff] at ha
    obtain ⟨mapped, ⟨i, -, buffer, -, hmapped⟩, v, hv, ha⟩ := ha
    cases hmapped
    cases hv
    cases ha
    exact ⟨_, rfl⟩
  rw [pushPair] at hc
  split at hc
  · cases hc
    exact hac
  · rw [pushData, hnone] at hc
    cases hc
    cases hac

private theorem deliveredAlike_iff (hr : Made r) :
    DeliveredAlike name s storage k r ↔ r.isFlag .large = false ∧
      (r.isFlag .route = true → r.identity ≠ 0 → storage = r.value.sequence.stdStr) := by
  cases hlarge : r.isFlag .large with
  | true =>
    exact iff_of_false (not_deliveredAlike_of_large hlarge (hr.spec.2 hlarge)) fun h ↦
      Bool.noConfusion h.1
  | false =>
    by_cases hidentity : r.identity = 0
    · exact iff_of_true (deliveredAlike_of_value hr.spec.1 hlarge hidentity)
        ⟨rfl, fun _ h ↦ absurd hidentity h⟩
    · rw [deliveredAlike_iff_of_space hlarge hidentity]
      exact ⟨fun h ↦ ⟨rfl, fun hroute _ ↦ h hroute⟩, fun h hroute ↦ h.2 hroute hidentity⟩

/-! ### What is stored -/

/-- A call that ends stores what it leaves of the record, and two rounds are enough. -/
theorem insertOrReplace_left (hs : Searchable tr s.set kvs) (name : UInt32 → N) (id : UInt64)
    (k : NameKey N) (r : Record) :
    ∃ s' i, SpacesSession.insertOrReplace tr name s id 2 k r = some (s', r.left id) ∧
      (∀ rounds p, SpacesSession.insertOrReplace tr name s id rounds k r = some p →
        p = (s', r.left id)) ∧
      s'.set.find k = some i ∧ s'.set.deref i = some (k, r.left id) := by
  by_cases hsize : SpacesSession.maxBucket < r.size
  · obtain ⟨s', kvs', hcall, hs', hmem, -⟩ :=
      SpacesSession.insertOrReplace_large_spec name hs hsize k id
    obtain ⟨-, -, i, -, hfind, -, hderef⟩ := SpacesSession.find_mem hs' ((hmem _).2 (.inl rfl))
    rw [Record.left, if_pos hsize]
    refine ⟨s', i, hcall 2, fun rounds p hp ↦ ?_, hfind, hderef⟩
    rw [hcall] at hp
    split at hp
    · cases hp
      rfl
    · cases hp
  · obtain ⟨s', kvs', hstore, hs', hmem, -⟩ := SpacesSession.store_spec hs k r
    obtain ⟨-, -, i, -, hfind, -, hderef⟩ := SpacesSession.find_mem hs' ((hmem _).2 (.inl rfl))
    have hcall (rounds : ℕ) :
        SpacesSession.insertOrReplace tr name s id rounds k r = some (s', r) := by
      rw [SpacesSession.insertOrReplace_small hsize, hstore]
      rfl
    rw [Record.left, if_neg hsize]
    refine ⟨s', i, hcall 2, fun rounds p hp ↦ ?_, hfind, hderef⟩
    rw [hcall] at hp
    cases hp
    rfl

private theorem storedAlike_iff_left (hs : Searchable tr s.set kvs) (hr : Made r) :
    StoredAlike tr name s storage id k r ↔ (r.left id).isFlag .large = false ∧
      ((r.left id).isFlag .route = true → (r.left id).identity ≠ 0 →
        storage = (r.left id).value.sequence.stdStr) := by
  obtain ⟨s', i, hcall, hsole, hfind, hderef⟩ := insertOrReplace_left hs name id k r
  constructor
  · rintro ⟨rounds, s₁, v, j, stored, hcall₁, hfind₁, hderef₁, halike⟩
    cases hsole rounds _ hcall₁
    cases hfind.symm.trans hfind₁
    cases hderef.symm.trans hderef₁
    exact (deliveredAlike_iff (hr.stored id)).1 halike
  · intro h
    exact ⟨2, s', _, i, _, hcall, hfind, hderef, (deliveredAlike_iff (hr.stored id)).2 h⟩

private theorem Record.isFlag_left : (r.left id).isFlag .large = false ↔
    r.isFlag .large = false ∧ r.size ≤ SpacesSession.maxBucket := by
  rw [Record.left]
  split
  · next hsize =>
    have hflag : Record.isFlag ⟨(r.setFlag .large).flags, id, r.value.clear⟩ .large = true :=
      isFlag_setFlag (r := r)
    rw [hflag]
    exact iff_of_false Bool.noConfusion fun h ↦ UInt32.not_lt.2 h.2 hsize
  · next hsize => exact ⟨fun h ↦ ⟨h, UInt32.not_lt.1 hsize⟩, And.left⟩

/-- What is stored is delivered alike where it is not flagged as large, neither before nor by the
call, and does not lead to a space of another storage. -/
theorem storedAlike_iff (hs : Searchable tr s.set kvs) (hr : Made r) (name : UInt32 → N)
    (storage : Bytes) (id : UInt64) (k : NameKey N) :
    StoredAlike tr name s storage id k r ↔
      (r.isFlag .large = false ∧ r.size ≤ SpacesSession.maxBucket) ∧
        (r.isFlag .route = true → r.identity ≠ 0 → storage = r.value.sequence.stdStr) := by
  rw [storedAlike_iff_left hs hr, Record.isFlag_left]
  refine and_congr_right fun h ↦ ?_
  rw [Record.left, if_neg (UInt32.not_lt.2 h.2)]

/-- A text of three bytes under a key of an empty set. -/
theorem storedAlike_iff_three :
    StoredAlike Traits.perPage UInt32.toNat ⟨emptySet, default, []⟩ [1] 7 ⟨1, 2⟩ (textOf 3) :=
  (storedAlike_iff (s := ⟨emptySet, default, []⟩) represents_emptySet.searchable
    (.value (.setText (.init _) _)) UInt32.toNat [1] 7 ⟨1, 2⟩).2
    ⟨⟨by decide, by decide +kernel⟩, fun h ↦ absurd h (by decide)⟩

/-- A text of 101 bytes is delivered as a text by indexing and as a space by `pairs`. -/
theorem not_storedAlike_hundredAndOne :
    ¬∀ (s : SpacesSession ℕ) (kvs : List (NameKey ℕ × Record)),
    Represents Traits.perPage s.set kvs →
      ∀ r, Made r → ∀ storage id k,
        StoredAlike Traits.perPage UInt32.toNat s storage id k r := by
  intro hclaim
  have halike := hclaim ⟨emptySet, default, []⟩ [] represents_emptySet (textOf 101)
    (.value (.setText (.init _) _)) [1] 7 ⟨1, 2⟩
  have hflags := Record.isFlag_left.1
    ((storedAlike_iff_left (s := ⟨emptySet, default, []⟩) represents_emptySet.searchable
      (.value (.setText (.init _) _))).1 halike).1
  exact absurd hflags.2 (by decide +kernel)

end LibSpaces.Spaces
