import LibSpaces.Spaces.Codec
import LibSpaces.Spaces.RangeQuery
import LibSpaces.Stx.Indices
import LibSpaces.Stx.Reopening

/-!
# Large values

`insert_or_replace` and `map_data`, `src/src/storage/interface/spaces_session.h:367–402,440–471`,
and the flags of a record, `src/src/storage/spaces/key.h:588–612`. `name` is the name that an index
is assigned to, and `id` is what `gen_id` returns. A record is stored as a whole; in which of its
forms the stored sequence keeps the bytes is left out, and so is the debug log.
-/

namespace LibSpaces.Spaces

open LibSpaces.Base LibSpaces.Stx LibSpaces.Stx.Btree

/-- `FLAGS`. -/
inductive Flag
  | large | route | neverSet
  deriving DecidableEq

/-- The number of a flag. -/
def Flag.code : Flag → UInt32
  | .large => 0
  | .route => 1
  | .neverSet => 16

/-- The bit of a flag. -/
def Flag.bit (flag : Flag) : UInt32 := 1 <<< flag.code

/-- `size`, `key.h:368–383`. -/
def Data.size (d : Data) : UInt32 :=
  match d.type with
  | .text | .function | .multi => .ofNat d.sequence.size
  | _ => 8

namespace Record

variable (r : Record) (flag : Flag)

/-- `set_flag`. -/
def setFlag : Record := { r with flags := r.flags ||| flag.bit }

/-- `clear_flag`. -/
def clearFlag : Record := { r with flags := r.flags &&& ~~~flag.bit }

/-- `is_flag`. -/
def isFlag : Bool := r.flags &&& flag.bit != 0

/-- `size`. -/
def size : UInt32 := r.value.size

/-- `record()`, `key.h:595–598`. -/
instance : Inhabited Record := ⟨0, 0, .init (Vector.replicate _ 0)⟩

variable {r} {flag}

/-- A flag that has been set is set. -/
theorem isFlag_setFlag : (r.setFlag flag).isFlag flag = true := by
  have hbit : flag.bit ≠ 0 := by cases flag <;> decide
  have hand : (r.flags ||| flag.bit) &&& flag.bit = flag.bit :=
    UInt32.eq_of_toBitVec_eq (BitVec.eq_of_getLsbD_eq fun i _ ↦ by
      rw [UInt32.toBitVec_and, UInt32.toBitVec_or, BitVec.getLsbD_and, BitVec.getLsbD_or,
        Bool.and_eq_right_iff_imp]
      exact fun h ↦ by rw [h, Bool.or_true])
  rw [isFlag, setFlag, hand, bne_iff_ne]
  exact hbit

/-- Flags have different bits. -/
theorem isFlag_of_ne {other : Flag} (hne : flag ≠ other) :
    (r.setFlag other).isFlag flag = r.isFlag flag ∧
      (r.clearFlag other).isFlag flag = r.isFlag flag := by
  have hbits (i : ℕ) : (other.bit.toBitVec.getLsbD i && flag.bit.toBitVec.getLsbD i) = false := by
    rw [← BitVec.getLsbD_and, show other.bit.toBitVec &&& flag.bit.toBitVec = 0 by
      cases flag <;> cases other <;> first | rfl | exact absurd rfl hne]
    exact BitVec.getLsbD_zero
  have hset : (r.flags ||| other.bit) &&& flag.bit = r.flags &&& flag.bit :=
    UInt32.eq_of_toBitVec_eq (BitVec.eq_of_getLsbD_eq fun i _ ↦ by
      rw [UInt32.toBitVec_and, UInt32.toBitVec_or, UInt32.toBitVec_and, BitVec.getLsbD_and,
        BitVec.getLsbD_or, BitVec.getLsbD_and, Bool.and_or_distrib_right, hbits, Bool.or_false])
  have hclear : (r.flags &&& ~~~other.bit) &&& flag.bit = r.flags &&& flag.bit :=
    UInt32.eq_of_toBitVec_eq (BitVec.eq_of_getLsbD_eq fun i hi ↦ by
      have hbit := hbits i
      rw [UInt32.toBitVec_and, UInt32.toBitVec_and, UInt32.toBitVec_and, UInt32.toBitVec_not,
        BitVec.getLsbD_and, BitVec.getLsbD_and, BitVec.getLsbD_and, BitVec.getLsbD_not,
        decide_eq_true hi, Bool.true_and]
      cases hother : other.bit.toBitVec.getLsbD i with
      | false => rw [Bool.not_false, Bool.and_true]
      | true =>
        rw [hother, Bool.true_and] at hbit
        rw [hbit, Bool.and_false, Bool.and_false])
  rw [isFlag, isFlag, isFlag, setFlag, clearFlag, hset, hclear]
  exact ⟨rfl, rfl⟩

end Record

/-- `spaces_session`: its set and its member `large`. `stored` notes the records that are stored. -/
structure SpacesSession (N : Type) where
  set : Btree (NameKey N) Record
  large : Record
  stored : List (NameKey N × Record)

namespace SpacesSession

variable {N : Type} [LinearOrder N] [Inhabited N] (tr : Traits) (name : UInt32 → N)

section Source

variable (s : SpacesSession N)

/-- `session.get_set()[k] = v`. -/
def store (k : NameKey N) (v : Record) : Option (SpacesSession N) := do
  let set ← s.set.assign tr k v
  return { s with set := set, stored := s.stored ++ [(k, v)] }

/-- The largest value that is not fragmented. -/
def maxBucket : UInt32 := 100

/-- The loop of `insert_or_replace`, `spaces_session.h:381–394`. -/
def fragmentLoop (v : Record) :
    ℕ → SpacesSession N → Record → UInt32 → UInt32 → Option (SpacesSession N)
  | 0, _, _, _, _ => none
  | rounds + 1, s, data, left, index =>
    if 0 < left then do
      let todo := min left v.value.size
      let data := { data with
        value := data.value.setText (v.value.sequence.data.take todo.toNat) }
      let s ← s.store tr ⟨v.identity, name index⟩ data
      fragmentLoop v rounds s data (left - todo) (index + 1)
    else some s

/-- `insert_or_replace`, `spaces_session.h:372–401`, with the value that is left in `v`. -/
def insertOrReplace (id : UInt64) (rounds : ℕ) (k : NameKey N) (v : Record) :
    Option (SpacesSession N × Record) := do
  if maxBucket < v.size then
    let v := { v.setFlag .large with identity := id }
    let s ← fragmentLoop tr name v rounds s default v.value.size 0
    let v := { v with value := v.value.clear }
    let s ← s.store tr k v
    return (s, v)
  else
    let s ← s.store tr k v
    return (s, v)

/-- The loop of `map_data`, `spaces_session.h:458–464`. -/
def mapLoop (identity : UInt64) : ℕ → Iterator → Bytes → Option Bytes
  | 0, _, _ => none
  | rounds + 1, datas, buffer => do
    let e ← s.set.endIterator
    if datas = e then return buffer
    else
      let d ← s.set.deref datas
      if d.1.context = identity then
        let datas ← s.set.next datas
        mapLoop identity rounds datas (buffer ++ d.2.value.sequence.stdStr)
      else return buffer

/-- `map_data`, `spaces_session.h:447–470`. -/
def mapData (rounds : ℕ) (original : Record) : Option Record := do
  if original.isFlag .large then
    let datas ← s.set.find ⟨original.identity, name 0⟩
    let buffer ← s.mapLoop original.identity rounds datas []
    return { s.large with identity := 0, value := s.large.value.setText buffer }
  else return original

end Source

/-- The record that is found under the key maps to the text. -/
def Reassembled (s : SpacesSession N) (k : NameKey N) (text : Bytes) : Prop :=
  ∃ i r rounds r', s.set.find k = some i ∧ s.set.deref i = some (k, r) ∧
    s.mapData name rounds r = some r' ∧ r'.value.isText = true ∧ r'.value.sequence.stdStr = text

/-- The call ends, stores no large value and leaves a record that maps to the text. -/
def Fragmented (set : Btree (NameKey N) Record) (large : Record) (id : UInt64) (k : NameKey N)
    (v : Record) : Prop :=
  ∃ rounds s' v', insertOrReplace tr name ⟨set, large, []⟩ id rounds k v = some (s', v') ∧
    (∀ p ∈ s'.stored, p.2.size ≤ maxBucket) ∧ Reassembled name s' k v.value.sequence.stdStr

variable {tr} {name} {s s' : SpacesSession N} {kvs : List (NameKey N × Record)} {k : NameKey N}
  {v data : Record} {id : UInt64}

/-- Storing a pair replaces the pair of its key and notes it as stored. -/
theorem store_spec (hs : Searchable tr s.set kvs) (k : NameKey N) (v : Record) :
    ∃ s' kvs', s.store tr k v = some s' ∧ Searchable tr s'.set kvs' ∧
      (∀ p, p ∈ kvs' ↔ p = (k, v) ∨ p ∈ kvs ∧ p.1 ≠ k) ∧ s'.large = s.large ∧
      s'.stored = s.stored ++ [(k, v)] := by
  obtain ⟨set, hset, hs'⟩ := hs.assign k v
  refine ⟨{ s with set := set, stored := s.stored ++ [(k, v)] }, _, ?_, hs',
    fun p ↦ mem_assignKey_insertKey, rfl, rfl⟩
  rw [store, hset]
  rfl

/-- The fragment that a text of any length is put into. -/
def fragment (data v : Record) : Record :=
  { data with value := data.value.setText (v.value.sequence.data.take v.value.size.toNat) }

/-- The first round of the loop takes the whole text, the second one ends it. -/
theorem fragmentLoop_eq (hs : Searchable tr s.set kvs) (hpos : 0 < v.value.size) (rounds : ℕ) :
    fragmentLoop tr name v rounds s data v.value.size 0 =
      if 2 ≤ rounds then s.store tr ⟨v.identity, name 0⟩ (fragment data v) else none := by
  obtain ⟨s', -, hstore, -⟩ := store_spec hs ⟨v.identity, name 0⟩ (fragment data v)
  have hdone : ¬0 < v.value.size - v.value.size := by simp
  have htodo : min v.value.size v.value.size = v.value.size := ite_self _
  cases rounds with
  | zero => rfl
  | succ rounds =>
    rw [fragmentLoop, if_pos hpos, htodo]
    show (s.store tr ⟨v.identity, name 0⟩ (fragment data v)).bind _ = _
    rw [hstore, Option.bind_some]
    cases rounds with
    | zero => rfl
    | succ rounds => rw [fragmentLoop, if_neg hdone, if_pos (Nat.le_add_left 2 rounds)]

/-- The loop collects the values of the entries that follow in the container. -/
theorem mapLoop_spec (hs : Searchable tr s.set kvs) (identity : UInt64) {index n : ℕ} {i : Iterator}
    (hi : s.set.At index i) (hn : index + n = kvs.length) (buffer : Bytes) :
    s.mapLoop identity (n + 1) i buffer = some (buffer ++
      ((kvs.drop index).takeWhile fun p ↦ decide (p.1.context = identity)).flatMap
        fun p ↦ p.2.value.sequence.stdStr) := by
  obtain ⟨e, hend, he⟩ := hs.exists_end
  induction n generalizing index i buffer with
  | zero =>
    have hie : i = e := hs.at_unique hi (by rwa [← hn] at he)
    rw [mapLoop, hend, List.drop_eq_nil_of_le (by omega)]
    simp [hie]
  | succ n ih =>
    have hlt : index < kvs.length := by omega
    have hie : i ≠ e := fun hie ↦ hlt.ne (hs.at_index hi (hie ▸ he))
    rw [mapLoop, hend, hs.deref_at hi hlt, List.drop_eq_getElem_cons hlt]
    simp only [Option.bind_eq_bind, Option.bind_some, if_neg hie]
    split
    · next hcontext =>
      obtain ⟨j, hj, hat⟩ := hs.next_at hi hlt
      rw [hj, Option.bind_some, ih hat (by omega),
        List.takeWhile_cons_of_pos (by simpa using hcontext), List.flatMap_cons, List.append_assoc]
    · next hcontext =>
      rw [List.takeWhile_cons_of_neg (by simpa using hcontext), List.flatMap_nil, List.append_nil]
      rfl

private theorem length_stdStr_lt (a : AString) : a.stdStr.length < 2 ^ 32 :=
  a.length_stdStr.trans_lt (Data.size_lt a)

/-- A stored record is found. -/
theorem find_mem (hs : Searchable tr s.set kvs) {r : Record} (hr : (k, r) ∈ kvs) :
    ∃ A B i, kvs = A ++ (k, r) :: B ∧ s.set.find k = some i ∧ s.set.At A.length i ∧
      s.set.deref i = some (k, r) := by
  obtain ⟨A, B, hkvs⟩ := List.append_of_mem hr
  obtain ⟨i, hfind, hi⟩ := hs.find_at hkvs
  have hlt : A.length < kvs.length := by simp [hkvs]
  refine ⟨A, B, i, hkvs, hfind, hi, ?_⟩
  rw [hs.deref_at hi hlt]
  simp [hkvs]

/-- A record that is not flagged is mapped to itself. -/
theorem mapData_of_not_large (hlarge : v.isFlag .large = false) (rounds : ℕ) :
    s.mapData name rounds v = some v := by
  rw [mapData, if_neg (by simp [hlarge])]
  rfl

private theorem reassembled_of_not_large (hs : Searchable tr s.set kvs) (hv : (k, v) ∈ kvs)
    (htext : v.value.isText = true) (hlarge : v.isFlag .large = false) :
    Reassembled name s k v.value.sequence.stdStr := by
  obtain ⟨-, -, i, -, hfind, -, hderef⟩ := find_mem hs hv
  exact ⟨i, v, 0, v, hfind, hderef, mapData_of_not_large hlarge 0, htext, rfl⟩

/-- A record that is flagged is mapped to its fragment where that is all of its container. -/
theorem reassembled_of_large (hs : Searchable tr s.set kvs) {r f : Record} (hr : (k, r) ∈ kvs)
    (hlarge : r.isFlag .large = true) (hf : (⟨r.identity, name 0⟩, f) ∈ kvs)
    (hsole : ∀ p ∈ kvs, p.1.context = r.identity → p.1 = ⟨r.identity, name 0⟩) :
    Reassembled name s k f.value.sequence.stdStr := by
  obtain ⟨-, -, i, -, hfind, -, hderef⟩ := find_mem hs hr
  obtain ⟨A, B, j, hkvs, hfind', hj, -⟩ := find_mem hs hf
  have hrest : (B.takeWhile fun p ↦ decide (p.1.context = r.identity)) = [] := by
    cases B with
    | nil => rfl
    | cons q B =>
      refine List.takeWhile_cons_of_neg fun hq ↦ ?_
      have hq' := hsole q (hkvs ▸ by simp) (of_decide_eq_true hq)
      have hsorted := (sorted_append.1 (hkvs ▸ hs.sorted)).2.1
      exact ((sorted_cons.1 hsorted).1 q List.mem_cons_self).ne' hq'
  have hloop := mapLoop_spec hs r.identity hj
    (show A.length + (B.length + 1) = kvs.length by simp [hkvs]) []
  rw [hkvs, List.drop_left' rfl, List.takeWhile_cons_of_pos (by simp), hrest,
    List.flatMap_singleton, List.nil_append] at hloop
  have hmap : s.mapData name (B.length + 2) r = some { s.large with
      identity := 0, value := s.large.value.setText f.value.sequence.stdStr } := by
    rw [mapData, if_pos hlarge, hfind']
    simp only [Option.bind_eq_bind, Option.bind_some, hloop]
    rfl
  refine ⟨i, r, _, _, hfind, hderef, hmap, rfl, ?_⟩
  exact (AString.stdStr_setData _ _).trans (AString.cut_of_lt (length_stdStr_lt _))

private theorem toNat_size (hv : v.value.isText = true) :
    v.value.size.toNat = v.value.sequence.size := by
  have htype : v.value.type = .text := eq_of_beq hv
  rw [Data.size, htype]
  exact UInt32.toNat_ofNat_of_lt' (Data.size_lt _)

variable (data) in
/-- The fragment of a text is the text. -/
theorem stdStr_fragment (hv : v.value.isText = true) :
    (fragment data v).value.sequence.stdStr = v.value.sequence.stdStr := by
  refine (AString.stdStr_setData _ _).trans ?_
  rw [toNat_size hv]
  exact AString.cut_of_lt (length_stdStr_lt _)

private theorem size_fragment (hv : v.value.isText = true) : (fragment data v).size = v.size := by
  have htype : v.value.type = .text := eq_of_beq hv
  have hsize := congrArg List.length (stdStr_fragment data hv)
  rw [AString.length_stdStr, AString.length_stdStr] at hsize
  show UInt32.ofNat (fragment data v).value.sequence.size = _
  rw [hsize, Record.size, Data.size, htype]

/-- A call for a text that is not large stores it. -/
theorem insertOrReplace_small (hv : ¬maxBucket < v.size) (rounds : ℕ) :
    insertOrReplace tr name s id rounds k v = (s.store tr k v).map fun s' ↦ (s', v) := by
  rw [insertOrReplace, if_neg hv]
  cases s.store tr k v <;> rfl

/-- A call for a large text stores its fragment, then the record without a value. -/
theorem insertOrReplace_large (hs : Searchable tr s.set kvs) (hv : maxBucket < v.size)
    (rounds : ℕ) :
    insertOrReplace tr name s id rounds k v = if 2 ≤ rounds then
      (s.store tr ⟨id, name 0⟩ (fragment default v)).bind fun s₁ ↦
        (s₁.store tr k ⟨(v.setFlag .large).flags, id, v.value.clear⟩).map fun s' ↦
          (s', ⟨(v.setFlag .large).flags, id, v.value.clear⟩) else none := by
  have hpos : 0 < (Record.mk (v.setFlag .large).flags id v.value).value.size :=
    UInt32.lt_of_le_of_lt UInt32.zero_le hv
  rw [insertOrReplace, if_pos hv]
  show (fragmentLoop tr name ⟨(v.setFlag .large).flags, id, v.value⟩ rounds s default
    v.value.size 0).bind _ = _
  rw [show fragmentLoop tr name ⟨(v.setFlag .large).flags, id, v.value⟩ rounds s default
    v.value.size 0 = _ from fragmentLoop_eq hs hpos rounds]
  split
  · refine congrArg (Option.bind _) (funext fun s₁ ↦ ?_)
    show (s₁.store tr k ⟨(v.setFlag .large).flags, id, v.value.clear⟩).bind _ = _
    cases s₁.store tr k ⟨(v.setFlag .large).flags, id, v.value.clear⟩ <;> rfl
  · rfl

variable (name) in
/-- What a call for a large text leaves. -/
theorem insertOrReplace_large_spec (hs : Searchable tr s.set kvs) (hv : maxBucket < v.size)
    (k : NameKey N) (id : UInt64) :
    ∃ s' kvs', (∀ rounds, insertOrReplace tr name s id rounds k v =
        if 2 ≤ rounds then some (s', ⟨(v.setFlag .large).flags, id, v.value.clear⟩) else none) ∧
      Searchable tr s'.set kvs' ∧
      (∀ p, p ∈ kvs' ↔ p = (k, ⟨(v.setFlag .large).flags, id, v.value.clear⟩) ∨
        (p = (⟨id, name 0⟩, fragment default v) ∨ p ∈ kvs ∧ p.1 ≠ ⟨id, name 0⟩) ∧ p.1 ≠ k) ∧
      (⟨id, name 0⟩, fragment default v) ∈ s'.stored := by
  obtain ⟨s₁, kvs₁, hstore₁, hs₁, hmem₁, -, hstored₁⟩ :=
    store_spec hs ⟨id, name 0⟩ (fragment default v)
  obtain ⟨s', kvs', hstore, hs', hmem, -, hstored⟩ :=
    store_spec hs₁ k ⟨(v.setFlag .large).flags, id, v.value.clear⟩
  refine ⟨s', kvs', fun rounds ↦ ?_, hs', fun p ↦ ?_, ?_⟩
  · rw [insertOrReplace_large hs hv, hstore₁, Option.bind_some, hstore]
    rfl
  · rw [hmem, hmem₁]
  · rw [hstored, hstored₁]
    simp

/-- The record of a large text is too large itself. -/
theorem size_le_of_fragmented {set : Btree (NameKey N) Record} (hs : Searchable tr set kvs)
    {large : Record} (hv : v.value.isText = true) (h : Fragmented tr name set large id k v) :
    v.size ≤ maxBucket := by
  obtain ⟨rounds, s', v', heq, hsmall, -⟩ := h
  by_contra hsize
  obtain ⟨s'', -, hcall, -, -, hstored⟩ :=
    insertOrReplace_large_spec name (s := ⟨set, large, []⟩) hs (UInt32.not_le.1 hsize) k id
  rw [hcall] at heq
  split at heq
  · cases heq
    have hfragment := hsmall _ hstored
    rw [size_fragment hv] at hfragment
    exact hsize hfragment
  · cases heq

private theorem fragmented_of_size_le {set : Btree (NameKey N) Record} (hs : Searchable tr set kvs)
    (large : Record) (hv : v.value.isText = true) (hlarge : v.isFlag .large = false)
    (hsize : v.size ≤ maxBucket) : Fragmented tr name set large id k v := by
  obtain ⟨s', kvs', hstore, hs', hmem, -, hstored⟩ := store_spec (s := ⟨set, large, []⟩) hs k v
  refine ⟨0, s', v, ?_, fun p hp ↦ ?_,
    reassembled_of_not_large hs' ((hmem _).2 (.inl rfl)) hv hlarge⟩
  · rw [insertOrReplace_small (UInt32.not_lt.2 hsize), hstore]
    rfl
  · rw [hstored, List.nil_append, List.mem_singleton] at hp
    exact hp ▸ hsize

/-- A large text is given back where its identity is new. -/
theorem exists_reassembled_of_large (hs : Searchable tr s.set kvs) (hv : v.value.isText = true)
    (hsize : maxBucket < v.size) (hfresh : ∀ p ∈ kvs, p.1.context ≠ id) (hk : k.context ≠ id) :
    ∃ rounds s' v', insertOrReplace tr name s id rounds k v = some (s', v') ∧
      Reassembled name s' k v.value.sequence.stdStr := by
  obtain ⟨s', kvs', hcall, hs', hmem, -⟩ := insertOrReplace_large_spec name hs hsize k id
  refine ⟨2, s', _, hcall 2, ?_⟩
  rw [← stdStr_fragment default hv]
  refine reassembled_of_large hs' ((hmem _).2 (.inl rfl)) Record.isFlag_setFlag
    ((hmem _).2 (.inr ⟨.inl rfl, fun h ↦ hk (congrArg NameKey.context h).symm⟩)) ?_
  intro p hp hcontext
  rcases (hmem p).1 hp with rfl | ⟨rfl | ⟨hp, -⟩, -⟩
  · exact absurd hcontext hk
  · rfl
  · exact absurd hcontext (hfresh p hp)

/-- A text is stored in values of at most `maxBucket` bytes where it has no more bytes itself. It is
given back whatever its length is, where `gen_id` returns an identity that no key has. -/
theorem fragmented_iff {set : Btree (NameKey N) Record} (hs : Searchable tr set kvs)
    (large : Record) (id : UInt64) (k : NameKey N) (hv : v.value.isText = true)
    (hlarge : v.isFlag .large = false) :
    (Fragmented tr name set large id k v ↔ v.size ≤ maxBucket) ∧
      ((∀ p ∈ kvs, p.1.context ≠ id) → k.context ≠ id → ∃ rounds s' v',
        insertOrReplace tr name ⟨set, large, []⟩ id rounds k v = some (s', v') ∧
          Reassembled name s' k v.value.sequence.stdStr) := by
  refine ⟨⟨size_le_of_fragmented hs hv, fragmented_of_size_le hs large hv hlarge⟩,
    fun hfresh hk ↦ ?_⟩
  by_cases hsize : maxBucket < v.size
  · exact exists_reassembled_of_large (s := ⟨set, large, []⟩) hs hv hsize hfresh hk
  · obtain ⟨rounds, s', v', heq, -, hback⟩ :=
      fragmented_of_size_le hs large hv hlarge (UInt32.not_lt.1 hsize)
    exact ⟨rounds, s', v', heq, hback⟩

end SpacesSession

/-- A record with a text of this many bytes. -/
def textOf (count : ℕ) : Record :=
  ⟨0, 0, (Data.init (Vector.replicate _ 0)).setText (List.replicate count 97)⟩

/-- A tree without entries. -/
def emptySet : Btree (NameKey ℕ) Record := blank Storage.empty

/-- The empty set represents the empty map. -/
theorem represents_emptySet : Represents Traits.perPage emptySet [] :=
  represents_blank Storage.unlooped_empty

/-- A text of 100 bytes. -/
theorem fragmented_iff_hundred :
    SpacesSession.Fragmented Traits.perPage UInt32.toNat emptySet default 7 ⟨1, 2⟩ (textOf 100) :=
  (SpacesSession.fragmented_iff represents_emptySet.searchable default 7 ⟨1, 2⟩ (by decide)
    (by decide)).1.2 (by decide +kernel)

/-- A text of 101 bytes is stored in one value. -/
theorem not_fragmented_hundredAndOne :
    ¬∀ (set : Btree (NameKey ℕ) Record) (kvs : List (NameKey ℕ × Record)),
      Represents Traits.perPage set kvs →
        ∀ (large : Record) (id : UInt64) (k : NameKey ℕ) (v : Record), v.value.isText = true →
          v.isFlag .large = false → (∀ p ∈ kvs, p.1.context ≠ id) → k.context ≠ id →
            SpacesSession.Fragmented Traits.perPage UInt32.toNat set large id k v := by
  intro hclaim
  have hsize := SpacesSession.size_le_of_fragmented represents_emptySet.searchable (by decide)
    (hclaim emptySet [] represents_emptySet default 7 ⟨1, 2⟩ (textOf 101) (by decide) (by decide)
      (fun _ hp ↦ nomatch hp) (by decide))
  exact absurd hsize (by decide +kernel)

end LibSpaces.Spaces
