import LibSpaces.Base.Bytes
import Mathlib.Data.Set.Insert

/-!
# Keys of the spaces tree and their comparison

`src/src/storage/spaces/key.h`. A key is a context number and a name; a text
name is kept inline while it is shorter than the inline buffer and moves to a
heap buffer afterwards. The B+ tree descends by `key::operator<` and stops by
`key::operator==`, so the two have to form a strict total order.
-/

namespace LibSpaces.Spaces

open LibSpaces.Base

/-- `data_type`, `src/src/storage/spaces/data_type.h` and `key.h:18–29`. -/
inductive DataType
  | none | numeric | boolean | text | function | multi | infinity
  deriving DecidableEq, Repr

/-- The enumerator values. -/
def DataType.code : DataType → Int
  | .none => 0
  | .numeric => 1
  | .boolean => 2
  | .text => 3
  | .function => 4
  | .multi => 5
  | .infinity => 6

/-- `sizeof(tracked_buffer)`, the size of the inline buffer of `astring`: three
pointers of an eight byte machine. -/
def sequenceSize : ℕ := 24

/-- `astring`, `key.h:31–35`: below `sequenceSize` bytes the name lives in the inline
buffer and `l` counts the bytes in use; a long name lives in a `tracked_buffer` whose
size is passed as a `ui4`. A name that was long stays long when it gets shorter. -/
inductive AString
  | inline (l : ℕ) (sequence : Vector UInt8 sequenceSize) (hl : l < sequenceSize)
  | long (str : Bytes) (hs : str.length < 2 ^ 32)

namespace AString

/-- `astring::is_long`, `key.h:103–105`. -/
def isLong : AString → Bool
  | inline .. => false
  | long .. => true

/-- `astring::size`, `key.h:120–123`. -/
def size : AString → ℕ
  | inline l _ _ => l
  | long str _ => str.length

/-- The bytes that can be read from `astring::data`, `key.h:124–127`: the whole
inline buffer, or the elements of the heap buffer. -/
def data : AString → Bytes
  | inline _ sequence _ => sequence.toList
  | long str _ => str

/-- `astring::std_str`, `key.h:128–136`: the name itself. -/
def stdStr (a : AString) : Bytes := a.data.take a.size

/-- `resize(l, data)` on a fresh string, `key.h:47–61`: inline below `sequenceSize`
bytes, long from there on. -/
def ofBytes (bytes : Bytes) (h : bytes.length < 2 ^ 32) : AString :=
  if hl : bytes.length < sequenceSize then
    inline bytes.length ⟨(bytes ++ List.replicate (sequenceSize - bytes.length) 0).toArray,
      by simp; omega⟩ hl
  else long bytes h

/-- The conversion of a `size_t` to `i4`: the low 32 bits in two's complement. -/
def toI4 (n : ℕ) : Int := if n % 2 ^ 32 < 2 ^ 31 then n % 2 ^ 32 else n % 2 ^ 32 - 2 ^ 32

/-- The conversion of an `i4` to the `size_t` bound of `memcmp`. -/
def i4ToSize (i : Int) : ℕ := (i % 2 ^ 64).toNat

/-- The bound `std::min<i4>(m, n)` as `memcmp` receives it. -/
def minSize (m n : ℕ) : ℕ := i4ToSize (min (toI4 m) (toI4 n))

/-- `astring::compare_data_long`, `key.h:66–71`: the shared length alone decides. -/
def compareDataLong (a right : AString) : Option Int :=
  memcmp (minSize a.size right.size) a.data right.data

/-- `astring::compare`, `key.h:145–159`: two inline names break a tie by their
lengths; every other pair goes to `compareDataLong`. `none` is a read past the end
of one of the two names. -/
def compare (a right : AString) : Option Int :=
  if ¬right.isLong ∧ ¬a.isLong then
    (memcmp (minSize a.size right.size) a.data right.data).map
      (fun r ↦ if r = 0 then (a.size : Int) - right.size else r)
  else a.compareDataLong right

/-- A string is not longer than what stands in its buffer. -/
theorem size_le_length_data (a : AString) : a.size ≤ a.data.length := by
  cases a with
  | inline l sequence hl => simpa [size, data] using Nat.le_of_lt hl
  | long str hs => exact Nat.le_refl _

/-- The name has as many bytes as `size` says. -/
@[simp] theorem length_stdStr (a : AString) : a.stdStr.length = a.size := by
  rw [stdStr, List.length_take, Nat.min_eq_left a.size_le_length_data]

/-- A fresh string holds the bytes it was built from. -/
@[simp] theorem stdStr_ofBytes (bytes : Bytes) (h : bytes.length < 2 ^ 32) :
    (ofBytes bytes h).stdStr = bytes := by
  unfold ofBytes
  split
  · next hl => simp [stdStr, data, size, Vector.toList]
  · next hl => simp [stdStr, data, size]

/-- The length fits the signed bound of the comparison. -/
def FitsI4 (a : AString) : Prop := a.size < 2 ^ 31

instance (a : AString) : Decidable a.FitsI4 := inferInstanceAs (Decidable (_ < _))

private theorem fitsI4_of_not_isLong (a : AString) (h : a.isLong = false) : a.FitsI4 := by
  cases a with
  | inline l sequence hl =>
    have hlt : l < 24 := hl
    simp only [FitsI4, size]
    omega
  | long str hs => simp [isLong] at h

private theorem minSize_of_lt (m n : ℕ) (hm : m < 2 ^ 31) (hn : n < 2 ^ 31) :
    minSize m n = min m n := by
  have hi : ∀ i : ℕ, i < 2 ^ 31 → toI4 i = i := by
    intro i hi
    have hmod : i % 2 ^ 32 = i := Nat.mod_eq_of_lt (by omega)
    rw [toI4, hmod, if_pos hi]
    omega
  rw [minSize, hi m hm, hi n hn, i4ToSize]
  omega

/-- From 2³¹ bytes on the bound passed to `memcmp` is no longer a length. -/
theorem le_minSize_self (m : ℕ) (hm : 2 ^ 31 ≤ m) (hlt : m < 2 ^ 32) : 2 ^ 63 ≤ minSize m m := by
  have hmod : m % 2 ^ 32 = m := Nat.mod_eq_of_lt hlt
  have hi : toI4 m = (m : Int) - 2 ^ 32 := by
    rw [toI4, hmod, if_neg (by omega)]
    omega
  rw [minSize, hi, min_self, i4ToSize]
  omega

/-- While both lengths fit, the scan is over the names on their shared length. -/
theorem memcmp_minSize (a b : AString) (ha : a.FitsI4) (hb : b.FitsI4) :
    memcmp (minSize a.size b.size) a.data b.data =
      memcmp (min a.stdStr.length b.stdStr.length) a.stdStr b.stdStr := by
  rw [minSize_of_lt a.size b.size ha hb, length_stdStr, length_stdStr, stdStr, stdStr,
    memcmp_take _ _ _ _ _ (Nat.min_le_left _ _) (Nat.min_le_right _ _)]

/-- Two inline names are compared lexicographically. -/
theorem compare_inline (a b : AString) (ha : a.isLong = false) (hb : b.isLong = false) :
    (a.compare b).map signOrder = some (Ord.compare a.stdStr b.stdStr) := by
  have hm := memcmp_minSize a b (fitsI4_of_not_isLong a ha) (fitsI4_of_not_isLong b hb)
  have hl := memcmp_then_length a.stdStr b.stdStr
  rw [compare, if_pos (by simp [ha, hb]), hm, Option.map_map]
  simpa only [length_stdStr, Function.comp_def] using hl

/-- A pair with a long name is compared on the shared length only. -/
theorem compare_long (a b : AString) (hl : a.isLong = true ∨ b.isLong = true) (ha : a.FitsI4)
    (hb : b.FitsI4) :
    a.compare b = memcmp (min a.stdStr.length b.stdStr.length) a.stdStr b.stdStr := by
  rw [compare, if_neg (by rcases hl with h | h <;> simp [h]), compareDataLong,
    memcmp_minSize a b ha hb]

/-- The pairs that `compare` orders by their bytes: both inline, or neither name
a proper prefix of the other. -/
def Separated (a b : AString) : Prop :=
  a.isLong = true ∨ b.isLong = true →
    (a.stdStr <+: b.stdStr ∨ b.stdStr <+: a.stdStr) → a.stdStr = b.stdStr

/-- On separated names `compare` is the lexicographic order of the bytes. -/
theorem compare_separated (a b : AString) (ha : a.FitsI4) (hb : b.FitsI4)
    (hs : a.Separated b) :
    (a.compare b).map signOrder = some (Ord.compare a.stdStr b.stdStr) := by
  by_cases hl : a.isLong = true ∨ b.isLong = true
  · rw [compare_long a b hl ha hb]
    exact memcmp_min_of_not_isPrefix a.stdStr b.stdStr (fun h ↦ hs hl (.inl h))
      (fun h ↦ hs hl (.inr h))
  · simp only [not_or, Bool.not_eq_true] at hl
    exact compare_inline a b hl.1 hl.2

/-- A long name and any name it extends, or that extends it, compare equal. -/
theorem compare_of_isPrefix (a b : AString) (ha : a.FitsI4) (hb : b.FitsI4)
    (hl : a.isLong = true ∨ b.isLong = true) (hp : a.stdStr <+: b.stdStr) :
    a.compare b = some 0 := by
  rw [compare_long a b hl ha hb, Nat.min_eq_left hp.length_le]
  exact memcmp_of_isPrefix a.stdStr b.stdStr hp

/-- A name of 2³¹ bytes or more cannot be compared with itself. -/
theorem compare_self_of_not_fits (a : AString) (h : ¬a.FitsI4) : a.compare a = none := by
  cases a with
  | inline l sequence hl => exact absurd (fitsI4_of_not_isLong _ rfl) h
  | long str hs =>
    have hsize : 2 ^ 31 ≤ str.length := Nat.le_of_not_lt h
    have hb := le_minSize_self str.length hsize hs
    rw [compare, if_neg (by simp [isLong]), compareDataLong]
    exact memcmp_self_past_end str _ (Nat.lt_of_lt_of_le (Nat.lt_trans hs (by omega)) hb)

end AString

/-- An IEEE 754 double as its 64 bits. -/
abbrev Double := UInt64

namespace Double

/-- Exponent all ones and a non-zero fraction. -/
def isNaN (d : Double) : Bool := d.toNat % 2 ^ 63 > 0x7ff0000000000000

/-- The position on the number line of a double that is not a NaN: the magnitude
bits count up from zero, the sign bit mirrors them. -/
def rank (d : Double) : Int :=
  if d.toNat < 2 ^ 63 then d.toNat else -(d.toNat - 2 ^ 63 : Int)

/-- The built-in `<` on doubles: false as soon as one of the two is a NaN. -/
def lt (a b : Double) : Bool := !isNaN a && !isNaN b && decide (rank a < rank b)

end Double

/-- `data`, `key.h:192–196`: a type and the sequence that holds the text or the
eight bytes of a number. -/
structure Data where
  type : DataType
  sequence : AString

namespace Data

/-- `data::is_text`, `key.h:315–317`. -/
def isText (d : Data) : Bool := d.type == .text

/-- `data::get_number`, `key.h:235–237`: the first eight bytes of the sequence read
as a double; `none` when a long sequence holds fewer. -/
def getNumber (d : Data) : Option Double :=
  if 8 ≤ d.sequence.data.length then
    some (UInt64.ofNat (ofLeBytes (d.sequence.data.take 8)))
  else Option.none

/-- `data::compare`, `key.h:290–299`: types first, then text by bytes and
everything else by its number. -/
def compare (d right : Data) : Option Int :=
  if d.type ≠ right.type then some (d.type.code - right.type.code)
  else if d.isText then d.sequence.compare right.sequence
  else do
    let l ← d.getNumber
    let r ← right.getNumber
    if Double.lt l r then some (-1)
    else if Double.lt r l then some 1
    else some 0

/-- `data::operator!=`, `key.h:300–302`. -/
def ne (d r : Data) : Option Bool := (d.compare r).map (fun c ↦ decide (c ≠ 0))

/-- A number of eight inline bytes is always there to be read. -/
theorem getNumber_isSome (d : Data) (h : d.sequence.isLong = false) : d.getNumber.isSome := by
  obtain ⟨type, sequence⟩ := d
  cases sequence with
  | inline l sequence hl =>
    have h8 : 8 ≤ sequenceSize := by decide
    simp [getNumber, AString.data, h8]
  | long str hs => simp [AString.isLong] at h

end Data

/-- `key`, `key.h:462–466`. -/
structure Key where
  context : UInt64
  name : Data

namespace Key

/-- `key::operator!=`, `key.h:482–484`; `none` when the name comparison reads past an end. -/
def ne (a r : Key) : Option Bool := if a.context ≠ r.context then some true else a.name.ne r.name

/-- `key::operator==`, `key.h:485–487`. -/
def eq (a r : Key) : Option Bool := (a.ne r).map not

/-- `key::operator<`, `key.h:488–491`. -/
def lt (a r : Key) : Option Bool :=
  if a.context ≠ r.context then some (decide (a.context < r.context))
  else (a.name.compare r.name).map (fun c ↦ decide (c < 0))

end Key

/-- The keys with a text name. -/
structure TextKey where
  context : UInt64
  name : AString

namespace TextKey

/-- The key that the tree stores. -/
def toKey (k : TextKey) : Key := ⟨k.context, ⟨.text, k.name⟩⟩

/-- What two keys have in common when they are the same key. -/
def Same (a b : TextKey) : Prop := a.context = b.context ∧ a.name.stdStr = b.name.stdStr

/-- The order that a B+ tree over these keys needs: contexts first, then bytes. -/
def contentCompare : TextKey → TextKey → Ordering :=
  compareLex (compareOn TextKey.context) (compareOn (fun k ↦ k.name.stdStr))

/-- The law of a strict total order whose equality is `Same`, for the code's two
operators on the keys of a set. -/
structure StrictTotalOn (S : Set TextKey) : Prop where
  irrefl : ∀ a ∈ S, a.toKey.lt a.toKey = some false
  trans : ∀ a ∈ S, ∀ b ∈ S, ∀ c ∈ S,
    a.toKey.lt b.toKey = some true → b.toKey.lt c.toKey = some true →
      a.toKey.lt c.toKey = some true
  trichotomy : ∀ a ∈ S, ∀ b ∈ S,
    (a.toKey.lt b.toKey, b.toKey.lt a.toKey, a.toKey.eq b.toKey) ∈
      ({(some true, some false, some false), (some false, some true, some false),
        (some false, some false, some true)} : Set (Option Bool × Option Bool × Option Bool))
  same_of_eq : ∀ a ∈ S, ∀ b ∈ S, a.toKey.eq b.toKey = some true → a.Same b

/-- The pairs of keys that the comparison tells apart. -/
def Separated (a b : TextKey) : Prop := a.context = b.context → a.name.Separated b.name

instance : Std.TransCmp contentCompare := inferInstanceAs (Std.TransCmp (compareLex _ _))

/-- Equality in the content order is having the same context and the same bytes. -/
theorem contentCompare_eq_eq_iff (a b : TextKey) : contentCompare a b = .eq ↔ a.Same b := by
  simp [contentCompare, compareLex, compareOn, Same]

/-- Keys of one context are ordered by the bytes of their names. -/
theorem contentCompare_of_context_eq (a b : TextKey) (h : a.context = b.context) :
    contentCompare a b = Ord.compare a.name.stdStr b.name.stdStr := by
  simp [contentCompare, compareLex, compareOn, h]

/-- Keys of different contexts are ordered by the contexts. -/
theorem contentCompare_of_context_ne (a b : TextKey) (h : a.context ≠ b.context) :
    contentCompare a b = Ord.compare a.context b.context := by
  have hne : Ord.compare a.context b.context ≠ .eq := by simpa using h
  rw [contentCompare, compareLex, compareOn]
  cases hc : Ord.compare a.context b.context <;> simp_all

/-- On separated names `operator<` reads the content order. -/
theorem lt_eq_contentCompare (a b : TextKey) (ha : a.name.FitsI4) (hb : b.name.FitsI4)
    (hs : a.Separated b) : a.toKey.lt b.toKey = some (decide (contentCompare a b = .lt)) := by
  by_cases hc : a.context = b.context
  · have hcmp := AString.compare_separated a.name b.name ha hb (hs hc)
    obtain ⟨r, hr, hsign⟩ := Option.map_eq_some_iff.mp hcmp
    rw [Key.lt, if_neg (by simp [toKey, hc]), contentCompare_of_context_eq a b hc, ← hsign]
    simp [toKey, Data.compare, Data.isText, hr, ← signOrder_eq_lt]
  · rw [Key.lt, if_pos (by simpa [toKey] using hc), contentCompare_of_context_ne a b hc]
    exact congrArg some (decide_eq_decide.mpr Std.compare_eq_lt.symm)

/-- On separated names `operator==` reads the content order. -/
theorem eq_eq_contentCompare (a b : TextKey) (ha : a.name.FitsI4) (hb : b.name.FitsI4)
    (hs : a.Separated b) : a.toKey.eq b.toKey = some (decide (contentCompare a b = .eq)) := by
  by_cases hc : a.context = b.context
  · have hcmp := AString.compare_separated a.name b.name ha hb (hs hc)
    obtain ⟨r, hr, hsign⟩ := Option.map_eq_some_iff.mp hcmp
    rw [Key.eq, Key.ne, if_neg (by simp [toKey, hc]), contentCompare_of_context_eq a b hc,
      ← hsign]
    simp [toKey, Data.ne, Data.compare, Data.isText, hr]
  · rw [Key.eq, Key.ne, if_pos (by simpa [toKey] using hc), contentCompare_of_context_ne a b hc]
    simp [hc]

/-- A key that runs past the end of its own name has no order. -/
theorem lt_self_of_not_fits (a : TextKey) (h : ¬a.name.FitsI4) : a.toKey.lt a.toKey = none := by
  simp [Key.lt, toKey, Data.compare, Data.isText, AString.compare_self_of_not_fits a.name h]

/-- A long name and one that extends it make equal keys. -/
theorem eq_of_isPrefix (a b : TextKey) (ha : a.name.FitsI4) (hb : b.name.FitsI4)
    (hc : a.context = b.context) (hl : a.name.isLong = true ∨ b.name.isLong = true)
    (hp : a.name.stdStr <+: b.name.stdStr) : a.toKey.eq b.toKey = some true := by
  have hcmp := AString.compare_of_isPrefix a.name b.name ha hb hl hp
  simp [Key.eq, Key.ne, toKey, hc, Data.ne, Data.compare, Data.isText, hcmp]

/-- The keys on which the two operators form a strict total order: no long name reaches
2³¹ bytes, and two different names of one context that compare on their shared length
only are not one a prefix of the other. -/
theorem strictTotalOn_iff (S : Set TextKey) :
    StrictTotalOn S ↔
      (∀ a ∈ S, a.name.FitsI4) ∧
        ∀ a ∈ S, ∀ b ∈ S, a.context = b.context →
          (a.name.isLong = true ∨ b.name.isLong = true) →
            a.name.stdStr <+: b.name.stdStr → a.name.stdStr = b.name.stdStr := by
  constructor
  · intro h
    have hfits : ∀ a ∈ S, a.name.FitsI4 := by
      intro a ha
      by_contra hf
      have hi := h.irrefl a ha
      rw [lt_self_of_not_fits a hf] at hi
      cases hi
    refine ⟨hfits, fun a ha b hb hc hl hp ↦ ?_⟩
    exact (h.same_of_eq a ha b hb (eq_of_isPrefix a b (hfits a ha) (hfits b hb) hc hl hp)).2
  · rintro ⟨hfits, hshared⟩
    have hsep : ∀ a ∈ S, ∀ b ∈ S, a.Separated b := by
      intro a ha b hb hc hl hp
      rcases hp with hp | hp
      · exact hshared a ha b hb hc hl hp
      · exact (hshared b hb a ha hc.symm hl.symm hp).symm
    have hlt : ∀ a ∈ S, ∀ b ∈ S, a.toKey.lt b.toKey = some (decide (contentCompare a b = .lt)) :=
      fun a ha b hb ↦ lt_eq_contentCompare a b (hfits a ha) (hfits b hb) (hsep a ha b hb)
    have heq : ∀ a ∈ S, ∀ b ∈ S, a.toKey.eq b.toKey = some (decide (contentCompare a b = .eq)) :=
      fun a ha b hb ↦ eq_eq_contentCompare a b (hfits a ha) (hfits b hb) (hsep a ha b hb)
    constructor
    · intro a ha
      rw [hlt a ha a ha]
      simp [(contentCompare_eq_eq_iff a a).mpr ⟨rfl, rfl⟩]
    · intro a ha b hb c hc hab hbc
      rw [hlt a ha b hb] at hab
      rw [hlt b hb c hc] at hbc
      rw [hlt a ha c hc]
      simp only [Option.some.injEq, decide_eq_true_eq] at hab hbc ⊢
      exact Std.TransCmp.lt_trans hab hbc
    · intro a ha b hb
      have hswap : contentCompare b a = (contentCompare a b).swap := Std.OrientedCmp.eq_swap
      rw [hlt a ha b hb, hlt b hb a ha, heq a ha b hb, hswap]
      cases contentCompare a b <;> simp
    · intro a ha b hb hab
      rw [heq a ha b hb] at hab
      exact (contentCompare_eq_eq_iff a b).mp (by simpa using hab)

/-- A key of context 0 whose name is a run of one letter. -/
def runKey (count : ℕ) (h : count < 2 ^ 32) : TextKey :=
  ⟨0, AString.ofBytes (List.replicate count 97) (by simpa using h)⟩

/-- The shortest two long names of one letter are different and make equal keys, so
the operators are no strict total order on all text keys. -/
theorem not_strictTotalOn_univ :
    (runKey 24 (by decide)).toKey.eq (runKey 25 (by decide)).toKey = some true ∧
      (runKey 24 (by decide)).name.stdStr ≠ (runKey 25 (by decide)).name.stdStr ∧
      ¬StrictTotalOn Set.univ := by
  have heq : (runKey 24 (by decide)).toKey.eq (runKey 25 (by decide)).toKey = some true := by
    refine eq_of_isPrefix _ _ ?_ ?_ rfl (.inl ?_) ?_
    · decide
    · decide
    · decide
    · simp only [runKey, AString.stdStr_ofBytes]
      decide
  have hne : (runKey 24 (by decide)).name.stdStr ≠ (runKey 25 (by decide)).name.stdStr := by
    simp only [runKey, AString.stdStr_ofBytes]
    decide
  exact ⟨heq, hne, fun h ↦ hne (h.same_of_eq _ trivial _ trivial heq).2⟩

end TextKey

end LibSpaces.Spaces
