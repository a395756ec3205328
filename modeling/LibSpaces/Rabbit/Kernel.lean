import Mathlib.Data.Nat.Log
import LibSpaces.Base.Bits

/-!
# The kernel of the hash map

`hash_kernel`, `src/src/repo/rabbit/include/rabbit/rabbit_map.h:48–118,164–256,290–352,354–1042`:
linear probing behind the position that a key is mapped to, then an overflow area behind all of
them. Two bits of a segment tell for each position whether a pair exists there, and whether keys
that are mapped there overflow. Sizes and positions are natural numbers, the memory is not limited.
The one number that comes to the end of its type is that of the probes, which is doubled: the model
ends where this loses a bit, and, in tables of more than 2^32 positions, where the `unsigned int`
that counts the probes does not come to their number. The logarithmic mode, statistics,
collision counts and other load factors than the default ones have no caller; hash values are of
64 bits.
-/

namespace LibSpaces.Rabbit

open LibSpaces.Base

/-- The comparisons of the load factor, the rounded quotient of elements and buckets, with
`DEFAULT_MIN_LOAD_FACTOR` and with the factor of a bad hash. They are made with floating-point
numbers. -/
structure LoadTests where
  belowMin : ℕ → ℕ → Bool
  belowBad : ℕ → ℕ → Bool

/-- What keeps a call from returning: `bad_alloc` is thrown because a pair was not counted; a loop
does not end; or the probes of a table of this extent came to a number that it does not work with.
Where `probes <<= PROBE_INCR` lost their only bit the source goes on without probes, and no longer
finds all pairs. Where an `unsigned int` does not come to their number and the table does not end
before, the loop over the probes begins again. -/
inductive Failure
  | miscounted
  | endless
  | lostProbes (extent : ℕ)

/-- `_KeySegment`. -/
structure Segment where
  overflows : Word
  existing : Word

/-- `hash_kernel`. Of `key_mapper` there are the bits of the extent. -/
structure Kernel (K V : Type) where
  primaryBits : ℕ
  initialProbes : ℕ
  probes : ℕ
  randProbes : ℕ
  overflow : ℕ
  overflowElements : ℕ
  elements : ℕ
  removed : ℕ
  lastModified : ℕ
  clusters : ℕ → Segment
  keys : ℕ → K × V

namespace Kernel

variable {K V : Type}

/-- `MIN_EXTENT`. -/
def minExtent : ℕ := 4

/-- `MIN_PROBES`, which `resize_clear` takes for the default load factor. -/
def minProbes : ℕ := 1

/-- `MIN_OVERFLOW`. -/
def minOverflow : ℕ := 8

/-- `MAX_OVERFLOW_FACTOR`. -/
def maxOverflowFactor : ℕ := 2 ^ 16

section Source

variable (kern : Kernel K V)

/-- `get_extent`, `rabbit_map.h:61,692–694`. -/
def extent : ℕ := 2 ^ kern.primaryBits

/-- `get_o_start`, `rabbit_map.h:462–464`. -/
def oStart : ℕ := kern.extent + kern.initialProbes

/-- `get_data_size` and `end`, `rabbit_map.h:457–459,1032–1035`. -/
def dataSize : ℕ := kern.extent + kern.initialProbes + kern.overflow

/-- `get_segment`, `rabbit_map.h:474–480`. -/
def segment (pos : ℕ) : Segment := kern.clusters (pos >>> 6)

/-- `get_segment_index`, `rabbit_map.h:470–472`. -/
def segmentIndex (pos : ℕ) : ℕ := pos &&& 63

/-- `exists_`, `rabbit_map.h:324–326,535–537`. -/
def exists_ (pos : ℕ) : Bool := testBit (kern.segment pos).existing (segmentIndex pos)

/-- `overflows_`, `rabbit_map.h:328–330,539–541`. -/
def overflows (pos : ℕ) : Bool := testBit (kern.segment pos).overflows (segmentIndex pos)

/-- A segment changes. -/
def setSegment (pos : ℕ) (s : Segment) : Kernel K V :=
  { kern with clusters := Function.update kern.clusters (pos >>> 6) s }

/-- `set_exists`, `rabbit_map.h:526–529`. -/
def setExists (pos : ℕ) (f : Bool) : Kernel K V :=
  { kern with lastModified := pos }.setSegment pos
    { kern.segment pos with existing := setBit (kern.segment pos).existing (segmentIndex pos) f }

/-- `toggle_exists`, `rabbit_map.h:336–338`. -/
def toggleExists (pos : ℕ) : Kernel K V :=
  kern.setSegment pos
    { kern.segment pos with existing := toggleBit (kern.segment pos).existing (segmentIndex pos) }

/-- `set_overflows`, `rabbit_map.h:531–533`. -/
def setOverflows (pos : ℕ) (f : Bool) : Kernel K V :=
  kern.setSegment pos
    { kern.segment pos with overflows := setBit (kern.segment pos).overflows (segmentIndex pos) f }

/-- `set_segment_key`, `rabbit_map.h:509–511`. -/
def setKey (pos : ℕ) (k : K) : Kernel K V :=
  { kern with keys := Function.update kern.keys pos (k, (kern.keys pos).2) }

/-- `set_segment_value`, `rabbit_map.h:522–524`; a write to what `operator[]` returns. -/
def setValue (pos : ℕ) (v : V) : Kernel K V :=
  { kern with keys := Function.update kern.keys pos ((kern.keys pos).1, v) }

/-- `randomize`, `rabbit_map.h:98–102`. -/
def randomize (h : UInt64) : UInt64 :=
  let r := h >>> UInt64.ofNat kern.primaryBits
  h + ((r * r) >>> 2)

/-- `map_hash`, `rabbit_map.h:103–105,551–555`. -/
def mapHash (h : UInt64) : ℕ :=
  (if kern.randProbes ≠ 0 then kern.randomize h else h).toNat &&& (kern.extent - 1)

/-- `map_key`, `rabbit_map.h:547–549`. -/
def mapKey (hash : K → UInt64) (k : K) : ℕ := kern.mapHash (hash k)

/-- `load_factor` compared, `rabbit_map.h:399–402`; that of a map without elements is 0. -/
def loadBelow (test : ℕ → ℕ → Bool) : Bool :=
  if kern.elements = 0 then true else test kern.elements kern.dataSize

/-- The positions that the loops over the probes look at: `probes` from the one that a key is
mapped to, inside the extent. -/
def probed (base : ℕ) : List ℕ := List.range' base (min kern.probes (kern.extent - base))

end Source

/-- `resize_clear`, `rabbit_map.h:606–655`, of a kernel with these random probes. -/
def resizeClear [Inhabited K] [Inhabited V] (randProbes newExtent : ℕ) : Kernel K V :=
  let kern : Kernel K V :=
    { primaryBits := Nat.log2 newExtent
      initialProbes := minProbes
      probes := minProbes
      randProbes := randProbes
      overflow := max minOverflow (newExtent / maxOverflowFactor)
      overflowElements := 2 ^ Nat.log2 newExtent + minProbes
      elements := 0
      removed := 0
      lastModified := 0
      clusters := fun _ ↦ ⟨0, 0⟩
      keys := fun _ ↦ default }
  kern.setExists kern.dataSize true

section Find

variable [DecidableEq K] (hash : K → UInt64) (kern : Kernel K V) (k : K)

/-- `segment_equal_key_exists`, `rabbit_map.h:724–729`. -/
def equalKeyExists (pos : ℕ) : Bool := (kern.keys pos).1 = k ∧ kern.exists_ pos = true

/-- `find_in_bucket`, `rabbit_map.h:748–758`. -/
def findInBucket : ℕ :=
  ((List.range' kern.oStart (kern.dataSize - kern.oStart)).find? (kern.equalKeyExists k)).getD
    kern.dataSize

/-- `find_rest`, `rabbit_map.h:957–972`. -/
def findRest : ℕ :=
  ((kern.probed (kern.mapKey hash k)).find? (kern.equalKeyExists k)).getD (kern.findInBucket k)

/-- `find_rest_not_empty`, `rabbit_map.h:936–956`. -/
def findRestNotEmpty (origin : ℕ) : ℕ :=
  match (kern.probed origin).find? fun pos ↦ (kern.keys pos).1 = k with
  | some pos => pos
  | none => if kern.overflows origin then kern.findInBucket k else kern.dataSize

/-- `find_empty`, `rabbit_map.h:973–987`. -/
def findEmpty : ℕ :=
  let pos := kern.mapKey hash k
  if kern.exists_ pos ∧ (kern.keys pos).1 = k then pos
  else if kern.overflows pos = false then kern.dataSize
  else kern.findRest hash k

/-- `find_non_empty`, `rabbit_map.h:988–992`. -/
def findNonEmpty : ℕ :=
  let pos := kern.mapKey hash k
  if (kern.keys pos).1 = k then pos else kern.findRestNotEmpty k pos

/-- `find`, `rabbit_map.h:994–1008`. -/
def find [Inhabited K] : ℕ :=
  if default = k then kern.findEmpty hash k else kern.findNonEmpty hash k

/-- `get` and `at`, `rabbit_map.h:898–923`. -/
def get [Inhabited K] : Option V :=
  if kern.find hash k = kern.dataSize then none else some (kern.keys (kern.find hash k)).2

/-- `count`, `rabbit_map.h:892–897`. -/
def count [Inhabited K] : ℕ := if kern.find hash k = kern.dataSize then 0 else 1

end Find

section Write

variable [DecidableEq K] (hash : K → UInt64) (tests : LoadTests) (kern : Kernel K V) (k : K)

omit [DecidableEq K] in
/-- A pair with the key takes a free position; the value there is the default one. -/
def occupy (pos : ℕ) : Kernel K V := { kern.setKey pos k with elements := kern.elements + 1 }

omit [DecidableEq K] in
/-- A low load factor makes for more probes, `rabbit_map.h:770–778`. -/
def moreProbes : ℕ :=
  if kern.loadBelow tests.belowMin then
    if kern.randProbes ≠ 0 then kern.probes <<< 1 else kern.probes + 1
  else kern.probes

omit [DecidableEq K] in
/-- One more position of the overflow area is used, `rabbit_map.h:768–779`. The first bound is that
of `size_type`, the second one that of the counters in lines 810, 943 and 963. -/
def useOverflow : Except Failure (Kernel K V) :=
  if 2 ^ 64 ≤ kern.moreProbes tests ∨ 2 ^ 32 < kern.extent ∧ 2 ^ 32 ≤ kern.moreProbes tests then
    .error (.lostProbes kern.extent)
  else
    .ok { kern with
      overflowElements := kern.overflowElements + 1
      probes := kern.moreProbes tests }

omit [DecidableEq K] in
/-- `subscript_bucket`, `rabbit_map.h:759–805`: none for the null pointer. -/
def subscriptBucket (origin : ℕ) : Except Failure (Option (ℕ × Kernel K V)) :=
  match (List.range' kern.overflowElements (kern.dataSize - kern.overflowElements)).find?
      fun pos ↦ !kern.exists_ pos with
  | none => .ok none
  | some pos => do
    let kern ← kern.useOverflow tests
    return some (pos, ((kern.setOverflows origin true).setExists pos true).occupy k pos)

/-- `subscript_rest`, `rabbit_map.h:806–827`. -/
def subscriptRest (origin : ℕ) : Except Failure (Option (ℕ × Kernel K V)) :=
  match (kern.probed (kern.mapKey hash k)).find? fun pos ↦ !kern.exists_ pos with
  | some pos => .ok (some (pos, ((kern.toggleExists pos).setOverflows origin true).occupy k pos))
  | none => kern.subscriptBucket tests k origin

/-- `subscript`, `rabbit_map.h:828–851`: the position of the pair with the key. -/
def subscript : Except Failure (Option (ℕ × Kernel K V)) :=
  let pos := kern.mapKey hash k
  if kern.exists_ pos = false ∧ kern.overflows pos = false then
    .ok (some (pos, (kern.toggleExists pos).occupy k pos))
  else if kern.exists_ pos = true ∧ (kern.keys pos).1 = k then .ok (some (pos, kern))
  else if kern.overflows pos = true ∧ kern.findRest hash k ≠ kern.dataSize then
    .ok (some (kern.findRest hash k, kern))
  else kern.subscriptRest hash tests k pos

variable [Inhabited K] [Inhabited V]

omit [DecidableEq K] in
/-- The pair at a position is removed, apart from its bit. -/
def vacate (pos : ℕ) : Kernel K V :=
  { (kern.setKey pos default).setValue pos default with
    elements := kern.elements - 1
    removed := kern.removed + 1 }

/-- `erase_rest`, `rabbit_map.h:852–866`. -/
def eraseRest : ℕ × Kernel K V :=
  let pos := kern.findRest hash k
  if pos ≠ kern.dataSize then (1, (kern.setExists pos false).vacate pos) else (0, kern)

/-- `erase`, `rabbit_map.h:867–886`. -/
def erase : ℕ × Kernel K V :=
  let pos := kern.mapKey hash k
  if kern.exists_ pos = true ∧ (kern.keys pos).1 = k then
    (1, (kern.toggleExists pos).vacate pos)
  else if kern.overflows pos = false then (0, kern)
  else kern.eraseRest hash k

end Write

end Kernel

end LibSpaces.Rabbit
