import LibSpaces.Base.ByteMemory

/-!
# The copy loops of LZ4

`src/src/repo/lz4-r101/lz4.c:225–228,260` with words of eight bytes. `wildCopy` moves eight
bytes at a time and overshoots the end; it moves at least one word. A match is copied from
behind itself: a distance below eight is first widened to a multiple of at least eight.
-/

namespace LibSpaces.Lz4

open LibSpaces.Base LibSpaces.Base.Memory

/-- `LZ4_WILDCOPY`; `read` is the memory that `s` points into, given the one that `d` points
into. The result has the memory, `d` and `s`. -/
def wildCopy (read : Memory → Memory) (mem : Memory) (d s e : ℤ) : Memory × ℤ × ℤ :=
  if d + 8 < e then wildCopy read (mem.copy (read mem) d s 8) (d + 8) (s + 8) e
  else (mem.copy (read mem) d s 8, d + 8, s + 8)
termination_by (e - d).toNat

/-- `LZ4_SECURECOPY`. -/
def secureCopy (read : Memory → Memory) (mem : Memory) (d s e : ℤ) : Memory × ℤ × ℤ :=
  if d < e then wildCopy read mem d s e else (mem, d, s)

/-- `while(op<cpy) *op++=*ref++`. -/
def copyBytes (mem : Memory) (op ref cpy : ℤ) : Memory :=
  if op < cpy then copyBytes (mem.write op (mem ref)) (op + 1) (ref + 1) cpy else mem
termination_by (cpy - op).toNat

/-! ### Words from another memory -/

section Words

variable {read : Memory → Memory} {source mem mem' : Memory} {d s e d' s' : ℤ}

/-- Where the loop stops. -/
theorem wildCopy_stops (h : wildCopy read mem d s e = (mem', d', s')) :
    d + 8 ≤ d' ∧ e ≤ d' ∧ (d' < e + 8 ∨ d' = d + 8) ∧ s' = s + (d' - d) := by
  fun_induction wildCopy read mem d s e with
  | case1 mem d s hlt ih =>
    obtain ⟨hlow, hend, hhigh, hs⟩ := ih h
    omega
  | case2 mem d s hlt =>
    cases h
    omega

/-- The copy by eight bytes changes nothing outside the range it has gone through. -/
theorem wildCopy_agreeOutside (h : wildCopy read mem d s e = (mem', d', s')) :
    AgreeOutside mem mem' d d' := by
  fun_induction wildCopy read mem d s e with
  | case1 mem d s hlt ih =>
    have hstops := wildCopy_stops h
    exact (agreeOutside_copy.mono le_rfl (by omega)).trans ((ih h).mono (by omega) le_rfl)
  | case2 mem d s hlt =>
    cases h
    exact agreeOutside_copy

/-- Words of another memory stand where they are copied to. -/
theorem wildCopy_from (h : wildCopy (fun _ ↦ source) mem d s e = (mem', d', s')) :
    ∀ i, d ≤ i → i < d' → mem' i = source (s + (i - d)) := by
  fun_induction wildCopy (fun _ ↦ source) mem d s e with
  | case1 mem d s hlt ih =>
    intro i hlow hhigh
    by_cases hi : i < d + 8
    · exact (wildCopy_agreeOutside h i (.inl hi)).trans (copy_of_mem hlow hi)
    · rw [ih h i (by omega) hhigh]
      congr 1
      omega
  | case2 mem d s hlt =>
    cases h
    intro i hlow hhigh
    exact copy_of_mem hlow hhigh

/-- Words of the same memory, eight bytes behind or more, repeat what is behind them. -/
theorem wildCopy_within (h : wildCopy id mem d s e = (mem', d', s')) (hback : s + 8 ≤ d) :
    ∀ i, d ≤ i → i < d' → mem' i = mem' (i - (d - s)) := by
  fun_induction wildCopy id mem d s e with
  | case1 mem d s hlt ih =>
    intro i hlow hhigh
    by_cases hi : i < d + 8
    · have hframe := wildCopy_agreeOutside h
      rw [hframe i (.inl hi), hframe (i - (d - s)) (by omega), copy_of_mem hlow hi,
        agreeOutside_copy (i - (d - s)) (by omega), id]
      congr 1
      omega
    · rw [ih h (by omega) i (by omega) hhigh]
      congr 1
      omega
  | case2 mem d s hlt =>
    cases h
    intro i hlow hhigh
    rw [copy_of_mem hlow hhigh, agreeOutside_copy (i - (d - s)) (by omega), id]
    congr 1
    omega

end Words

section Bytes

variable {mem mem' : Memory} {op ref cpy d d' s s' e : ℤ}

/-- The copy of single bytes changes nothing outside its range. -/
theorem copyBytes_agreeOutside : AgreeOutside mem (copyBytes mem op ref cpy) op cpy := by
  fun_induction copyBytes mem op ref cpy with
  | case1 mem op ref hlt ih =>
    exact (agreeOutside_write.mono le_rfl (by omega)).trans (ih.mono (by omega) le_rfl)
  | case2 mem op ref hlt => exact .refl _ _ _

/-- The copied bytes repeat what is before them. -/
theorem copyBytes_within (hback : ref < op) :
    ∀ i, op ≤ i → i < cpy →
      copyBytes mem op ref cpy i = copyBytes mem op ref cpy (i - (op - ref)) := by
  fun_induction copyBytes mem op ref cpy with
  | case1 mem op ref hlt ih =>
    intro i hlow hhigh
    by_cases hi : i = op
    · have hframe : AgreeOutside (mem.write op (mem ref))
          (copyBytes (mem.write op (mem ref)) (op + 1) (ref + 1) cpy) (op + 1) cpy :=
        copyBytes_agreeOutside
      rw [hframe i (by omega), hframe (i - (op - ref)) (by omega), hi, write_self,
        write_of_ne (by omega)]
      congr 1
      omega
    · rw [ih (by omega) i (by omega) hhigh]
      congr 1
      omega
  | case2 mem op ref hlt =>
    intro i hlow hhigh
    omega

/-- The copy ends where it was, or less than eight bytes behind the end. -/
theorem secureCopy_stops {read : Memory → Memory}
    (h : secureCopy read mem d s e = (mem', d', s')) :
    d ≤ d' ∧ (d' < e + 8 ∨ d' = d) ∧ s' = s + (d' - d) := by
  rw [secureCopy] at h
  split at h
  · have := wildCopy_stops h
    omega
  · cases h
    omega

/-- The copy changes nothing outside the range it has gone through. -/
theorem secureCopy_agreeOutside {read : Memory → Memory}
    (h : secureCopy read mem d s e = (mem', d', s')) : AgreeOutside mem mem' d d' := by
  rw [secureCopy] at h
  split at h
  · exact wildCopy_agreeOutside h
  · cases h
    exact .refl _ _ _

/-- The copied bytes repeat what is at least eight bytes before them. -/
theorem secureCopy_within (h : secureCopy id mem d s e = (mem', d', s')) (hback : s + 8 ≤ d) :
    ∀ i, d ≤ i → i < d' → mem' i = mem' (i - (d - s)) := by
  rw [secureCopy] at h
  split at h
  · exact wildCopy_within h hback
  · cases h
    intro i hlow hhigh
    omega

end Bytes

end LibSpaces.Lz4
