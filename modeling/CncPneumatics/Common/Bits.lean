import Mathlib.Data.List.Basic
import Mathlib.Data.List.Nodup
/-!
# The bits of a word

A loop that looks at the lowest bit of a word, shifts the word down and
counts up goes through the bits that are set, from the lowest up.
-/

namespace CncPneumatics

variable {w : ℕ} {m : BitVec w} {i j n : ℕ}

theorem and_one_ne_zero_iff {flags : BitVec w} (hw : 0 < w) :
    flags &&& 1#w ≠ 0 ↔ flags.getLsbD 0 = true := by
  constructor
  · intro hne
    by_contra hbit
    refine hne (BitVec.eq_of_getLsbD_eq fun i hi => ?_)
    rw [BitVec.getLsbD_and, BitVec.getLsbD_one]
    by_cases h0 : i = 0
    · subst h0; simp at hbit; simp [hbit]
    · simp [h0]
  · intro hbit heq
    have h0 := congrArg (fun b : BitVec w => b.getLsbD 0) heq
    rw [BitVec.getLsbD_and, hbit, BitVec.getLsbD_one] at h0
    simp [hw] at h0

/-- The lowest bit of a word that was shifted down. -/
theorem shift_and_one_ne_zero_iff (hw : 0 < w) :
    m >>> i &&& 1#w ≠ 0 ↔ m.getLsbD i = true := by
  rw [and_one_ne_zero_iff hw, BitVec.getLsbD_ushiftRight, Nat.add_zero]

/-- The bits that are set in a word, among `n` from the bit `i` on. -/
def bitsFrom (m : BitVec w) (i n : ℕ) : List ℕ := (List.range' i n).filter fun j => m.getLsbD j

theorem bitsFrom_succ : bitsFrom m i (n + 1) =
    if m.getLsbD i then i :: bitsFrom m (i + 1) n else bitsFrom m (i + 1) n := by
  unfold bitsFrom
  rw [List.range'_succ]
  split
  · next hbit => exact List.filter_cons_of_pos hbit
  · next hbit => exact List.filter_cons_of_neg hbit

theorem mem_bitsFrom : j ∈ bitsFrom m i n ↔ (i ≤ j ∧ j < i + n) ∧ m.getLsbD j = true := by
  unfold bitsFrom
  rw [List.mem_filter, List.mem_range'_1]

theorem nodup_bitsFrom : (bitsFrom m i n).Nodup := List.Nodup.filter _ List.nodup_range'

/-- A word that was shifted down to zero has no bits left. -/
theorem bitsFrom_of_shift_eq_zero (h : m >>> i = 0) : bitsFrom m i n = [] := by
  rw [List.eq_nil_iff_forall_not_mem]
  intro j hj
  obtain ⟨⟨hle, -⟩, hbit⟩ := mem_bitsFrom.mp hj
  have hzero := congrArg (fun m : BitVec w => m.getLsbD (j - i)) h
  simp only [BitVec.getLsbD_ushiftRight, show i + (j - i) = j by omega, hbit] at hzero
  simp at hzero

end CncPneumatics
