import Mathlib.Data.List.Basic
import Mathlib.Data.List.GetD
import Mathlib.Data.Nat.ModEq
/-!
# Circular buffers

A buffer of `n` cells read round from a start index: `ringRead buf n a m`
is the list of the `m` cells `a, a + 1, …`, indices taken modulo `n`.
Every operation on a circular buffer is a write to some cells and a move
of the start or of the length, and the lemmas below say what each does to
the list read.
-/

namespace CncPneumatics

variable {α : Type*} [Inhabited α] {buf buf' : List α} {n a i j k m : ℕ} {x : α}

/-! ## Cells -/

/-- The cell at an index. -/
def cell (buf : List α) (i : ℕ) : α := buf.getD i default

/-- A written cell holds what was written and the others are as before. -/
theorem cell_set (hi : i < buf.length) :
    cell (buf.set i x) j = if j = i then x else cell buf j := by
  unfold cell
  rw [List.getD_eq_getElem?_getD, List.getD_eq_getElem?_getD, List.getElem?_set]
  by_cases hji : j = i
  · subst hji; simp [hi]
  · simp [hji, Ne.symm hji]

theorem cell_set_self (hi : i < buf.length) : cell (buf.set i x) i = x := by
  rw [cell_set hi, if_pos rfl]

theorem cell_set_of_ne (hi : i < buf.length) (hji : j ≠ i) :
    cell (buf.set i x) j = cell buf j := by
  rw [cell_set hi, if_neg hji]

/-- A longer buffer has the cells it had. -/
theorem cell_append (buf' : List α) (hi : i < buf.length) : cell (buf ++ buf') i = cell buf i :=
  List.getD_append _ _ _ _ hi

theorem cell_concat_length : cell (buf ++ [x]) buf.length = x := by
  rw [cell, List.getD_append_right _ _ _ _ le_rfl, Nat.sub_self, List.getD_cons_zero]

/-! ## Offsets -/

/-- Two offsets below the size name the same index only when they are
equal. -/
theorem ring_offset_inj (hj : j < n) (hk : k < n) (h : (a + j) % n = (a + k) % n) : j = k := by
  have hmod : j ≡ k [MOD n] := Nat.ModEq.add_left_cancel' a h
  exact Nat.ModEq.eq_of_lt_of_lt hmod hj hk

theorem ring_offset_lt (hn : 0 < n) : (a + k) % n < n := Nat.mod_lt _ hn

/-- Moving the start by one moves every offset by one. -/
theorem ring_offset_succ : ((a + 1) % n + k) % n = (a + (k + 1)) % n := by
  rw [Nat.mod_add_mod]; congr 1; omega

/-! ## Reading round -/

/-- The list of the `m` cells read round from index `a`. -/
def ringRead (buf : List α) (n a m : ℕ) : List α :=
  (List.range m).map fun k => cell buf ((a + k) % n)

@[simp] theorem ringRead_length : (ringRead buf n a m).length = m := by simp [ringRead]

theorem ringRead_getElem (hk : k < (ringRead buf n a m).length) :
    (ringRead buf n a m)[k] = cell buf ((a + k) % n) := by simp [ringRead]

/-- The first cell read is the start. -/
theorem ringRead_succ (ha : a < n) :
    ringRead buf n a (m + 1) = cell buf a :: ringRead buf n ((a + 1) % n) m := by
  unfold ringRead
  rw [List.range_succ_eq_map, List.map_cons, List.map_map, Nat.add_zero, Nat.mod_eq_of_lt ha]
  refine congrArg _ (List.map_congr_left fun k _ => ?_)
  simp only [Function.comp_apply]
  rw [ring_offset_succ]

/-- The last cell read is the one before the end. -/
theorem ringRead_concat : ringRead buf n a (m + 1) = ringRead buf n a m ++ [cell buf ((a + m) % n)] := by
  unfold ringRead
  rw [List.range_succ, List.map_append, List.map_singleton]

/-- Buffers that agree on the cells read give the same list. -/
theorem ringRead_congr {a' : ℕ} (h : ∀ k < m, cell buf ((a + k) % n) = cell buf' ((a' + k) % n)) :
    ringRead buf n a m = ringRead buf' n a' m :=
  List.map_congr_left fun k hk => h k (List.mem_range.mp hk)

/-- Writing a cell that is not among those read changes nothing. -/
theorem ringRead_set (hi : i < buf.length) (h : ∀ k < m, (a + k) % n ≠ i) :
    ringRead (buf.set i x) n a m = ringRead buf n a m :=
  ringRead_congr fun k hk => cell_set_of_ne hi (h k hk)

/-- **Writing the cell after the last one read appends.** -/
theorem ringRead_set_concat (hn : buf.length = n) (hm : m < n) :
    ringRead (buf.set ((a + m) % n) x) n a (m + 1) = ringRead buf n a m ++ [x] := by
  have hi : (a + m) % n < buf.length := hn ▸ ring_offset_lt (by omega)
  rw [ringRead_concat, cell_set_self hi, ringRead_set hi]
  intro k hk heq
  exact absurd (ring_offset_inj (by omega) hm heq) (by omega)

/-- **Writing the cell before the first one read prepends.** -/
theorem ringRead_set_cons {p : ℕ} (hn : buf.length = n) (hm : m < n) (hp : p < n)
    (ha : (p + 1) % n = a) : ringRead (buf.set p x) n p (m + 1) = x :: ringRead buf n a m := by
  have hi : p < buf.length := hn ▸ hp
  rw [ringRead_succ hp, cell_set_self hi, ha, ringRead_set hi]
  intro k hk heq
  have hround : (p + (k + 1)) % n = (p + 0) % n := by
    rw [← ring_offset_succ, ha, heq, Nat.add_zero, Nat.mod_eq_of_lt hp]
  exact absurd (ring_offset_inj (by omega) (by omega) hround) (by omega)

/-- **Opening a gap inserts.** When the cells from offset `p` on hold what
the cell before them held and the cell at `p` holds `x`, the list read,
one longer, is the old one with `x` inserted at `p`. -/
theorem ringRead_insertIdx {p : ℕ} (hp : p ≤ m)
    (h : ∀ k ≤ m, cell buf' ((a + k) % n) =
      if k = p then x else if p < k then cell buf ((a + (k - 1)) % n) else cell buf ((a + k) % n)) :
    ringRead buf' n a (m + 1) = (ringRead buf n a m).insertIdx p x := by
  refine List.ext_getElem ?_ fun k hk _ => ?_
  · rw [List.length_insertIdx, ringRead_length, ringRead_length, if_pos hp]
  · rw [ringRead_length] at hk
    rw [ringRead_getElem, List.getElem_insertIdx, h k (by omega)]
    by_cases hlt : k < p
    · rw [dif_pos hlt, if_neg (by omega), if_neg (by omega), ringRead_getElem]
    · rw [dif_neg hlt]
      by_cases heq : k = p
      · rw [if_pos heq, dif_pos heq]
      · rw [if_neg heq, dif_neg heq, if_pos (by omega), ringRead_getElem]

/-- **Closing a gap erases.** When the cells from offset `p` on hold what
the cell after them held, the list read, one shorter, is the old one
without its element at `p`. -/
theorem ringRead_eraseIdx {p : ℕ} (hp : p ≤ m)
    (h : ∀ k < m, cell buf' ((a + k) % n) =
      if p ≤ k then cell buf ((a + (k + 1)) % n) else cell buf ((a + k) % n)) :
    ringRead buf' n a m = (ringRead buf n a (m + 1)).eraseIdx p := by
  have hlen : ((ringRead buf n a (m + 1)).eraseIdx p).length = m := by
    rw [List.length_eraseIdx_of_lt (by simp; omega), ringRead_length, Nat.add_sub_cancel]
  refine List.ext_getElem (by rw [ringRead_length, hlen]) fun k hk _ => ?_
  rw [ringRead_length] at hk
  rw [ringRead_getElem, List.getElem_eraseIdx, h k hk]
  by_cases hlt : k < p
  · rw [dif_pos hlt, if_neg (by omega), ringRead_getElem]
  · rw [dif_neg hlt, if_pos (by omega), ringRead_getElem]

end CncPneumatics
