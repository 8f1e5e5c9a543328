import CncPneumatics.Asx.Timer
import Mathlib.Data.List.Sort
/-!
# The timer ring is a list

`Timer.Holds t l` says that the slots of `t` from the active one up to the
available one hold the list `l` and that every other slot is free. Arming
inserts into `l`, cancelling erases from it and a turn of the dispatch
loop takes its head: one lemma for each, with no assumption on the counter
or on the deadlines. The one thing the ring cannot tell is a full list
from an empty one, so with `TIMER_MAX_CALLBACK` timers pending nothing
expires and nothing is cancelled.
-/

namespace CncPneumatics

namespace Asx

variable {t t' : Timer} {l : List TimerFuture} {f : TimerFuture} {a i j k n p : ℕ}

/-- **The ring holds the list**: read round from the active slot, and free
everywhere else. -/
structure Timer.Holds (t : Timer) (l : List TimerFuture) : Prop where
  size : t.sortedList.length = timerMaxCallback
  active_lt : t.slotActive < timerMaxCallback
  length_le : l.length ≤ timerMaxCallback
  avail : t.slotAvail = (t.slotActive + l.length) % timerMaxCallback
  read : ringRead t.sortedList timerMaxCallback t.slotActive l.length = l
  busy : ∀ f ∈ l, f.reactor ≠ reactorNullHandle
  free : ∀ k, l.length ≤ k → k < timerMaxCallback →
    (t.slot ((t.slotActive + k) % timerMaxCallback)).reactor = reactorNullHandle

/-! ## Slots and offsets -/

theorem timerRightOf_offset (a k : ℕ) :
    timerRightOf ((a + k) % timerMaxCallback) = (a + (k + 1)) % timerMaxCallback := by
  unfold timerRightOf
  by_cases h : (a + k) % timerMaxCallback = timerMaxCallback - 1
  · rw [if_pos h]; simp only [timerMaxCallback] at h ⊢; omega
  · rw [if_neg h]; simp only [timerMaxCallback] at h ⊢; omega

theorem timerLeftOf_offset (a k : ℕ) :
    timerLeftOf ((a + (k + 1)) % timerMaxCallback) = (a + k) % timerMaxCallback := by
  unfold timerLeftOf
  by_cases h : (a + (k + 1)) % timerMaxCallback = 0
  · rw [if_pos h]; simp only [timerMaxCallback] at h ⊢; omega
  · rw [if_neg h]; simp only [timerMaxCallback] at h ⊢; omega

theorem Timer.slot_setSlot (hi : i < t.sortedList.length) :
    (t.setSlot i f).slot j = if j = i then f else t.slot j := cell_set hi

theorem offset_lt_size (ht : t.sortedList.length = timerMaxCallback) :
    (a + k) % timerMaxCallback < t.sortedList.length := by
  rw [ht]; exact ring_offset_lt (by decide)

@[simp] theorem Timer.setSlot_length : (t.setSlot i f).sortedList.length = t.sortedList.length := by
  simp [Timer.setSlot]

/-- The timers in the ring, from the active slot on. -/
def Timer.pending (t : Timer) : List TimerFuture :=
  (ringRead t.sortedList timerMaxCallback t.slotActive timerMaxCallback).filter
    fun f => f.reactor ≠ reactorNullHandle

namespace Timer.Holds

/-- The slot at an offset below the length holds that element. -/
theorem slot_eq (h : t.Holds l) (hk : k < l.length) :
    t.slot ((t.slotActive + k) % timerMaxCallback) = l[k] := by
  have hr := List.getElem_of_eq h.read (i := k) (by simpa using hk)
  rw [ringRead_getElem] at hr
  exact hr

/-- A search that has something of the list left is at the slot of its
first, before the end of the list. -/
theorem at_offset (h : t.Holds l) (hl : l.length < timerMaxCallback) {j : ℕ} {g : TimerFuture}
    {s : List TimerFuture} (hs : l.drop j = g :: s) :
    j < l.length ∧ l.drop (j + 1) = s ∧ t.slot ((t.slotActive + j) % timerMaxCallback) = g ∧
      (t.slotActive + j) % timerMaxCallback ≠ t.slotAvail := by
  have hjl : j < l.length := by
    by_contra hc
    rw [List.drop_eq_nil_iff.mpr (by omega)] at hs
    cases hs
  rw [List.drop_eq_getElem_cons hjl, List.cons.injEq] at hs
  refine ⟨hjl, hs.2, by rw [h.slot_eq hjl, hs.1], fun heq => ?_⟩
  rw [h.avail] at heq
  exact absurd (ring_offset_inj (by omega) hl heq) (by omega)

/-- The active slot has the first element. -/
theorem read_ne {f : TimerFuture} {l : List TimerFuture} (h : t.Holds (f :: l)) :
    t.slot t.slotActive = f := by
  have hs := h.slot_eq (k := 0) (by simp)
  rwa [Nat.add_zero, Nat.mod_eq_of_lt h.active_lt] at hs

/-- What is pending is the list. -/
theorem pending_eq (h : t.Holds l) : t.pending = l := by
  have hfree : ∀ m, l.length + m ≤ timerMaxCallback →
      (ringRead t.sortedList timerMaxCallback t.slotActive (l.length + m)).filter
        (fun f => f.reactor ≠ reactorNullHandle) = l := by
    intro m hm
    induction m with
    | zero =>
      rw [Nat.add_zero, h.read, List.filter_eq_self]
      exact fun f hf => by simpa using h.busy f hf
    | succ m ih =>
      have hnull := h.free (l.length + m) (by omega) (by omega)
      rw [← Nat.add_assoc, ringRead_concat, List.filter_append, ih (by omega),
        List.filter_cons_of_neg (by simpa [Timer.slot] using hnull), List.filter_nil,
        List.append_nil]
  have := hfree (timerMaxCallback - l.length) (by have := h.length_le; omega)
  rwa [Nat.add_sub_cancel' h.length_le] at this

theorem holds_pending (h : t.Holds l) : t.Holds t.pending := by rwa [h.pending_eq]

/-- What a ring holds depends neither on the count nor on the last number. -/
theorem counters (h : t.Holds l) (counter currentInstance : ℕ) :
    { t with counter := counter, currentInstance := currentInstance }.Holds l :=
  ⟨h.size, h.active_lt, h.length_le, h.avail, h.read, h.busy, h.free⟩

/-- The two ends meet when the ring is empty or full. -/
theorem active_eq_avail_iff (h : t.Holds l) :
    t.slotActive = t.slotAvail ↔ l.length = 0 ∨ l.length = timerMaxCallback := by
  have h1 := h.active_lt
  have h2 := h.length_le
  rw [h.avail]
  simp only [timerMaxCallback] at *
  omega

end Timer.Holds

theorem timerTick_holds (h : t.Holds l) : (timerTick t).Holds l := h.counters ..

/-- After `timer_init` the ring is empty. -/
theorem timerInit_holds : timerInit.Holds [] where
  size := by simp [timerInit]
  active_lt := by decide
  length_le := by decide
  avail := by decide
  read := rfl
  busy := by simp
  free := by decide

/-! ## Arming -/

/-- The order in which `timer_arm` compares counts. -/
def sooner (now : ℕ) (f g : TimerFuture) : Prop :=
  timerDistanceOf now f.count < timerDistanceOf now g.count

instance (now : ℕ) : DecidableRel (sooner now) := fun f g =>
  inferInstanceAs (Decidable (timerDistanceOf now f.count < timerDistanceOf now g.count))

/-- Arming, on the list: before the first entry that is further away. -/
def armInsert (now : ℕ) (f : TimerFuture) (l : List TimerFuture) : List TimerFuture :=
  l.orderedInsert (sooner now) f

/-- The number of entries the new one goes after. -/
def armIndex (now : ℕ) (f : TimerFuture) (l : List TimerFuture) : ℕ :=
  (l.takeWhile fun g => ¬ sooner now f g).length

theorem armIndex_le (now : ℕ) (f : TimerFuture) (l : List TimerFuture) :
    armIndex now f l ≤ l.length := (List.takeWhile_sublist _).length_le

theorem armInsert_eq_insertIdx (now : ℕ) (f : TimerFuture) (l : List TimerFuture) :
    armInsert now f l = l.insertIdx (armIndex now f l) f := by
  unfold armInsert armIndex
  rw [List.orderedInsert_eq_take_drop]
  conv_rhs => rw [← List.takeWhile_append_dropWhile (p := fun g => ¬ sooner now f g) (l := l)]
  rw [List.takeWhile_append_dropWhile]
  induction l with
  | nil => rfl
  | cons g l ih =>
    by_cases hg : sooner now f g
    · simp [hg]
    · simp only [List.takeWhile_cons, List.dropWhile_cons, hg, not_false_eq_true, decide_true,
        if_true, List.length_cons, List.cons_append, List.insertIdx_succ_cons]
      exact congrArg _ ih

@[simp] theorem armInsert_length (now : ℕ) (f : TimerFuture) (l : List TimerFuture) :
    (armInsert now f l).length = l.length + 1 := List.orderedInsert_length ..

theorem mem_armInsert {now : ℕ} {g : TimerFuture} : g ∈ armInsert now f l ↔ g = f ∨ g ∈ l :=
  List.mem_orderedInsert ..

/-- The search stops at the offset `armIndex`. -/
theorem timerInsertPoint_eq (h : t.Holds l) (hl : l.length < timerMaxCallback) (f : TimerFuture) :
    ∀ (s : List TimerFuture) (j n : ℕ), l.drop j = s → j ≤ l.length → s.length < n →
      timerInsertPoint t f.count n ((t.slotActive + j) % timerMaxCallback) =
        (t.slotActive + (j + armIndex t.counter f s)) % timerMaxCallback := by
  intro s
  induction s with
  | nil =>
    intro j n hs hj hn
    obtain ⟨n, rfl⟩ : ∃ m, n = m + 1 := ⟨n - 1, by simp at hn; omega⟩
    have hjl : j = l.length := le_antisymm hj (List.drop_eq_nil_iff.mp hs)
    rw [timerInsertPoint, if_pos (by rw [h.avail, hjl])]
    rfl
  | cons g s ih =>
    intro j n hs hj hn
    obtain ⟨n, rfl⟩ : ∃ m, n = m + 1 := ⟨n - 1, by simp at hn; omega⟩
    obtain ⟨hjl, hs, hslot, hne⟩ := h.at_offset hl hs
    rw [timerInsertPoint, if_neg hne, hslot]
    by_cases hlt : sooner t.counter f g
    · rw [if_pos (show timerDistanceOf _ _ < timerDistanceOf _ _ from hlt)]
      simp [armIndex, hlt]
    · rw [if_neg (show ¬ timerDistanceOf _ _ < timerDistanceOf _ _ from hlt), timerRightOf_offset,
        ih (j + 1) n hs (by omega) (by simpa using hn)]
      simp only [armIndex, List.takeWhile_cons, hlt, not_false_eq_true, decide_true, if_true,
        List.length_cons]
      congr 1
      omega

/-- The shift moves the slots of the offsets above `p` up to `j` one to
the right and leaves the others. -/
theorem timerShiftRight_slot (n : ℕ) :
    ∀ (j : ℕ) (t : Timer), t.sortedList.length = timerMaxCallback → p ≤ j → j - p < n →
      j < timerMaxCallback → ∀ k < timerMaxCallback,
      (timerShiftRight ((a + p) % timerMaxCallback) n t ((a + j) % timerMaxCallback)).slot
          ((a + k) % timerMaxCallback) =
        if p < k ∧ k ≤ j then t.slot ((a + (k - 1)) % timerMaxCallback)
        else t.slot ((a + k) % timerMaxCallback) := by
  induction n with
  | zero => intro j t _ _ hn; omega
  | succ n ih =>
    intro j t ht hpj hn hj k hk
    rw [timerShiftRight]
    by_cases hjp : j = p
    · rw [if_pos (by rw [hjp]), if_neg (by omega)]
    · have hne : (a + j) % timerMaxCallback ≠ (a + p) % timerMaxCallback := fun heq =>
        hjp (ring_offset_inj hj (by omega) heq)
      obtain ⟨j, rfl⟩ : ∃ i, j = i + 1 := ⟨j - 1, by omega⟩
      rw [if_neg hne, timerLeftOf_offset,
        ih j _ (by simpa using ht) (by omega) (by omega) (by omega) k hk]
      -- only the slot at offset `j + 1` was written in this turn
      have hslot : ∀ i < timerMaxCallback, i ≠ j + 1 →
          (t.setSlot ((a + (j + 1)) % timerMaxCallback) (t.slot ((a + j) % timerMaxCallback))).slot
            ((a + i) % timerMaxCallback) = t.slot ((a + i) % timerMaxCallback) := by
        intro i hi hij
        rw [Timer.slot_setSlot (offset_lt_size ht),
          if_neg fun heq => hij (ring_offset_inj hi hj heq)]
      by_cases hkj : k = j + 1
      · subst hkj
        rw [if_neg (by omega), if_pos (by omega),
          Timer.slot_setSlot (offset_lt_size ht), if_pos rfl, Nat.add_sub_cancel]
      · by_cases hin : p < k ∧ k ≤ j
        · rw [if_pos hin, if_pos (by omega), hslot (k - 1) (by omega) (by omega)]
        · rw [if_neg hin, if_neg (by omega), hslot k hk hkj]

/-- The shift writes slots only. -/
theorem timerShiftRight_frame (q n : ℕ) : ∀ (j : ℕ) (t : Timer), ∃ ls : List TimerFuture,
    ls.length = t.sortedList.length ∧ timerShiftRight q n t j = { t with sortedList := ls } := by
  induction n with
  | zero => intro j t; exact ⟨_, rfl, rfl⟩
  | succ n ih =>
    intro j t
    rw [timerShiftRight]
    by_cases hj : j = q
    · rw [if_pos hj]; exact ⟨_, rfl, rfl⟩
    · rw [if_neg hj]
      obtain ⟨ls, hlen, heq⟩ := ih (timerLeftOf j) (t.setSlot j (t.slot (timerLeftOf j)))
      exact ⟨ls, by rw [hlen, Timer.setSlot_length], heq⟩

/-- **A full ring alerts.** -/
theorem timerArm_eq_none (h : t.Holds l) (hl : l.length = timerMaxCallback) (r c p x : ℕ) :
    timerArm t r c p x = none := by
  have hbusy : (t.slot t.slotActive).reactor ≠ reactorNullHandle := by
    cases l with
    | nil => simp [timerMaxCallback] at hl
    | cons f l => rw [h.read_ne]; exact h.busy f (by simp)
  rw [timerArm, if_pos ⟨h.active_eq_avail_iff.mpr (.inr hl), hbusy⟩]

/-- **Arming inserts into the list**, counts the instance up and leaves
the counter. -/
theorem timerArm_eq_some (h : t.Holds l) (hl : l.length < timerMaxCallback) {r : ℕ}
    (hr : r ≠ reactorNullHandle) (c p x : ℕ) :
    ∃ t', timerArm t r c p x =
        some (if p ≠ 0 then timerInvalidInstance else (t.currentInstance + 1) % 2 ^ 32, t') ∧
      t'.Holds (armInsert t.counter ⟨r, (t.currentInstance + 1) % 2 ^ 32, c, p, x⟩ l) ∧
      t'.slotActive = t.slotActive ∧ t'.counter = t.counter ∧
      t'.currentInstance = (t.currentInstance + 1) % 2 ^ 32 := by
  set f : TimerFuture := ⟨r, (t.currentInstance + 1) % 2 ^ 32, c, p, x⟩ with hf
  set q := armIndex t.counter f l with hq
  have hql : q ≤ l.length := armIndex_le ..
  have hquiet : ¬ (t.slotActive = t.slotAvail ∧
      (t.slot t.slotActive).reactor ≠ reactorNullHandle) := by
    rintro ⟨hends, hbusy⟩
    have hempty : l.length = 0 := by
      rcases h.active_eq_avail_iff.mp hends with h0 | h16
      · exact h0
      · omega
    have hfree := h.free 0 (by omega) (by decide)
    rw [Nat.add_zero, Nat.mod_eq_of_lt h.active_lt] at hfree
    exact hbusy hfree
  have hpoint : timerInsertPoint t c timerMaxCallback t.slotActive =
      (t.slotActive + q) % timerMaxCallback := by
    have := timerInsertPoint_eq h hl f l 0 timerMaxCallback rfl (Nat.zero_le _) hl
    rwa [Nat.add_zero, Nat.mod_eq_of_lt h.active_lt, Nat.zero_add] at this
  obtain ⟨ls, hlen, hshift⟩ := timerShiftRight_frame ((t.slotActive + q) % timerMaxCallback)
    timerMaxCallback t.slotAvail t
  have hslots := timerShiftRight_slot (a := t.slotActive) (p := q) timerMaxCallback l.length t
    h.size hql (by omega) hl
  rw [← h.avail, hshift] at hslots
  rw [timerArm, if_neg hquiet]
  dsimp only
  rw [hpoint, hshift]
  refine ⟨_, rfl, ?_, rfl, rfl, rfl⟩
  -- the slots of the new ring, by offset from the active slot
  have hcell : ∀ k < timerMaxCallback,
      cell (ls.set ((t.slotActive + q) % timerMaxCallback) f) ((t.slotActive + k) % timerMaxCallback)
        = if k = q then f else if q < k ∧ k ≤ l.length then
            t.slot ((t.slotActive + (k - 1)) % timerMaxCallback)
          else t.slot ((t.slotActive + k) % timerMaxCallback) := by
    intro k hk
    rw [cell_set (by rw [hlen]; exact offset_lt_size h.size)]
    by_cases hkq : k = q
    · rw [if_pos (by rw [hkq]), if_pos hkq]
    · rw [if_neg fun heq => hkq (ring_offset_inj hk (by omega) heq), if_neg hkq]
      exact hslots k hk
  constructor
  · show (ls.set _ f).length = _
    rw [List.length_set, hlen, h.size]
  · exact h.active_lt
  · rw [armInsert_length]; omega
  · have hright : timerRightOf t.slotAvail =
        (t.slotActive + (l.length + 1)) % timerMaxCallback := by rw [h.avail, timerRightOf_offset]
    rw [armInsert_length]
    exact hright
  · rw [armInsert_length, armInsert_eq_insertIdx]
    show ringRead (ls.set _ f) _ t.slotActive _ = _
    rw [ringRead_insertIdx hql, h.read]
    intro k hk
    rw [hcell k (by omega)]
    by_cases hkq : k = q
    · rw [if_pos hkq, if_pos hkq]
    · rw [if_neg hkq, if_neg hkq]
      by_cases hlt : q < k
      · rw [if_pos ⟨hlt, hk⟩, if_pos hlt]; rfl
      · rw [if_neg (by omega), if_neg hlt]; rfl
  · intro g hg
    rcases mem_armInsert.mp hg with rfl | hg
    · exact hr
    · exact h.busy g hg
  · intro k hk hk16
    rw [armInsert_length] at hk
    have hfree : (cell (ls.set ((t.slotActive + q) % timerMaxCallback) f)
        ((t.slotActive + k) % timerMaxCallback)).reactor = reactorNullHandle := by
      rw [hcell k hk16, if_neg (by omega), if_neg (by omega)]
      exact h.free k (by omega) hk16
    exact hfree

/-! ## Cancelling -/

/-- The shift moves the slots of the offsets from `p` on one to the
left. -/
theorem timerShiftLeft_slot (n : ℕ) :
    ∀ (j : ℕ) (t : Timer), t.sortedList.length = timerMaxCallback → j ≤ p → p - j < n →
      p < timerMaxCallback → t.slotAvail = (a + p) % timerMaxCallback →
      ∀ k < timerMaxCallback,
      (timerShiftLeft n t ((a + j) % timerMaxCallback)).slot ((a + k) % timerMaxCallback) =
        if j ≤ k ∧ k < p then t.slot ((a + (k + 1)) % timerMaxCallback)
        else t.slot ((a + k) % timerMaxCallback) := by
  induction n with
  | zero => intro j t _ _ hn; omega
  | succ n ih =>
    intro j t ht hjp hn hp hav k hk
    rw [timerShiftLeft]
    by_cases hj : j = p
    · rw [if_pos (by rw [hj, hav]), if_neg (by omega)]
    · have hne : (a + j) % timerMaxCallback ≠ t.slotAvail := by
        rw [hav]; exact fun heq => hj (ring_offset_inj (by omega) hp heq)
      rw [if_neg hne, timerRightOf_offset,
        ih (j + 1) (t.setSlot _ _) (by simpa using ht) (by omega) (by omega) hp hav k hk]
      -- only the slot at offset `j` was written in this turn
      have hslot : ∀ i < timerMaxCallback, i ≠ j →
          (t.setSlot ((a + j) % timerMaxCallback) (t.slot ((a + (j + 1)) % timerMaxCallback))).slot
            ((a + i) % timerMaxCallback) = t.slot ((a + i) % timerMaxCallback) := by
        intro i hi hij
        rw [Timer.slot_setSlot (offset_lt_size ht),
          if_neg fun heq => hij (ring_offset_inj hi (by omega) heq)]
      by_cases hkj : k = j
      · subst hkj
        rw [if_neg (by omega), if_pos (by omega), Timer.slot_setSlot (offset_lt_size ht), if_pos rfl]
      · by_cases hin : j + 1 ≤ k ∧ k < p
        · rw [if_pos hin, if_pos (by omega), hslot (k + 1) (by omega) (by omega)]
        · rw [if_neg hin, if_neg (by omega), hslot k hk hkj]

theorem timerShiftLeft_frame (n : ℕ) : ∀ (j : ℕ) (t : Timer), ∃ ls : List TimerFuture,
    ls.length = t.sortedList.length ∧ timerShiftLeft n t j = { t with sortedList := ls } := by
  induction n with
  | zero => intro j t; exact ⟨_, rfl, rfl⟩
  | succ n ih =>
    intro j t
    rw [timerShiftLeft]
    by_cases hj : j = t.slotAvail
    · rw [if_pos hj]; exact ⟨_, rfl, rfl⟩
    · rw [if_neg hj]
      obtain ⟨ls, hlen, heq⟩ := ih (timerRightOf j) (t.setSlot j (t.slot (timerRightOf j)))
      exact ⟨ls, by rw [hlen, Timer.setSlot_length], heq⟩

/-- **Reclaiming erases** the entry at its offset. -/
theorem timerReclaim_holds (h : t.Holds l) (hl : l.length < timerMaxCallback) (hp : p < l.length) :
    let s := timerReclaim t ((t.slotActive + p) % timerMaxCallback)
    s.Holds (l.eraseIdx p) ∧ s.counter = t.counter ∧ s.currentInstance = t.currentInstance := by
  obtain ⟨ls, hlen, hshift⟩ := timerShiftLeft_frame timerMaxCallback
    ((t.slotActive + p) % timerMaxCallback) t
  have hslots := timerShiftLeft_slot (a := t.slotActive) (p := l.length) timerMaxCallback p t
    h.size (by omega) (by omega) hl h.avail
  rw [hshift] at hslots
  have hleft : timerLeftOf t.slotAvail = (t.slotActive + (l.length - 1)) % timerMaxCallback := by
    have := timerLeftOf_offset t.slotActive (l.length - 1)
    rwa [Nat.sub_add_cancel (by omega), ← h.avail] at this
  have hlen' : (l.eraseIdx p).length = l.length - 1 := List.length_eraseIdx_of_lt hp
  simp only [timerReclaim, hshift, hleft]
  -- the slots of the new ring, by offset from the active slot
  set f : TimerFuture := { ({ t with sortedList := ls, slotAvail :=
    (t.slotActive + (l.length - 1)) % timerMaxCallback } : Timer).slot
      ((t.slotActive + (l.length - 1)) % timerMaxCallback) with reactor := reactorNullHandle }
  have hcell : ∀ k < timerMaxCallback,
      cell (ls.set ((t.slotActive + (l.length - 1)) % timerMaxCallback) f)
          ((t.slotActive + k) % timerMaxCallback)
        = if k = l.length - 1 then f else if p ≤ k ∧ k < l.length then
            t.slot ((t.slotActive + (k + 1)) % timerMaxCallback)
          else t.slot ((t.slotActive + k) % timerMaxCallback) := by
    intro k hk
    rw [cell_set (by rw [hlen]; exact offset_lt_size h.size)]
    by_cases hkq : k = l.length - 1
    · rw [if_pos (by rw [hkq]), if_pos hkq]
    · rw [if_neg fun heq => hkq (ring_offset_inj hk (by omega) heq), if_neg hkq]
      exact hslots k hk
  refine ⟨?_, rfl, rfl⟩
  constructor
  · show (ls.set _ f).length = _
    rw [List.length_set, hlen, h.size]
  · exact h.active_lt
  · rw [hlen']; omega
  · rw [hlen']; rfl
  · rw [hlen']
    show ringRead (ls.set _ f) _ t.slotActive _ = _
    obtain ⟨m, hm⟩ : ∃ m, l.length = m + 1 := ⟨l.length - 1, by omega⟩
    conv_rhs => rw [← h.read]
    rw [hm, Nat.add_sub_cancel, ← ringRead_eraseIdx (by omega)]
    intro k hk
    rw [show (m : ℕ) = l.length - 1 by omega, hcell k (by omega), if_neg (by omega)]
    by_cases hpk : p ≤ k
    · rw [if_pos ⟨hpk, by omega⟩, if_pos hpk]; rfl
    · rw [if_neg (by omega), if_neg hpk]; rfl
  · exact fun g hg => h.busy g (List.mem_of_mem_eraseIdx hg)
  · intro k hk hk16
    rw [hlen'] at hk
    have hfree : (cell (ls.set ((t.slotActive + (l.length - 1)) % timerMaxCallback) f)
        ((t.slotActive + k) % timerMaxCallback)).reactor = reactorNullHandle := by
      rw [hcell k hk16]
      by_cases hkl : k = l.length - 1
      · rw [if_pos hkl]
      · rw [if_neg hkl, if_neg (by omega)]
        exact h.free k (by omega) hk16
    exact hfree

/-- A full ring looks empty to `timer_cancel`. -/
theorem timerCancel_full (h : t.Holds l) (hl : l.length = timerMaxCallback) (i : ℕ) :
    timerCancel t i = (false, t) := by
  rw [timerCancel, show timerMaxCallback = 15 + 1 from rfl, timerCancelFrom,
    if_pos (h.active_eq_avail_iff.mpr (.inr hl))]

/-- The search of `timer_cancel` from the offset `j` on, by whether what is
left of the list has the instance. -/
theorem timerCancelFrom_eq (h : t.Holds l) (hl : l.length < timerMaxCallback) (i : ℕ) :
    ∀ (s : List TimerFuture) (j n : ℕ), l.drop j = s → j ≤ l.length → s.length < n →
      timerCancelFrom t i n ((t.slotActive + j) % timerMaxCallback) =
        if ∃ f ∈ s, f.inst = i then
          (true, timerReclaim t ((t.slotActive +
            (j + s.findIdx fun f => f.inst = i)) % timerMaxCallback))
        else (false, t) := by
  intro s
  induction s with
  | nil =>
    intro j n hs hj hn
    obtain ⟨n, rfl⟩ : ∃ m, n = m + 1 := ⟨n - 1, by simp at hn; omega⟩
    have hjl : j = l.length := le_antisymm hj (List.drop_eq_nil_iff.mp hs)
    rw [timerCancelFrom, if_pos (by rw [h.avail, hjl]), if_neg (by simp)]
  | cons g s ih =>
    intro j n hs hj hn
    obtain ⟨n, rfl⟩ : ∃ m, n = m + 1 := ⟨n - 1, by simp at hn; omega⟩
    obtain ⟨hjl, hs, hslot, hne⟩ := h.at_offset hl hs
    rw [timerCancelFrom, if_neg hne, hslot]
    by_cases hgi : g.inst = i
    · rw [if_pos hgi, if_pos ⟨g, by simp, hgi⟩, List.findIdx_cons]
      simp [hgi]
    · rw [if_neg hgi, timerRightOf_offset, ih (j + 1) n hs (by omega) (by simpa using hn),
        List.findIdx_cons]
      by_cases hex : ∃ f ∈ s, f.inst = i
      · rw [if_pos hex, if_pos (by obtain ⟨f, hf, hfi⟩ := hex; exact ⟨f, by simp [hf], hfi⟩)]
        simp only [hgi, decide_false, cond_false]
        congr 4
        omega
      · rw [if_neg hex, if_neg]
        rintro ⟨f, hf, hfi⟩
        rcases List.mem_cons.mp hf with rfl | hf
        · exact hgi hfi
        · exact hex ⟨f, hf, hfi⟩

/-- **Cancelling an instance that is not pending changes nothing.** -/
theorem timerCancel_eq_false (h : t.Holds l) (i : ℕ) (hi : ∀ f ∈ l, f.inst ≠ i) :
    timerCancel t i = (false, t) := by
  rcases h.length_le.lt_or_eq with hl | hl
  · have := timerCancelFrom_eq h hl i l 0 timerMaxCallback rfl (Nat.zero_le _) hl
    rwa [Nat.add_zero, Nat.mod_eq_of_lt h.active_lt, if_neg (by simpa using hi)] at this
  · exact timerCancel_full h hl i

/-- **Cancelling a pending instance erases it** and leaves the rest in
order. -/
theorem timerCancel_eq_true (h : t.Holds l) (hl : l.length < timerMaxCallback) (i : ℕ)
    (hi : ∃ f ∈ l, f.inst = i) :
    ∃ t', timerCancel t i = (true, t') ∧ t'.Holds (l.eraseP fun f => f.inst = i) ∧
      t'.counter = t.counter ∧ t'.currentInstance = t.currentInstance := by
  have hlt : (l.findIdx fun f => f.inst = i) < l.length := by
    rw [List.findIdx_lt_length]; simpa using hi
  have := timerCancelFrom_eq h hl i l 0 timerMaxCallback rfl (Nat.zero_le _) hl
  rw [Nat.add_zero, Nat.mod_eq_of_lt h.active_lt, if_pos hi, Nat.zero_add] at this
  obtain ⟨hh, hc, hci⟩ := timerReclaim_holds h hl hlt
  refine ⟨_, this, ?_, hc, hci⟩
  rw [List.eraseP_eq_eraseIdx, List.findIdx?_eq_some_of_exists (by simpa using hi)]
  exact hh

/-! ## Expiring -/

/-- Moving past the active slot and freeing it takes the head. -/
theorem timerAdvance_holds (h : t.Holds (f :: l)) :
    let s : Timer := { t with slotActive := timerRightOf t.slotActive }
    (s.setSlot t.slotActive { s.slot t.slotActive with reactor := reactorNullHandle }).Holds l := by
  have hlen := h.length_le
  rw [List.length_cons] at hlen
  have hnext : timerRightOf t.slotActive = (t.slotActive + 1) % timerMaxCallback := by
    have := timerRightOf_offset t.slotActive 0
    rwa [Nat.add_zero, Nat.mod_eq_of_lt h.active_lt] at this
  have hoff : ∀ k, ((t.slotActive + 1) % timerMaxCallback + k) % timerMaxCallback =
      (t.slotActive + (k + 1)) % timerMaxCallback := fun k => ring_offset_succ
  have hself : ∀ k < timerMaxCallback, (t.slotActive + k) % timerMaxCallback = t.slotActive →
      k = 0 := fun k hk heq => ring_offset_inj (a := t.slotActive) hk (by decide)
        (by rw [heq, Nat.add_zero, Nat.mod_eq_of_lt h.active_lt])
  have hread := h.read
  rw [List.length_cons, ringRead_succ h.active_lt, List.cons.injEq] at hread
  set g : TimerFuture := { t.slot t.slotActive with reactor := reactorNullHandle }
  have hact : t.slotActive < t.sortedList.length := by rw [h.size]; exact h.active_lt
  dsimp only
  constructor
  · show (t.sortedList.set _ g).length = _
    rw [List.length_set, h.size]
  · show timerRightOf t.slotActive < _
    rw [hnext]; exact ring_offset_lt (by decide)
  · omega
  · show t.slotAvail = (timerRightOf t.slotActive + l.length) % timerMaxCallback
    rw [hnext, hoff, h.avail, List.length_cons]
  · show ringRead (t.sortedList.set t.slotActive g) _ (timerRightOf t.slotActive) _ = l
    rw [hnext, ringRead_set hact, hread.2]
    intro k hk heq
    rw [hoff] at heq
    exact absurd (hself (k + 1) (by omega) heq) (by omega)
  · exact fun x hx => h.busy x (List.mem_cons_of_mem _ hx)
  · intro k hk hk16
    show (cell (t.sortedList.set t.slotActive g)
      ((timerRightOf t.slotActive + k) % timerMaxCallback)).reactor = _
    rw [hnext, hoff, cell_set hact]
    -- the slot that was active is free now; the others were free before
    by_cases heq : (t.slotActive + (k + 1)) % timerMaxCallback = t.slotActive
    · rw [if_pos heq]
    · rw [if_neg heq]
      refine h.free (k + 1) (by simp only [List.length_cons]; omega) ?_
      by_contra hc
      have hk15 : k + 1 = timerMaxCallback := by simp only [timerMaxCallback] at hk16 hc ⊢; omega
      rw [hk15, Nat.add_mod_right, Nat.mod_eq_of_lt h.active_lt] at heq
      exact heq rfl

/-- What is left of the list when its head has expired: a repeating timer
is armed again, for one period later and with no argument, before the
head goes. -/
def expire (counter : ℕ) (f : TimerFuture) (l : List TimerFuture) (i : ℕ) :
    List TimerFuture × ℕ :=
  if f.rep ≠ 0 then
    ((armInsert counter ⟨f.reactor, (i + 1) % 2 ^ 32, (f.count + f.rep) % 2 ^ 32, f.rep, 0⟩
      (f :: l)).tail, (i + 1) % 2 ^ 32)
  else (l, i)

/-- Expiring on the ring is expiring on the list. -/
theorem timerExpire_holds (h : t.Holds (f :: l)) (hl : (f :: l).length < timerMaxCallback) :
    ∃ t', timerExpire t = some t' ∧ t'.Holds (expire t.counter f l t.currentInstance).1 ∧
      t'.currentInstance = (expire t.counter f l t.currentInstance).2 ∧
      t'.counter = t.counter := by
  unfold timerExpire expire
  dsimp only
  rw [h.read_ne]
  by_cases hrep : f.rep ≠ 0
  · rw [if_pos hrep, if_pos hrep]
    obtain ⟨t₁, harm, h₁, hact, hc, hi⟩ := timerArm_eq_some h hl (h.busy f (by simp))
      ((f.count + f.rep) % 2 ^ 32) f.rep 0
    rw [harm]
    obtain ⟨g, l₁, hgl⟩ := List.exists_cons_of_length_pos (l := armInsert t.counter
      ⟨f.reactor, (t.currentInstance + 1) % 2 ^ 32, (f.count + f.rep) % 2 ^ 32, f.rep, 0⟩ (f :: l))
      (by rw [armInsert_length]; omega)
    rw [hgl] at h₁ ⊢
    have h₂ := timerAdvance_holds h₁
    rw [hact] at h₂
    exact ⟨_, rfl, by simpa only [hact, List.tail_cons] using h₂, hi, hc⟩
  · rw [if_neg hrep, if_neg hrep]
    exact ⟨_, rfl, timerAdvance_holds h, rfl, rfl⟩

/-- **The dispatch loop on the list**: the head expires while it is due.
The loop takes a full list for an empty one. -/
def ringDrain (timeNow counter : ℕ) : ℕ → List TimerFuture → ℕ →
    Option (List (ℕ × ℕ) × List TimerFuture × ℕ)
  | 0, _, _ => none
  | _ + 1, [], i => some ([], [], i)
  | fuel + 1, f :: l, i =>
    if (f :: l).length = timerMaxCallback then some ([], f :: l, i)
    else if f.count ≤ timeNow then
      (ringDrain timeNow counter fuel (expire counter f l i).1 (expire counter f l i).2).map fun r =>
        ((f.reactor, f.arg) :: r.1, r.2)
    else some ([], f :: l, i)

/-- **The loop of `timer_dispatch` drains the list**, notifies what the
drain notifies and leaves the counter. -/
theorem timerDispatchLoop_eq (now : ℕ) : ∀ (n : ℕ) (t : Timer) (l : List TimerFuture),
    t.Holds l →
    (timerDispatchLoop now n t = none ∧ ringDrain now t.counter n l t.currentInstance = none) ∨
      ∃ ns t' l', timerDispatchLoop now n t = some (ns, t') ∧
        ringDrain now t.counter n l t.currentInstance = some (ns, l', t'.currentInstance) ∧
        t'.Holds l' ∧ t'.counter = t.counter := by
  intro n
  induction n with
  | zero => intro t l _; exact .inl ⟨rfl, rfl⟩
  | succ n ih =>
    intro t l h
    cases l with
    | nil =>
      refine .inr ⟨[], t, [], ?_, rfl, h, rfl⟩
      rw [timerDispatchLoop, if_pos (h.active_eq_avail_iff.mpr (.inl rfl))]
    | cons f l =>
      by_cases hfull : (f :: l).length = timerMaxCallback
      · refine .inr ⟨[], t, f :: l, ?_, ?_, h, rfl⟩
        · rw [timerDispatchLoop, if_pos (h.active_eq_avail_iff.mpr (.inr hfull))]
        · rw [ringDrain, if_pos hfull]
      have hends : ¬ t.slotActive = t.slotAvail := by
        rw [h.active_eq_avail_iff]; simp only [List.length_cons] at hfull ⊢; omega
      rw [timerDispatchLoop, if_neg hends, ringDrain, if_neg hfull, h.read_ne]
      by_cases hdue : f.count ≤ now
      · rw [if_pos hdue, if_pos hdue]
        obtain ⟨t₁, hexp, h₁, hi₁, hc₁⟩ :=
          timerExpire_holds h (lt_of_le_of_ne h.length_le hfull)
        have := ih t₁ _ h₁
        rw [hc₁, hi₁] at this
        rw [hexp, Option.bind_some]
        rcases this with ⟨hd, hl⟩ | ⟨ns, t', l', hd, hl, h', hc'⟩
        · exact .inl ⟨by rw [hd]; rfl, by rw [hl]; rfl⟩
        · exact .inr ⟨(f.reactor, f.arg) :: ns, t', l', by rw [hd]; rfl, by rw [hl]; rfl, h', hc'⟩
      · rw [if_neg hdue, if_neg hdue]
        exact .inr ⟨[], t, f :: l, rfl, rfl, h, rfl⟩

end Asx

end CncPneumatics
