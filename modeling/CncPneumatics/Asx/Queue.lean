import CncPneumatics.Common.Mailbox
import CncPneumatics.Common.Ring
/-!
# The queue

`queue.c`: a ring of pointers with a head, a tail and a length. The head
and the tail are signed 8-bit integers, the length and the capacity
unsigned ones; an index moves on by `(i + 1) % nelem`. `Queue.Holds` says
which list a queue holds; pushing and popping work at its two ends, and
pushing round does to it what posting to a mailbox does.
-/

namespace CncPneumatics

namespace Asx

/-- `queue_t`. -/
structure Queue (α : Type*) where
  buffer : List α
  /-- First position with useful data. -/
  head : ℤ
  /-- First free position. -/
  tail : ℤ
  length : ℕ
  nelem : ℕ
deriving DecidableEq

variable {α : Type*} [Inhabited α] {q q' : Queue α} {l : List α} {x : α} {n : ℕ}

/-- `queue_init`, which fills the buffer with one value. -/
def queueInit (nelem : ℕ) : Queue α where
  buffer := List.replicate nelem default
  head := 0
  tail := 0
  length := 0
  nelem := nelem % 2 ^ 8

/-- `queue_is_empty`. -/
def queueIsEmpty (q : Queue α) : Bool := q.length = 0

/-- `(index + 1) % nelem`, stored in an `int8_t`. -/
def queueNext (index : ℤ) (nelem : ℕ) : ℤ := ((index + 1).tmod nelem).bmod (2 ^ 8)

/-- `(index - 1 + nelem) % nelem`, stored in an `int8_t`. -/
def queuePrevious (index : ℤ) (nelem : ℕ) : ℤ := ((index - 1 + nelem).tmod nelem).bmod (2 ^ 8)

/-- `queue_push`. -/
def queuePush (q : Queue α) (data : α) : Bool × Queue α :=
  if q.length ≥ q.nelem then (false, q)
  else
    let q := { q with buffer := q.buffer.set q.tail.toNat data }
    let q := { q with tail := queueNext q.tail q.nelem }
    (true, { q with length := (q.length + 1) % 2 ^ 8 })

/-- `queue_pop_front`; `none` where it returns false. -/
def queuePopFront (q : Queue α) : Option (α × Queue α) :=
  if q.length ≤ 0 then none
  else
    let q := { q with tail := queuePrevious q.tail q.nelem }
    some (cell q.buffer q.tail.toNat, { q with length := q.length - 1 })

/-- `queue_push_back`. -/
def queuePushBack (q : Queue α) (data : α) : Bool × Queue α :=
  if q.length ≥ q.nelem then (false, q)
  else
    let q := { q with head := queuePrevious q.head q.nelem }
    let q := { q with buffer := q.buffer.set q.head.toNat data }
    (true, { q with length := (q.length + 1) % 2 ^ 8 })

/-- `queue_pop`; `none` where it returns false. -/
def queuePop (q : Queue α) : Option (α × Queue α) :=
  if q.length ≤ 0 then none
  else some (cell q.buffer q.head.toNat,
    { q with head := queueNext q.head q.nelem, length := q.length - 1 })

/-- `queue_push_ring`. -/
def queuePushRing (q : Queue α) (data : α) : Queue α :=
  let q := { q with buffer := q.buffer.set q.tail.toNat data }
  let q := { q with tail := queueNext q.tail q.nelem }
  if q.length < q.nelem then { q with length := (q.length + 1) % 2 ^ 8 }
  else { q with head := queueNext q.head q.nelem }

/-- **The queue holds the list**: read round from the head, with room for
at most 128 elements so that no index leaves an `int8_t`. -/
structure Queue.Holds (q : Queue α) (l : List α) : Prop where
  size : q.buffer.length = q.nelem
  nelem_pos : 0 < q.nelem
  nelem_le : q.nelem ≤ 128
  head_nonneg : 0 ≤ q.head
  head_lt : q.head < q.nelem
  length_eq : q.length = l.length
  length_le : l.length ≤ q.nelem
  tail_eq : q.tail = ((q.head.toNat + l.length) % q.nelem : ℕ)
  read : ringRead q.buffer q.nelem q.head.toNat l.length = l

/-- An index moves on round the buffer. -/
theorem queueNext_eq (hn : 0 < n) (hle : n ≤ 128) (i : ℕ) :
    queueNext i n = ((i + 1) % n : ℕ) := by
  unfold queueNext
  rw [Int.tmod_eq_emod_of_nonneg (by omega), show ((i : ℤ) + 1) % n = ((i + 1) % n : ℕ) by simp]
  have hlt : (i + 1) % n < n := Nat.mod_lt _ hn
  exact Int.bmod_eq_of_le (by omega) (by omega)

/-- An index moves back round the buffer: the next one is where it was. -/
theorem queuePrevious_eq (hn : 0 < n) (hle : n ≤ 128) {i : ℕ} (hi : i < n) :
    ∃ p : ℕ, p < n ∧ queuePrevious i n = p ∧ (p + 1) % n = i := by
  have hcast : ((i : ℤ) - 1 + n) = ((i + (n - 1) : ℕ) : ℤ) := by omega
  have hlt : (i + (n - 1)) % n < n := Nat.mod_lt _ hn
  refine ⟨(i + (n - 1)) % n, hlt, ?_, ?_⟩
  · unfold queuePrevious
    rw [hcast, Int.tmod_eq_emod_of_nonneg (by omega), ← Int.natCast_emod]
    exact Int.bmod_eq_of_le (by omega) (by omega)
  · rw [Nat.mod_add_mod, show i + (n - 1) + 1 = i + n by omega, Nat.add_mod_right,
      Nat.mod_eq_of_lt hi]

/-- After `queue_init` the queue is empty. -/
theorem queueInit_holds (hn : 0 < n) (hle : n ≤ 128) : (queueInit n : Queue α).Holds [] where
  size := by simp only [queueInit, List.length_replicate]; omega
  nelem_pos := by simp only [queueInit]; omega
  nelem_le := by simp only [queueInit]; omega
  head_nonneg := le_rfl
  head_lt := by simp only [queueInit]; omega
  length_eq := rfl
  length_le := by simp
  tail_eq := by simp [queueInit]
  read := rfl

namespace Queue.Holds

/-- What a queue holds, from its head as a position in the buffer. -/
theorem at_head (h : q.Holds l) : ∃ hd : ℕ, q.head = hd ∧ hd < q.nelem ∧
    q.tail = ((hd + l.length) % q.nelem : ℕ) ∧ ringRead q.buffer q.nelem hd l.length = l := by
  obtain ⟨hd, hhd⟩ := Int.eq_ofNat_of_zero_le h.head_nonneg
  have hlt := h.head_lt
  have htail := h.tail_eq
  have hread := h.read
  rw [hhd, Int.toNat_natCast] at htail hread
  exact ⟨hd, hhd, by omega, htail, hread⟩

theorem of_head {hd : ℕ} (hsize : q.buffer.length = q.nelem) (hpos : 0 < q.nelem)
    (hn : q.nelem ≤ 128) (hhd : q.head = hd) (hlt : hd < q.nelem) (hlen : q.length = l.length)
    (hle : l.length ≤ q.nelem) (htail : q.tail = ((hd + l.length) % q.nelem : ℕ))
    (hread : ringRead q.buffer q.nelem hd l.length = l) : q.Holds l where
  size := hsize
  nelem_pos := hpos
  nelem_le := hn
  head_nonneg := by omega
  head_lt := by omega
  length_eq := hlen
  length_le := hle
  tail_eq := by rw [hhd, Int.toNat_natCast]; exact htail
  read := by rw [hhd, Int.toNat_natCast]; exact hread

theorem isEmpty_iff (h : q.Holds l) : queueIsEmpty q = true ↔ l = [] := by
  rw [queueIsEmpty, decide_eq_true_iff, h.length_eq, List.length_eq_zero_iff]

/-- **The list a queue holds is unique.** -/
theorem unique {l' : List α} (h : q.Holds l) (h' : q.Holds l') : l = l' := by
  rw [← h.read, ← h'.read, ← h.length_eq, ← h'.length_eq]

/-- Popping fails on an empty queue. -/
theorem queuePop_nil (h : q.Holds []) : queuePop q = none :=
  if_pos (by rw [h.length_eq]; exact le_rfl)

/-- **Popping takes the head.** -/
theorem queuePop_cons (h : q.Holds (x :: l)) :
    ∃ q', queuePop q = some (x, q') ∧ q'.Holds l ∧ q'.nelem = q.nelem := by
  obtain ⟨hd, hhd, hhead, htail, hread⟩ := h.at_head
  have hlen := h.length_eq
  have hle := h.length_le
  have hpos := h.nelem_pos
  rw [List.length_cons] at hlen hle htail hread
  rw [ringRead_succ hhead, List.cons.injEq] at hread
  have hnext : queueNext q.head q.nelem = ((hd + 1) % q.nelem : ℕ) := by
    rw [hhd, queueNext_eq hpos h.nelem_le]
  have hcell : cell q.buffer q.head.toNat = x := by rw [hhd, Int.toNat_natCast]; exact hread.1
  refine ⟨{ q with head := queueNext q.head q.nelem, length := q.length - 1 },
    by rw [queuePop, if_neg (by omega), hcell], ?_, rfl⟩
  refine of_head h.size hpos h.nelem_le hnext (Nat.mod_lt _ hpos) (by dsimp only; omega)
    (by dsimp only; omega) ?_ hread.2
  dsimp only
  rw [htail, ring_offset_succ]

theorem tail_lt (h : q.Holds l) : 0 ≤ q.tail ∧ q.tail < q.nelem := by
  have hlt : (q.head.toNat + l.length) % q.nelem < q.nelem := Nat.mod_lt _ h.nelem_pos
  rw [h.tail_eq]
  omega

/-- Where there is room, pushing appends. -/
theorem queuePush_of_lt (h : q.Holds l) (x : α) (hlt : l.length < q.nelem) :
    (Asx.queuePush q x).1 = true ∧ (Asx.queuePush q x).2.Holds (l ++ [x]) ∧
      (Asx.queuePush q x).2.nelem = q.nelem := by
  obtain ⟨hd, hhd, hhead, htail, hread⟩ := h.at_head
  have hn128 := h.nelem_le
  have hlen := h.length_eq
  have hnext : queueNext q.tail q.nelem = ((hd + (l.length + 1)) % q.nelem : ℕ) := by
    rw [htail, queueNext_eq h.nelem_pos hn128, Nat.mod_add_mod, Nat.add_assoc]
  rw [Asx.queuePush, if_neg (by omega)]
  refine ⟨rfl, of_head ?_ h.nelem_pos hn128 hhd hhead ?_ ?_ ?_ ?_, rfl⟩
  · dsimp only; rw [List.length_set]; exact h.size
  · dsimp only; rw [List.length_append, List.length_singleton]; omega
  · dsimp only; rw [List.length_append, List.length_singleton]; omega
  · dsimp only; rw [hnext, List.length_append, List.length_singleton]
  · dsimp only
    rw [htail, Int.toNat_natCast, List.length_append, List.length_singleton,
      ringRead_set_concat h.size (by omega), hread]

/-- A full queue takes nothing in. -/
theorem queuePush_of_le (h : q.Holds l) (x : α) (hle : q.nelem ≤ l.length) :
    Asx.queuePush q x = (false, q) := if_pos (by rw [h.length_eq]; exact hle)

theorem queuePushBack_of_le (h : q.Holds l) (x : α) (hle : q.nelem ≤ l.length) :
    Asx.queuePushBack q x = (false, q) := if_pos (by rw [h.length_eq]; exact hle)

/-- Where there is room, pushing back prepends. -/
theorem queuePushBack_of_lt (h : q.Holds l) (x : α) (hlt : l.length < q.nelem) :
    (Asx.queuePushBack q x).1 = true ∧ (Asx.queuePushBack q x).2.Holds (x :: l) ∧
      (Asx.queuePushBack q x).2.nelem = q.nelem := by
  obtain ⟨hd, hhd, hhead, htail, hread⟩ := h.at_head
  have hpos := h.nelem_pos
  have hn128 := h.nelem_le
  have hlen := h.length_eq
  obtain ⟨p, hp, hprev, hround⟩ := queuePrevious_eq hpos hn128 hhead
  have hoff : (p + (l.length + 1)) % q.nelem = (hd + l.length) % q.nelem := by
    rw [← ring_offset_succ, hround]
  rw [Asx.queuePushBack, if_neg (by omega)]
  dsimp only
  rw [hhd, hprev, Int.toNat_natCast]
  refine ⟨rfl, of_head ?_ hpos hn128 rfl hp ?_ ?_ ?_ ?_, rfl⟩
  · dsimp only; rw [List.length_set]; exact h.size
  · dsimp only; rw [List.length_cons]; omega
  · dsimp only; rw [List.length_cons]; omega
  · dsimp only; rw [List.length_cons, hoff, htail]
  · dsimp only
    rw [List.length_cons, ringRead_set_cons h.size hlt hp hround, hread]

/-- Popping at the front fails on an empty queue. -/
theorem queuePopFront_nil (h : q.Holds []) : queuePopFront q = none :=
  if_pos (by rw [h.length_eq]; exact le_rfl)

/-- **Popping at the front takes the last element.** -/
theorem queuePopFront_concat (h : q.Holds (l ++ [x])) :
    ∃ q', queuePopFront q = some (x, q') ∧ q'.Holds l ∧ q'.nelem = q.nelem := by
  obtain ⟨hd, hhd, hhead, htail, hread⟩ := h.at_head
  have hpos := h.nelem_pos
  have hn128 := h.nelem_le
  have hlen := h.length_eq
  have hle := h.length_le
  rw [List.length_append, List.length_singleton] at hlen hle htail hread
  have htl : (hd + (l.length + 1)) % q.nelem < q.nelem := Nat.mod_lt _ hpos
  obtain ⟨p, hp, hprev, hround⟩ := queuePrevious_eq hpos hn128 htl
  -- the cell before the tail is the last one read
  have hlast : p = (hd + l.length) % q.nelem := by
    have hmod : p + 1 ≡ hd + l.length + 1 [MOD q.nelem] := by
      rw [Nat.ModEq, hround, Nat.add_assoc]
    have := Nat.ModEq.add_right_cancel' 1 hmod
    rwa [Nat.ModEq, Nat.mod_eq_of_lt hp] at this
  rw [ringRead_concat] at hread
  obtain ⟨hinit, hcell⟩ := List.append_inj' hread rfl
  rw [List.cons.injEq] at hcell
  refine ⟨{ q with tail := queuePrevious q.tail q.nelem, length := q.length - 1 }, ?_, ?_, rfl⟩
  · rw [queuePopFront, if_neg (by omega)]
    dsimp only
    rw [htail, hprev, Int.toNat_natCast, hlast, hcell.1]
  · refine of_head h.size hpos hn128 hhd hhead (by dsimp only; omega) (by dsimp only; omega) ?_ hinit
    dsimp only
    rw [htail, hprev, hlast]

/-- **Pushing posts.** -/
theorem queuePushRing (h : q.Holds l) (x : α) :
    (Asx.queuePushRing q x).Holds (post q.nelem l x) ∧
      (Asx.queuePushRing q x).nelem = q.nelem := by
  have hlen := h.length_eq
  have hle := h.length_le
  by_cases hroom : l.length < q.nelem
  · have hsame : Asx.queuePushRing q x = (queuePush q x).2 := by
      have hlt : q.length < q.nelem := by omega
      simp only [Asx.queuePushRing, queuePush, ge_iff_le, if_pos hlt, if_neg (Nat.not_le.mpr hlt)]
    rw [hsame, post_of_lt hroom]
    exact (h.queuePush_of_lt x hroom).2
  · -- the queue is full: the tail is at the head, and the head moves on
    obtain ⟨hd, hhd, hhead, htail, hread⟩ := h.at_head
    have hpos := h.nelem_pos
    have hn128 := h.nelem_le
    have hfull : l.length = q.nelem := by omega
    obtain ⟨y, l, rfl⟩ := List.exists_cons_of_length_pos (l := l) (by omega)
    rw [List.length_cons] at *
    have hnext : queueNext q.tail q.nelem = ((hd + (l.length + 1 + 1)) % q.nelem : ℕ) := by
      rw [htail, queueNext_eq hpos hn128, Nat.mod_add_mod, Nat.add_assoc]
    have hhn : queueNext q.head q.nelem = ((hd + 1) % q.nelem : ℕ) := by
      rw [hhd, queueNext_eq hpos hn128]
    have hround : ∀ k, ((hd + 1) % q.nelem + k) % q.nelem = (hd + (k + 1)) % q.nelem :=
      fun k => ring_offset_succ
    rw [ringRead_succ hhead, List.cons.injEq] at hread
    rw [Asx.queuePushRing]
    dsimp only
    rw [if_neg (by omega), post_of_le (by rw [List.length_cons]; omega), List.tail_cons]
    refine ⟨of_head ?_ hpos hn128 hhn (Nat.mod_lt _ hpos) ?_ ?_ ?_ ?_, rfl⟩
    · dsimp only; rw [List.length_set]; exact h.size
    · dsimp only; rw [List.length_append, List.length_singleton]; omega
    · dsimp only; rw [List.length_append, List.length_singleton]; omega
    · dsimp only
      rw [hnext, List.length_append, List.length_singleton, hround]
    · dsimp only
      rw [htail, Int.toNat_natCast, List.length_append, List.length_singleton]
      have hset : ringRead (q.buffer.set (((hd + 1) % q.nelem + l.length) % q.nelem) x) q.nelem
          ((hd + 1) % q.nelem) (l.length + 1) = _ := ringRead_set_concat h.size (by omega)
      rw [hround, hread.2] at hset
      exact hset

end Queue.Holds

end Asx

end CncPneumatics
