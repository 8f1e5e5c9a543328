import CncPneumatics.Asx.QueueRefines
/-!
# The indices of the queue

Which cells of its buffer the queue uses. The sizes are stored in 8 bits
without a sign, but the head and the tail in 8 bits with one: in a buffer
of more than 128 elements an index from 128 on comes back negative, and
the next call uses it so.
-/

namespace CncPneumatics

namespace Asx

variable {α : Type*} [Inhabited α] {q : Queue α} {n : ℕ} {i : ℤ} {c : QueueCall α}

/-- The index at which a call uses the buffer, if it does. -/
def Queue.index (q : Queue α) : QueueCall α → Option ℤ
  | .push _ => if q.length ≥ q.nelem then none else some q.tail
  | .popFront => if q.length ≤ 0 then none else some (queuePrevious q.tail q.nelem)
  | .pushBack _ => if q.length ≥ q.nelem then none else some (queuePrevious q.head q.nelem)
  | .pop => if q.length ≤ 0 then none else some q.head
  | .pushRing _ => some q.tail
  | .isEmpty => none

/-- The indices that a sequence of calls uses after `queue_init`. -/
def indices (n : ℕ) (out : α) (calls : List (QueueCall α)) : List ℤ :=
  (found Queue.call calls (queueInit n, out)).filterMap fun p => p.1.1.index p.2

/-- **A call uses the buffer at its index and nowhere else**: it writes the
cell there or reads it. -/
theorem Queue.call_index (s : Queue α × α) (c : QueueCall α) :
    match s.1.index c with
    | none => (Queue.call s c).2.1.buffer = s.1.buffer ∧ (Queue.call s c).2.2 = s.2
    | some i =>
      (∃ data, (Queue.call s c).2.1.buffer = s.1.buffer.set i.toNat data ∧
        (Queue.call s c).2.2 = s.2) ∨
      ((Queue.call s c).2.1.buffer = s.1.buffer ∧
        (Queue.call s c).2.2 = cell s.1.buffer i.toNat) := by
  obtain ⟨q, out⟩ := s
  cases c with
  | push data =>
    simp only [Queue.index, Queue.call, queuePush]
    by_cases h : q.length ≥ q.nelem
    · simp [h]
    · simp only [if_neg h]
      exact .inl ⟨data, rfl, trivial⟩
  | popFront =>
    simp only [Queue.index, Queue.call, queuePopFront]
    by_cases h : q.length ≤ 0
    · simp [h]
    · simp only [if_neg h]
      exact .inr ⟨trivial, trivial⟩
  | pushBack data =>
    simp only [Queue.index, Queue.call, queuePushBack]
    by_cases h : q.length ≥ q.nelem
    · simp [h]
    · simp only [if_neg h]
      exact .inl ⟨data, rfl, trivial⟩
  | pop =>
    simp only [Queue.index, Queue.call, queuePop]
    by_cases h : q.length ≤ 0
    · simp [h]
    · simp only [if_neg h]
      exact .inr ⟨trivial, trivial⟩
  | pushRing data =>
    simp only [Queue.index, Queue.call, queuePushRing]
    refine .inl ⟨data, ?_, trivial⟩
    split <;> rfl
  | isEmpty => exact ⟨rfl, rfl⟩

/-! ## Indices as they are stored -/

/-- What can be stored for an index of a buffer of `n` elements. -/
structure Stored (n : ℕ) (i : ℤ) : Prop where
  gt : -(n : ℤ) < i
  lt : i < n
  ge_int8 : -128 ≤ i
  le_int8 : i ≤ 127

/-- An 8-bit value with a sign, as what is stored for one from -127 to 255. -/
theorem bmod_int8 (hlow : -128 ≤ i) (hhigh : i < 256) :
    i.bmod (2 ^ 8) = if i < 128 then i else i - 256 := by
  rw [Int.bmod_def]
  split <;> split <;> omega

/-- An index moves on by one, or to 0 at the end; from 127 it turns
negative. -/
theorem Stored.next_eq (h : Stored n i) : queueNext i n =
    if i + 1 = n then 0 else if i = 127 then -128 else i + 1 := by
  obtain ⟨hgt, hlt, hge, hle⟩ := h
  -- the remainder in C keeps the sign of a negative index
  have htmod : (i + 1).tmod n = if i + 1 = n then 0 else i + 1 := by
    split
    · next heq => rw [heq, Int.tmod_self]
    · next hne =>
      rcases Int.le_total 0 (i + 1) with hpos | hneg
      · exact Int.tmod_eq_of_lt hpos (by omega)
      · rw [← Int.neg_neg (i + 1), Int.neg_tmod, Int.tmod_eq_of_lt (by omega) (by omega)]
  unfold queueNext
  rw [htmod]
  split
  · rfl
  · rw [bmod_int8 (by omega) (by omega)]
    split <;> split <;> omega

/-- An index moves back by one, or to the end from 0; from 128 on it is
stored as a negative one. -/
theorem Stored.previous_eq (hle : n ≤ 255) (h : Stored n i) : queuePrevious i n =
    let j := if 1 ≤ i then i - 1 else i - 1 + n
    if j < 128 then j else j - 256 := by
  obtain ⟨hgt, hlt, -, -⟩ := h
  have htmod : (i - 1 + n).tmod n = if 1 ≤ i then i - 1 else i - 1 + n := by
    split
    · rw [Int.tmod_eq_emod_of_nonneg (by omega), Int.add_emod_right]
      exact Int.emod_eq_of_lt (by omega) (by omega)
    · exact Int.tmod_eq_of_lt (by omega) (by omega)
  unfold queuePrevious
  rw [htmod]
  dsimp only
  split
  · exact bmod_int8 (by omega) (by omega)
  · exact bmod_int8 (by omega) (by omega)

theorem Stored.next (h : Stored n i) : Stored n (queueNext i n) := by
  rw [h.next_eq]
  obtain ⟨hgt, hlt, hge, hle⟩ := h
  split
  · constructor <;> omega
  · split
    · constructor <;> omega
    · constructor <;> omega

theorem Stored.previous (hle : n ≤ 255) (h : Stored n i) : Stored n (queuePrevious i n) := by
  rw [h.previous_eq hle]
  obtain ⟨hgt, hlt, hge, hle⟩ := h
  dsimp only
  split <;> split <;> constructor <;> omega

/-- **Moving back stays in the buffer** from any index but 0, and from 0
and the negative ones where what is added to them fits in an `int8_t`. -/
theorem Stored.previous_within_iff (hle : n ≤ 255) (h : Stored n i) :
    (0 ≤ queuePrevious i n ∧ queuePrevious i n < n) ↔ 1 ≤ i ∨ i + n ≤ 128 := by
  rw [h.previous_eq hle]
  obtain ⟨hgt, hlt, hge, hle⟩ := h
  dsimp only
  split <;> split <;> omega

theorem Stored.zero (hpos : 0 < n) : Stored n 0 := by
  constructor <;> omega

/-- In a buffer of at most 128 elements an index that moves stays within. -/
theorem next_within (hn : n ≤ 128) (h : 0 ≤ i ∧ i < n) :
    0 ≤ queueNext i n ∧ queueNext i n < n := by
  have hstored : Stored n i := by constructor <;> omega
  rw [hstored.next_eq]
  split
  · omega
  · split <;> omega

theorem previous_within (hn : n ≤ 128) (h : 0 ≤ i ∧ i < n) :
    0 ≤ queuePrevious i n ∧ queuePrevious i n < n := by
  have hstored : Stored n i := by constructor <;> omega
  exact (hstored.previous_within_iff (by omega)).mpr (by omega)

/-! ## Every call -/

/-- A queue of `n` elements whose head and tail have a property. -/
structure Queue.Indexed (P : ℤ → Prop) (n : ℕ) (q : Queue α) : Prop where
  nelem : q.nelem = n
  head : P q.head
  tail : P q.tail

theorem queueInit_indexed {P : ℤ → Prop} (hle : n ≤ 255) (hzero : P 0) :
    (queueInit n : Queue α).Indexed P n :=
  ⟨Nat.mod_eq_of_lt (by omega), hzero, hzero⟩

/-- **What holds of an index wherever it moves** holds of the head and the
tail after every call. -/
theorem Queue.Indexed.call {P : ℤ → Prop} (hnext : ∀ i, P i → P (queueNext i n))
    (hprevious : ∀ i, P i → P (queuePrevious i n)) (s : Queue α × α) (c : QueueCall α)
    (h : s.1.Indexed P n) : (Queue.call s c).2.1.Indexed P n := by
  obtain ⟨q, out⟩ := s
  obtain ⟨hn, hhead, htail⟩ := h
  dsimp only at hn hhead htail
  subst hn
  have hsame : q.Indexed P q.nelem := ⟨rfl, hhead, htail⟩
  cases c with
  | push data =>
    simp only [Queue.call, queuePush]
    split
    · exact hsame
    · exact ⟨rfl, hhead, hnext _ htail⟩
  | popFront =>
    simp only [Queue.call, queuePopFront]
    by_cases hlen : q.length ≤ 0
    · simpa only [if_pos hlen] using hsame
    · simp only [if_neg hlen]
      exact ⟨rfl, hhead, hprevious _ htail⟩
  | pushBack data =>
    simp only [Queue.call, queuePushBack]
    split
    · exact hsame
    · exact ⟨rfl, hprevious _ hhead, htail⟩
  | pop =>
    simp only [Queue.call, queuePop]
    by_cases hlen : q.length ≤ 0
    · simpa only [if_pos hlen] using hsame
    · simp only [if_neg hlen]
      exact ⟨rfl, hnext _ hhead, htail⟩
  | pushRing data =>
    simp only [Queue.call, queuePushRing]
    split
    · exact ⟨rfl, hhead, hnext _ htail⟩
    · exact ⟨rfl, hnext _ hhead, hnext _ htail⟩
  | isEmpty => exact hsame

/-- **The queue is fit for the call**: the index that the call starts from
is one of the buffer, and can be moved back where the call does that
first. A call that fails needs nothing. -/
def Queue.Fit (q : Queue α) : QueueCall α → Prop
  | .push _ => q.length < q.nelem → 0 ≤ q.tail
  | .popFront => 0 < q.length → 1 ≤ q.tail ∨ q.tail + q.nelem ≤ 128
  | .pushBack _ => q.length < q.nelem → 1 ≤ q.head ∨ q.head + q.nelem ≤ 128
  | .pop => 0 < q.length → 0 ≤ q.head
  | .pushRing _ => 0 ≤ q.tail
  | .isEmpty => True

omit [Inhabited α] in
/-- **The step lemma**: a call uses an index of the buffer if and only if
the queue is fit for it. -/
theorem Queue.Indexed.index_within_iff (hle : n ≤ 255) (h : q.Indexed (Stored n) n)
    (c : QueueCall α) : (∀ i ∈ q.index c, 0 ≤ i ∧ i < n) ↔ q.Fit c := by
  obtain ⟨rfl, hhead, htail⟩ := h
  have hlt := hhead.lt
  have hlt' := htail.lt
  cases c with
  | push data =>
    rcases Nat.lt_or_ge q.length q.nelem with hlen | hlen
    · simp [Queue.index, Queue.Fit, Nat.not_le.mpr hlen, hlen, hlt']
    · simp [Queue.index, Queue.Fit, hlen]
  | popFront =>
    have hprev := htail.previous_within_iff hle
    rcases Nat.eq_zero_or_pos q.length with hlen | hlen
    · simp [Queue.index, Queue.Fit, hlen]
    · simpa [Queue.index, Queue.Fit, hlen, Nat.ne_of_gt hlen] using hprev
  | pushBack data =>
    have hprev := hhead.previous_within_iff hle
    rcases Nat.lt_or_ge q.length q.nelem with hlen | hlen
    · simpa [Queue.index, Queue.Fit, Nat.not_le.mpr hlen, hlen] using hprev
    · simp [Queue.index, Queue.Fit, hlen]
  | pop =>
    rcases Nat.eq_zero_or_pos q.length with hlen | hlen
    · simp [Queue.index, Queue.Fit, hlen]
    · simp [Queue.index, Queue.Fit, hlen, Nat.ne_of_gt hlen, hlt]
  | pushRing data => simp [Queue.index, Queue.Fit, hlt']
  | isEmpty => simp [Queue.index, Queue.Fit]

/-- The run lemma. -/
theorem indices_within_iff_fit (hpos : 0 < n) (hle : n ≤ 255) (out : α)
    (calls : List (QueueCall α)) : (∀ i ∈ indices n out calls, 0 ≤ i ∧ i < n) ↔
      ∀ p ∈ found Queue.call calls (queueInit n, out), p.1.1.Fit p.2 := by
  have hstored : ∀ p ∈ found Queue.call calls (queueInit n, out), p.1.1.Indexed (Stored n) n :=
    found_invariant (I := fun s => s.1.Indexed (Stored n) n)
      (Queue.Indexed.call (fun _ h => h.next) fun _ h => h.previous hle) calls (queueInit n, out)
      (queueInit_indexed hle (Stored.zero hpos))
  unfold indices
  simp only [List.mem_filterMap, forall_exists_index, and_imp]
  constructor
  · intro h p hp
    exact ((hstored p hp).index_within_iff hle p.2).mp fun i hi => h i p hp hi
  · intro h i p hp hi
    exact ((hstored p hp).index_within_iff hle p.2).mpr (h p hp) i hi

/-! ## Sizes -/

/-- With at most 128 elements a queue is fit for every call. -/
theorem fit_of_le (hpos : 0 < n) (hn : n ≤ 128) (out : α) (calls : List (QueueCall α)) :
    ∀ p ∈ found Queue.call calls (queueInit n, out), p.1.1.Fit p.2 := by
  have hwithin : ∀ p ∈ found Queue.call calls (queueInit n, out),
      p.1.1.Indexed (fun i => 0 ≤ i ∧ i < n) n :=
    found_invariant (I := fun s => s.1.Indexed (fun i => 0 ≤ i ∧ i < n) n)
      (Queue.Indexed.call (fun _ => next_within hn) fun _ => previous_within hn) calls
      (queueInit n, out) (queueInit_indexed (by omega) (by omega))
  intro p hp
  obtain ⟨hnelem, hhead, htail⟩ := hwithin p hp
  cases hc : p.2 with
  | isEmpty => trivial
  | pushRing data => exact htail.1
  | push data => exact fun _ => htail.1
  | pop => exact fun _ => hhead.1
  | popFront => exact fun _ => by omega
  | pushBack data => exact fun _ => by omega

/-- In a larger queue that is filled up the tail goes on to 127. -/
theorem pushRings_tail (hn : 128 < n) (hle : n ≤ 255) (x out : α) {k : ℕ} (hk : k ≤ 127) :
    let q := (answers Queue.call (List.replicate k (.pushRing x)) (queueInit n, out)).2.1
    q.tail = k ∧ q.length = k ∧ q.nelem = n := by
  induction k with
  | zero => exact ⟨rfl, rfl, Nat.mod_eq_of_lt (by omega)⟩
  | succ k ih =>
    obtain ⟨htail, hlen, hnelem⟩ := ih (by omega)
    rw [List.replicate_succ', answers_append]
    generalize (answers Queue.call (List.replicate k (.pushRing x)) (queueInit n, out)).2 = s at *
    have hnext : queueNext s.1.tail n = (k + 1 : ℕ) := by
      have hstored : Stored n s.1.tail := by constructor <;> omega
      rw [hstored.next_eq, if_neg (by omega), if_neg (by omega), htail]
      rfl
    simp only [answers, Queue.call, queuePushRing, hnelem]
    rw [if_pos (by omega)]
    exact ⟨hnext, by dsimp only; omega, rfl⟩

/-- **Beyond 128 elements** the 129th element of a queue that is filled up
is written at a negative index. -/
theorem not_fit_of_gt (hn : 128 < n) (hle : n ≤ 255) (x out : α) :
    ∃ p ∈ found Queue.call (List.replicate 129 (.pushRing x)) (queueInit n, out),
      ¬ p.1.1.Fit p.2 := by
  obtain ⟨htail, -, hnelem⟩ := pushRings_tail hn hle x out (le_refl 127)
  rw [show 129 = 127 + 2 from rfl, List.replicate_add, found_append]
  generalize (answers Queue.call (List.replicate 127 (.pushRing x)) (queueInit n, out)).2 = s at *
  refine ⟨((Queue.call s (.pushRing x)).2, .pushRing x),
    List.mem_append_right _ (List.mem_cons_of_mem _ (List.mem_cons_self ..)), ?_⟩
  have hstored : Stored n s.1.tail := by constructor <;> omega
  -- the 128th call moves the tail on to 128, which is stored as -128
  have hnext : queueNext s.1.tail n = -128 := by
    rw [hstored.next_eq, if_neg (by omega), if_pos (by omega)]
  have htail' : (Queue.call s (.pushRing x)).2.1.tail = -128 := by
    simp only [Queue.call, queuePushRing, hnelem]
    split
    · exact hnext
    · exact hnext
  show ¬ 0 ≤ (Queue.call s (.pushRing x)).2.1.tail
  rw [htail']
  decide

/-- **When the indices never leave the buffer.** A queue of `n` elements
uses an index of its buffer in every call of every sequence if and only if
it has at most 128; and in a sequence of calls of any queue if and only if
every call finds the queue fit for it. -/
theorem queue_indices_within_iff (hpos : 0 < n) (hle : n ≤ 255) (out : α) :
    ((∀ calls : List (QueueCall α), ∀ i ∈ indices n out calls, 0 ≤ i ∧ i < n) ↔ n ≤ 128) ∧
      ∀ calls : List (QueueCall α), (∀ i ∈ indices n out calls, 0 ≤ i ∧ i < n) ↔
        ∀ p ∈ found Queue.call calls (queueInit n, out), p.1.1.Fit p.2 := by
  refine ⟨⟨fun h => ?_, fun hn calls => ?_⟩, indices_within_iff_fit hpos hle out⟩
  · by_contra hn
    obtain ⟨p, hp, hfit⟩ := not_fit_of_gt (by omega) hle (default : α) out
    exact hfit ((indices_within_iff_fit hpos hle out _).mp (h _) p hp)
  · exact (indices_within_iff_fit hpos hle out calls).mpr (fit_of_le hpos hn out calls)

/-- The largest queue of the firmware, of 8 elements, and one of 200. -/
theorem queue_indices_within_sizes :
    (∀ calls : List (QueueCall ℕ), ∀ i ∈ indices 8 0 calls, 0 ≤ i ∧ i < (8 : ℕ)) ∧
      ¬ ∀ calls : List (QueueCall ℕ), ∀ i ∈ indices 200 0 calls, 0 ≤ i ∧ i < (200 : ℕ) :=
  ⟨(queue_indices_within_iff (by decide) (by decide) 0).1.mpr (by decide), fun h =>
    absurd ((queue_indices_within_iff (n := 200) (by decide) (by decide) 0).1.mp h) (by decide)⟩

/-- **A queue of 200 elements** writes the 129th of 129 notifications that
wait at -128. -/
theorem queue_indices_leave_at_200 :
    ¬ ∀ n : ℕ, 0 < n → n ≤ 255 → ∀ (out : ℕ) (calls : List (QueueCall ℕ)),
      ∀ i ∈ indices n out calls, 0 ≤ i ∧ i < n := by
  intro h
  have hmem : -128 ∈ indices 200 0 (List.replicate 129 (.pushRing 7)) := by decide +kernel
  have hwithin := h 200 (by decide) (by decide) 0 _ _ hmem
  omega

end Asx

end CncPneumatics
