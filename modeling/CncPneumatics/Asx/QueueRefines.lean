import CncPneumatics.Asx.Queue
import CncPneumatics.Common.Deque
import CncPneumatics.Common.Run
/-!
# The queue refines a bounded double-ended list

Through any sequence of calls after `queue_init`, a queue answers as a
list does that has room for its number of elements.
-/

namespace CncPneumatics

namespace Asx

/-- A call of the queue. -/
inductive QueueCall (α : Type*) where
  /-- `queue_push(queue, data)` -/
  | push (data : α)
  /-- `queue_push_back(queue, data)` -/
  | pushBack (data : α)
  /-- `queue_push_ring(queue, data)` -/
  | pushRing (data : α)
  /-- `queue_pop(queue, &data)` -/
  | pop
  /-- `queue_pop_front(queue, &data)` -/
  | popFront
  /-- `queue_is_empty(queue)` -/
  | isEmpty

variable {α : Type*} [Inhabited α] {q : Queue α} {n : ℕ} {d : Deque α n} {out : α}

/-- One call, on the queue and on the variable that the popping calls
write to, with what it returns, if it returns anything. -/
def Queue.call (s : Queue α × α) : QueueCall α → Option Bool × Queue α × α
  | .push data => (some (queuePush s.1 data).1, (queuePush s.1 data).2, s.2)
  | .pushBack data => (some (queuePushBack s.1 data).1, (queuePushBack s.1 data).2, s.2)
  | .pushRing data => (none, queuePushRing s.1 data, s.2)
  | .pop => match queuePop s.1 with
    | some (data, q) => (some true, q, data)
    | none => (some false, s)
  | .popFront => match queuePopFront s.1 with
    | some (data, q) => (some true, q, data)
    | none => (some false, s)
  | .isEmpty => (some (queueIsEmpty s.1), s)

/-- What a call does to a list: `queue_push` enters at its end,
`queue_push_back` at its head, `queue_pop` takes the head and
`queue_pop_front` the last element. -/
def Deque.call (s : Deque α n × α) : QueueCall α → Option Bool × Deque α n × α
  | .push data => (some (s.1.append data).1, (s.1.append data).2, s.2)
  | .pushBack data => (some (s.1.prepend data).1, (s.1.prepend data).2, s.2)
  | .pushRing data => (none, s.1.appendRing data, s.2)
  | .pop => match s.1.takeHead with
    | some (data, d) => (some true, d, data)
    | none => (some false, s)
  | .popFront => match s.1.takeLast with
    | some (data, d) => (some true, d, data)
    | none => (some false, s)
  | .isEmpty => (some s.1.isEmpty, s)

/-- **The queue stands for the list**, and the variable holds the same. -/
structure Stands (s : Queue α × α) (s' : Deque α n × α) : Prop where
  nelem : s.1.nelem = n
  holds : s.1.Holds s'.1.toList
  out : s.2 = s'.2

/-- What a queue that stands for a list of `n` goes on to. -/
theorem Stands.of_holds {q' : Queue α} {d' : Deque α n} {l : List α} (hn : q.nelem = n)
    (h : q'.Holds l ∧ q'.nelem = q.nelem) (hl : d'.toList = l) (out : α) :
    Stands (q', out) (d', out) :=
  ⟨h.2.trans hn, by rw [hl]; exact h.1, rfl⟩

/-- **One call**: the queue answers as the list does and stands for it
again. -/
theorem Stands.call {s : Queue α × α} {s' : Deque α n × α} (h : Stands s s') (c : QueueCall α) :
    (Queue.call s c).1 = (Deque.call s' c).1 ∧
      Stands (Queue.call s c).2 (Deque.call s' c).2 := by
  obtain ⟨q, out⟩ := s
  obtain ⟨d, out'⟩ := s'
  obtain ⟨hn, hq, hout⟩ := h
  dsimp only at hn hq hout
  subst hout
  have hsame : Stands (q, out) (d, out) := ⟨hn, hq, rfl⟩
  cases c with
  | push x =>
    rcases Nat.lt_or_ge d.toList.length n with hlt | hle
    · obtain ⟨hret, hholds⟩ := hq.queuePush_of_lt x (hn ▸ hlt)
      obtain ⟨hret', hlist⟩ := Deque.append_of_lt (x := x) hlt
      exact ⟨by rw [Queue.call, Deque.call, hret, hret'], .of_holds hn hholds hlist out⟩
    · rw [Queue.call, Deque.call, hq.queuePush_of_le x (hn ▸ hle), Deque.append_of_le hle]
      exact ⟨rfl, hsame⟩
  | pushBack x =>
    rcases Nat.lt_or_ge d.toList.length n with hlt | hle
    · obtain ⟨hret, hholds⟩ := hq.queuePushBack_of_lt x (hn ▸ hlt)
      obtain ⟨hret', hlist⟩ := Deque.prepend_of_lt (x := x) hlt
      exact ⟨by rw [Queue.call, Deque.call, hret, hret'], .of_holds hn hholds hlist out⟩
    · rw [Queue.call, Deque.call, hq.queuePushBack_of_le x (hn ▸ hle), Deque.prepend_of_le hle]
      exact ⟨rfl, hsame⟩
  | pushRing x =>
    have hpost : (d.appendRing x).toList = post q.nelem d.toList x := by
      have hpos := hq.nelem_pos
      rcases Nat.lt_or_ge d.toList.length n with hlt | hle
      · rw [Deque.appendRing_of_lt hlt, post_of_lt (hn ▸ hlt)]
      · obtain ⟨y, l, hl⟩ := List.exists_cons_of_length_pos (l := d.toList) (by omega)
        rw [Deque.appendRing_of_le hle, post_of_le (hn ▸ hle), hl, List.cons_append,
          List.tail_cons, List.tail_cons]
    exact ⟨rfl, .of_holds hn (hq.queuePushRing x) hpost out⟩
  | pop =>
    cases hl : d.toList with
    | nil =>
      rw [hl] at hq
      rw [Queue.call, Deque.call, hq.queuePop_nil, Deque.takeHead_nil hl]
      exact ⟨rfl, hsame⟩
    | cons x l =>
      rw [hl] at hq
      obtain ⟨q', heq, hholds⟩ := hq.queuePop_cons
      obtain ⟨d', heq', hlist⟩ := Deque.takeHead_cons hl
      rw [Queue.call, Deque.call, heq, heq']
      exact ⟨rfl, .of_holds hn hholds hlist x⟩
  | popFront =>
    rcases List.eq_nil_or_concat d.toList with hl | ⟨l, x, hl⟩
    · rw [hl] at hq
      rw [Queue.call, Deque.call, hq.queuePopFront_nil, Deque.takeLast_nil hl]
      exact ⟨rfl, hsame⟩
    · rw [List.concat_eq_append] at hl
      rw [hl] at hq
      obtain ⟨q', heq, hholds⟩ := hq.queuePopFront_concat
      obtain ⟨d', heq', hlist⟩ := Deque.takeLast_concat hl
      rw [Queue.call, Deque.call, heq, heq']
      exact ⟨rfl, .of_holds hn hholds hlist x⟩
  | isEmpty =>
    have hempty : queueIsEmpty q = d.isEmpty := by
      rw [Bool.eq_iff_iff, hq.isEmpty_iff, Deque.isEmpty, List.isEmpty_iff]
    exact ⟨by rw [Queue.call, Deque.call, hempty], hsame⟩

/-- **The ring queue refines a bounded double-ended list.** For every
capacity up to 128, and through every sequence of calls after
`queue_init`, each call returns what it returns on the list and leaves
the same in the variable; what the queue holds is the list, and its head
and tail are positions in the buffer. -/
theorem queue_refines_deque (hn : 0 < n) (hle : n ≤ 128) (calls : List (QueueCall α)) (out : α) :
    let concrete := answers Queue.call calls (queueInit n, out)
    let abstract := answers Deque.call calls ((Deque.empty : Deque α n), out)
    concrete.1 = abstract.1 ∧ concrete.2.2 = abstract.2.2 ∧
      concrete.2.1.Holds abstract.2.1.toList ∧
      (0 ≤ concrete.2.1.head ∧ concrete.2.1.head < n) ∧
      (0 ≤ concrete.2.1.tail ∧ concrete.2.1.tail < n) := by
  have hstart : Stands ((queueInit n : Queue α), out) ((Deque.empty : Deque α n), out) :=
    ⟨Nat.mod_eq_of_lt (by omega), queueInit_holds hn hle, rfl⟩
  have hcall : ∀ (s : Queue α × α) (s' : Deque α n × α) (c : QueueCall α), Stands s s' →
      (Queue.call s c).1 = (Deque.call s' c).1 ∧ Stands (Queue.call s c).2 (Deque.call s' c).2 :=
    fun _ _ c h => h.call c
  obtain ⟨hans, hend⟩ := answers_refines hcall calls _ _ hstart
  have hnelem := hend.nelem
  refine ⟨hans, hend.out, hend.holds, ⟨hend.holds.head_nonneg, ?_⟩, hend.holds.tail_lt.1, ?_⟩
  · have := hend.holds.head_lt
    rwa [hnelem] at this
  · have := hend.holds.tail_lt.2
    rwa [hnelem] at this

/-- A queue of two, filled from both ends, overrun and emptied from both
ends. -/
def fillAndEmpty : List (QueueCall ℕ) :=
  [.popFront, .push 1, .pushBack 2, .push 3, .pushBack 3, .pushRing 4, .popFront, .pop, .isEmpty]

theorem queue_refines_deque_two :
    let concrete := answers Queue.call fillAndEmpty (queueInit 2, 7)
    let abstract := answers Deque.call fillAndEmpty ((Deque.empty : Deque ℕ 2), 7)
    concrete.1 = abstract.1 ∧ concrete.2.2 = abstract.2.2 ∧
      concrete.2.1.Holds abstract.2.1.toList ∧
      (0 ≤ concrete.2.1.head ∧ concrete.2.1.head < 2) ∧
      (0 ≤ concrete.2.1.tail ∧ concrete.2.1.tail < 2) :=
  queue_refines_deque (by decide) (by decide) fillAndEmpty 7

example : (answers Queue.call fillAndEmpty (queueInit 2, 7)).1 =
    [some false, some true, some true, some false, some false, none, some true, some true,
      some true] := by decide

end Asx

end CncPneumatics
