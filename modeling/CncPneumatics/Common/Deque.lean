import Mathlib.Data.List.Basic
/-!
# Bounded double-ended lists

A list with room for `cap` elements, that grows and shrinks at both ends.
Entering at an end fails where there is no room, and `appendRing` makes
room by discarding the head.
-/

namespace CncPneumatics

variable {α : Type*} {cap : ℕ} {x : α} {l : List α}

/-- A list of at most `cap` elements. -/
structure Deque (α : Type*) (cap : ℕ) where
  toList : List α
  length_le : toList.length ≤ cap

namespace Deque

variable {d : Deque α cap}

@[ext] theorem ext {d d' : Deque α cap} (h : d.toList = d'.toList) : d = d' := by
  cases d; cases d'; simp only at h; subst h; rfl

/-- The empty one. -/
def empty : Deque α cap := ⟨[], Nat.zero_le _⟩

/-- Enter at the end, unless it is full. -/
def append (d : Deque α cap) (x : α) : Bool × Deque α cap :=
  if h : d.toList.length < cap then
    (true, ⟨d.toList ++ [x], by rw [List.length_append, List.length_singleton]; omega⟩)
  else (false, d)

/-- Enter at the head, unless it is full. -/
def prepend (d : Deque α cap) (x : α) : Bool × Deque α cap :=
  if h : d.toList.length < cap then (true, ⟨x :: d.toList, h⟩) else (false, d)

/-- Enter at the end, and only where it is full discard the head. -/
def appendRing (d : Deque α cap) (x : α) : Deque α cap :=
  if h : d.toList.length < cap then
    ⟨d.toList ++ [x], by rw [List.length_append, List.length_singleton]; omega⟩
  else ⟨(d.toList ++ [x]).tail, by
    have := d.length_le
    rw [List.length_tail, List.length_append, List.length_singleton, Nat.add_sub_cancel]; omega⟩

/-- Take the head. -/
def takeHead (d : Deque α cap) : Option (α × Deque α cap) :=
  match h : d.toList with
  | [] => none
  | x :: l => some (x, ⟨l, by have := d.length_le; rw [h, List.length_cons] at this; omega⟩)

/-- Take the last element. -/
def takeLast (d : Deque α cap) : Option (α × Deque α cap) :=
  match d.toList.getLast? with
  | none => none
  | some x => some (x, ⟨d.toList.dropLast, by
      have := d.length_le
      rw [List.length_dropLast]; omega⟩)

/-- Whether nothing is in it. -/
def isEmpty (d : Deque α cap) : Bool := d.toList.isEmpty

theorem append_of_lt (h : d.toList.length < cap) :
    (d.append x).1 = true ∧ (d.append x).2.toList = d.toList ++ [x] := by
  rw [append, dif_pos h]; exact ⟨rfl, rfl⟩

theorem append_of_le (h : cap ≤ d.toList.length) : d.append x = (false, d) :=
  dif_neg (by omega)

theorem prepend_of_lt (h : d.toList.length < cap) :
    (d.prepend x).1 = true ∧ (d.prepend x).2.toList = x :: d.toList := by
  rw [prepend, dif_pos h]; exact ⟨rfl, rfl⟩

theorem prepend_of_le (h : cap ≤ d.toList.length) : d.prepend x = (false, d) :=
  dif_neg (by omega)

theorem appendRing_of_lt (h : d.toList.length < cap) :
    (d.appendRing x).toList = d.toList ++ [x] := by
  rw [appendRing, dif_pos h]

theorem appendRing_of_le (h : cap ≤ d.toList.length) :
    (d.appendRing x).toList = (d.toList ++ [x]).tail := by
  rw [appendRing, dif_neg (by omega)]

theorem takeHead_nil (h : d.toList = []) : d.takeHead = none := by
  unfold takeHead
  split
  · rfl
  · next heq => rw [h] at heq; cases heq

theorem takeHead_cons (h : d.toList = x :: l) :
    ∃ d', d.takeHead = some (x, d') ∧ d'.toList = l := by
  unfold takeHead
  split
  · next heq => rw [h] at heq; cases heq
  · next y l' heq =>
    rw [h] at heq
    obtain ⟨rfl, rfl⟩ := List.cons.inj heq
    exact ⟨_, rfl, rfl⟩

theorem takeLast_nil (h : d.toList = []) : d.takeLast = none := by
  unfold takeLast
  split
  · rfl
  · next heq => rw [h] at heq; cases heq

theorem takeLast_concat (h : d.toList = l ++ [x]) :
    ∃ d', d.takeLast = some (x, d') ∧ d'.toList = l := by
  have hlast : d.toList.getLast? = some x := by rw [h]; simp
  unfold takeLast
  split
  · next heq => rw [hlast] at heq; cases heq
  · next y heq =>
    rw [hlast, Option.some.injEq] at heq
    subst heq
    exact ⟨_, rfl, by simp [h]⟩

end Deque

end CncPneumatics
