import Mathlib.Data.List.Basic
/-!
# Looking back

What a history says of its past: the last event of a kind, and how many
events of one kind there were since the last of another. Histories grow
at the end.
-/

namespace CncPneumatics

variable {α : Type*} {P Q : α → Bool} {l : List α} {a : α}

/-- The last element of a kind. -/
def lastWhere (P : α → Bool) (l : List α) : Option α := l.reverse.find? P

@[simp] theorem lastWhere_nil : lastWhere P [] = none := rfl

theorem lastWhere_concat :
    lastWhere P (l ++ [a]) = if P a then some a else lastWhere P l := by
  unfold lastWhere
  rw [List.reverse_append, List.reverse_singleton, List.singleton_append, List.find?_cons]
  cases P a <;> rfl

theorem lastWhere_eq_some (h : lastWhere P l = some a) : a ∈ l ∧ P a = true :=
  ⟨List.mem_reverse.mp (List.mem_of_find?_eq_some h), List.find?_some h⟩

/-- What comes before it, and after it. -/
theorem exists_of_lastWhere (h : lastWhere P l = some a) :
    ∃ l₁ l₂, l = l₁ ++ a :: l₂ ∧ P a = true ∧ ∀ b ∈ l₂, P b = false := by
  obtain ⟨hP, l₂, l₁, hrev, hnone⟩ := List.find?_eq_some_iff_append.mp h
  have hl : l = l₁.reverse ++ a :: l₂.reverse := by
    rw [← List.reverse_reverse l, hrev]
    simp
  exact ⟨l₁.reverse, l₂.reverse, hl, hP, fun b hb => by simpa using hnone b (List.mem_reverse.mp hb)⟩

/-- The last element of a kind is none of those before one of the kind. -/
theorem lastWhere_append_cons (l₁ l₂ : List α) (hP : P a = true) :
    ∃ b, lastWhere P (l₁ ++ a :: l₂) = some b ∧ (b = a ∨ b ∈ l₂) := by
  unfold lastWhere
  rw [List.reverse_append, List.reverse_cons, List.append_assoc, List.find?_append,
    List.find?_append]
  cases hb : l₂.reverse.find? P with
  | none => exact ⟨a, by simp [hP], .inl rfl⟩
  | some b => exact ⟨b, rfl, .inr (List.mem_reverse.mp (List.mem_of_find?_eq_some hb))⟩

theorem lastWhere_map {β : Type*} {f : β → α} (l : List β) :
    lastWhere P (l.map f) = (lastWhere (fun b => P (f b)) l).map f := by
  unfold lastWhere
  rw [← List.map_reverse, List.find?_map]
  rfl

/-- What the elements of a history say, one after the other. -/
theorem filterMap_concat {β : Type*} {f : α → Option β} :
    (l ++ [a]).filterMap f = l.filterMap f ++ (f a).toList := by
  rw [List.filterMap_append]
  cases hf : f a <;> simp [hf]

/-- How many elements of the kind `Q` there are after the last of the kind
`P`. -/
def countSince (P Q : α → Bool) (l : List α) : ℕ :=
  (l.reverse.takeWhile fun a => !P a).countP Q

@[simp] theorem countSince_nil : countSince P Q [] = 0 := rfl

theorem countSince_concat : countSince P Q (l ++ [a]) =
    if P a then 0 else countSince P Q l + if Q a then 1 else 0 := by
  unfold countSince
  rw [List.reverse_append, List.reverse_singleton, List.singleton_append, List.takeWhile_cons]
  cases hP : P a
  · simp [List.countP_cons]
  · simp

theorem countSince_le_length : countSince P Q l ≤ l.length := by
  unfold countSince
  calc (l.reverse.takeWhile fun a => !P a).countP Q
      ≤ (l.reverse.takeWhile fun a => !P a).length := List.countP_le_length
    _ ≤ l.reverse.length := (List.takeWhile_prefix _).length_le
    _ = l.length := List.length_reverse

/-- Of so many events the next one, and what came before it. -/
theorem exists_split_of_lt_countP {k : ℕ} (h : k < l.countP P) :
    ∃ l₁ a l₂, l = l₁ ++ a :: l₂ ∧ P a = true ∧ l₁.countP P = k := by
  induction l generalizing k with
  | nil => exact absurd h (Nat.not_lt_zero k)
  | cons b l ih =>
    by_cases hb : P b = true
    · rw [List.countP_cons_of_pos hb] at h
      cases k with
      | zero => exact ⟨[], b, l, rfl, hb, rfl⟩
      | succ k =>
        obtain ⟨l₁, a, l₂, rfl, ha, hk⟩ := ih (Nat.lt_of_succ_lt_succ h)
        exact ⟨b :: l₁, a, l₂, rfl, ha, by rw [List.countP_cons_of_pos hb, hk]⟩
    · rw [List.countP_cons_of_neg hb] at h
      obtain ⟨l₁, a, l₂, rfl, ha, hk⟩ := ih h
      exact ⟨b :: l₁, a, l₂, rfl, ha, by rw [List.countP_cons_of_neg hb, hk]⟩

end CncPneumatics
