import CncPneumatics.Asx.TimerCauses
/-!
# What a dispatch does with a list in order

A timer whose deadline has passed has a budget: the notifications that its
deadline and its period ask for. The loop of `timer_dispatch` keeps within
the budgets, and ends, as long as it has something to stop at: a pending
timer whose count is above the counter, or one that will be renewed to
such a count. Every timer that is due is notified unless the deadline of
one of them lies behind a roll-over of the counter.
-/

namespace CncPneumatics

namespace Asx

variable {t t' : Timer} {f g : TimerFuture} {p q : Named} {fs : List TimerFuture}
  {l l' : List Named} {now c i i' k n fuel timeNow : ℕ} {names : List ℕ}

/-! ## Budgets -/

/-- The first deadline of a repeating timer after `now`. -/
def nextDeadline (now : ℕ) (f : TimerFuture) : ℕ :=
  f.count + ((now - f.count) / f.rep + 1) * f.rep

/-- The notifications a timer asks for at `now`. -/
def budget (now : ℕ) (f : TimerFuture) : ℕ :=
  if f.count ≤ now ∧ elapsed now f then
    if f.rep = 0 then 1 else (now - f.count) / f.rep + 1
  else 0

/-- No deadline that has passed lies behind a roll-over. -/
def NoneBehind (now : ℕ) (l : List TimerFuture) : Prop := ∀ f ∈ l, elapsed now f → f.count ≤ now

/-- Something stops the dispatch loop: a count above the counter, now or
at the end of the renewals of a timer that is due. -/
def Stops (now : ℕ) (l : List TimerFuture) : Prop :=
  (∃ f ∈ l, now < f.count) ∨
    ∃ f ∈ l, f.rep ≠ 0 ∧ f.count ≤ now ∧ elapsed now f ∧ nextDeadline now f < 2 ^ 32

/-- A deadline that has passed, on this side of the roll-over. -/
theorem distance_of_elapsed (hnow : now < 2 ^ 32) (hc : f.count ≤ now) (he : elapsed now f) :
    distance now f = (f.count : ℤ) - now := by
  unfold elapsed at he
  unfold distance at he ⊢
  rcases timerDistanceOf_cases hnow (c := f.count) (by omega) with ⟨h, -⟩ | ⟨-, h⟩ | ⟨h, h'⟩ <;> omega

/-- A deadline ahead with a count below: it lies behind the roll-over. -/
theorem distance_of_ahead (hnow : now < 2 ^ 32) (hc : f.count ≤ now) (he : ¬ elapsed now f) :
    distance now f = (f.count : ℤ) - now + 2 ^ 32 := by
  unfold elapsed at he
  unfold distance at he ⊢
  rcases timerDistanceOf_cases hnow (c := f.count) (by omega) with ⟨h, -⟩ | ⟨-, h⟩ | ⟨h, h'⟩ <;> omega

/-- What a renewal looks like on the dial. -/
theorem distance_renewed (he : elapsed now f) (hrep : f.rep < 2 ^ 31) (i : ℕ) :
    distance now (f.renewed i) = distance now f + f.rep := by
  unfold elapsed distance at he
  exact timerDistanceOf_add (by omega)

/-- A renewal is due again when its count is not beyond `now`. -/
theorem elapsed_renewed_iff (hnow : now < 2 ^ 32) (hc : f.count ≤ now) (he : elapsed now f)
    (hrep : f.rep < 2 ^ 31) (i : ℕ) : elapsed now (f.renewed i) ↔ f.count + f.rep ≤ now := by
  have hd := distance_of_elapsed hnow hc he
  have hr := distance_renewed he hrep i
  show distance now (f.renewed i) ≤ 0 ↔ _
  omega

theorem renewed_count_of_le (hnow : now < 2 ^ 32) (h : f.count + f.rep ≤ now) (i : ℕ) :
    (f.renewed i).count = f.count + f.rep := Nat.mod_eq_of_lt (by omega)

/-- **A notification takes one from the budget.** -/
theorem budget_renewed (hnow : now < 2 ^ 32) (hc : f.count ≤ now) (he : elapsed now f)
    (hne : f.rep ≠ 0) (hrep : f.rep < 2 ^ 31) (i : ℕ) :
    budget now f = budget now (f.renewed i) + 1 := by
  have hiff := elapsed_renewed_iff hnow hc he hrep i
  unfold budget
  rw [if_pos ⟨hc, he⟩, if_neg hne, if_neg (show (f.renewed i).rep ≠ 0 from hne)]
  by_cases hlt : f.count + f.rep ≤ now
  · have hcount := renewed_count_of_le hnow hlt i
    rw [if_pos ⟨by omega, hiff.mpr hlt⟩, hcount]
    have hsub : now - f.count = now - (f.count + f.rep) + f.rep := by omega
    show (now - f.count) / f.rep + 1 = (now - (f.count + f.rep)) / f.rep + 1 + 1
    rw [hsub, Nat.add_div_right _ (by omega)]
  · rw [if_neg fun h => hlt (hiff.mp h.2), Nat.div_eq_of_lt (by omega)]

/-- A timer that is due asks for one notification when it does not
repeat. -/
theorem budget_once (hc : f.count ≤ now) (he : elapsed now f) (hrep : f.rep = 0) :
    budget now f = 1 := by rw [budget, if_pos ⟨hc, he⟩, if_pos hrep]

theorem budget_of_not_elapsed (he : ¬ elapsed now f) : budget now f = 0 := if_neg fun h => he h.2

theorem nextDeadline_renewed (hnow : now < 2 ^ 32) (h : f.count + f.rep ≤ now) (hne : f.rep ≠ 0)
    (i : ℕ) : nextDeadline now (f.renewed i) = nextDeadline now f := by
  have hcount := renewed_count_of_le hnow h i
  have hsub : now - f.count = now - (f.count + f.rep) + f.rep := by omega
  unfold nextDeadline
  rw [hcount]
  show f.count + f.rep + ((now - (f.count + f.rep)) / f.rep + 1) * f.rep = _
  rw [hsub, Nat.add_div_right _ (by omega), Nat.add_one_mul (_ + 1), Nat.add_one_mul]
  omega

theorem nextDeadline_of_lt (hc : f.count ≤ now) (h : now < f.count + f.rep) :
    nextDeadline now f = f.count + f.rep := by
  unfold nextDeadline
  rw [Nat.div_eq_of_lt (by omega), Nat.zero_add, Nat.one_mul]

/-- What the timers of one name ask for. -/
def allowance (now : ℕ) (l : List Named) (n : ℕ) : ℕ :=
  ((l.filter fun p => p.2 = n).map fun p => budget now p.1).sum

/-- What all timers ask for. -/
def totalBudget (now : ℕ) (l : List Named) : ℕ := (l.map fun p => budget now p.1).sum

theorem allowance_cons : allowance now (p :: l) n =
    (if p.2 = n then budget now p.1 else 0) + allowance now l n := by
  unfold allowance
  by_cases hp : p.2 = n <;> simp [hp]

theorem totalBudget_cons : totalBudget now (p :: l) = budget now p.1 + totalBudget now l := rfl

theorem allowance_armNamed : allowance now (armNamed now p l) n = allowance now (p :: l) n :=
  ((armNamed_perm.filter _).map _).sum_eq

theorem totalBudget_armNamed : totalBudget now (armNamed now p l) = totalBudget now (p :: l) :=
  (armNamed_perm.map _).sum_eq

/-- With each name once, a name asks for what its timer does. -/
theorem allowance_of_mem (hl : (l.map Prod.snd).Nodup) (hp : p ∈ l) :
    allowance now l p.2 = budget now p.1 := by
  induction l with
  | nil => cases hp
  | cons q l ih =>
    rw [List.map_cons, List.nodup_cons] at hl
    rw [allowance_cons]
    rcases List.mem_cons.mp hp with rfl | hp
    · have hnone : l.filter (fun q => q.2 = p.2) = [] := by
        rw [List.filter_eq_nil_iff]
        intro r hr hname
        rw [decide_eq_true_iff] at hname
        exact hl.1 (hname ▸ List.mem_map_of_mem hr)
      rw [if_pos rfl, allowance, hnone]
      rfl
    · rw [if_neg fun hname : q.2 = p.2 => hl.1 (hname ▸ List.mem_map_of_mem hp), Nat.zero_add, ih hl.2 hp]

/-! ## One turn of the loop -/

/-- A renewal that is not to come before its timer takes its place, or one
behind it. -/
theorem expireNamed_of_not_sooner (hne : p.1.rep ≠ 0) (hs : ¬ sooner now (p.1.renewed i) p.1) :
    (expireNamed now p l i).1 = armNamed now (p.1.renewed i, p.2) l := by
  rw [expireNamed, if_pos hne, armNamed_cons, if_neg hs]
  rfl

/-- **A turn** for a timer that is due: it leaves the list, and when it
repeats its renewal is entered behind its place. -/
theorem expireNamed_of_elapsed (he : elapsed now p.1) (hrep : p.1.rep < 2 ^ 31) :
    (expireNamed now p l i).1 =
      if p.1.rep ≠ 0 then armNamed now (p.1.renewed i, p.2) l else l := by
  by_cases hne : p.1.rep ≠ 0
  · have hlater : ¬ sooner now (p.1.renewed i) p.1 := by
      have := distance_renewed he hrep i
      unfold sooner
      unfold distance at this
      omega
    rw [if_pos hne, expireNamed_of_not_sooner hne hlater]
  · rw [if_neg hne, expireNamed, if_neg hne]

theorem mem_expireNamed (he : elapsed now p.1) (hrep : p.1.rep < 2 ^ 31) :
    q ∈ (expireNamed now p l i).1 ↔ p.1.rep ≠ 0 ∧ q = (p.1.renewed i, p.2) ∨ q ∈ l := by
  rw [expireNamed_of_elapsed he hrep]
  by_cases hne : p.1.rep ≠ 0
  · rw [if_pos hne, mem_armNamed]
    simp only [hne, ne_eq, not_false_eq_true, true_and]
  · rw [if_neg hne]
    simp only [hne, false_and, false_or]

theorem length_expireNamed_le : (expireNamed c p l i).1.length ≤ (p :: l).length := by
  unfold expireNamed
  split
  · rw [List.length_tail, armNamed_perm.length_eq, List.length_cons, Nat.add_sub_cancel]
  · exact Nat.le_succ _

theorem sorted_expireNamed (hs : Sorted now ((p :: l).map Prod.fst)) :
    Sorted now ((expireNamed now p l i).1.map Prod.fst) := by
  rw [expireNamed_erase.1]
  exact hs.expire i

/-- What a turn takes from the budgets. -/
theorem allowance_expireNamed (hnow : now < 2 ^ 32) (hc : p.1.count ≤ now) (he : elapsed now p.1)
    (hrep : p.1.rep < 2 ^ 31) : allowance now (p :: l) n =
      allowance now (expireNamed now p l i).1 n + if p.2 = n then 1 else 0 := by
  rw [expireNamed_of_elapsed he hrep, allowance_cons]
  by_cases hne : p.1.rep ≠ 0
  · rw [if_pos hne, allowance_armNamed, allowance_cons, budget_renewed hnow hc he hne hrep i]
    dsimp only
    split_ifs <;> omega
  · rw [if_neg hne, budget_once hc he (not_not.mp hne), Nat.add_comm]

theorem totalBudget_expireNamed (hnow : now < 2 ^ 32) (hc : p.1.count ≤ now) (he : elapsed now p.1)
    (hrep : p.1.rep < 2 ^ 31) :
    totalBudget now (p :: l) = totalBudget now (expireNamed now p l i).1 + 1 := by
  rw [expireNamed_of_elapsed he hrep, totalBudget_cons]
  by_cases hne : p.1.rep ≠ 0
  · rw [if_pos hne, totalBudget_armNamed, totalBudget_cons, budget_renewed hnow hc he hne hrep i]
    dsimp only
    omega
  · rw [if_neg hne, budget_once hc he (not_not.mp hne), Nat.add_comm]

/-- **A turn inverted**: the loop has ended, with nothing to do, or the
head was due and the loop goes on without it. -/
theorem drainNamed_cons (h : drainNamed timeNow c (fuel + 1) (p :: l) i = some (names, l', i')) :
    (names = [] ∧ l' = p :: l ∧ ((p :: l).length = timerMaxCallback ∨ timeNow < p.1.count)) ∨
      ∃ names', names = p.2 :: names' ∧ p.1.count ≤ timeNow ∧
        drainNamed timeNow c fuel (expireNamed c p l i).1 (expireNamed c p l i).2 =
          some (names', l', i') := by
  rw [drainNamed] at h
  split_ifs at h with hfull hdue
  · obtain ⟨rfl, rfl, -⟩ : [] = names ∧ p :: l = l' ∧ i = i' := by simpa using h
    exact .inl ⟨rfl, rfl, .inl hfull⟩
  · obtain ⟨⟨names', l₁, i₁⟩, hd, heq⟩ := Option.map_eq_some_iff.mp h
    simp only [Prod.mk.injEq] at heq
    obtain ⟨rfl, rfl, rfl⟩ := heq
    exact .inr ⟨names', rfl, hdue, hd⟩
  · obtain ⟨rfl, rfl, -⟩ : [] = names ∧ p :: l = l' ∧ i = i' := by simpa using h
    exact .inl ⟨rfl, rfl, .inr (by omega)⟩

/-- More fuel changes nothing. -/
theorem drainNamed_succ {r : List ℕ × List Named × ℕ}
    (h : drainNamed timeNow c fuel l i = some r) : drainNamed timeNow c (fuel + 1) l i = some r := by
  induction fuel generalizing l i r with
  | zero => cases h
  | succ fuel ih =>
    cases l with
    | nil => exact h
    | cons p l =>
      rw [drainNamed] at h ⊢
      split_ifs at h ⊢ with hfull hdue
      · exact h
      · obtain ⟨r', hr', heq⟩ := Option.map_eq_some_iff.mp h
        rw [ih hr', Option.map_some, heq]
      · exact h

theorem drainNamed_mono {r : List ℕ × List Named × ℕ} {fuel' : ℕ} (hle : fuel ≤ fuel')
    (h : drainNamed timeNow c fuel l i = some r) : drainNamed timeNow c fuel' l i = some r := by
  induction hle with
  | refl => exact h
  | step _ ih => exact drainNamed_succ ih

/-- Expired timers leave, and renewals take their places. -/
theorem length_drainNamed_le (h : drainNamed timeNow c fuel l i = some (names, l', i')) :
    l'.length ≤ l.length := by
  induction fuel generalizing l i names with
  | zero => cases h
  | succ fuel ih =>
    cases l with
    | nil =>
      obtain ⟨-, rfl, -⟩ : [] = names ∧ [] = l' ∧ i = i' := by simpa [drainNamed] using h
      exact le_rfl
    | cons p l =>
      rcases drainNamed_cons h with ⟨-, rfl, -⟩ | ⟨_, -, -, h⟩
      · exact le_rfl
      · exact (ih h).trans length_expireNamed_le

/-! ## The loop that is stopped -/

/-- With something to stop at, the loop gets to deadlines that have passed
only: whatever is due stands before it. -/
theorem Stops.elapsed_head (hstops : Stops now ((p :: l).map Prod.fst))
    (hs : Sorted now ((p :: l).map Prod.fst)) (hnow : now < 2 ^ 32) (hc : p.1.count ≤ now) :
    elapsed now p.1 := by
  by_contra hahead
  have hp := distance_of_ahead hnow hc hahead
  have hfirst : ∀ f ∈ (p :: l).map Prod.fst, distance now p.1 ≤ distance now f := by
    intro f hf
    rw [List.map_cons] at hf
    rcases List.mem_cons.mp hf with rfl | hf
    · exact le_rfl
    · exact (List.pairwise_cons.mp hs.ordered).1 f hf
  rcases hstops with ⟨f, hf, hlt⟩ | ⟨f, hf, -, -, he, -⟩
  · have hle := hfirst f hf
    have hcf := hs.count_lt f hf
    unfold distance at hle hp
    rcases timerDistanceOf_cases hnow hcf with ⟨h, -⟩ | ⟨h, -⟩ | ⟨h, h'⟩ <;> omega
  · have hle := hfirst f hf
    unfold elapsed at he
    have hrange := timerDistanceOf_range now p.1.count
    unfold distance at hle hp
    unfold distance at he
    omega

/-- A turn leaves something to stop at. -/
theorem Stops.expireNamed (hstops : Stops now ((p :: l).map Prod.fst)) (hnow : now < 2 ^ 32)
    (hc : p.1.count ≤ now) (he : elapsed now p.1) (hrep : p.1.rep < 2 ^ 31) :
    Stops now ((expireNamed now p l i).1.map Prod.fst) := by
  have hkept : ∀ q ∈ l, q.1 ∈ (Asx.expireNamed now p l i).1.map Prod.fst := fun q hq =>
    List.mem_map_of_mem ((mem_expireNamed he hrep).mpr (.inr hq))
  rcases hstops with ⟨f, hf, hlt⟩ | ⟨f, hf, hne, hcf, hef, hnext⟩
  · obtain ⟨q, hq, rfl⟩ := List.mem_map.mp hf
    rcases List.mem_cons.mp hq with rfl | hq
    · omega
    · exact .inl ⟨q.1, hkept q hq, hlt⟩
  · obtain ⟨q, hq, rfl⟩ := List.mem_map.mp hf
    rcases List.mem_cons.mp hq with rfl | hq
    · -- the timer itself expires: its renewal is due again, or stops the loop
      have hnew : q.1.renewed i ∈ (Asx.expireNamed now q l i).1.map Prod.fst :=
        List.mem_map_of_mem (f := Prod.fst) (a := (q.1.renewed i, q.2))
          ((mem_expireNamed he hrep).mpr (.inl ⟨hne, rfl⟩))
      rcases Nat.lt_or_ge now (q.1.count + q.1.rep) with hlt | hge
      · refine .inl ⟨_, hnew, ?_⟩
        rw [nextDeadline_of_lt hc hlt] at hnext
        show now < (q.1.count + q.1.rep) % 2 ^ 32
        rwa [Nat.mod_eq_of_lt hnext]
      · refine .inr ⟨_, hnew, hne, ?_, ?_, ?_⟩
        · rw [renewed_count_of_le hnow hge]; exact hge
        · exact (elapsed_renewed_iff hnow hc he hrep i).mpr hge
        · rw [nextDeadline_renewed hnow hge hne]; exact hnext
    · exact .inr ⟨q.1, hkept q hq, hne, hcf, hef, hnext⟩

/-- **The loop that is stopped ends within the budgets.** -/
theorem drainNamed_of_stops (hnow : now < 2 ^ 32) (hs : Sorted now (l.map Prod.fst))
    (hlen : l.length < timerMaxCallback) (hstops : Stops now (l.map Prod.fst))
    (hfuel : totalBudget now l < fuel) :
    ∃ names l' i', drainNamed now now fuel l i = some (names, l', i') ∧
      ∀ n, names.count n ≤ allowance now l n := by
  induction fuel generalizing l i with
  | zero => omega
  | succ fuel ih =>
    cases l with
    | nil => exact ⟨[], [], i, rfl, by simp⟩
    | cons p l =>
      rw [drainNamed, if_neg (by omega)]
      by_cases hc : p.1.count ≤ now
      · have he := hstops.elapsed_head hs hnow hc
        have hrep := hs.rep_lt p.1 (by simp)
        have hbudget := totalBudget_expireNamed (l := l) (i := i) hnow hc he hrep
        obtain ⟨names, l', i', hd, hcount⟩ := ih (sorted_expireNamed (i := i) hs)
          (lt_of_le_of_lt length_expireNamed_le hlen) (hstops.expireNamed hnow hc he hrep)
          (i := (expireNamed now p l i).2) (by omega)
        refine ⟨p.2 :: names, l', i', by rw [if_pos hc, hd]; rfl, fun n => ?_⟩
        rw [List.count_cons, allowance_expireNamed (i := i) hnow hc he hrep]
        have := hcount n
        simp only [beq_iff_eq]
        omega
      · exact ⟨[], p :: l, i, by rw [if_neg hc], by simp⟩

/-- A loop without repeating timers ends. -/
theorem drainNamed_of_once (timeNow c i : ℕ) (hrep : ∀ p ∈ l, p.1.rep = 0) (hfuel : l.length < fuel) :
    ∃ names l' i', drainNamed timeNow c fuel l i = some (names, l', i') := by
  induction fuel generalizing l i with
  | zero => omega
  | succ fuel ih =>
    cases l with
    | nil => exact ⟨[], [], i, rfl⟩
    | cons p l =>
      have hexp : expireNamed c p l i = (l, i) := if_neg (not_not.mpr (hrep p (by simp)))
      rw [drainNamed, hexp]
      obtain ⟨names, l', i', hd⟩ := ih (l := l) (fun q hq => hrep q (by simp [hq])) (i := i)
        (by rw [List.length_cons] at hfuel; omega)
      split_ifs
      · exact ⟨_, _, _, rfl⟩
      · exact ⟨_, _, _, by rw [hd]; rfl⟩
      · exact ⟨_, _, _, rfl⟩

/-! ## What is due -/

/-- A timer that is not notified stays. -/
theorem mem_of_not_named (hp : p ∈ l) (hnot : p.2 ∉ names)
    (hd : drainNamed timeNow c fuel l i = some (names, l', i')) : p ∈ l' := by
  induction fuel generalizing l i names with
  | zero => cases hd
  | succ fuel ih =>
    cases l with
    | nil => cases hp
    | cons q l =>
      rcases drainNamed_cons hd with ⟨-, rfl, -⟩ | ⟨names', rfl, -, hd⟩
      · exact hp
      · rw [List.mem_cons, not_or] at hnot
        have hpl : p ∈ l := (List.mem_cons.mp hp).resolve_left fun h => hnot.1 (by rw [h])
        refine ih ?_ hnot.2 hd
        unfold expireNamed
        split
        · rw [armNamed_cons]
          split
          · exact List.mem_cons_of_mem _ hpl
          · exact mem_armNamed.mpr (.inr hpl)
        · exact hpl

/-- **Everything that is due is notified**, unless a deadline lies behind
a roll-over. -/
theorem named_of_elapsed (hnow : now < 2 ^ 32) (hs : Sorted now (l.map Prod.fst))
    (hlen : l.length < timerMaxCallback) (hbehind : NoneBehind now (l.map Prod.fst)) (hp : p ∈ l)
    (he : elapsed now p.1) (hd : drainNamed now now fuel l i = some (names, l', i')) :
    p.2 ∈ names := by
  induction fuel generalizing l i names with
  | zero => cases hd
  | succ fuel ih =>
    cases l with
    | nil => cases hp
    | cons q l =>
      -- the head is no later than a timer that is due
      have heq : elapsed now q.1 := by
        rcases List.mem_cons.mp hp with rfl | hp
        · exact he
        · exact le_trans ((List.pairwise_cons.mp hs.ordered).1 p.1 (List.mem_map_of_mem hp)) he
      have hc := hbehind q.1 (by simp) heq
      have hrep := hs.rep_lt q.1 (by simp)
      rcases drainNamed_cons hd with ⟨-, -, hend⟩ | ⟨names', rfl, -, hd⟩
      · omega
      · rcases List.mem_cons.mp hp with rfl | hp
        · exact List.mem_cons_self
        · refine List.mem_cons_of_mem _ (ih (sorted_expireNamed hs)
            (lt_of_le_of_lt length_expireNamed_le hlen) ?_
            ((mem_expireNamed heq hrep).mpr (.inr hp)) hd)
          intro f hf hef
          obtain ⟨r, hr, rfl⟩ := List.mem_map.mp hf
          rcases (mem_expireNamed heq hrep).mp hr with ⟨-, rfl⟩ | hr
          · have hle := (elapsed_renewed_iff hnow hc heq hrep i).mp hef
            rw [renewed_count_of_le hnow hle]
            exact hle
          · exact hbehind r.1 (by simp [List.mem_map_of_mem hr]) hef

/-- One-shot timers that are due by their counts are all notified. -/
theorem named_of_once (hlen : l.length < timerMaxCallback) (hrep : ∀ p ∈ l, p.1.rep = 0)
    (hc : ∀ p ∈ l, p.1.count ≤ timeNow) (hd : drainNamed timeNow c fuel l i = some (names, l', i')) :
    ∀ p ∈ l, p.2 ∈ names := by
  induction fuel generalizing l i names with
  | zero => cases hd
  | succ fuel ih =>
    cases l with
    | nil => exact fun p hp => by cases hp
    | cons q l =>
      have hcq := hc q (by simp)
      have hexp : (expireNamed c q l i).1 = l := by
        rw [expireNamed, if_neg (not_not.mpr (hrep q (by simp)))]
      rcases drainNamed_cons hd with ⟨-, -, hend⟩ | ⟨names', rfl, -, hd⟩
      · omega
      · rw [hexp] at hd
        have htail := ih (by rw [List.length_cons] at hlen; omega) (fun p hp => hrep p (by simp [hp]))
          (fun p hp => hc p (by simp [hp])) hd
        intro p hp
        rcases List.mem_cons.mp hp with rfl | hp
        · exact List.mem_cons_self
        · exact List.mem_cons_of_mem _ (htail p hp)

/-- A deadline behind a roll-over keeps everything from expiring. -/
theorem drainNamed_of_behind (fuel i : ℕ) (hs : Sorted now (l.map Prod.fst)) (hnow : now < 2 ^ 32)
    (hp : p ∈ l) (he : elapsed now p.1) (hc : now < p.1.count) :
    drainNamed now now (fuel + 1) l i = some ([], l, i) := by
  cases l with
  | nil => cases hp
  | cons q l =>
    have hcq : now < q.1.count := by
      rcases List.mem_cons.mp hp with rfl | hp
      · exact hc
      · by_contra hle
        have hqp := (List.pairwise_cons.mp hs.ordered).1 p.1 (List.mem_map_of_mem hp)
        have heq : elapsed now q.1 := le_trans hqp he
        have hdq := distance_of_elapsed hnow (not_lt.mp hle) heq
        have hcp := hs.count_lt p.1 (by simp [List.mem_map_of_mem hp])
        have hcq := hs.count_lt q.1 (by simp)
        unfold elapsed at he
        unfold distance at hqp hdq he
        rcases timerDistanceOf_cases hnow hcp with ⟨h, -⟩ | ⟨h, -⟩ | ⟨h, -⟩ <;>
          rcases timerDistanceOf_cases hnow hcq with ⟨h', -⟩ | ⟨h', -⟩ | ⟨h', -⟩ <;> omega
    rw [drainNamed]
    split_ifs <;> first | rfl | omega

/-! ## The loop that is not stopped -/

/-- A timer whose next deadline is behind the roll-over is armed again with
a count below, and its next deadline stays there. -/
theorem renewed_over (hnow : now < 2 ^ 32) (hc : f.count ≤ now) (he : elapsed now f)
    (hrep : f.rep < 2 ^ 31) (hne : f.rep ≠ 0) (hover : 2 ^ 32 ≤ nextDeadline now f) (i : ℕ) :
    (f.renewed i).count ≤ now ∧
      (elapsed now (f.renewed i) → 2 ^ 32 ≤ nextDeadline now (f.renewed i)) := by
  rcases Nat.lt_or_ge now (f.count + f.rep) with hlt | hge
  · rw [nextDeadline_of_lt hc hlt] at hover
    refine ⟨?_, fun her => absurd ((elapsed_renewed_iff hnow hc he hrep i).mp her) (by omega)⟩
    show (f.count + f.rep) % 2 ^ 32 ≤ now
    omega
  · rw [renewed_count_of_le hnow hge, nextDeadline_renewed hnow hge hne]
    exact ⟨hge, fun _ => hover⟩

/-- **Nothing stops the loop**: every count is at or below the counter, a
timer repeats, and none that is due will be renewed beyond the counter. -/
structure Endless (now : ℕ) (l : List TimerFuture) : Prop where
  count_le : ∀ f ∈ l, f.count ≤ now
  next_over : ∀ f ∈ l, f.rep ≠ 0 → elapsed now f → 2 ^ 32 ≤ nextDeadline now f
  rep_lt : ∀ f ∈ l, f.rep < 2 ^ 31
  repeats : ∃ f ∈ l, f.rep ≠ 0

/-- A repeating timer ahead, with its count below: its renewal is ahead
and below as well, or it turns round and comes to stand before it. -/
theorem renewed_ahead (hnow : now < 2 ^ 32) (hc : f.count ≤ now) (he : ¬ elapsed now f)
    (hrep : f.rep < 2 ^ 31) (i : ℕ) : sooner now (f.renewed i) f ∨
      (f.renewed i).count ≤ now ∧ ¬ elapsed now (f.renewed i) := by
  have hd := distance_of_ahead hnow hc he
  have hrange := timerDistanceOf_range now f.count
  unfold elapsed at he
  unfold distance at he hd
  rcases lt_or_ge (timerDistanceOf now f.count + f.rep) (2 ^ 31) with hlt | hge
  · have hr : distance now (f.renewed i) = timerDistanceOf now f.count + f.rep :=
      timerDistanceOf_add hlt
    refine .inr ⟨?_, fun her => ?_⟩
    · show (f.count + f.rep) % 2 ^ 32 ≤ now
      omega
    · unfold elapsed at her
      omega
  · have hcount : (f.renewed i).count < 2 ^ 32 := Nat.mod_lt _ (by decide)
    have hsum : (f.renewed i).count = f.count + f.rep := Nat.mod_eq_of_lt (by omega)
    refine .inl ?_
    unfold sooner
    rcases timerDistanceOf_cases hnow hcount with ⟨h, -, h'⟩ | ⟨h, h'⟩ | ⟨h, h'⟩ <;> omega

/-- A renewal that stands before its timer is dropped, and the list is as
it was. -/
theorem expireNamed_of_sooner (hne : p.1.rep ≠ 0) (hs : sooner now (p.1.renewed i) p.1) :
    (expireNamed now p l i).1 = p :: l := by
  rw [expireNamed, if_pos hne, armNamed_cons, if_pos hs]
  rfl

/-- The list with a renewal in the place of its timer. -/
theorem Endless.renew (h : Endless now (p.1 :: l.map Prod.fst)) (hne : p.1.rep ≠ 0)
    (hc : (p.1.renewed i).count ≤ now)
    (hnext : elapsed now (p.1.renewed i) → 2 ^ 32 ≤ nextDeadline now (p.1.renewed i)) :
    Endless now ((armNamed now (p.1.renewed i, p.2) l).map Prod.fst) := by
  have hmem : ∀ f, f ∈ (armNamed now (p.1.renewed i, p.2) l).map Prod.fst ↔
      f = p.1.renewed i ∨ f ∈ l.map Prod.fst := fun f => by
    rw [(armNamed_perm.map Prod.fst).mem_iff, List.map_cons, List.mem_cons]
  refine ⟨fun f hf => ?_, fun f hf hnef he => ?_, fun f hf => ?_,
    p.1.renewed i, (hmem _).mpr (.inl rfl), hne⟩
  · rcases (hmem f).mp hf with rfl | hf
    · exact hc
    · exact h.count_le f (List.mem_cons_of_mem _ hf)
  · rcases (hmem f).mp hf with rfl | hf
    · exact hnext he
    · exact h.next_over f (List.mem_cons_of_mem _ hf) hnef he
  · rcases (hmem f).mp hf with rfl | hf
    · exact h.rep_lt p.1 List.mem_cons_self
    · exact h.rep_lt f (List.mem_cons_of_mem _ hf)

/-- **A turn** leaves nothing to stop at either. -/
theorem Endless.expireNamed (h : Endless now ((p :: l).map Prod.fst)) (hnow : now < 2 ^ 32) (i : ℕ) :
    Endless now ((expireNamed now p l i).1.map Prod.fst) := by
  rw [List.map_cons] at h
  have hc := h.count_le p.1 List.mem_cons_self
  have hrep := h.rep_lt p.1 List.mem_cons_self
  by_cases hne : p.1.rep ≠ 0
  · by_cases hs : sooner now (p.1.renewed i) p.1
    · rw [expireNamed_of_sooner hne hs]
      exact h
    rw [expireNamed_of_not_sooner hne hs]
    by_cases he : elapsed now p.1
    · obtain ⟨hcount, hnext⟩ :=
        renewed_over hnow hc he hrep hne (h.next_over p.1 List.mem_cons_self hne he) i
      exact h.renew hne hcount hnext
    · obtain ⟨hcount, hahead⟩ := (renewed_ahead hnow hc he hrep i).resolve_left hs
      exact h.renew hne hcount fun her => absurd her hahead
  · -- a timer that does not repeat goes, and another one is left that does
    have hlist : (Asx.expireNamed now p l i).1 = l := by rw [Asx.expireNamed, if_neg hne]
    rw [hlist]
    refine ⟨fun f hf => h.count_le f (List.mem_cons_of_mem _ hf),
      fun f hf => h.next_over f (List.mem_cons_of_mem _ hf),
      fun f hf => h.rep_lt f (List.mem_cons_of_mem _ hf), ?_⟩
    obtain ⟨f, hf, hnef⟩ := h.repeats
    rcases List.mem_cons.mp hf with rfl | hf
    · exact absurd hnef hne
    · exact ⟨f, hf, hnef⟩

/-- **With nothing to stop at, the loop does not end**, whatever the
fuel. -/
theorem drainNamed_of_endless (hnow : now < 2 ^ 32) (hlen : l.length < timerMaxCallback)
    (h : Endless now (l.map Prod.fst)) : drainNamed now now fuel l i = none := by
  induction fuel generalizing l i with
  | zero => rfl
  | succ fuel ih =>
    cases l with
    | nil => obtain ⟨f, hf, -⟩ := h.repeats; cases hf
    | cons p l =>
      rw [drainNamed, if_neg (by omega), if_pos (h.count_le p.1 (by simp)),
        ih (lt_of_le_of_lt length_expireNamed_le hlen) (h.expireNamed hnow i), Option.map_none]

end Asx

end CncPneumatics
