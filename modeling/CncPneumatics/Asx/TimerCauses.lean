import CncPneumatics.Asx.TimerOrder
import Mathlib.Data.List.Nodup
/-!
# Which timers a dispatch notifies

`timer_dispatch` tells a reactor that a timer has expired, but not which
one. Here the dispatch loop is run once more with a name for each pending
timer, that its renewals keep, so that each notification has a cause and
the notifications that one timer causes can be counted.

How often a timer may be notified is a matter of its deadline and its
period, its budget. The loop stays within the budgets as long as something
in the list stops it before it gets to a deadline that has not passed.
-/

namespace CncPneumatics

namespace Asx

/-- A pending timer and its name. -/
abbrev Named := TimerFuture × ℕ

/-- Arming, with names. -/
def armNamed (now : ℕ) (p : Named) (l : List Named) : List Named :=
  l.orderedInsert (fun p q => sooner now p.1 q.1) p

/-- What a repeating timer is armed again as. -/
def TimerFuture.renewed (f : TimerFuture) (i : ℕ) : TimerFuture :=
  ⟨f.reactor, (i + 1) % 2 ^ 32, (f.count + f.rep) % 2 ^ 32, f.rep, 0⟩

/-- Expiring, with names. -/
def expireNamed (counter : ℕ) (p : Named) (l : List Named) (i : ℕ) : List Named × ℕ :=
  if p.1.rep ≠ 0 then ((armNamed counter (p.1.renewed i, p.2) (p :: l)).tail, (i + 1) % 2 ^ 32)
  else (l, i)

/-- The dispatch loop, with the names of the timers it notifies. -/
def drainNamed (timeNow counter : ℕ) : ℕ → List Named → ℕ → Option (List ℕ × List Named × ℕ)
  | 0, _, _ => none
  | _ + 1, [], i => some ([], [], i)
  | fuel + 1, p :: l, i =>
    if (p :: l).length = timerMaxCallback then some ([], p :: l, i)
    else if p.1.count ≤ timeNow then
      (drainNamed timeNow counter fuel (expireNamed counter p l i).1
        (expireNamed counter p l i).2).map fun r => (p.2 :: r.1, r.2)
    else some ([], p :: l, i)

/-- **The causes of a dispatch**: for each notification it makes, the place
among the pending timers of the one it is for. -/
def timerDispatchCauses (fuel : ℕ) (t : Timer) : Option (List ℕ) :=
  (drainNamed t.counter t.counter fuel t.pending.zipIdx t.currentInstance).map Prod.fst

variable {t t' : Timer} {f g : TimerFuture} {p q : Named} {l l' : List Named}
  {now c i i' k n fuel timeNow : ℕ} {names : List ℕ}

/-! ## Without the names -/

theorem armNamed_cons : armNamed now p (q :: l) =
    if sooner now p.1 q.1 then p :: q :: l else q :: armNamed now p l := rfl

theorem armNamed_perm : (armNamed now p l).Perm (p :: l) := List.perm_orderedInsert ..

theorem mem_armNamed : q ∈ armNamed now p l ↔ q = p ∨ q ∈ l := by
  rw [armNamed_perm.mem_iff, List.mem_cons]

theorem map_armNamed : (armNamed now p l).map Prod.fst = armInsert now p.1 (l.map Prod.fst) := by
  induction l with
  | nil => rfl
  | cons q l ih =>
    rw [armNamed_cons, List.map_cons, armInsert_cons]
    by_cases hs : sooner now p.1 q.1
    · rw [if_pos hs, if_pos hs]; rfl
    · rw [if_neg hs, if_neg hs, List.map_cons, ih]

theorem expireNamed_erase : (expireNamed c p l i).1.map Prod.fst = (expire c p.1 (l.map Prod.fst) i).1 ∧
    (expireNamed c p l i).2 = (expire c p.1 (l.map Prod.fst) i).2 := by
  unfold expireNamed expire
  by_cases hrep : p.1.rep ≠ 0
  · rw [if_pos hrep, if_pos hrep]
    refine ⟨?_, rfl⟩
    rw [List.map_tail, map_armNamed, List.map_cons]
    rfl
  · rw [if_neg hrep, if_neg hrep]
    exact ⟨rfl, rfl⟩

/-- The names take no part: without them it is the dispatch loop. What is
known of the names and the reactors of the timers is known of those that
are notified. -/
theorem drainNamed_erase {Q : ℕ → ℕ → Prop} (hQ : ∀ p ∈ l, Q p.2 p.1.reactor) :
    (drainNamed timeNow c fuel l i = none ∧ ringDrain timeNow c fuel (l.map Prod.fst) i = none) ∨
      ∃ names l' i' ns, drainNamed timeNow c fuel l i = some (names, l', i') ∧
        ringDrain timeNow c fuel (l.map Prod.fst) i = some (ns, l'.map Prod.fst, i') ∧
        List.Forall₂ Q names (ns.map Prod.fst) := by
  induction fuel generalizing l i with
  | zero => exact .inl ⟨rfl, rfl⟩
  | succ fuel ih =>
    cases l with
    | nil => exact .inr ⟨[], [], i, [], rfl, rfl, .nil⟩
    | cons p l =>
      rw [drainNamed, List.map_cons, ringDrain, ← List.map_cons (f := Prod.fst), List.length_map]
      by_cases hfull : (p :: l).length = timerMaxCallback
      · rw [if_pos hfull, if_pos hfull]
        exact .inr ⟨[], p :: l, i, [], rfl, rfl, .nil⟩
      rw [if_neg hfull, if_neg hfull]
      by_cases hdue : p.1.count ≤ timeNow
      · obtain ⟨hlist, hinst⟩ := expireNamed_erase (c := c) (p := p) (l := l) (i := i)
        rw [if_pos hdue, if_pos hdue, ← hlist, ← hinst]
        -- a renewal keeps its name and its reactor
        have hQ' : ∀ q ∈ (expireNamed c p l i).1, Q q.2 q.1.reactor := by
          intro q hq
          unfold expireNamed at hq
          split_ifs at hq with hrep
          · rcases mem_armNamed.mp (List.mem_of_mem_tail hq) with rfl | hq
            · exact hQ p (by simp)
            · exact hQ q hq
          · exact hQ q (by simp [hq])
        rcases ih hQ' (i := (expireNamed c p l i).2) with ⟨hd, hr⟩ | ⟨names, l', i', ns, hd, hr, hns⟩
        · exact .inl ⟨by rw [hd]; rfl, by rw [hr]; rfl⟩
        · exact .inr ⟨p.2 :: names, l', i', (p.1.reactor, p.1.arg) :: ns, by rw [hd]; rfl,
            by rw [hr]; rfl, .cons (hQ p (by simp)) hns⟩
      · rw [if_neg hdue, if_neg hdue]
        exact .inr ⟨[], p :: l, i, [], rfl, rfl, .nil⟩

/-- **The causes are those of the dispatch**: one for each notification,
which goes to the reactor of the timer at that place. -/
theorem timerDispatch_causes (fuel : ℕ) (h : t.Holds t.pending) :
    (timerDispatch fuel t = none ∧ timerDispatchCauses fuel t = none) ∨
      ∃ ns t' names l' i', timerDispatch fuel t = some (ns, t') ∧
        timerDispatchCauses fuel t = some names ∧
        ns.map Prod.fst = names.map (fun k => (cell t.pending k).reactor) ∧
        drainNamed t.counter t.counter fuel t.pending.zipIdx t.currentInstance =
          some (names, l', i') ∧
        t'.Holds (l'.map Prod.fst) ∧ t'.counter = t.counter := by
  have hplace : ∀ p ∈ t.pending.zipIdx, (cell t.pending p.2).reactor = p.1.reactor := by
    rintro ⟨f, k⟩ hp
    have hk := List.mem_zipIdx_iff_getElem?.mp hp
    rw [cell, List.getD_eq_getElem?_getD, hk]
    rfl
  have herase : (drainNamed t.counter t.counter fuel t.pending.zipIdx t.currentInstance = none ∧ _) ∨ _ :=
    drainNamed_erase (Q := fun k reactor => (cell t.pending k).reactor = reactor) hplace
  rw [show t.pending.zipIdx.map Prod.fst = t.pending from List.zipIdx_map_fst ..] at herase
  unfold timerDispatchCauses
  rcases timerDispatchLoop_eq t.counter fuel t _ h with ⟨hloop, hd⟩ | ⟨ns, t', l', hloop, hd, hl, hc⟩
  · rcases herase with ⟨hn, -⟩ | ⟨names, l', i', ns, hn, hr, -⟩
    · exact .inl ⟨hloop, by rw [hn]; rfl⟩
    · rw [hd] at hr; cases hr
  · rcases herase with ⟨-, hr⟩ | ⟨names, l₁, i₁, ns₁, hn, hr, hns⟩
    · rw [hd] at hr; cases hr
    · rw [hd, Option.some.injEq, Prod.mk.injEq, Prod.mk.injEq] at hr
      obtain ⟨rfl, rfl, -⟩ := hr
      have hreactors : names.map (fun k => (cell t.pending k).reactor) = ns.map Prod.fst := by
        rwa [← List.forall₂_eq_eq_eq, List.forall₂_map_left_iff]
      exact .inr ⟨ns, t', names, l₁, i₁, hloop, by rw [hn]; rfl, hreactors.symm, hn, hl, hc⟩

end Asx

end CncPneumatics
