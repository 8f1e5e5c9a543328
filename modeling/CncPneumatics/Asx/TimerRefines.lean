import CncPneumatics.Asx.TimerAgenda
import Mathlib.Data.List.Infix
/-!
# The ring refines the agenda

The simulation between the timer service of `timer.c` and its agenda, call
by call and then for a whole sequence of calls. The bounds are those the
32-bit arithmetic needs: fewer than `TIMER_MAX_CALLBACK` timers pending,
instances that have not come round, and deadlines whose signed distance
from the counter does not turn over.
-/

namespace CncPneumatics

namespace Asx

variable {t : Timer} {a : TimerAgenda} {B : ℕ}

/-- Instances that have not come round name what serial numbers name. -/
theorem eraseP_toFuture {l : List (Entry Notice)} (hl : ∀ e ∈ l, e.serial % 2 ^ 32 = e.serial)
    {inst : ℕ} : (l.map toFuture).eraseP (fun f => f.inst = inst) =
      (l.eraseP fun e => e.serial = inst).map toFuture := by
  induction l with
  | nil => rfl
  | cons e l ih =>
    have he : (toFuture e).inst = e.serial := hl e (by simp)
    rw [List.map_cons]
    by_cases hi : e.serial = inst
    · rw [List.eraseP_cons_of_pos (by simp [he, hi]), List.eraseP_cons_of_pos (by simp [hi])]
    · rw [List.eraseP_cons_of_neg (by simp [he, hi]), List.eraseP_cons_of_neg (by simp [hi]),
        List.map_cons, ih fun f hf => hl f (by simp [hf])]

/-- **The service is at the agenda**: the ring holds the records of the
pending timers, and the counters are the time and the last instance. -/
structure Refines (t : Timer) (a : TimerAgenda) : Prop where
  holds : t.Holds (a.pending.map toFuture)
  counter : t.counter = a.now
  current : t.currentInstance = lastInstance a.issued

theorem timerInit_refines : Refines timerInit .start where
  holds := timerInit_holds
  counter := rfl
  current := by decide

namespace Refines

theorem length_lt (hlen : a.pending.length < timerMaxCallback) :
    (a.pending.map toFuture).length < timerMaxCallback := by rwa [List.length_map]

/-- Arming. -/
theorem timerArm (h : Refines t a) (hlen : a.pending.length < timerMaxCallback)
    (reactor count rep arg : ℕ) (hreg : reactor ≠ reactorNullHandle)
    (hcount : InWindow a.now count) (hwin : ∀ e ∈ a.pending, InWindow a.now e.deadline) :
    ∃ t', Asx.timerArm t reactor count rep arg =
        some (if rep ≠ 0 then timerInvalidInstance else a.issued % 2 ^ 32, t') ∧
      Refines t' (a.arm reactor count rep arg) := by
  obtain ⟨t', heq, hholds, -, hc, hi⟩ :=
    timerArm_eq_some h.holds (length_lt hlen) hreg count rep arg
  rw [h.current, lastInstance_succ] at heq hholds hi
  refine ⟨t', heq, ?_, hc.trans h.counter, by rw [hi, mod_eq_lastInstance]; rfl⟩
  have hins := armInsert_toFuture (e := ⟨count, rep, a.issued, (reactor, arg)⟩)
    (show InWindow a.now count from hcount) hwin
  rw [h.counter] at hholds
  simp only [toFuture] at hins
  rw [hins] at hholds
  exact hholds

/-- Cancelling. -/
theorem timerCancel (h : Refines t a) (hlen : a.pending.length < timerMaxCallback)
    (hissued : a.issued ≤ 2 ^ 32) (inst : ℕ) :
    ∃ t', Asx.timerCancel t inst = (a.pending.any fun e => e.serial = inst, t') ∧
      Refines t' (a.cancel inst) := by
  have hserial : ∀ e ∈ a.pending, e.serial % 2 ^ 32 = e.serial := fun e he => by
    have := a.fresh e he
    exact Nat.mod_eq_of_lt (by omega)
  by_cases hin : ∃ e ∈ a.pending, e.serial = inst
  · have hany : (a.pending.any fun f => f.serial = inst) = true := by simpa using hin
    have hmem : ∃ f ∈ a.pending.map toFuture, f.inst = inst := by
      obtain ⟨e, he, rfl⟩ := hin
      exact ⟨_, List.mem_map_of_mem he, hserial e he⟩
    obtain ⟨t', heq, hholds, hc, hi⟩ :=
      timerCancel_eq_true h.holds (length_lt hlen) inst hmem
    refine ⟨t', by rw [heq, hany], ?_, hc.trans h.counter, hi.trans h.current⟩
    rwa [eraseP_toFuture hserial] at hholds
  · have hnone : ∀ e ∈ a.pending, e.serial ≠ inst := fun e he hi => hin ⟨e, he, hi⟩
    have hany : (a.pending.any fun f => f.serial = inst) = false := by simpa using hnone
    have hmissing : ∀ f ∈ a.pending.map toFuture, f.inst ≠ inst := by
      intro f hf
      obtain ⟨e, he, rfl⟩ := List.mem_map.mp hf
      exact ne_of_eq_of_ne (hserial e he) (hnone e he)
    refine ⟨t, by rw [timerCancel_eq_false h.holds inst hmissing, hany], ?_, h.counter, h.current⟩
    have hself : (a.cancel inst).pending = a.pending :=
      List.eraseP_of_forall_not (by simpa using hnone)
    rw [hself]
    exact h.holds

/-- A tick. -/
theorem timerTick (h : Refines t a) (hnow : a.now + 1 < 2 ^ 32) :
    Refines (Asx.timerTick t) a.tick where
  holds := timerTick_holds h.holds
  counter := by
    show (t.counter + 1) % 2 ^ 32 = a.now + 1
    rw [h.counter, Nat.mod_eq_of_lt hnow]
  current := h.current

/-- Dispatching. -/
theorem timerDispatch (h : Refines t a) (hlen : a.pending.length < timerMaxCallback)
    (hB : Drainable a.now B a.pending) (fuel : ℕ) (hfuel : dueCount a.now a.pending < fuel) :
    ∃ t', Asx.timerDispatch fuel t = some (a.dispatch.1.map Entry.payload, t') ∧
      Refines t' a.dispatch.2 := by
  obtain ⟨hdrain, hnow⟩ := a.drained_eq_dispatch
  have hring := ringDrain_toFuture a.now B fuel a.pending a.issued hlen hB
  rw [drain_mono hfuel hdrain, Option.map_some] at hring
  rw [Asx.timerDispatch, h.counter]
  rcases timerDispatchLoop_eq a.now fuel t _ h.holds with ⟨-, hd⟩ | ⟨ns, t', l', hloop, hd, hl, hc⟩
  · rw [h.counter, h.current, hring] at hd
    cases hd
  · rw [h.counter, h.current, hring, Option.some.injEq, Prod.mk.injEq, Prod.mk.injEq] at hd
    obtain ⟨rfl, rfl, hi⟩ := hd
    exact ⟨t', hloop, hl, by rw [hc, h.counter, hnow], hi.symm⟩

/-- A dispatch that ended, with whatever fuel. -/
theorem timerDispatch_of_some (h : Refines t a) (hlen : a.pending.length < timerMaxCallback)
    (hB : Drainable a.now B a.pending) {fuel : ℕ} {r : List (ℕ × ℕ) × Timer}
    (hr : Asx.timerDispatch fuel t = some r) :
    r.1 = a.dispatch.1.map Entry.payload ∧ Refines r.2 a.dispatch.2 := by
  have hring := ringDrain_toFuture a.now B fuel a.pending a.issued hlen hB
  rw [Asx.timerDispatch, h.counter] at hr
  rcases timerDispatchLoop_eq a.now fuel t _ h.holds with ⟨hloop, -⟩ | ⟨ns, t', l', hloop, hd, hl, hc⟩
  · rw [hloop] at hr; cases hr
  · rw [hloop, Option.some.injEq] at hr
    subst hr
    rw [h.counter, h.current, hring, Option.map_eq_some_iff] at hd
    obtain ⟨d, hd, heq⟩ := hd
    obtain ⟨hdrain, hnow⟩ := a.drained_eq_dispatch
    have hsame : d = (a.dispatch.1, a.dispatch.2.pending, a.dispatch.2.issued) :=
      Option.some.inj ((drain_mono (le_max_left _ _) hd).symm.trans
        (drain_mono (le_max_right _ _) hdrain))
    subst hsame
    simp only [Prod.mk.injEq] at heq
    obtain ⟨rfl, rfl, hi⟩ := heq
    exact ⟨rfl, hl, by rw [hc, h.counter, hnow], hi.symm⟩

end Refines

/-! ## Sequences of calls -/

/-- One call of the service, with what it returns or notifies; `none`
where it alerts, or where the fuel of the dispatch loop runs out. -/
def timerStep (fuel : ℕ) (t : Timer) : TimerOp → Option (TimerOut × Timer)
  | .arm reactor count rep arg =>
    (timerArm t reactor count rep arg).map fun r => (.armed r.1, r.2)
  | .cancel inst => some (.cancelled (timerCancel t inst).1, (timerCancel t inst).2)
  | .tick => some (.ticked, timerTick t)
  | .dispatch => (timerDispatch fuel t).map fun r => (.dispatched r.1, r.2)

/-- A sequence of calls. -/
def timerRun (fuel : ℕ) : List TimerOp → Timer → Option (List TimerOut × Timer)
  | [], t => some ([], t)
  | op :: ops, t => (timerStep fuel t op).bind fun r =>
      (timerRun fuel ops r.2).map fun r' => (r.1 :: r'.1, r'.2)

/-- The bounds within which the service works as intended: at most
`TIMER_MAX_CALLBACK - 1` timers pending, fewer than `2^32` armed so far,
and the time and the deadlines below `2^31`. -/
structure TimerAgenda.Admissible (a : TimerAgenda) : Prop where
  length_le : a.pending.length ≤ timerMaxCallback - 1
  issued_lt : a.issued < 2 ^ 32
  now_lt : a.now < 2 ^ 31
  deadline_lt : ∀ e ∈ a.pending, e.deadline < 2 ^ 31

/-- The fuel that the dispatch loop needs in a call. -/
def TimerAgenda.fuelFor (a : TimerAgenda) : ℕ := dueCount a.now a.pending + 1

theorem TimerAgenda.Admissible.inWindow (h : a.Admissible) {e : Entry Notice}
    (he : e ∈ a.pending) : InWindow a.now e.deadline := by
  have h1 := h.now_lt
  have h2 := h.deadline_lt e he
  exact ⟨by omega, by omega⟩

/-- What is left after a dispatch within the bounds was within the bounds
all along. -/
theorem TimerAgenda.Admissible.drainable (h : a.Admissible) (h' : a.dispatch.2.Admissible) :
    Drainable a.now (2 ^ 31) a.pending where
  now_lt := h.now_lt
  window := by omega
  wrap := by omega
  early := fun e he => by have := h.now_lt; omega
  late := h.deadline_lt
  left := by
    intro e he c hc
    have hd := TimerAgenda.drained_spec a.drained_eq_dispatch.1
    have hmem : c ∈ a.dispatch.2.pending.map Entry.content :=
      hd.left_perm.mem_iff.mpr (List.mem_filterMap.mpr ⟨e, he, hc⟩)
    obtain ⟨f, hf, rfl⟩ := List.mem_map.mp hmem
    exact h'.deadline_lt f hf

/-- **One call**: the service returns what the agenda returns and is at
the agenda again. -/
theorem timerStep_refines {op : TimerOp} (h : Refines t a) (ha : a.Admissible)
    (ha' : (a.step op).2.Admissible)
    (hreg : ∀ reactor count rep arg, op = .arm reactor count rep arg → reactor ≠ reactorNullHandle)
    {fuel : ℕ} (hfuel : a.fuelFor ≤ fuel) :
    ∃ t', timerStep fuel t op = some ((a.step op).1, t') ∧ Refines t' (a.step op).2 := by
  have hlen : a.pending.length < timerMaxCallback := by
    have := ha.length_le
    simp only [timerMaxCallback] at this ⊢; omega
  have hissued := ha.issued_lt
  cases op with
  | arm reactor count rep arg =>
    have hcount : count < 2 ^ 31 :=
      ha'.deadline_lt ⟨count, rep, a.issued, (reactor, arg)⟩ (mem_insertEntry.mpr (.inl rfl))
    have hnow := ha.now_lt
    obtain ⟨t', heq, ht'⟩ := h.timerArm hlen reactor count rep arg (hreg _ _ _ _ rfl)
      ⟨by omega, by omega⟩ fun e he => ha.inWindow he
    refine ⟨t', ?_, ht'⟩
    rw [timerStep, heq, Option.map_some, TimerAgenda.step, Nat.mod_eq_of_lt hissued]
    by_cases hrep : rep = 0 <;> simp [hrep]
  | cancel inst =>
    obtain ⟨t', heq, ht'⟩ := h.timerCancel hlen (by omega) inst
    exact ⟨t', by rw [timerStep, heq]; rfl, ht'⟩
  | tick => exact ⟨_, rfl, h.timerTick (by have := ha.now_lt; omega)⟩
  | dispatch =>
    obtain ⟨t', heq, ht'⟩ := h.timerDispatch hlen (ha.drainable ha') fuel (by
      unfold TimerAgenda.fuelFor at hfuel; omega)
    exact ⟨t', by rw [timerStep, heq]; rfl, ht'⟩

/-- A sequence of calls from any state within the bounds. -/
theorem timerRun_refines (ops : List TimerOp) :
    ∀ a : TimerAgenda, (∀ pre, pre <+: ops → (a.run pre).2.Admissible) →
    (∀ reactor count rep arg, .arm reactor count rep arg ∈ ops → reactor ≠ reactorNullHandle) →
    ∃ N, ∀ fuel, N ≤ fuel → ∀ t, Refines t a →
      ∃ t', timerRun fuel ops t = some ((a.run ops).1, t') ∧ Refines t' (a.run ops).2 := by
  induction ops with
  | nil => intro a _ _; exact ⟨0, fun _ _ t h => ⟨t, rfl, h⟩⟩
  | cons op ops ih =>
    intro a hadm hreg
    have ha : a.Admissible := hadm [] (by simp)
    have ha' : (a.step op).2.Admissible := hadm [op] ⟨ops, rfl⟩
    obtain ⟨N, hN⟩ := ih (a.step op).2
      (fun pre hpre => hadm (op :: pre) (List.cons_prefix_cons.mpr ⟨rfl, hpre⟩))
      fun r c p x hmem => hreg r c p x (by simp [hmem])
    refine ⟨max N a.fuelFor, fun fuel hfuel t h => ?_⟩
    obtain ⟨t₁, heq₁, ht₁⟩ := timerStep_refines h ha ha'
      (fun r c p x hop => hreg r c p x (by simp [hop])) (le_of_max_le_right hfuel)
    obtain ⟨t', heq, ht'⟩ := hN fuel (le_of_max_le_left hfuel) t₁ ht₁
    exact ⟨t', by rw [timerRun, heq₁, Option.bind_some, heq]; rfl, ht'⟩

/-- **The timer ring refines the agenda.** Through every sequence of
calls on registered reactors within the bounds, no arming alerts, every
call returns and notifies what an agenda does, and the slots from the
active one up to the available one hold the pending timers in order, the
others being free. -/
theorem timer_ring_refines_agenda (ops : List TimerOp)
    (hreg : ∀ reactor count rep arg, .arm reactor count rep arg ∈ ops →
      reactor ≠ reactorNullHandle)
    (hadm : ∀ pre, pre <+: ops → (TimerAgenda.start.run pre).2.Admissible) :
    ∃ N, ∀ fuel, N ≤ fuel → ∃ outs t, timerRun fuel ops timerInit = some (outs, t) ∧
      AgendaRun .start ops outs (TimerAgenda.start.run ops).2 ∧
      Refines t (TimerAgenda.start.run ops).2 := by
  obtain ⟨N, hN⟩ := timerRun_refines ops .start hadm hreg
  refine ⟨N, fun fuel hfuel => ?_⟩
  obtain ⟨t, heq, ht⟩ := hN fuel hfuel timerInit timerInit_refines
  exact ⟨_, t, heq, TimerAgenda.run_does ops .start, ht⟩

/-- A one-shot and a repeating timer that fall due together, one more that
is cancelled, and a dispatch that comes late. -/
def someCalls : List TimerOp :=
  [.arm 3 2 0 7, .arm 4 2 2 9, .arm 5 3 0 1, .cancel 2, .tick, .tick, .tick, .tick, .dispatch]

example : (TimerAgenda.start.run someCalls).1 =
    [.armed 0, .armed timerInvalidInstance, .armed 2, .cancelled true, .ticked, .ticked, .ticked,
      .ticked, .dispatched [(3, 7), (4, 9), (4, 0)]] := by decide +kernel

instance (a : TimerAgenda) : Decidable a.Admissible :=
  decidable_of_iff (a.pending.length ≤ timerMaxCallback - 1 ∧ a.issued < 2 ^ 32 ∧ a.now < 2 ^ 31 ∧
      ∀ e ∈ a.pending, e.deadline < 2 ^ 31)
    ⟨fun ⟨h1, h2, h3, h4⟩ => ⟨h1, h2, h3, h4⟩, fun ⟨h1, h2, h3, h4⟩ => ⟨h1, h2, h3, h4⟩⟩

theorem timer_ring_refines_agenda_someCalls :
    ∃ N, ∀ fuel, N ≤ fuel → ∃ outs t, timerRun fuel someCalls timerInit = some (outs, t) ∧
      AgendaRun .start someCalls outs (TimerAgenda.start.run someCalls).2 ∧
      Refines t (TimerAgenda.start.run someCalls).2 := by
  refine timer_ring_refines_agenda someCalls ?_ fun pre hpre => ?_
  · intro reactor count rep arg hmem
    have : reactor = 3 ∨ reactor = 4 ∨ reactor = 5 := by
      simp only [someCalls, List.mem_cons, TimerOp.arm.injEq, reduceCtorEq, List.not_mem_nil,
        or_false] at hmem
      omega
    simp only [reactorNullHandle]
    omega
  · have hall : ∀ pre ∈ someCalls.inits, (TimerAgenda.start.run pre).2.Admissible := by
      decide +kernel
    exact hall pre ((List.mem_inits _ _).mpr hpre)

end Asx

end CncPneumatics
