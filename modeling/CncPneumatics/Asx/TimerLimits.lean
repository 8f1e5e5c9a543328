import CncPneumatics.Asx.TimerDue
/-!
# Where the timer service gives out

Two limits of the service, over its runs from `timer_init`. With
`TIMER_MAX_CALLBACK` timers pending the ring looks empty to
`timer_dispatch` and to `timer_cancel`. Near the end of the range of the
counter, `timer_dispatch` takes the renewal of a timer for due again.
-/

namespace CncPneumatics

namespace Asx

variable {t : Timer} {hist : List (Timer × TimerOp)} {fuel : ℕ} {P Q : List ℕ → Prop}

/-- **A dispatch ends**, and the places of the timers it notifies are as
said. -/
def DispatchEnds (t : Timer) (P : List ℕ → Prop) : Prop :=
  ∃ N, ∀ fuel, N ≤ fuel → ∃ ns t' names, timerDispatch fuel t = some (ns, t') ∧
    timerDispatchCauses fuel t = some names ∧
    ns.map Prod.fst = names.map (fun k => (cell t.pending k).reactor) ∧ P names

theorem DispatchEnds.imp (h : DispatchEnds t P) (hPQ : ∀ names, P names → Q names) :
    DispatchEnds t Q := by
  obtain ⟨N, hN⟩ := h
  refine ⟨N, fun fuel hfuel => ?_⟩
  obtain ⟨ns, t', names, heq, hcauses, hns, hP⟩ := hN fuel hfuel
  exact ⟨ns, t', names, heq, hcauses, hns, hPQ names hP⟩

/-- No pending timer repeats. -/
def NoneRepeats (l : List TimerFuture) : Prop := ∀ f ∈ l, f.rep = 0

/-- The loop of a dispatch has something to stop at, or only one-shot
timers to go through. -/
def LoopEnds (now : ℕ) (l : List TimerFuture) : Prop := Stops now l ∨ NoneRepeats l

theorem mem_zipIdx_pending {f : TimerFuture} {k : ℕ} (hk : t.pending[k]? = some f) :
    (f, k) ∈ t.pending.zipIdx := List.mem_zipIdx_iff_getElem?.mpr hk

/-- The loop with names, from enough fuel on, is a dispatch. -/
theorem InOrder.dispatchEnds (h : InOrder t)
    (hd : ∃ N, ∀ fuel, N ≤ fuel → ∃ names l' i', drainNamed t.counter t.counter fuel
      t.pending.zipIdx t.currentInstance = some (names, l', i') ∧ P names) : DispatchEnds t P := by
  obtain ⟨N, hN⟩ := hd
  refine ⟨N, fun fuel hfuel => ?_⟩
  obtain ⟨names, l', i', hd, hP⟩ := hN fuel hfuel
  have hcauses : timerDispatchCauses fuel t = some names := by
    rw [timerDispatchCauses, hd]; rfl
  rcases timerDispatch_causes fuel h.holds with
    ⟨-, hnone⟩ | ⟨ns, t', names', _, _, heq, hcauses', hns, -⟩
  · rw [hcauses] at hnone; cases hnone
  · rw [hcauses, Option.some.injEq] at hcauses'
    subst hcauses'
    exact ⟨ns, t', names, heq, hcauses, hns, hP⟩

/-- The facts about the pending timers, with the places as names. -/
theorem InOrder.named (h : InOrder t) :
    Sorted t.counter (t.pending.zipIdx.map Prod.fst) ∧ (t.pending.zipIdx.map Prod.snd).Nodup ∧
      t.pending.zipIdx.length = t.pending.length := by
  refine ⟨by rw [List.zipIdx_map_fst]; exact h.sorted, ?_, List.length_zipIdx⟩
  rw [List.zipIdx_map_snd]
  exact List.nodup_range'

/-- **A dispatch that ends.** -/
theorem InOrder.ends (h : InOrder t) (hlen : t.pending.length < timerMaxCallback)
    (hends : LoopEnds t.counter t.pending) : ∃ N, ∀ fuel, N ≤ fuel → ∃ names l' i',
      drainNamed t.counter t.counter fuel t.pending.zipIdx t.currentInstance =
        some (names, l', i') ∧
      (Stops t.counter t.pending →
        ∀ n, names.count n ≤ allowance t.counter t.pending.zipIdx n) := by
  obtain ⟨hsorted, -, hzip⟩ := h.named
  by_cases hstops : Stops t.counter t.pending
  · refine ⟨totalBudget t.counter t.pending.zipIdx + 1, fun fuel hfuel => ?_⟩
    obtain ⟨names, l', i', hd, hcount⟩ := drainNamed_of_stops (i := t.currentInstance) h.counter_lt
      hsorted (by omega) (by rw [List.zipIdx_map_fst]; exact hstops) (Nat.lt_of_succ_le hfuel)
    exact ⟨names, l', i', hd, fun _ => hcount⟩
  · have hrep := hends.resolve_left hstops
    refine ⟨t.pending.length + 1, fun fuel hfuel => ?_⟩
    obtain ⟨names, l', i', hd⟩ := drainNamed_of_once t.counter t.counter t.currentInstance
      (l := t.pending.zipIdx) (fun p hp => hrep p.1 (by
        have := List.mem_map_of_mem (f := Prod.fst) hp
        rwa [List.zipIdx_map_fst] at this)) (by omega : _ < fuel)
    exact ⟨names, l', i', hd, fun hs => absurd hs hstops⟩

/-- Where the loop does not end, nothing stops it. -/
theorem endless_of_not_loopEnds {now : ℕ} {l : List TimerFuture} (hrep : ∀ f ∈ l, f.rep < 2 ^ 31)
    (h : ¬ LoopEnds now l) : Endless now l := by
  unfold LoopEnds Stops NoneRepeats at h
  push Not at h
  obtain ⟨⟨hcount, hnext⟩, hrepeats⟩ := h
  exact ⟨hcount, fun f hf hne he => hnext f hf hne (hcount f hf) he, hrep, hrepeats⟩

/-- A dispatch that ends, as the loop with names. -/
theorem DispatchEnds.causes (h : DispatchEnds t P) : ∃ fuel names l' i',
    drainNamed t.counter t.counter (fuel + 1) t.pending.zipIdx t.currentInstance =
      some (names, l', i') ∧ P names := by
  obtain ⟨N, hN⟩ := h
  obtain ⟨_, _, names, -, hcauses, -, hP⟩ := hN (N + 1) (Nat.le_succ N)
  obtain ⟨⟨names, l', i'⟩, hd, rfl⟩ := Option.map_eq_some_iff.mp hcauses
  exact ⟨N, names, l', i', hd, hP⟩

/-- **With nothing to stop its loop a dispatch never ends.** -/
theorem InOrder.never_ends (h : InOrder t) (hlen : t.pending.length < timerMaxCallback)
    (hendless : Endless t.counter t.pending) (fuel : ℕ) : timerDispatch fuel t = none := by
  obtain ⟨-, -, hzip⟩ := h.named
  have hnone : drainNamed t.counter t.counter fuel t.pending.zipIdx t.currentInstance = none :=
    drainNamed_of_endless h.counter_lt (by omega) (by rw [List.zipIdx_map_fst]; exact hendless)
  rcases timerDispatch_causes fuel h.holds with ⟨heq, -⟩ | ⟨_, _, _, _, _, -, -, -, hd, -⟩
  · exact heq
  · rw [hnone] at hd
    cases hd

/-- **Only where its loop ends** does a dispatch end. -/
theorem InOrder.loopEnds (h : InOrder t) (hlen : t.pending.length < timerMaxCallback)
    (hends : DispatchEnds t P) : LoopEnds t.counter t.pending := by
  by_contra hnot
  obtain ⟨N, hN⟩ := hends
  obtain ⟨_, _, _, hsome, -⟩ := hN N le_rfl
  rw [h.never_ends hlen (endless_of_not_loopEnds h.sorted.rep_lt hnot)] at hsome
  cases hsome

/-- A dispatch that notifies all that is due has no deadline behind a
roll-over before it. -/
theorem InOrder.noneBehind (h : InOrder t) (hends : DispatchEnds t fun names =>
    ∀ k f, t.pending[k]? = some f → elapsed t.counter f → k ∈ names) :
    NoneBehind t.counter t.pending := by
  intro f hf he
  by_contra hlt
  obtain ⟨k, hk⟩ := List.mem_iff_getElem?.mp hf
  obtain ⟨fuel, names, l', i', hd, hall⟩ := hends.causes
  rw [drainNamed_of_behind fuel t.currentInstance h.named.1 h.counter_lt (mem_zipIdx_pending hk) he
    (not_le.mp hlt), Option.some.injEq, Prod.mk.injEq] at hd
  have hin := hall k f hk he
  rw [← hd.1] at hin
  cases hin

/-! ## Capacity -/

/-- **The timers work**: a dispatch ends and notifies every pending timer
whose deadline has passed, and cancelling finds every pending timer. -/
def TimersWork (t : Timer) : Prop :=
  (DispatchEnds t fun names =>
    ∀ k f, t.pending[k]? = some f → elapsed t.counter f → k ∈ names) ∧
  ∀ f ∈ t.pending, (timerCancel t f.inst).1 = true

/-- There is a free slot, and no deadline that has passed lies behind a
roll-over of the counter. -/
def HasRoom (t : Timer) : Prop :=
  t.pending.length < timerMaxCallback ∧ NoneBehind t.counter t.pending

/-- **Capacity.** In every state of every run from `timer_init`, the
timers work where there is room and the loop of the dispatch ends, and only
there. -/
theorem timers_work_with_room (hrun : Run (timerCall fuel) timerInit hist t)
    (hp : ∀ p ∈ hist, Proper p) :
    TimersWork t ↔ HasRoom t ∧ LoopEnds t.counter t.pending := by
  have h := inOrder_of_run timerInit_inOrder hrun hp
  obtain ⟨hsorted, -, hzip⟩ := h.named
  constructor
  · rintro ⟨hends, hcancel⟩
    have hlen : t.pending.length < timerMaxCallback := by
      refine lt_of_le_of_ne h.holds.length_le fun hfull => ?_
      obtain ⟨f, l, hl⟩ := List.exists_cons_of_length_pos (l := t.pending)
        (by rw [hfull]; decide)
      have := hcancel f (by rw [hl]; exact List.mem_cons_self)
      rw [timerCancel_full h.holds hfull] at this
      cases this
    exact ⟨⟨hlen, h.noneBehind hends⟩, h.loopEnds hlen hends⟩
  · rintro ⟨⟨hlen, hbehind⟩, hends⟩
    refine ⟨h.dispatchEnds ?_, fun f hf => ?_⟩
    · obtain ⟨N, hN⟩ := h.ends hlen hends
      refine ⟨N, fun fuel hfuel => ?_⟩
      obtain ⟨names, l', i', hd, -⟩ := hN fuel hfuel
      refine ⟨names, l', i', hd, fun k f hk he => ?_⟩
      exact named_of_elapsed h.counter_lt hsorted (by omega)
        (by rw [List.zipIdx_map_fst]; exact hbehind) (mem_zipIdx_pending hk) he hd
    · obtain ⟨t', hcancel, -⟩ := timerCancel_eq_true h.holds hlen f.inst ⟨f, hf, rfl⟩
      rw [hcancel]

/-- Three timers, one of which repeats. -/
def threeTimers : List TimerOp :=
  [.arm 3 2 0 7, .arm 4 1 2 9, .arm 5 9 0 1, .tick, .tick]

theorem timers_work_with_room_three : ∃ hist t, Run (timerCall 9) timerInit hist t ∧
    hist.map Prod.snd = threeTimers ∧ t.pending.length = 3 ∧ TimersWork t := by
  have hstate : ((runEvents (guarded (fun p => decide (Proper p)) (timerCall 9)) threeTimers
      timerInit).map fun t => (t.counter, t.pending)) =
      some (2, [⟨4, 1, 1, 2, 9⟩, ⟨3, 0, 2, 0, 7⟩, ⟨5, 2, 9, 0, 1⟩]) := by decide +kernel
  obtain ⟨t, ht, heq⟩ := Option.map_eq_some_iff.mp hstate
  obtain ⟨hnow, hl⟩ := Prod.mk.inj heq
  obtain ⟨hist, hrun, hp, hops⟩ := exists_run_of_proper ht
  refine ⟨hist, t, hrun, hops, by rw [hl]; rfl, (timers_work_with_room hrun hp).mpr ⟨⟨?_, ?_⟩, ?_⟩⟩
  · rw [hl]; decide
  · rw [hnow, hl]
    unfold NoneBehind
    decide
  · rw [hnow, hl]
    exact .inl (.inl ⟨⟨5, 2, 9, 0, 1⟩, by decide, by decide⟩)

/-- As many timers as there is room for, due at once. -/
def sixteenTimers : List TimerOp := (List.range timerMaxCallback).map fun k => .arm 3 0 0 k

/-- **Nothing expires and nothing can be cancelled** with sixteen timers
pending. -/
theorem timers_stuck_when_full : ∃ hist t, Run (timerCall 1) timerInit hist t ∧
    (∀ p ∈ hist, Proper p) ∧ t.pending.length = timerMaxCallback ∧
    (∀ f ∈ t.pending, f.count ≤ t.counter ∧ elapsed t.counter f) ∧
    (∀ f ∈ t.pending, (timerCancel t f.inst).1 = false) ∧
    (∀ fuel, timerDispatch (fuel + 1) t = some ([], t)) ∧ ¬ TimersWork t := by
  have hstate : ((runEvents (guarded (fun p => decide (Proper p)) (timerCall 1)) sixteenTimers
      timerInit).map fun t => decide (t.pending.length = timerMaxCallback ∧
        (∀ f ∈ t.pending, f.count ≤ t.counter ∧ elapsed t.counter f))) = some true := by
    decide +kernel
  obtain ⟨t, ht, heq⟩ := Option.map_eq_some_iff.mp hstate
  obtain ⟨hfull, hdue⟩ := of_decide_eq_true heq
  obtain ⟨hist, hrun, hp, -⟩ := exists_run_of_proper ht
  have h := inOrder_of_run timerInit_inOrder hrun hp
  have hcancel : ∀ i, timerCancel t i = (false, t) := fun i => timerCancel_full h.holds hfull i
  have hend : t.slotActive = t.slotAvail := h.holds.active_eq_avail_iff.mpr (.inr hfull)
  refine ⟨hist, t, hrun, hp, hfull, hdue, fun f _ => by rw [hcancel],
    fun fuel => by rw [timerDispatch, timerDispatchLoop, if_pos hend], fun hwork => ?_⟩
  obtain ⟨f, l, hl⟩ := List.exists_cons_of_length_pos (l := t.pending) (by rw [hfull]; decide)
  have := hwork.2 f (by rw [hl]; exact List.mem_cons_self)
  rw [hcancel] at this
  cases this

/-! ## Termination -/

/-- **A dispatch keeps within the budgets**: it ends, and a repeating
timer whose deadline is `D` ticks past is notified at most `D / rep + 1`
times. -/
def WithinBudgets (t : Timer) : Prop :=
  DispatchEnds t fun names => ∀ k f, t.pending[k]? = some f → f.rep ≠ 0 → elapsed t.counter f →
    names.count k ≤ (-distance t.counter f).toNat / f.rep + 1

/-- The budget of a timer that is due. -/
theorem budget_eq {now : ℕ} {f : TimerFuture} (hnow : now < 2 ^ 32) (hc : f.count ≤ now)
    (he : elapsed now f) (hne : f.rep ≠ 0) :
    budget now f = (-distance now f).toNat / f.rep + 1 := by
  have hd := distance_of_elapsed hnow hc he
  rw [budget, if_pos ⟨hc, he⟩, if_neg hne, hd, show (-((f.count : ℤ) - now)).toNat = now - f.count by
    omega]

/-- **Termination.** In every state of every run from `timer_init` with a
free slot, a dispatch keeps within the budgets when something stops its
loop or no pending timer repeats, and only then. -/
theorem dispatch_within_budgets (hrun : Run (timerCall fuel) timerInit hist t)
    (hp : ∀ p ∈ hist, Proper p) (hlen : t.pending.length < timerMaxCallback) :
    WithinBudgets t ↔ LoopEnds t.counter t.pending := by
  have h := inOrder_of_run timerInit_inOrder hrun hp
  obtain ⟨hsorted, hnodup, hzip⟩ := h.named
  constructor
  · intro hwithin
    exact h.loopEnds hlen hwithin
  · intro hends
    refine h.dispatchEnds ?_
    obtain ⟨N, hN⟩ := h.ends hlen hends
    refine ⟨N, fun fuel hfuel => ?_⟩
    obtain ⟨names, l', i', hd, hcount⟩ := hN fuel hfuel
    refine ⟨names, l', i', hd, fun k f hk hne he => ?_⟩
    -- what stops the loop bounds each timer by its allowance, which is its budget
    rcases hends with hstops | hnone
    · refine (hcount hstops k).trans ?_
      have hown : allowance t.counter t.pending.zipIdx k = budget t.counter f :=
        allowance_of_mem hnodup (mem_zipIdx_pending hk)
      rw [hown]
      by_cases hc : f.count ≤ t.counter
      · rw [budget_eq h.counter_lt hc he hne]
      · rw [budget, if_neg fun hb => hc hb.1]
        exact Nat.zero_le _
    · exact absurd (hnone f (List.mem_of_getElem? hk)) hne

theorem dispatch_within_budgets_three : ∃ hist t, Run (timerCall 9) timerInit hist t ∧
    hist.map Prod.snd = threeTimers ++ [.tick, .tick, .tick] ∧ WithinBudgets t := by
  have hstate : ((runEvents (guarded (fun p => decide (Proper p)) (timerCall 9))
      (threeTimers ++ [.tick, .tick, .tick]) timerInit).map fun t => (t.counter, t.pending)) =
      some (5, [⟨4, 1, 1, 2, 9⟩, ⟨3, 0, 2, 0, 7⟩, ⟨5, 2, 9, 0, 1⟩]) := by decide +kernel
  obtain ⟨t, ht, heq⟩ := Option.map_eq_some_iff.mp hstate
  obtain ⟨hnow, hl⟩ := Prod.mk.inj heq
  obtain ⟨hist, hrun, hp, hops⟩ := exists_run_of_proper ht
  refine ⟨hist, t, hrun, hops, (dispatch_within_budgets hrun hp ?_).mpr ?_⟩
  · rw [hl]; decide
  · rw [hnow, hl]
    exact .inl (.inl ⟨⟨5, 2, 9, 0, 1⟩, by decide, by decide⟩)

/-- **The dispatch never ends** for a repeating timer that is due at the
last value of the counter. -/
theorem dispatch_never_ends : ∃ hist t, Run (timerCall 1) timerInit hist t ∧
    (∀ p ∈ hist, Proper p) ∧ t.counter = 2 ^ 32 - 1 ∧ t.pending = [⟨3, 0, 2 ^ 32 - 1, 5, 0⟩] ∧
    (∀ fuel, timerDispatch fuel t = none) ∧ ¬ WithinBudgets t := by
  obtain ⟨hist, hrun, hp⟩ := run_ticks 1 (2 ^ 32 - 1)
  rw [show (2 ^ 32 - 1) % 2 ^ 32 = 2 ^ 32 - 1 by decide] at hrun
  set late : Timer := { timerInit with counter := 2 ^ 32 - 1 } with hlate
  have hstate : ((timerCall 1 late (.arm 3 (2 ^ 32 - 1) 5 0)).map fun t =>
      (t.counter, t.pending)) = some (2 ^ 32 - 1, [⟨3, 0, 2 ^ 32 - 1, 5, 0⟩]) := by decide +kernel
  obtain ⟨t, ht, heq⟩ := Option.map_eq_some_iff.mp hstate
  obtain ⟨hnow, hl⟩ := Prod.mk.inj heq
  have hp' : ∀ p ∈ hist ++ [(late, TimerOp.arm 3 (2 ^ 32 - 1) 5 0)], Proper p := by
    intro p hmem
    rcases List.mem_append.mp hmem with hmem | hmem
    · exact hp p hmem
    · rw [List.mem_singleton.mp hmem]
      decide
  have h := inOrder_of_run timerInit_inOrder (hrun.snoc ht) hp'
  have hendless : Endless t.counter t.pending := by
    rw [hnow, hl]
    exact ⟨by decide, by decide, by decide, by decide⟩
  have hnever := h.never_ends (by rw [hl]; decide) hendless
  refine ⟨_, t, hrun.snoc ht, hp', hnow, hl, hnever, ?_⟩
  rintro ⟨N, hN⟩
  obtain ⟨ns, t', names, hsome, -⟩ := hN N le_rfl
  rw [hnever] at hsome
  cases hsome

end Asx

end CncPneumatics
