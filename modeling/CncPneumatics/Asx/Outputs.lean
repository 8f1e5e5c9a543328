import CncPneumatics.Asx.Sequence
import CncPneumatics.Asx.TimerChain
import CncPneumatics.Common.History
/-!
# The outputs together

All outputs share the timers and one queue of the reactor. A sequence goes
on by itself: a step arms a timer, whose expiry queues the next step.
Driving an output directly cancels the timer, which is all there is of the
sequence unless its step is in the queue already.
-/

namespace CncPneumatics

namespace Asx

/-! ## The system -/

/-- `DIGITAL_OUTPUT_MAX_CONCURRENT_SEQUENCE`. -/
def digitalOutputMaxConcurrentSequence : ℕ := 8

/-- The timers, the queue of the handler, the pins and the outputs, each of
them named by its place. -/
structure OutputsState where
  timer : Timer
  queue : List ℕ
  pins : PinWrites
  outputs : List DigitalOutput

/-- What the application does, and the interrupts and the reactor. -/
inductive OutputsEvent where
  | set (output : ℕ) (value : Bool)
  | toggle (output : ℕ)
  | start (output referenceTime : ℕ) (sequence : List Char) (rep : Bool)
  | tick
  /-- `timer_dispatch` is run. -/
  | dispatch
  /-- The handler of the outputs is run. -/
  | step
  /-- Another user arms a timer. -/
  | arm (reactor count rep arg : ℕ)
  /-- Another user cancels one. -/
  | cancel (inst : ℕ)

/-- What a function does, given the handle of an output. -/
def onOne (s : OutputsState) (output : ℕ) (f : OutputState → Option OutputState) :
    Option OutputsState :=
  s.outputs[output]?.bind fun out => (f ⟨s.timer, s.pins, out⟩).map fun x =>
    { s with timer := x.timer, pins := x.pins, outputs := s.outputs.set output x.out }

/-- One step that does not stop. -/
def outputsStep (reactor fuel : ℕ) (s : OutputsState) : OutputsEvent → Option OutputsState
  | .set output value => onOne s output fun x => some (digitalOutputSet value x)
  | .toggle output => onOne s output fun x => some (digitalOutputToggle x)
  | .start output referenceTime sequence rep => onOne s output fun x =>
      (digitalOutputStart reactor output referenceTime sequence rep x).toOption
  | .tick => some { s with timer := timerTick s.timer }
  | .dispatch => (timerDispatch fuel s.timer).map fun r =>
      { s with
        timer := r.2
        queue := (waiting r.1 reactor).foldl (post digitalOutputMaxConcurrentSequence) s.queue }
  | .step =>
    match s.queue with
    | [] => none
    | output :: queue => onOne { s with queue := queue } output fun x =>
        (digitalOutputReactorHandler reactor output x).toOption
  | .arm other count rep arg =>
    if other ≠ reactor ∧ other ≠ reactorNullHandle then
      (timerArm s.timer other count rep arg).map fun r => { s with timer := r.2 }
    else none
  | .cancel inst => some { s with timer := (timerCancel s.timer inst).2 }

/-- The outputs as they are declared, with the counters of the timer service
at any value. -/
def outputsInit (pins : List ℕ) (counter currentInstance : ℕ) : OutputsState where
  timer := { timerInit with counter := counter, currentInstance := currentInstance }
  queue := []
  pins := []
  outputs := pins.map digitalOutput

variable {reactor fuel output inst : ℕ} {s s' : OutputsState} {x x' : OutputState}
  {e : OutputsEvent} {hist : List (OutputsState × OutputsEvent)} {t t' : Timer} {pins : List ℕ}
  {counter currentInstance : ℕ} {l : List TimerFuture}

/-! ## What each call does with the timers -/

/-- The timers that a sequence arms. -/
def Armed (reactor output : ℕ) (f : TimerFuture) : Prop :=
  f.reactor = reactor ∧ f.arg = output ∧ f.rep = 0

theorem cancelSequence_served (x : OutputState) :
    Timer.Served (fun _ => False) x.timer (cancelSequence x).timer := by
  unfold cancelSequence
  split
  · exact Timer.Served.cancel _
  · exact Timer.Served.refl _ _

theorem reactorHandler_served (hnull : reactor ≠ reactorNullHandle)
    (h : digitalOutputReactorHandler reactor output x = .ok x') :
    Timer.Served (Armed reactor output) x.timer x'.timer := by
  obtain ⟨⟨-, htimer⟩, -⟩ := reactorHandler_command h
  cases hdelay : (command x.out).delay with
  | none =>
    rw [hdelay] at htimer
    rw [htimer.1]
    exact Timer.Served.refl _ _
  | some d =>
    rw [hdelay] at htimer
    exact Timer.Served.arm htimer hnull fun _ => ⟨rfl, rfl, rfl⟩

theorem outputStart_served (hnull : reactor ≠ reactorNullHandle) {referenceTime : ℕ}
    {sequence : List Char} {rep : Bool}
    (h : digitalOutputStart reactor output referenceTime sequence rep x = .ok x') :
    Timer.Served (Armed reactor output) x.timer x'.timer := by
  have hhandler : Timer.Served (Armed reactor output) (cancelSequence x).timer x'.timer := by
    unfold digitalOutputStart at h
    have hserved := reactorHandler_served hnull h
    exact hserved
  exact ((cancelSequence_served x).mono fun _ => False.elim).trans hhandler

theorem onOne_eq_some {f : OutputState → Option OutputState} (h : onOne s output f = some s') :
    ∃ out x', s.outputs[output]? = some out ∧ f ⟨s.timer, s.pins, out⟩ = some x' ∧
      s' = { s with timer := x'.timer, pins := x'.pins, outputs := s.outputs.set output x'.out } := by
  obtain ⟨out, hout, h⟩ := Option.bind_eq_some_iff.mp h
  obtain ⟨x', hx, rfl⟩ := Option.map_eq_some_iff.mp h
  exact ⟨out, x', hout, hx, rfl⟩

/-- The output that an event is a call about. -/
def OutputsEvent.output? : OutputsEvent → Option ℕ
  | .set output _ | .toggle output | .start output _ _ _ => some output
  | _ => none

/-- The output is driven directly. -/
def OutputsEvent.direct : OutputsEvent → Bool
  | .set _ _ | .toggle _ => true
  | _ => false

/-- **What an event leads to.** Driving an output directly cancels its
sequence. -/
inductive Leads (reactor fuel : ℕ) (s : OutputsState) : OutputsEvent → OutputsState → Prop
  | direct {e : OutputsEvent} {output : ℕ} {out : DigitalOutput} {x : OutputState} :
      e.output? = some output → e.direct = true → s.outputs[output]? = some out →
      x.timer = (cancelSequence ⟨s.timer, s.pins, out⟩).timer →
      Leads reactor fuel s e
        { s with timer := x.timer, pins := x.pins, outputs := s.outputs.set output x.out }
  | start {output referenceTime : ℕ} {sequence : List Char} {rep : Bool} {out : DigitalOutput}
      {x : OutputState} : s.outputs[output]? = some out →
      digitalOutputStart reactor output referenceTime sequence rep ⟨s.timer, s.pins, out⟩ = .ok x →
      Leads reactor fuel s (.start output referenceTime sequence rep)
        { s with timer := x.timer, pins := x.pins, outputs := s.outputs.set output x.out }
  | tick : Leads reactor fuel s .tick { s with timer := timerTick s.timer }
  | dispatch {r : List (ℕ × ℕ) × Timer} : timerDispatch fuel s.timer = some r →
      Leads reactor fuel s .dispatch { s with
        timer := r.2
        queue := (waiting r.1 reactor).foldl (post digitalOutputMaxConcurrentSequence) s.queue }
  | step {output : ℕ} {queue : List ℕ} {out : DigitalOutput} {x : OutputState} :
      s.queue = output :: queue → s.outputs[output]? = some out →
      digitalOutputReactorHandler reactor output ⟨s.timer, s.pins, out⟩ = .ok x →
      Leads reactor fuel s .step
        ⟨x.timer, queue, x.pins, s.outputs.set output x.out⟩
  | arm {other count rep arg : ℕ} {r : ℕ × Timer} : other ≠ reactor → other ≠ reactorNullHandle →
      timerArm s.timer other count rep arg = some r →
      Leads reactor fuel s (.arm other count rep arg) { s with timer := r.2 }
  | cancel {inst : ℕ} :
      Leads reactor fuel s (.cancel inst) { s with timer := (timerCancel s.timer inst).2 }

theorem leads_of_outputsStep (h : outputsStep reactor fuel s e = some s') :
    Leads reactor fuel s e s' := by
  cases e with
  | set output value =>
    obtain ⟨out, x, hout, hx, rfl⟩ := onOne_eq_some (f := fun x => some (digitalOutputSet value x)) h
    obtain rfl := Option.some.inj hx
    exact .direct rfl rfl hout rfl
  | toggle output =>
    obtain ⟨out, x, hout, hx, rfl⟩ := onOne_eq_some (f := fun x => some (digitalOutputToggle x)) h
    obtain rfl := Option.some.inj hx
    exact .direct rfl rfl hout rfl
  | start output referenceTime sequence rep =>
    obtain ⟨out, x, hout, hx, rfl⟩ := onOne_eq_some (f := fun x =>
      (digitalOutputStart reactor output referenceTime sequence rep x).toOption) h
    exact .start hout (toOption_eq_some hx)
  | tick =>
    obtain rfl := Option.some.inj h
    exact .tick
  | dispatch =>
    obtain ⟨r, hr, rfl⟩ := Option.map_eq_some_iff.mp h
    exact .dispatch hr
  | step =>
    simp only [outputsStep] at h
    cases hqueue : s.queue with
    | nil =>
      rw [hqueue] at h
      cases h
    | cons output queue =>
      rw [hqueue] at h
      obtain ⟨out, x, hout, hx, rfl⟩ := onOne_eq_some h
      exact .step hqueue hout (toOption_eq_some hx)
  | arm other count rep arg =>
    simp only [outputsStep] at h
    split_ifs at h with hother
    obtain ⟨r, hr, rfl⟩ := Option.map_eq_some_iff.mp h
    exact .arm hother.1 hother.2 hr
  | cancel inst =>
    obtain rfl := Option.some.inj h
    exact .cancel

/-! ## What is left of a sequence -/

/-- The timers of the sequences do not repeat. -/
structure Tidy (reactor : ℕ) (t : Timer) : Prop where
  holds : t.Holds t.pending
  once : ∀ f ∈ t.pending, f.reactor = reactor → f.rep = 0

/-- No timer of this output is pending. -/
def NoTimer (reactor output : ℕ) (t : Timer) : Prop :=
  ∀ f ∈ t.pending, f.reactor = reactor → f.arg ≠ output

/-- Nothing is left of a sequence of this output. -/
def Quiet (reactor output : ℕ) (s : OutputsState) : Prop :=
  output ∉ s.queue ∧ NoTimer reactor output s.timer

theorem Tidy.served {A : TimerFuture → Prop} (h : Tidy reactor t) (hs : Timer.Served A t t')
    (hA : ∀ f, A f → f.reactor = reactor → f.rep = 0) :
    Tidy reactor t' ∧ ∀ o, NoTimer reactor o t → (∀ f, A f → f.reactor = reactor → f.arg ≠ o) →
      NoTimer reactor o t' := by
  obtain ⟨l', hl', hmem⟩ := hs.mem h.holds
  have hpending := hl'.pending_eq
  refine ⟨⟨hl'.holds_pending, fun f hf => ?_⟩, fun o ho hAo f hf => ?_⟩
  · exact (hmem f (hpending ▸ hf)).elim (h.once f) (hA f)
  · exact (hmem f (hpending ▸ hf)).elim (ho f) (hAo f)

theorem timerTick_tidy (h : Tidy reactor t) : Tidy reactor (timerTick t) ∧
    (timerTick t).pending = t.pending := by
  have hl := timerTick_holds h.holds
  exact ⟨⟨hl.holds_pending, hl.pending_eq ▸ h.once⟩, hl.pending_eq⟩

/-- A dispatch queues steps of pending timers only. -/
theorem Tidy.dispatch (h : Tidy reactor t) {r : List (ℕ × ℕ) × Timer}
    (hd : timerDispatch fuel t = some r) : Tidy reactor r.2 ∧
      ∀ o, NoTimer reactor o t → NoTimer reactor o r.2 ∧ o ∉ waiting r.1 reactor := by
  obtain ⟨l', hl', -, hdrain⟩ := timerDispatch_holds h.holds hd
  have hpending := hl'.pending_eq
  obtain ⟨-, honce⟩ := ringDrain_forall (P := fun f => f.reactor = reactor → f.rep = 0)
    (fun f hf hrep _ _ hreactor => absurd (hf hreactor) hrep) h.once hdrain
  refine ⟨⟨hl'.holds_pending, hpending ▸ honce⟩, fun o ho => ?_⟩
  obtain ⟨hnotified, hkept⟩ := ringDrain_forall
    (P := fun f => f.reactor = reactor → f.rep = 0 ∧ f.arg ≠ o)
    (fun f hf hrep _ _ hreactor => absurd (hf hreactor).1 hrep)
    (fun f hf hreactor => ⟨h.once f hf hreactor, ho f hf hreactor⟩) hdrain
  -- a step that is queued is that of a timer that was pending
  refine ⟨fun f hf hreactor => (hkept f (hpending ▸ hf) hreactor).2, fun hmem => ?_⟩
  obtain ⟨f, hf, heq⟩ := hnotified _ (mem_of_waiting hmem)
  obtain ⟨hreactor, harg⟩ := Prod.mk.inj heq
  exact (hf hreactor.symm).2 harg.symm

/-- **The step lemma**: an event that does not start a sequence leaves
nothing of one where nothing was left. -/
theorem Tidy.leads (hnull : reactor ≠ reactorNullHandle) (h : Tidy reactor s.timer)
    (hs : Leads reactor fuel s e s') : Tidy reactor s'.timer ∧
      ∀ o, Quiet reactor o s → (e.output? = some o → e.direct = true) → Quiet reactor o s' := by
  cases hs with
  | direct _ _ _ htimer =>
    have hserved := htimer ▸ cancelSequence_served ⟨s.timer, s.pins, _⟩
    obtain ⟨htidy, hkeep⟩ := h.served hserved (by simp)
    exact ⟨htidy, fun o ho _ => ⟨ho.1, hkeep o ho.2 (by simp)⟩⟩
  | start _ hx =>
    obtain ⟨htidy, hkeep⟩ := h.served (outputStart_served hnull hx) fun f hf _ => hf.2.2
    refine ⟨htidy, fun o ho he => ⟨ho.1, hkeep o ho.2 fun f hf _ heq => ?_⟩⟩
    cases he (by rw [OutputsEvent.output?, ← hf.2.1, heq])
  | tick =>
    obtain ⟨htidy, hpending⟩ := timerTick_tidy h
    refine ⟨htidy, fun o ho _ => ⟨ho.1, ?_⟩⟩
    intro f hf
    exact ho.2 f (hpending ▸ hf)
  | dispatch hr =>
    obtain ⟨htidy, hkeep⟩ := h.dispatch hr
    refine ⟨htidy, fun o ho _ => ⟨fun hmem => ?_, (hkeep o ho.2).1⟩⟩
    exact (mem_foldl_post hmem).elim ho.1 (hkeep o ho.2).2
  | step hqueue _ hx =>
    obtain ⟨htidy, hkeep⟩ := h.served (reactorHandler_served hnull hx) fun f hf _ => hf.2.2
    refine ⟨htidy, fun o ho _ => ?_⟩
    -- the step is of another output, whose timer alone is armed again
    rw [Quiet, hqueue, List.mem_cons, not_or] at ho
    exact ⟨ho.1.2, hkeep o ho.2 fun f hf _ heq => ho.1.1 (heq.symm.trans hf.2.1)⟩
  | @arm other _ _ _ _ hother hnone hr =>
    obtain ⟨htidy, hkeep⟩ := h.served (A := fun f => f.reactor = other)
      (Timer.Served.arm hr hnone fun _ => rfl)
      fun f hf hreactor => absurd (hf.symm.trans hreactor) hother
    exact ⟨htidy, fun o ho _ =>
      ⟨ho.1, hkeep o ho.2 fun f hf hreactor => absurd (hf.symm.trans hreactor) hother⟩⟩
  | cancel =>
    obtain ⟨htidy, hkeep⟩ := h.served (A := fun _ => False) (Timer.Served.cancel _) (by simp)
    exact ⟨htidy, fun o ho _ => ⟨ho.1, hkeep o ho.2 (by simp)⟩⟩

/-! ## Driving an output directly -/

/-- What is left of the sequence of an output is a timer that cancelling its
number takes: the number is not 0, which means none, the list is not full,
and no other timer has the number. -/
def Stoppable (reactor : ℕ) (s : OutputsState) (output : ℕ) : Prop :=
  output ∉ s.queue ∧
  (s.timer.pending.filter fun f => f.reactor = reactor ∧ f.arg = output).length ≤ 1 ∧
  ∀ f ∈ s.timer.pending.filter fun f => f.reactor = reactor ∧ f.arg = output,
    s.timer.pending.length < timerMaxCallback ∧ (s.outputs.getD output default).timer ≠ 0 ∧
      cancelled s.timer (s.outputs.getD output default).timer = some f

instance (reactor : ℕ) (s : OutputsState) (output : ℕ) : Decidable (Stoppable reactor s output) := by
  unfold Stoppable
  infer_instance

/-- An output that is driven directly can be stopped. -/
def StopsOwn (reactor : ℕ) (p : OutputsState × OutputsEvent) : Prop :=
  match p.2 with
  | .set output _ | .toggle output => Stoppable reactor p.1 output
  | _ => True

instance (reactor : ℕ) : DecidablePred (StopsOwn reactor)
  | (s, .set output _) => inferInstanceAs (Decidable (Stoppable reactor s output))
  | (s, .toggle output) => inferInstanceAs (Decidable (Stoppable reactor s output))
  | (_, .start _ _ _ _) | (_, .tick) | (_, .dispatch) | (_, .step) | (_, .arm _ _ _ _)
  | (_, .cancel _) => isTrue trivial

/-- The last call about the output drove it directly. -/
def DrivenDirectly (hist : List (OutputsState × OutputsEvent)) (output : ℕ) : Prop :=
  (lastWhere (fun p => p.2.output? = some output) hist).any (fun p => p.2.direct) = true

/-- **An output stays as it was driven**: no step changes the pin of an
output that was driven directly since its sequence was started. -/
def StaysAsDriven (reactor fuel : ℕ) (hist : List (OutputsState × OutputsEvent)) : Prop :=
  ∀ h₁ s h₂ output queue s', hist = h₁ ++ (s, .step) :: h₂ → s.queue = output :: queue →
    DrivenDirectly h₁ output → outputsStep reactor fuel s .step = some s' →
      pinLevel s'.pins (s.outputs.getD output default).pin =
        pinLevel s.pins (s.outputs.getD output default).pin

theorem Stoppable.noTimer (h : Tidy reactor s.timer) (hstop : Stoppable reactor s output)
    {out : DigitalOutput} (hout : s.outputs[output]? = some out) :
    NoTimer reactor output (cancelSequence ⟨s.timer, s.pins, out⟩).timer := by
  obtain ⟨-, hone, hown⟩ := hstop
  have hget : s.outputs.getD output default = out := by
    rw [List.getD_eq_getElem?_getD, hout, Option.getD_some]
  rw [hget] at hown
  have hnone : (cancelSequence ⟨s.timer, s.pins, out⟩).timer.pending.filter
      (fun f => f.reactor = reactor ∧ f.arg = output) = [] := by
    cases hleft : s.timer.pending.filter fun f => f.reactor = reactor ∧ f.arg = output with
    | nil =>
      obtain ⟨-, l', hl', -, hq⟩ := cancelSequence_served ⟨s.timer, s.pins, out⟩ _ h.holds
      rw [hl'.pending_eq]
      exact List.sublist_nil.mp (hleft ▸ hq _ (by simp))
    | cons f l =>
      obtain ⟨hroom, hnumber, hcancelled⟩ := hown f (by rw [hleft]; simp)
      unfold cancelSequence
      rw [if_pos hnumber]
      refine filter_timerCancel h.holds hroom hone fun g hg => ?_
      rw [hcancelled, Option.any_some]
      exact (List.mem_filter.mp (hleft ▸ List.mem_cons_self : f ∈ s.timer.pending.filter _)).2
  intro f hf hreactor harg
  have := List.filter_eq_nil_iff.mp hnone f hf
  simp [hreactor, harg] at this

/-- Driving an output directly leaves nothing of its sequence. -/
theorem Quiet.of_direct (h : Tidy reactor s.timer) (hs : Leads reactor fuel s e s')
    (hstop : StopsOwn reactor (s, e)) {o : ℕ} (ho : e.output? = some o) (hdirect : e.direct = true) :
    Quiet reactor o s' := by
  have hstoppable : Stoppable reactor s o := by
    cases e with
    | set output value => exact Option.some.inj ho ▸ hstop
    | toggle output => exact Option.some.inj ho ▸ hstop
    | start | tick | dispatch | step | arm | cancel => cases hdirect
  cases hs with
  | direct he _ hout htimer =>
    obtain rfl := Option.some.inj (he.symm.trans ho)
    have hnone := hstoppable.noTimer h hout
    exact ⟨hstoppable.1, htimer ▸ hnone⟩
  | start | tick | dispatch | step | arm | cancel => cases hdirect

theorem drivenDirectly_concat {o : ℕ} : DrivenDirectly (hist ++ [(s, e)]) o ↔
    if e.output? = some o then e.direct = true else DrivenDirectly hist o := by
  unfold DrivenDirectly
  rw [lastWhere_concat]
  by_cases he : e.output? = some o
  · simp [he]
  · simp [he]

theorem outputsInit_tidy (pins : List ℕ) (counter currentInstance : ℕ) :
    Tidy reactor (outputsInit pins counter currentInstance).timer := by
  have hl : (outputsInit pins counter currentInstance).timer.Holds [] :=
    timerInit_holds.counters counter currentInstance
  exact ⟨hl.holds_pending, by simp [hl.pending_eq]⟩

/-- The run lemma. -/
theorem quiet_of_run (hnull : reactor ≠ reactorNullHandle)
    (hr : Run (outputsStep reactor fuel) (outputsInit pins counter currentInstance) hist s)
    (hstops : ∀ p ∈ hist, StopsOwn reactor p) :
    Tidy reactor s.timer ∧ ∀ o, DrivenDirectly hist o → Quiet reactor o s := by
  induction hr with
  | nil => exact ⟨outputsInit_tidy pins counter currentInstance, fun o ho => by cases ho⟩
  | @snoc hist s s' e _ hs ih =>
    obtain ⟨htidy, hquiet⟩ := ih fun p hp => hstops p (by simp [hp])
    have hleads := leads_of_outputsStep hs
    obtain ⟨htidy', hkeep⟩ := htidy.leads hnull hleads
    refine ⟨htidy', fun o ho => ?_⟩
    rw [drivenDirectly_concat] at ho
    by_cases he : e.output? = some o
    · rw [if_pos he] at ho
      exact Quiet.of_direct htidy hleads (hstops (s, e) (by simp)) he ho
    · rw [if_neg he] at ho
      exact hkeep o (hquiet o ho) fun heq => absurd heq he

/-- **When driving an output stops its sequence**: in every run in which an
output is only driven directly when none of its steps is queued, and what
is left of its sequence is a timer that its number finds. -/
theorem stays_as_driven (hnull : reactor ≠ reactorNullHandle)
    (hr : Run (outputsStep reactor fuel) (outputsInit pins counter currentInstance) hist s)
    (hstops : ∀ p ∈ hist, StopsOwn reactor p) : StaysAsDriven reactor fuel hist := by
  rintro h₁ s₁ h₂ output queue s₂ rfl hqueue hdriven -
  -- there is no such step
  have hrun := (hr.step_of_mem).1
  have hquiet := (quiet_of_run hnull hrun fun p hp => hstops p (by simp [hp])).2 output hdriven
  exact absurd (by rw [hqueue]; simp) hquiet.1

/-- An output that is on for 2 ms and off for 2 ms, over and over. -/
def blinking : OutputsEvent := .start 0 2 ['+', '-'] true

/-- An output is stopped while its timer is pending. -/
theorem stays_as_driven_pending : ∃ hist s,
    Run (outputsStep 11 8) (outputsInit [16] 0 41) hist s ∧
      hist.map Prod.snd = [blinking, .tick, .tick, .dispatch, .step, .tick, .set 0 true, .tick, .tick,
        .dispatch] ∧ StaysAsDriven 11 8 hist := by
  have heval : (runEvents (guarded (fun p => decide (StopsOwn 11 p)) (outputsStep 11 8))
      [blinking, .tick, .tick, .dispatch, .step, .tick, .set 0 true, .tick, .tick, .dispatch]
      (outputsInit [16] 0 41)).isSome = true := by decide +kernel
  obtain ⟨s, hs⟩ := Option.isSome_iff_exists.mp heval
  obtain ⟨hist, hr, hevents⟩ := exists_run_of_runEvents hs
  obtain ⟨hr, hstops⟩ := hr.of_guarded
  exact ⟨hist, s, hr, hevents,
    stays_as_driven (by decide) hr fun p hp => of_decide_eq_true (hstops p hp)⟩

/-- A step that changes the pin of an output that was driven directly. -/
theorem not_staysAsDriven (es : List OutputsEvent) {s₀ : OutputsState}
    (hdirect : (lastWhere (fun e => e.output? = some 0) es).any OutputsEvent.direct = true)
    (heval : (runEvents (outputsStep 11 8) es s₀).any (fun s => decide (s.queue = [0]) &&
      (outputsStep 11 8 s .step).any fun s' =>
        pinLevel s'.pins (s.outputs.getD 0 default).pin !=
          pinLevel s.pins (s.outputs.getD 0 default).pin) = true) :
    ∃ hist s, Run (outputsStep 11 8) s₀ hist s ∧ ¬ StaysAsDriven 11 8 hist := by
  obtain ⟨s, hs, hchanges⟩ := (Option.any_eq_true _ _).mp heval
  rw [Bool.and_eq_true, decide_eq_true_iff] at hchanges
  obtain ⟨hqueue, hstep⟩ := hchanges
  obtain ⟨s', hs', hne⟩ := (Option.any_eq_true _ _).mp hstep
  obtain ⟨hist, hr, rfl⟩ := exists_run_of_runEvents hs
  refine ⟨_, s', hr.snoc hs', fun hstays => ?_⟩
  have hdriven : DrivenDirectly hist 0 := by
    rw [lastWhere_map, Option.any_map] at hdirect
    exact hdirect
  exact absurd (hstays hist s [] 0 [] s' rfl hqueue hdriven hs') (by simpa using hne)

/-- **A step that is queued** is not taken back: an output that is set while
its next step waits goes off again. -/
theorem stays_as_driven_fails_queued : ∃ hist s,
    Run (outputsStep 11 8) (outputsInit [16] 0 41) hist s ∧ ¬ StaysAsDriven 11 8 hist :=
  not_staysAsDriven [blinking, .tick, .tick, .dispatch, .set 0 true] (by decide)
    (by decide +kernel)

/-- **The first timer of all** has the number 0, which means none: its
sequence is never stopped. -/
theorem stays_as_driven_fails_firstNumber : ∃ hist s,
    Run (outputsStep 11 8) (outputsInit [16] 0 timerInvalidInstance) hist s ∧
      ¬ StaysAsDriven 11 8 hist :=
  not_staysAsDriven [blinking, .set 0 true, .tick, .tick, .dispatch] (by decide)
    (by decide +kernel)

/-! ## Steps that are lost -/

/-- The steps that are queued by a dispatch. -/
def stepsExpired (reactor fuel : ℕ) (p : OutputsState × OutputsEvent) : List ℕ :=
  match p.2 with
  | .dispatch => ((timerDispatch fuel p.1.timer).map fun r => waiting r.1 reactor).getD []
  | _ => []

/-- The step that is taken. -/
def stepsHandled (p : OutputsState × OutputsEvent) : List ℕ :=
  match p.2 with
  | .step => p.1.queue.take 1
  | _ => []

/-- **No step is lost**: every timer of a sequence that expires has a call
of the handler, in the order in which they expire, or is in the queue for
it. The step of an output that repeats arms the timer of the next one. -/
structure NoStepLost (reactor fuel : ℕ) (hist : List (OutputsState × OutputsEvent))
    (s : OutputsState) : Prop where
  calls : hist.flatMap (stepsExpired reactor fuel) = hist.flatMap stepsHandled ++ s.queue
  rearms : ∀ h₁ s₁ h₂ output queue s₂, hist = h₁ ++ (s₁, .step) :: h₂ →
    s₁.queue = output :: queue → (s₁.outputs.getD output default).rep = true →
    outputsStep reactor fuel s₁ .step = some s₂ →
    ∃ f ∈ s₂.timer.pending, f.reactor = reactor ∧ f.arg = output

/-- There is room in the queue for the steps of a dispatch. -/
def FitsQueue (reactor fuel : ℕ) (p : OutputsState × OutputsEvent) : Prop :=
  p.1.queue.length + (stepsExpired reactor fuel p).length ≤ digitalOutputMaxConcurrentSequence

instance (reactor fuel : ℕ) : DecidablePred (FitsQueue reactor fuel) := fun p =>
  inferInstanceAs (Decidable (p.1.queue.length + (stepsExpired reactor fuel p).length ≤ _))

theorem stepsExpired_dispatch {r : List (ℕ × ℕ) × Timer} (hr : timerDispatch fuel s.timer = some r) :
    stepsExpired reactor fuel (s, .dispatch) = waiting r.1 reactor := by
  simp only [stepsExpired, hr, Option.map_some, Option.getD_some]

/-- The queue after an event that fits. -/
theorem queue_of_fits (hs : Leads reactor fuel s e s') (hfits : FitsQueue reactor fuel (s, e)) :
    s.queue ++ stepsExpired reactor fuel (s, e) = stepsHandled (s, e) ++ s'.queue := by
  cases hs with
  | direct _ hdirect _ _ =>
    cases e with
    | set | toggle => exact List.append_nil _
    | start | tick | dispatch | step | arm | cancel => cases hdirect
  | dispatch hr =>
    unfold FitsQueue at hfits
    rw [stepsExpired_dispatch hr] at hfits ⊢
    exact (foldl_post_of_le hfits).symm
  | step hqueue _ _ =>
    show s.queue ++ [] = s.queue.take 1 ++ _
    rw [hqueue, List.append_nil]
    rfl
  | start | tick | arm | cancel => exact List.append_nil _

/-- The queue after any event, and how many steps were lost. -/
theorem queue_length (hs : Leads reactor fuel s e s')
    (hqueue : s.queue.length ≤ digitalOutputMaxConcurrentSequence) :
    s'.queue.length ≤ digitalOutputMaxConcurrentSequence ∧
      (stepsHandled (s, e)).length + s'.queue.length ≤
        s.queue.length + (stepsExpired reactor fuel (s, e)).length ∧
      (¬ FitsQueue reactor fuel (s, e) → (stepsHandled (s, e)).length + s'.queue.length <
        s.queue.length + (stepsExpired reactor fuel (s, e)).length) := by
  by_cases hfits : FitsQueue reactor fuel (s, e)
  · have hlen := congrArg List.length (queue_of_fits hs hfits)
    rw [List.length_append, List.length_append] at hlen
    unfold FitsQueue at hfits
    exact ⟨by dsimp only at hfits; omega, hlen.ge, fun h => absurd hfits h⟩
  · have hmany : digitalOutputMaxConcurrentSequence <
        s.queue.length + (stepsExpired reactor fuel (s, e)).length := Nat.lt_of_not_le hfits
    cases hs with
    | @dispatch r hr =>
      rw [stepsExpired_dispatch hr] at hmany ⊢
      have hlen : ((waiting r.1 reactor).foldl (post digitalOutputMaxConcurrentSequence)
          s.queue).length ≤ digitalOutputMaxConcurrentSequence :=
        foldl_post_length_le (by decide) hqueue
      have hlost := hlen.trans_lt hmany
      exact ⟨hlen, (Nat.zero_add _).trans_le hlost.le, fun _ => (Nat.zero_add _).trans_lt hlost⟩
    | direct _ hdirect _ _ =>
      cases e with
      | set | toggle => exact absurd hmany (by simpa [stepsExpired] using hqueue)
      | start | tick | dispatch | step | arm | cancel => cases hdirect
    | start | tick | step | arm | cancel =>
      exact absurd hmany (by simpa [stepsExpired] using hqueue)

/-- The step of an output that repeats arms a timer. -/
theorem rearms_of_step (hnull : reactor ≠ reactorNullHandle) (h : Tidy reactor s.timer)
    {queue : List ℕ} (hqueue : s.queue = output :: queue)
    (hrep : (s.outputs.getD output default).rep = true) (hs : Leads reactor fuel s .step s') :
    ∃ f ∈ s'.timer.pending, f.reactor = reactor ∧ f.arg = output := by
  cases hs with
  | direct _ hdirect _ _ => cases hdirect
  | @step output' queue' out x hqueue' hout hx =>
    rw [hqueue, List.cons.injEq] at hqueue'
    obtain ⟨rfl, rfl⟩ := hqueue'
    rw [List.getD_eq_getElem?_getD, hout, Option.getD_some] at hrep
    obtain ⟨⟨-, htimer⟩, -⟩ := reactorHandler_command hx
    rw [show (command out).delay = _ from if_neg (by simp [hrep])] at htimer
    obtain ⟨-, -, hpending⟩ := pending_of_timerArm h.holds hnull htimer
    exact ⟨_, hpending ▸ mem_armInsert.mpr (Or.inl rfl), rfl, rfl⟩

theorem tidy_of_run (hnull : reactor ≠ reactorNullHandle)
    (hr : Run (outputsStep reactor fuel) (outputsInit pins counter currentInstance) hist s) :
    Tidy reactor s.timer :=
  hr.invariant (I := fun s => Tidy reactor s.timer) (outputsInit_tidy pins counter currentInstance)
    fun _ _ _ htidy hs => (htidy.leads hnull (leads_of_outputsStep hs)).1

/-- The run lemma: the steps that are taken and the steps that wait are at
most those that expired, and are less once one did not fit. -/
theorem queue_of_run
    (hr : Run (outputsStep reactor fuel) (outputsInit pins counter currentInstance) hist s) :
    s.queue.length ≤ digitalOutputMaxConcurrentSequence ∧
      (hist.flatMap stepsHandled).length + s.queue.length ≤
        (hist.flatMap (stepsExpired reactor fuel)).length ∧
      ((∃ p ∈ hist, ¬ FitsQueue reactor fuel p) →
        (hist.flatMap stepsHandled).length + s.queue.length <
          (hist.flatMap (stepsExpired reactor fuel)).length) := by
  induction hr with
  | nil => exact ⟨Nat.zero_le _, Nat.le_refl _, by simp⟩
  | @snoc hist s s' e _ hs ih =>
    obtain ⟨hqueue, hle, hlost⟩ := ih
    obtain ⟨hqueue', hle', hlost'⟩ := queue_length (leads_of_outputsStep hs) hqueue
    simp only [List.flatMap_append, List.flatMap_singleton, List.length_append]
    refine ⟨hqueue', by omega, ?_⟩
    rintro ⟨p, hp, hfits⟩
    rcases List.mem_append.mp hp with hp | hp
    · have := hlost ⟨p, hp, hfits⟩
      omega
    · have := hlost' (List.mem_singleton.mp hp ▸ hfits)
      omega

/-- The steps are taken in order as long as they fit. -/
theorem queue_of_run_fits
    (hr : Run (outputsStep reactor fuel) (outputsInit pins counter currentInstance) hist s)
    (hfits : ∀ p ∈ hist, FitsQueue reactor fuel p) :
    hist.flatMap (stepsExpired reactor fuel) = hist.flatMap stepsHandled ++ s.queue := by
  induction hr with
  | nil => rfl
  | @snoc hist s s' e _ hs ih =>
    have hlast := queue_of_fits (leads_of_outputsStep hs) (hfits (s, e) (by simp))
    rw [List.flatMap_append, List.flatMap_append, List.flatMap_singleton, List.flatMap_singleton,
      ih fun p hp => hfits p (by simp [hp]), List.append_assoc, List.append_assoc, hlast]

theorem NoStepLost.fits (h : NoStepLost reactor fuel hist s)
    (hr : Run (outputsStep reactor fuel) (outputsInit pins counter currentInstance) hist s) :
    ∀ p ∈ hist, FitsQueue reactor fuel p := by
  intro p hp
  by_contra hfits
  have hlost := (queue_of_run hr).2.2 ⟨p, hp, hfits⟩
  rw [h.calls, List.length_append] at hlost
  exact lt_irrefl _ hlost

/-- **When no step is lost**: a run takes every step whose timer expired if
and only if the steps that a dispatch queues always fit in the queue, with
those that wait in it. -/
theorem no_step_lost_iff (hnull : reactor ≠ reactorNullHandle)
    (hr : Run (outputsStep reactor fuel) (outputsInit pins counter currentInstance) hist s) :
    NoStepLost reactor fuel hist s ↔ ∀ p ∈ hist, FitsQueue reactor fuel p := by
  refine ⟨fun h => h.fits hr, fun hfits => ⟨queue_of_run_fits hr hfits, ?_⟩⟩
  rintro h₁ s₁ h₂ output queue s₂ rfl hqueue hrep hs
  have htidy := tidy_of_run hnull (hr.step_of_mem).1
  exact rearms_of_step hnull htidy hqueue hrep (leads_of_outputsStep hs)

/-- So many outputs, which all start to blink at once. -/
def allBlinking (n : ℕ) : List OutputsEvent :=
  (List.range n).map fun i => .start i 2 ['+', '-'] true

/-- Eight outputs can blink together. -/
theorem no_step_lost_eight : ∃ hist s,
    Run (outputsStep 11 16) (outputsInit (List.range 8) 0 41) hist s ∧
      hist.map Prod.snd = allBlinking 8 ++ [.tick, .tick, .dispatch] ∧ s.queue = List.range 8 ∧
      NoStepLost 11 16 hist s := by
  have heval : (runEvents (guarded (fun p => decide (FitsQueue 11 16 p)) (outputsStep 11 16))
      (allBlinking 8 ++ [.tick, .tick, .dispatch]) (outputsInit (List.range 8) 0 41)).any
        (fun s => decide (s.queue = List.range 8)) = true := by decide +kernel
  obtain ⟨s, hs, hqueue⟩ := (Option.any_eq_true _ _).mp heval
  obtain ⟨hist, hr, hevents⟩ := exists_run_of_runEvents hs
  obtain ⟨hr, hfits⟩ := hr.of_guarded
  exact ⟨hist, s, hr, hevents, of_decide_eq_true hqueue,
    (no_step_lost_iff (by decide) hr).mpr fun p hp => of_decide_eq_true (hfits p hp)⟩

/-- **The ninth output** takes the place of the first in the queue, and the
first has neither a step nor a timer left. -/
theorem no_step_lost_fails_nine : ∃ hist s,
    Run (outputsStep 11 16) (outputsInit (List.range 9) 0 41) hist s ∧
      hist.map Prod.snd = allBlinking 9 ++ [.tick, .tick, .dispatch] ∧
      s.timer.pending = [] ∧ 0 ∉ s.queue ∧ ¬ NoStepLost 11 16 hist s := by
  have heval : (runEvents (outputsStep 11 16) (allBlinking 9 ++ [.tick, .tick])
      (outputsInit (List.range 9) 0 41)).any (fun s =>
        !decide (FitsQueue 11 16 (s, .dispatch)) && (outputsStep 11 16 s .dispatch).any fun s' =>
          decide (s'.timer.pending = [] ∧ 0 ∉ s'.queue)) = true := by
    decide +kernel
  obtain ⟨s, hs, heval⟩ := (Option.any_eq_true _ _).mp heval
  rw [Bool.and_eq_true, Bool.not_eq_true', decide_eq_false_iff_not] at heval
  obtain ⟨hfits, hstep⟩ := heval
  obtain ⟨s', hs', hleft⟩ := (Option.any_eq_true _ _).mp hstep
  obtain ⟨hpending, hqueue⟩ := of_decide_eq_true hleft
  obtain ⟨hist, hr, hevents⟩ := exists_run_of_runEvents hs
  refine ⟨_, s', hr.snoc hs', ?_, hpending, hqueue, fun h => ?_⟩
  · rw [List.map_append, hevents, List.append_assoc]
    rfl
  · exact hfits (h.fits (hr.snoc hs') _ (by simp))

end Asx

end CncPneumatics
