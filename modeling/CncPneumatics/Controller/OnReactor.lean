import CncPneumatics.Asx.ReactorUrgent
import CncPneumatics.Controller.Handlers
import CncPneumatics.Controller.Posts
/-!
# The controller on its reactor

The controller as a client of the reactor, with the seventeen handlers that
its start has registered. The timers and the two-wire interface interrupt
between its steps: what a handler does to the state, with all the timers
that it arms, is one step, and each of its notifications is another. One
thing can be told apart from a mailroom: the handler of the command and
the interrupt both notify that of the errors, which has room for one; but
it does not look at the error.
-/

namespace CncPneumatics

open Asx

namespace Controller

/-! ## The client -/

/-- The interrupts: of the timer, and of the two-wire interface. -/
inductive Interrupt where
  | tick
  | twi (status : MasterStatus)
deriving DecidableEq

/-- A state, and the messages that it was left with. -/
def posted (s : State) : State × Mailroom ℕ := (withMail [] s, s.mail)

/-- The controller. What a handler or an interrupt notifies is what it
leaves in an empty mailroom; the timers and the inputs may notify one
handler more than once. -/
def client (fuel : ℕ) : Client State Interrupt Surroundings ℕ where
  patient _ := false
  interrupt s
    | .tick => some ({ s with timer := timerTick s.timer }, [(reactTimer, 0)])
    | .twi status =>
      if s.transfer.locked then some (posted (twiInterrupt (withMail [] s) status)) else none
  handler s handle arg around :=
    if handle = reactTimer then
      (timerDispatch fuel s.timer).map fun r => ({ s with timer := r.2 }, r.1)
    else if handle = reactSample then
      let r := digitalInputSample (fun pin => decide (pin ∈ around.high)) s.inputs
      some ({ s with inputs := r.1 }, r.2)
    else ((handler fuel (withMail [] s) handle arg around).bind Except.toOption).map posted

/-- `REACTOR_MAX_HANDLERS`. -/
def reactorMaxHandlers : ℕ := 32

/-- The priority and the size of the queue of each handler, in the order in
which they are registered. -/
def registrations : List (ℕ × ℕ) :=
  [(180, 1), (130, 2), (130, 1), (80, 1), (80, 1), (80, 1), (80, 1), (80, 1), (30, 1), (30, 1),
   (190, 1), (180, 8), (90, 1), (170, 1), (170, 1), (130, 1), (130, 1)]

/-- What the client sees as an event of the controller. -/
def eventOf : ClientEvent Interrupt Surroundings → Event
  | .interrupt .tick => .tick
  | .interrupt (.twi status) => .twi status
  | .run handle around => .run handle around

/-- What a handler looks at in its message: that of the errors at nothing. -/
def look (handle arg : ℕ) : ℕ := if handle = reactI2cError then 0 else arg

variable {fuel handle arg : ℕ} {s : State} {m : Mailroom ℕ} {around : Surroundings}
  {r : Except State State}

/-- **The other handlers**: all but that of the command notify nobody. -/
theorem handler_eq (h : Handles fuel s arg around handle r)
    (hne : handle ∉ [reactTimer, reactSample]) :
    ∃ f, (∀ s, handler fuel s handle arg around = some (f s)) ∧
      (Blind f ∨ handle = reactI2cCommand ∧ f = fun s => onSendI2cCommand s around.busy) := by
  cases h with
  | timer | sample => exact absurd (by decide) hne
  | i2cCommand => exact ⟨_, fun _ => rfl, .inr ⟨rfl, rfl⟩⟩
  | beep => exact ⟨_, fun _ => rfl, .inl (onSound_blind _)⟩
  | i2cRead => exact ⟨_, fun _ => rfl, .inl (onI2cRead_blind arg)⟩
  | sounder => exact ⟨_, fun _ => rfl, .inl (onSounder_blind arg)⟩
  | i2cError => exact ⟨_, fun _ => rfl, .inl onI2cError_blind⟩
  | inputChange => exact ⟨_, fun _ => rfl, .inl (onInputChange_blind arg)⟩
  | doorSensor => exact ⟨_, fun _ => rfl, .inl (onDoorSensorChange_blind arg)⟩
  | doorCmd => exact ⟨_, fun _ => rfl, .inl (processEvent_blind _)⟩
  | cmdTimeout => exact ⟨_, fun _ => rfl, .inl (processEvent_blind _)⟩
  | graceOver => exact ⟨_, fun _ => rfl, .inl fun _ => .ok fun _ => rfl⟩
  | digitalOutput => exact ⟨_, fun _ => rfl, .inl (onOutput_blind _ _)⟩
  | piezzo => exact ⟨_, fun _ => rfl, .inl (onSound_blind _)⟩
  | toneStop => exact ⟨_, fun _ => rfl, .inl (onSound_blind _)⟩

/-- A handler of the client, in its three kinds. -/
theorem client_handler_cases {t' : State × Mailroom ℕ}
    (h : (client fuel).handler s handle arg around = some t') :
    handle = reactTimer ∧
      (∃ d, timerDispatch fuel s.timer = some d ∧ t' = ({ s with timer := d.2 }, d.1)) ∨
    handle = reactSample ∧
      t' = ({ s with inputs := (onSample s around.high).inputs },
        (digitalInputSample (fun pin => decide (pin ∈ around.high)) s.inputs).2) ∨
    ∃ f s', (∀ s, handler fuel s handle arg around = some (f s)) ∧
      (Blind f ∨ handle = reactI2cCommand ∧ f = fun s => onSendI2cCommand s around.busy) ∧
      f (withMail [] s) = .ok s' ∧ t' = posted s' := by
  simp only [client] at h
  split_ifs at h with htimer hsample
  · obtain ⟨d, hd, rfl⟩ := Option.map_eq_some_iff.mp h
    exact .inl ⟨htimer, d, hd, rfl⟩
  · obtain rfl := Option.some.inj h
    exact .inr (.inl ⟨hsample, rfl⟩)
  · obtain ⟨s', hs', rfl⟩ := Option.map_eq_some_iff.mp h
    obtain ⟨r, hr, hok⟩ := Option.bind_eq_some_iff.mp hs'
    obtain ⟨f, hf, hkind⟩ := handler_eq (handles_of_handler hr) (by simp [htimer, hsample])
    rw [hf, Option.some.injEq] at hr
    exact .inr (.inr ⟨f, s', hf, hkind, hr.trans (toOption_eq_some hok), rfl⟩)

/-- **A handler of the client**, with messages of its own. -/
theorem handler_withMail {t' : State × Mailroom ℕ}
    (h : (client fuel).handler s handle arg around = some t') :
    (handler fuel (withMail m s) handle arg around).bind Except.toOption =
      some (withMail (depositAll queueSize m t'.2) t'.1) := by
  obtain ⟨rfl, d, hd, rfl⟩ | ⟨rfl, rfl⟩ | ⟨f, s', hf, hkind, hs', rfl⟩ := client_handler_cases h
  · show (onTimer fuel (withMail m s)).bind _ = _
    rw [onTimer, show (withMail m s).timer = s.timer from rfl, hd]
    rfl
  · rfl
  · have hposts : Posts f := by
      rcases hkind with hblind | ⟨-, rfl⟩
      · exact hblind.posts
      · exact onSendI2cCommand_posts _
    rw [hf, hposts m s, hs']
    rfl

/-- **A step of the client is a step of the controller.** -/
theorem step_of_client {t t' : State × Mailroom ℕ} {e : ClientEvent Interrupt Surroundings}
    (h : (client fuel).step queueSize t e = some t') :
    step fuel (withMail t.2 t.1) (eventOf e) = some (withMail t'.2 t'.1) := by
  cases e with
  | interrupt i =>
    obtain ⟨p, hp, rfl⟩ := Option.map_eq_some_iff.mp (show
      ((client fuel).interrupt t.1 i).map _ = some t' from h)
    cases i with
    | tick =>
      obtain rfl := Option.some.inj hp
      rfl
    | twi status =>
      simp only [client] at hp
      split_ifs at hp with hlocked
      obtain rfl := Option.some.inj hp
      show (if t.1.transfer.locked = true then some (.ok (twiInterrupt (withMail t.2 t.1) status))
        else none).bind Except.toOption = _
      rw [if_pos hlocked, twiInterrupt_posts]
      rfl
  | run handle around =>
    obtain ⟨d, hcollect, h⟩ := Option.bind_eq_some_iff.mp h
    obtain ⟨p, hp, rfl⟩ := Option.map_eq_some_iff.mp h
    show ((collect t.2 handle).bind fun r =>
      handler fuel (withMail r.2 t.1) handle r.1 around).bind Except.toOption = _
    rw [hcollect, Option.bind_some]
    exact handler_withMail hp

theorem runEvents_of_client {es : List (ClientEvent Interrupt Surroundings)}
    {t t' : State × Mailroom ℕ}
    (h : runEvents ((client fuel).step queueSize) es t = some t') :
    runEvents (step fuel) (es.map eventOf) (withMail t.2 t.1) = some (withMail t'.2 t'.1) :=
  runEvents_rename (f := fun t : State × Mailroom ℕ => withMail t.2 t.1) (g := eventOf)
    (fun _ _ _ => step_of_client) h

/-! ## On the reactor -/

/-- **The interrupts** notify the handlers of the timers, of the replies and
of the errors only. -/
theorem interrupt_notices {i : Interrupt} {p : State × Mailroom ℕ}
    (h : (client fuel).interrupt s i = some p) :
    ∀ q ∈ p.2, q.1 ∈ [reactTimer, reactI2cRead] ∨ q.1 = reactI2cError := by
  cases i with
  | tick =>
    obtain rfl := Option.some.inj h
    intro q hq
    rw [List.mem_singleton.mp hq]
    exact .inl (by decide)
  | twi status =>
    simp only [client] at h
    split_ifs at h
    obtain rfl := Option.some.inj h
    obtain ⟨transfer, mail, heq, hmail⟩ := twiInterrupt_spec (withMail [] s) status
    rw [posted, heq]
    intro q hq
    by_contra hne
    simp only [List.mem_cons, List.not_mem_nil, or_false, not_or] at hne
    have hnone := hmail q.1 hne.2 hne.1.2
    rw [show (withMail [] s).mail = [] from rfl, waiting_nil, waiting_eq_nil_iff] at hnone
    exact hnone q hq rfl

/-- **The handlers** notify none of the timers nor of the replies. -/
theorem handler_notices (hs : Orderly (withMail m s)) {t' : State × Mailroom ℕ}
    (h : (client fuel).handler s handle arg around = some t') :
    ∀ k ∈ [reactTimer, reactI2cRead], waiting t'.2 k = [] := by
  intro k hk
  have hs₀ : Orderly (withMail [] s) :=
    ⟨hs.wired, hs.timers, fun _ ha => absurd ha List.not_mem_nil, hs.inputs⟩
  have htimed : k ∉ timedHandles := by revert k; decide
  have hinput : k ∉ inputTable.map Prod.snd := by revert k; decide
  obtain ⟨rfl, d, hd, rfl⟩ | ⟨rfl, rfl⟩ | ⟨f, s', -, hkind, hs', rfl⟩ := client_handler_cases h
  · exact waiting_eq_nil_of_depositAll (hs₀.dispatch_waiting hd htimed)
  · exact waiting_eq_nil_of_depositAll (hs₀.sample_waiting around.high hinput)
  · rcases hkind with hblind | ⟨rfl, rfl⟩
    · show waiting s'.mail k = []
      rw [hblind.mail hs']
      rfl
    · have hkeeps := onSendI2cCommand_keeps hs₀.wired around.busy
      rw [show onSendI2cCommand (withMail [] s) around.busy = .ok s' from hs'] at hkeeps
      exact hkeeps.waiting k (by revert k; decide)

/-- The controller when `main` calls `reactor_run`. -/
def onReactor (qsort : List PriorityItem → List PriorityItem) :
    Option (OnReactor State (reactorMaskWidth reactorMaxHandlers) ℕ) :=
  (registerAll reactorMaxHandlers registrations).map (OnReactor.start qsort start)

theorem withMail_start : withMail [] start = start := by
  have hnil : start.mail = [] := by decide +kernel
  rw [← hnil]
  rfl

/-- **Interrupts and handlers keep apart**, but for the errors. -/
theorem client_keepsApart : OnReactor.KeepsApart (client fuel) look
    (fun t => Orderly (withMail t.2 t.1)) [reactTimer, reactI2cRead] where
  looks app handle data data' around h := by
    by_cases herror : handle = reactI2cError
    · subst herror
      rfl
    · rw [look, look, if_neg herror, if_neg herror] at h
      rw [h]
  interrupt _ _ _ _ _ hint q hq := by
    refine (interrupt_notices hint q hq).imp_right fun herror _ _ => ?_
    rw [herror, look, look, if_pos rfl, if_pos rfl]
  handler _ _ _ _ _ ht h := handler_notices ht h

variable {qsort : List PriorityItem → List PriorityItem}
  {s₀ s₁ s₂ : OnReactor State (reactorMaskWidth reactorMaxHandlers) ℕ}
  {h h₁ h₂ : List (OnReactor State (reactorMaskWidth reactorMaxHandlers) ℕ ×
    OnReactorEvent Interrupt Surroundings)}

/-- The reactor with which `main` begins. -/
theorem onReactor_begins (hqsort : IsQsort qsort) (hstart : onReactor qsort = some s₀) :
    s₀.Holds queueSize ∧ s₀.Shows queueSize look (start, []) ∧ s₀.due = [] ∧
      s₀.reactor.Top reactTimer := by
  obtain ⟨reactor, hreg, rfl⟩ := Option.map_eq_some_iff.mp hstart
  have hbegins : (OnReactor.start qsort start reactor).Holds queueSize ∧
      (OnReactor.start qsort start reactor).Shows queueSize look (start, []) :=
    OnReactor.start_shows (by decide) hqsort hreg (by decide) (by decide) (by decide) start
  -- the handler of the timers has the highest priority
  exact ⟨hbegins.1, hbegins.2, rfl,
    OnReactor.start_top (by decide) hqsort hreg (by decide) (by decide) (by decide) (by decide) start⟩

/-- What the client does from the start. -/
theorem runEvents_start {es : List (ClientEvent Interrupt Surroundings)} {t : State × Mailroom ℕ}
    (h : runEvents ((client fuel).step queueSize) es (start, []) = some t) :
    runEvents (step fuel) (es.map eventOf) start = some (withMail t.2 t.1) := by
  have hsteps := runEvents_of_client h
  rwa [withMail_start] at hsteps

/-- **The controller on its reactor is the controller.** Whatever `qsort`
does with equal priorities, and between whichever steps interrupts come,
also between two notifications of a handler, its state is one that it
reaches with a mailroom, by the same interrupts and the same handlers in
the same order; and what waits there is what is in the queues, with what
the running handler has yet to notify. Of the errors there are as many,
but which they are may differ. -/
theorem controller_runs_on_reactor (hqsort : IsQsort qsort) (hstart : onReactor qsort = some s₀)
    (hrun : Run (OnReactor.step (client fuel)) s₀ h s₁) :
    ∃ m, runEvents (step fuel) ((h.filterMap OnReactor.seen).map eventOf) start =
        some { s₁.app with mail := m } ∧
      ∀ k, (waiting m k).length =
          ((waiting s₁.due k).foldl (post (queueSize k)) (s₁.reactor.held k)).length ∧
        (k ≠ reactI2cError →
          waiting m k = (waiting s₁.due k).foldl (post (queueSize k)) (s₁.reactor.held k)) := by
  obtain ⟨hs, hshows, hdue, -⟩ := onReactor_begins hqsort hstart
  obtain ⟨m, hm, hshows'⟩ := client_keepsApart.run hs hshows hdue (fun es t' ht => by
    obtain ⟨_, hcontroller, -⟩ := exists_run_of_runEvents (runEvents_start ht)
    exact orderly_of_run hcontroller) hrun
  refine ⟨m, runEvents_start hm, fun k => ⟨?_, fun hk => ?_⟩⟩
  · have hlength := congrArg List.length (hshows'.mail k)
    rwa [List.length_map, List.length_map] at hlength
  · have hmail := hshows'.mail k
    have hlook : look k = id := funext fun arg => if_neg hk
    rwa [hlook, List.map_id, List.map_id] at hmail

/-- **The timers wait for one handler at most.** After a tick, the reactor
calls no more than one other handler before that of the timers. -/
theorem timers_wait_for_one (hqsort : IsQsort qsort) (hstart : onReactor qsort = some s₀)
    (hrun : Run (OnReactor.step (client fuel)) s₀ (h₁ ++ (s₁, .interrupt .tick) :: h₂) s₂)
    (hnone : ∀ arg, (reactTimer, arg) ∉ h₂.filterMap OnReactor.calls) :
    (h₂.filterMap OnReactor.calls).length ≤ 1 := by
  obtain ⟨hs, -, -, htop⟩ := onReactor_begins hqsort hstart
  refine hs.calls_after_interrupt htop (fun app app' ns hint => ?_) hrun hnone
  obtain ⟨-, rfl⟩ := Prod.mk.inj (Option.some.inj hint)
  rw [waiting_cons, if_pos rfl]
  exact List.cons_ne_nil _ _

/-! ### A run -/

theorem exists_onReactor :
    ∃ s₀, onReactor (fun l => l.insertionSort fun e1 e2 => e2.priority ≤ e1.priority) = some s₀ :=
  Option.isSome_iff_exists.mp (by decide +kernel)

/-- The first millisecond: the timers notify the inputs and the transmit,
and the reactor reads their flags. -/
def timersHandled : List (OnReactorEvent Interrupt Surroundings) :=
  [.interrupt .tick, .loop, .dispatch ⟨[], false⟩, .notify, .notify, .handled, .loop]

/-- The same, where the next millisecond comes between the notifications:
the timers are handled again, and then the command is sent. -/
def tickBetween : List (OnReactorEvent Interrupt Surroundings) :=
  [.interrupt .tick, .loop, .dispatch ⟨[], false⟩, .notify, .interrupt .tick, .notify, .handled,
   .loop, .dispatch ⟨[], false⟩, .handled, .loop, .dispatch ⟨[], false⟩]

theorem controller_runs_on_reactor_tickBetween : ∃ s₀ h s₁,
    onReactor (fun l => l.insertionSort fun e1 e2 => e2.priority ≤ e1.priority) = some s₀ ∧
      Run (OnReactor.step (client 20)) s₀ h s₁ ∧
      h.filterMap OnReactor.calls = [(reactTimer, 0), (reactTimer, 0), (reactI2cCommand, 0)] ∧
      ∃ m, runEvents (step 20) ((h.filterMap OnReactor.seen).map eventOf) start =
          some { s₁.app with mail := m } ∧
        ∀ k, (waiting m k).length =
            ((waiting s₁.due k).foldl (post (queueSize k)) (s₁.reactor.held k)).length ∧
          (k ≠ reactI2cError →
            waiting m k = (waiting s₁.due k).foldl (post (queueSize k)) (s₁.reactor.held k)) := by
  obtain ⟨s₀, hstart⟩ := exists_onReactor
  have hruns : ((onReactor fun l => l.insertionSort fun e1 e2 => e2.priority ≤ e1.priority).bind
      (runEvents (OnReactor.step (client 20)) tickBetween)).isSome = true := by decide +kernel
  have hcalls : (onReactor fun l => l.insertionSort fun e1 e2 => e2.priority ≤ e1.priority).map
      (fun s₀ => (history (OnReactor.step (client 20)) tickBetween s₀).filterMap OnReactor.calls) =
      some [(reactTimer, 0), (reactTimer, 0), (reactI2cCommand, 0)] := by decide +kernel
  rw [hstart, Option.bind_some] at hruns
  rw [hstart, Option.map_some, Option.some.injEq] at hcalls
  obtain ⟨s₁, hs₁⟩ := Option.isSome_iff_exists.mp hruns
  exact ⟨s₀, _, s₁, hstart, (run_history hs₁).1, hcalls,
    controller_runs_on_reactor isQsort_insertionSort hstart (run_history hs₁).1⟩

theorem timers_wait_for_one_timersHandled : ∃ s₀ h₁ s₁ h₂ s₂,
    onReactor (fun l => l.insertionSort fun e1 e2 => e2.priority ≤ e1.priority) = some s₀ ∧
      Run (OnReactor.step (client 20)) s₀ (h₁ ++ (s₁, .interrupt .tick) :: h₂) s₂ ∧
      h₂.filterMap OnReactor.calls = [(reactI2cCommand, 0)] ∧
      (h₂.filterMap OnReactor.calls).length ≤ 1 := by
  obtain ⟨s₀, hstart⟩ := exists_onReactor
  have hcalls : ((onReactor fun l => l.insertionSort fun e1 e2 => e2.priority ≤ e1.priority).bind
      fun s₀ => (runEvents (OnReactor.step (client 20)) timersHandled s₀).bind fun s₁ =>
        (OnReactor.step (client 20) s₁ (.interrupt .tick)).bind fun s =>
          (runEvents (OnReactor.step (client 20)) [.dispatch ⟨[], false⟩] s).map fun _ =>
            (history (OnReactor.step (client 20)) [.dispatch ⟨[], false⟩] s).filterMap
              OnReactor.calls) = some [(reactI2cCommand, 0)] := by decide +kernel
  rw [hstart, Option.bind_some] at hcalls
  obtain ⟨s₁, hs₁, hcalls⟩ := Option.bind_eq_some_iff.mp hcalls
  obtain ⟨s, hs, hcalls⟩ := Option.bind_eq_some_iff.mp hcalls
  obtain ⟨s₂, hs₂, hcalls⟩ := Option.map_eq_some_iff.mp hcalls
  obtain ⟨h₁, hrun₁, -⟩ := exists_run_of_runEvents hs₁
  have hrun := (hrun₁.snoc hs).trans (run_history hs₂).1
  rw [List.append_assoc, List.singleton_append] at hrun
  exact ⟨s₀, h₁, s₁, _, s₂, hstart, hrun, hcalls,
    timers_wait_for_one isQsort_insertionSort hstart hrun fun arg hmem => by
      rw [hcalls, List.mem_singleton] at hmem
      exact absurd (congrArg Prod.fst hmem) (show reactTimer ≠ reactI2cCommand by decide)⟩

end Controller

end CncPneumatics
