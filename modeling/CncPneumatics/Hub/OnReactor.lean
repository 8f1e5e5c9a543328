import CncPneumatics.Asx.ReactorUrgent
import CncPneumatics.Hub.Receipt
/-!
# The hub on its reactor

The hub as a client of the reactor, with the handlers that `main` has
registered. Every run on the reactor, with its queues, its flags and
interrupts between the notifications of a handler, is a run of the hub
with a mailroom; and the reactor calls at most one other handler before
that of a message from the controller.
-/

namespace CncPneumatics

open Asx

namespace Hub

/-! ## The client -/

/-- The interrupts: of the timer, and of the two-wire interface that
received a byte. -/
inductive Interrupt where
  | tick
  | receive (byte : UInt8)
deriving DecidableEq

/-- The hub. A handler other than that of the timers and that of the
sampled inputs notifies nobody. -/
def client (fuel : ℕ) : Client State Interrupt Bool ℕ where
  patient
    | .tick => true
    | .receive _ => false
  interrupt s
    | .tick => some ({ s with timer := timerTick s.timer }, [(reactTimer, 0)])
    | .receive byte => some (s, [(reactI2cHandler, byte.toNat)])
  handler s handle arg pressure :=
    if handle = reactTimer then
      (timerDispatch fuel s.timer).map fun r => ({ s with timer := r.2 }, r.1)
    else if handle = reactSample then
      let r := digitalInputSample (fun pin => pin = ioportPressureReadout && pressure) s.inputs
      some ({ s with inputs := r.1 }, r.2)
    else (handler fuel s handle arg pressure).map fun s => (s, [])

/-- The hub, where the timer need not wait until the reactor is asleep. -/
def busyClient (fuel : ℕ) : Client State Interrupt Bool ℕ :=
  { client fuel with patient := fun _ => false }

/-- `REACTOR_MAX_HANDLERS`. -/
def reactorMaxHandlers : ℕ := 8

/-- The priority and the size of the queue of each handler, in the order in
which they are registered. -/
def registrations : List (ℕ × ℕ) :=
  [(190, 1), (90, 1), (170, 1), (170, 1), (100, 1), (100, 1), (230, 1)]

/-- What the client sees as an event of the hub. -/
def eventOf : ClientEvent Interrupt Bool → Event
  | .interrupt .tick => .tick
  | .interrupt (.receive byte) => .receive byte
  | .run handle pressure => .run handle pressure

variable {fuel : ℕ} {s : State} {m : Mailroom ℕ} {handle arg : ℕ} {pressure : Bool}

/-- A hub with these messages. -/
def withMail (m : Mailroom ℕ) (s : State) : State := { s with mail := m }

/-! ## The handlers do not look at the queues -/

theorem protocolProcess_commutes (cmd : Opcode) :
    Commutes (withMail m) fun s => protocolProcess s cmd := by
  intro s
  unfold protocolProcess withMail
  dsimp only
  split_ifs <;> cases timerArm _ reactAcceptComms _ 0 0 <;> rfl

theorem onCheckComms_commutes : Commutes (withMail m) onCheckComms := by
  refine .map (.ite (fun _ => Iff.rfl) ?_ (.ok fun _ => rfl)) fun _ => rfl
  exact (protocolProcess_commutes _).map fun _ => rfl

theorem protocolHandleTraffic_commutes (arg : ℕ) :
    Commutes (withMail m) fun s => protocolHandleTraffic s arg := by
  have hnew : Commutes (withMail m) fun s : State =>
      protocolProcess { s with currentCmd := UInt8.ofNat arg } (UInt8.ofNat arg) :=
    (protocolProcess_commutes _).comp (k := fun s : State => { s with currentCmd := UInt8.ofNat arg })
      fun _ => rfl
  have hvalid : Commutes (withMail m) fun s : State =>
      if s.currentCmd ≠ UInt8.ofNat arg ∧ s.readyToAcceptNewCommand then
        protocolProcess { s with currentCmd := UInt8.ofNat arg } (UInt8.ofNat arg)
      else .ok s := hnew.ite (fun _ => Iff.rfl) (.ok fun _ => rfl)
  exact .ite (fun _ => Iff.rfl) (hvalid.comp (k := fun s : State =>
    { s with messageReceivedCounter := (s.messageReceivedCounter + 1) % 2 ^ 16 }) fun _ => rfl)
    (.ok fun _ => rfl)

/-- **A handler of the client**, with messages of its own: it is the handler
of the hub, which posts what the client notifies. -/
theorem handler_withMail {t' : State × Mailroom ℕ}
    (h : (client fuel).handler s handle arg pressure = some t') :
    handler fuel (withMail m s) handle arg pressure =
      some (withMail (depositAll queueSize m t'.2) t'.1) := by
  have hframe : ∀ f : State → Except State State, Commutes (withMail m) f →
      (f s).toOption.map (fun s => (s, ([] : Mailroom ℕ))) = some t' →
      (f (withMail m s)).toOption = some (withMail (depositAll queueSize m t'.2) t'.1) := by
    intro f hf h
    obtain ⟨s', hs', rfl⟩ := Option.map_eq_some_iff.mp h
    rw [hf.toOption, hs']
    rfl
  simp only [client] at h
  unfold handler at h ⊢
  by_cases htimer : handle = reactTimer
  · rw [if_pos htimer] at h ⊢
    obtain ⟨r, hr, rfl⟩ := Option.map_eq_some_iff.mp h
    exact Option.map_eq_some_iff.mpr ⟨r, hr, rfl⟩
  rw [if_neg htimer] at h ⊢
  by_cases hsample : handle = reactSample
  · rw [if_pos hsample] at h ⊢
    obtain rfl := Option.some.inj h
    rfl
  rw [if_neg hsample] at h ⊢
  rw [if_neg htimer, if_neg hsample] at h
  by_cases haccept : handle = reactAcceptComms
  · rw [if_pos haccept] at h ⊢
    obtain rfl := Option.some.inj h
    rfl
  rw [if_neg haccept] at h ⊢
  by_cases hcheck : handle = reactCheckComms
  · rw [if_pos hcheck] at h ⊢
    exact hframe _ onCheckComms_commutes h
  rw [if_neg hcheck] at h ⊢
  by_cases hmessage : handle = reactI2cHandler
  · rw [if_pos hmessage] at h ⊢
    exact hframe _ (protocolHandleTraffic_commutes arg) h
  rw [if_neg hmessage] at h
  cases h

/-- **A step of the client is a step of the hub.** -/
theorem step_of_client {t t' : State × Mailroom ℕ} {e : ClientEvent Interrupt Bool}
    (h : (client fuel).step queueSize t e = some t') :
    step fuel (withMail t.2 t.1) (eventOf e) = some (withMail t'.2 t'.1) := by
  cases e with
  | interrupt i =>
    simp only [Client.step] at h
    split_ifs at h with hpatient
    cases i with
    | tick =>
      have hnil : t.2 = [] := by simpa [client] using hpatient
      obtain rfl := Option.some.inj h
      show (if t.2 = [] then _ else none) = _
      rw [if_pos hnil]
      rfl
    | receive byte =>
      obtain rfl := Option.some.inj h
      rfl
  | run handle pressure =>
    obtain ⟨d, hcollect, h⟩ := Option.bind_eq_some_iff.mp h
    obtain ⟨r, hr, rfl⟩ := Option.map_eq_some_iff.mp h
    show ((collect t.2 handle).bind fun r => handler fuel (withMail r.2 t.1) handle r.1 pressure) = _
    rw [hcollect]
    exact handler_withMail hr

theorem runEvents_of_client {es : List (ClientEvent Interrupt Bool)} {t t' : State × Mailroom ℕ}
    (h : runEvents ((client fuel).step queueSize) es t = some t') :
    runEvents (step fuel) (es.map eventOf) (withMail t.2 t.1) = some (withMail t'.2 t'.1) :=
  runEvents_rename (f := fun t : State × Mailroom ℕ => withMail t.2 t.1) (g := eventOf)
    (fun _ _ _ => step_of_client) h

/-! ## On the reactor -/

/-- What the client notifies goes to timed handlers only. -/
theorem Timed.notices {t' : State × Mailroom ℕ} (hs : Timed s)
    (h : (client fuel).handler s handle arg pressure = some t') :
    waiting t'.2 reactI2cHandler = [] := by
  simp only [client] at h
  split_ifs at h
  · obtain ⟨r, hr, rfl⟩ := Option.map_eq_some_iff.mp h
    exact hs.dispatch_waiting hr
  · obtain rfl := Option.some.inj h
    show waiting (digitalInputSample _ s.inputs).2 _ = []
    rw [digitalInputSample_quiet _ hs.quiet, waiting_nil]
  · obtain ⟨_, -, rfl⟩ := Option.map_eq_some_iff.mp h
    rfl

/-- The hub when `main` calls `reactor_run`. -/
def onReactor (qsort : List PriorityItem → List PriorityItem) :
    Option (OnReactor State (reactorMaskWidth reactorMaxHandlers) ℕ) :=
  (registerAll reactorMaxHandlers registrations).map (OnReactor.start qsort start)

variable {qsort : List PriorityItem → List PriorityItem}
  {s₀ s₁ r : OnReactor State (reactorMaskWidth reactorMaxHandlers) ℕ}
  {h h₁ h₂ : List (OnReactor State (reactorMaskWidth reactorMaxHandlers) ℕ × OnReactorEvent Interrupt Bool)}

/-- **Interrupts and handlers keep apart**: the timers come only when nothing
runs, and no handler notifies that of the messages. -/
theorem client_keepsApart :
    OnReactor.KeepsApart (client fuel) (fun _ => id) (fun t => Timed t.1) [reactI2cHandler] where
  looks app handle _ _ around h :=
    congrArg (fun data => (client fuel).handler app handle data around) h
  interrupt app i app' ns hi hint q hq := by
    cases i with
    | tick => cases hi
    | receive byte =>
      obtain ⟨-, rfl⟩ := Prod.mk.inj (Option.some.inj hint)
      rw [List.mem_singleton.mp hq]
      exact .inl (List.mem_singleton_self _)
  handler t handle data around t' ht h k hk := by
    rw [List.mem_singleton.mp hk]
    exact ht.notices h

/-- The reactor with which `main` begins. -/
theorem onReactor_begins (hqsort : IsQsort qsort) (hstart : onReactor qsort = some s₀) :
    s₀.Holds queueSize ∧ s₀.Shows queueSize (fun _ => id) (start, []) ∧ s₀.due = [] ∧
      s₀.reactor.Top reactI2cHandler := by
  obtain ⟨reactor, hreg, rfl⟩ := Option.map_eq_some_iff.mp hstart
  have hbegins : (OnReactor.start qsort start reactor).Holds queueSize ∧
      (OnReactor.start qsort start reactor).Shows queueSize (fun _ => id) (start, []) :=
    OnReactor.start_shows (by decide) hqsort hreg (by decide) (by decide) (by decide) start
  -- the handler of the messages has the highest priority
  exact ⟨hbegins.1, hbegins.2, rfl,
    OnReactor.start_top (by decide) hqsort hreg (by decide) (by decide) (by decide) (by decide) start⟩

/-- **The hub on its reactor is the hub.** Whatever `qsort` does with equal
priorities, and between whichever steps bytes are received, also between
two notifications of a handler, the state of the hub is one that it
reaches with a mailroom, by the same interrupts and the same handlers in
the same order; and what waits there is what is in the queues, with what
the running handler has yet to notify. A millisecond is long enough for
the reactor to fall asleep. -/
theorem hub_runs_on_reactor (hqsort : IsQsort qsort) (hstart : onReactor qsort = some s₀)
    (hrun : Run (OnReactor.step (client fuel)) s₀ h r) :
    ∃ m, runEvents (step fuel) ((h.filterMap OnReactor.seen).map eventOf) start =
        some { r.app with mail := m } ∧
      ∀ k, waiting m k = (waiting r.due k).foldl (post 1) (r.reactor.held k) := by
  obtain ⟨hs, hshows, hdue, -⟩ := onReactor_begins hqsort hstart
  obtain ⟨m, hm, hshows'⟩ := client_keepsApart.run hs hshows hdue (fun es t' ht => by
    obtain ⟨_, hhub, -⟩ := exists_run_of_runEvents (runEvents_of_client ht)
    exact ⟨(timed_of_run hhub).timers, (timed_of_run hhub).quiet⟩) hrun
  refine ⟨m, runEvents_of_client hm, fun k => ?_⟩
  have hmail := hshows'.mail k
  rwa [List.map_id, List.map_id] at hmail

/-- **A message waits for one handler at most.** After the two-wire
interface has received a byte, the reactor calls no more than one other
handler before that of the messages, between whichever steps the timer
interrupts. -/
theorem message_waits_for_one {byte : UInt8} (hqsort : IsQsort qsort)
    (hstart : onReactor qsort = some s₀)
    (hrun : Run (OnReactor.step (busyClient fuel)) s₀
      (h₁ ++ (s₁, .interrupt (.receive byte)) :: h₂) r)
    (hnone : ∀ arg, (reactI2cHandler, arg) ∉ h₂.filterMap OnReactor.calls) :
    (h₂.filterMap OnReactor.calls).length ≤ 1 := by
  obtain ⟨hs, -, -, htop⟩ := onReactor_begins hqsort hstart
  refine hs.calls_after_interrupt htop (fun app app' ns hint => ?_) hrun hnone
  obtain ⟨-, rfl⟩ := Prod.mk.inj (Option.some.inj hint)
  rw [waiting_cons, if_pos rfl]
  exact List.cons_ne_nil _ _

/-! ### A run -/

theorem exists_onReactor :
    ∃ s₀, onReactor (fun l => l.insertionSort fun e1 e2 => e2.priority ≤ e1.priority) = some s₀ :=
  Option.isSome_iff_exists.mp (by decide +kernel)

/-- The first millisecond: the reactor has read the flag of the timers when
a byte is received. -/
def flagRead : List (OnReactorEvent Interrupt Bool) := [.interrupt .tick, .loop]

/-- The timers are handled, and then the byte. -/
def byteHandled : List (OnReactorEvent Interrupt Bool) :=
  [.dispatch false, .notify, .handled, .loop, .dispatch false]

/-- The timers are handled, while the next millisecond comes. -/
def tickAgain : List (OnReactorEvent Interrupt Bool) :=
  [.dispatch false, .interrupt .tick, .notify, .handled, .loop]

theorem hub_runs_on_reactor_byteHandled : ∃ s₀ h r,
    onReactor (fun l => l.insertionSort fun e1 e2 => e2.priority ≤ e1.priority) = some s₀ ∧
      Run (OnReactor.step (client 8)) s₀ h r ∧
      h.filterMap OnReactor.calls = [(reactTimer, 0), (reactI2cHandler, 3)] ∧
      ∃ m, runEvents (step 8) ((h.filterMap OnReactor.seen).map eventOf) start =
          some { r.app with mail := m } ∧
        ∀ k, waiting m k = (waiting r.due k).foldl (post 1) (r.reactor.held k) := by
  obtain ⟨s₀, hstart⟩ := exists_onReactor
  have hruns : ((onReactor fun l => l.insertionSort fun e1 e2 => e2.priority ≤ e1.priority).bind
      (runEvents (OnReactor.step (client 8))
        (flagRead ++ .interrupt (.receive 3) :: byteHandled))).isSome = true := by decide +kernel
  have hcalls : (onReactor fun l => l.insertionSort fun e1 e2 => e2.priority ≤ e1.priority).map
      (fun s₀ => (history (OnReactor.step (client 8))
        (flagRead ++ .interrupt (.receive 3) :: byteHandled) s₀).filterMap OnReactor.calls) =
      some [(reactTimer, 0), (reactI2cHandler, 3)] := by decide +kernel
  rw [hstart, Option.bind_some] at hruns
  rw [hstart, Option.map_some, Option.some.injEq] at hcalls
  obtain ⟨r, hr⟩ := Option.isSome_iff_exists.mp hruns
  exact ⟨s₀, _, r, hstart, (run_history hr).1, hcalls,
    hub_runs_on_reactor isQsort_insertionSort hstart (run_history hr).1⟩

theorem message_waits_for_one_tickAgain : ∃ s₀ h₁ s₁ h₂ r,
    onReactor (fun l => l.insertionSort fun e1 e2 => e2.priority ≤ e1.priority) = some s₀ ∧
      Run (OnReactor.step (busyClient 8)) s₀ (h₁ ++ (s₁, .interrupt (.receive 3)) :: h₂) r ∧
      h₂.filterMap OnReactor.calls = [(reactTimer, 0)] ∧
      (h₂.filterMap OnReactor.calls).length ≤ 1 := by
  obtain ⟨s₀, hstart⟩ := exists_onReactor
  have hcalls : ((onReactor fun l => l.insertionSort fun e1 e2 => e2.priority ≤ e1.priority).bind
      fun s₀ => (runEvents (OnReactor.step (busyClient 8)) flagRead s₀).bind fun s₁ =>
        (OnReactor.step (busyClient 8) s₁ (.interrupt (.receive 3))).bind fun s₂ =>
          (runEvents (OnReactor.step (busyClient 8)) tickAgain s₂).map fun _ =>
            (history (OnReactor.step (busyClient 8)) tickAgain s₂).filterMap OnReactor.calls) =
      some [(reactTimer, 0)] := by decide +kernel
  rw [hstart, Option.bind_some] at hcalls
  obtain ⟨s₁, hs₁, hcalls⟩ := Option.bind_eq_some_iff.mp hcalls
  obtain ⟨s₂, hs₂, hcalls⟩ := Option.bind_eq_some_iff.mp hcalls
  obtain ⟨r, hr, hcalls⟩ := Option.map_eq_some_iff.mp hcalls
  obtain ⟨h₁, hrun₁, -⟩ := exists_run_of_runEvents hs₁
  have hrun := (hrun₁.snoc hs₂).trans (run_history hr).1
  rw [List.append_assoc, List.singleton_append] at hrun
  exact ⟨s₀, h₁, s₁, _, r, hstart, hrun, hcalls,
    message_waits_for_one isQsort_insertionSort hstart hrun fun arg hmem => by
      rw [hcalls, List.mem_singleton] at hmem
      exact absurd (congrArg Prod.fst hmem) (show reactI2cHandler ≠ reactTimer by decide)⟩

end Hub

end CncPneumatics
