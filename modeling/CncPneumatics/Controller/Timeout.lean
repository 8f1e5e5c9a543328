import CncPneumatics.Asx.TimerChain
import CncPneumatics.Common.History
import CncPneumatics.Controller.Command
import CncPneumatics.Controller.Handlers
import CncPneumatics.Controller.Parts
import CncPneumatics.Controller.Schedule
/-!
# The timeout of the door

A movement of the door is given up when it takes too long. The timer of
the valve is cancelled and armed again as the door moves, but cancelling
cannot take back a timeout that is already queued: it hits whatever
movement is under way when it is handled.
-/

namespace CncPneumatics

open Asx

namespace Controller

variable {fuel handle arg : ℕ} {s s' s'' : State} {around : Surroundings}
  {r : Except State State} {e : Event} {W : List ℕ} {hist : List (State × Event)}
  {p : State × Event} {l l' : List TimerFuture} {action : DoorAction}

/-! ## The movement -/

/-- The door is opening or closing. -/
def moving (s : State) : Bool := s.doorSm = .opening || s.doorSm = .closing

/-- The event of the door that a step is, if it is one. -/
def doorEvent (p : State × Event) : Option DoorEvent :=
  match p.2 with
  | .run handle _ =>
    match waiting p.1.mail handle with
    | [] => none
    | arg :: _ =>
      if handle = reactDoorCmd then some (if argValue arg then .open else .close)
      else if handle = reactDoorSensor then
        if argPin arg = inDoorDown then some (if argValue arg then .doorIsDown else .doorMovingUp)
        else if argPin arg = inDoorUp then some (if argValue arg then .doorIsUp else .doorMovingDown)
        else none
      else if handle = reactCmdTimeout then some .timeout
      else none
  | _ => none

/-- The action it takes. -/
def doorAction (p : State × Event) : Option DoorAction :=
  (doorEvent p).bind fun event => (doorTransition p.1.doorSm event).map Prod.fst

/-- The delay with which an action arms the timer of the valve. -/
def armDelay : DoorAction → Option ℕ
  | .pushOn | .pullOn => some movingTimeout
  | .doorMoving => some completeTimeout
  | _ => none

/-- The delay with which a step arms it. -/
def arms (p : State × Event) : Option ℕ := (doorAction p).bind armDelay

/-- The delay of the last `arm_timer`. -/
def armedDelay (hist : List (State × Event)) : Option ℕ :=
  (lastWhere (fun p => (arms p).isSome) hist).bind arms

/-- The milliseconds since then. -/
def ticksSinceArm (hist : List (State × Event)) : ℕ :=
  countSince (fun p => (arms p).isSome) (fun p => p.2 = .tick) hist

/-- **Timeouts are timely**: one that gives up a movement is handled no
sooner than the delay of the last `arm_timer` after it. -/
def TimelyTimeouts (hist : List (State × Event)) : Prop :=
  ∀ h₁ p h₂, hist = h₁ ++ p :: h₂ → moving p.1 = true → doorEvent p = some .timeout →
    ∃ d, armedDelay h₁ = some d ∧ d ≤ ticksSinceArm h₁

/-- A step that arms the timer does so when no timeout is queued, and the
counter does not wrap until it goes off. -/
def ArmsFresh (p : State × Event) : Prop :=
  ∀ d ∈ arms p, waiting p.1.mail reactCmdTimeout = [] ∧ p.1.timer.counter + d < 2 ^ 32

/-- A step that cancels the timer finds no other pending timer with its
number, nor is this the next number to be given. -/
def CancelsOwn (p : State × Event) : Prop :=
  ∀ action ∈ doorAction p, action ∈ [DoorAction.doorMoving, .pushOff, .pullOff] →
    (∀ f ∈ p.1.timer.pending, f.inst = p.1.valveTimer → f.reactor = reactCmdTimeout) ∧
      (p.1.timer.currentInstance + 1) % 2 ^ 32 ≠ p.1.valveTimer

instance : DecidablePred ArmsFresh := fun p => by
  unfold ArmsFresh
  infer_instance

instance : DecidablePred CancelsOwn := fun p => by
  unfold CancelsOwn
  infer_instance

theorem armedDelay_concat : armedDelay (hist ++ [p]) =
    if (arms p).isSome then arms p else armedDelay hist := by
  rw [armedDelay, lastWhere_concat]
  split <;> rfl

theorem ticksSinceArm_concat : ticksSinceArm (hist ++ [p]) =
    if (arms p).isSome then 0 else ticksSinceArm hist + if p.2 = .tick then 1 else 0 := by
  rw [ticksSinceArm, countSince_concat]
  simp [ticksSinceArm]

/-! ## The pending timeout -/

/-- The timers that are pending afterwards were before, or have the number
`n`. -/
def Adds (n : ℕ) (t t' : Timer) : Prop :=
  ∀ l, t.Holds l → ∃ l', t'.Holds l' ∧ ∀ f ∈ l', f ∈ l ∨ f.inst = n

theorem Adds.refl {n : ℕ} (t : Timer) : Adds n t t := fun l h => ⟨l, h, fun _ => .inl⟩

theorem Adds.trans {n : ℕ} {t t' t'' : Timer} (h : Adds n t t') (h' : Adds n t' t'') :
    Adds n t t'' := by
  intro l hl
  obtain ⟨l', hl', hmem⟩ := h l hl
  obtain ⟨l'', hl'', hmem'⟩ := h' l' hl'
  exact ⟨l'', hl'', fun f hf => (hmem' f hf).elim (hmem f) .inr⟩

/-- Cancelling a timer, or nothing. -/
theorem timerCancel_cases {t : Timer} (hl : t.Holds l) (inst : ℕ) :
    ∃ l', (timerCancel t inst).2.Holds l' ∧ l'.Sublist l ∧
      (timerCancel t inst).2.currentInstance = t.currentInstance := by
  rcases timerCancel_split hl inst with ⟨f, l₁, l₂, rfl, -, -, -, hl₁, -, hcur⟩ | ⟨hsame, -⟩
  · exact ⟨_, hl₁, (List.sublist_cons_self f l₂).append_left l₁, hcur⟩
  · rw [hsame]
    exact ⟨l, hl, List.Sublist.refl _, rfl⟩

theorem Adds.cancel {n : ℕ} {t : Timer} (inst : ℕ) : Adds n t (timerCancel t inst).2 := by
  intro l hl
  obtain ⟨l', hl', hsub, -⟩ := timerCancel_cases hl inst
  exact ⟨l', hl', fun f hf => .inl (hsub.subset hf)⟩

theorem Adds.arm {t t' : Timer} {reactor count rep x inst : ℕ} (hr : reactor ≠ reactorNullHandle)
    (harm : timerArm t reactor count rep x = some (inst, t')) :
    Adds ((t.currentInstance + 1) % 2 ^ 32) t t' := by
  intro l hl
  obtain ⟨-, -, hl', -⟩ := timerArm_holds hl hr harm
  exact ⟨_, hl', fun f hf => (mem_armInsert.mp hf).symm.imp_right fun h => by rw [h]⟩

/-- Setting an output adds nothing. -/
theorem outputSet_adds {n : ℕ} (s : State) (value : Bool) :
    Adds n s.timer (resultState (outputSet s handle value)).timer := by
  rw [outputSet, onOutput, resultState_within]
  show Adds n s.timer (cancelSequence _).timer
  unfold cancelSequence
  split
  · exact Adds.cancel _
  · exact Adds.refl _

theorem triggerNextTransmit_adds (hl : s.timer.Holds l) :
    Adds ((s.timer.currentInstance + 1) % 2 ^ 32) s.timer
      (resultState (triggerNextTransmit s)).timer := by
  unfold triggerNextTransmit
  dsimp only
  set s₁ : State := if s.transmitTimer ≠ timerInvalidInstance then
    { s with timer := (timerCancel s.timer s.transmitTimer).2 } else s with hs₁
  have hcancel : Adds ((s.timer.currentInstance + 1) % 2 ^ 32) s.timer s₁.timer ∧
      s₁.timer.currentInstance = s.timer.currentInstance := by
    rw [hs₁]
    split
    · obtain ⟨_, _, _, hcur⟩ := timerCancel_cases hl s.transmitTimer
      exact ⟨Adds.cancel _, hcur⟩
    · exact ⟨Adds.refl _, rfl⟩
  rcases resultState_armTimer s₁ reactI2cCommand (timerMilliseconds 1)
    fun s inst => { s with transmitTimer := inst } with heq | ⟨inst, timer, harm, heq⟩
  · rw [heq]; exact hcancel.1
  · rw [heq]
    have hadds := Adds.arm (by decide) harm
    rw [hcancel.2] at hadds
    exact hcancel.1.trans hadds

/-- **A change of an input** arms at most one timer. -/
theorem onInputChange_adds (hl : s.timer.Holds l) (arg : ℕ) :
    Adds ((s.timer.currentInstance + 1) % 2 ^ 32) s.timer
      (resultState (onInputChange s arg)).timer := by
  unfold onInputChange
  refine resultState_bind (s := s)
    (R := fun a b : State => Adds ((s.timer.currentInstance + 1) % 2 ^ 32) a.timer b.timer)
    (fun _ _ _ => Adds.trans) ?_ fun s₁ _ => ?_
  · split
    · unfold refreshOpcode
      dsimp only
      split
      · exact triggerNextTransmit_adds (s := { s with
          outputStatuses := setStatus (argPin arg) (argValue arg) s.outputStatuses
          currentCommand := firstOpcode (setStatus (argPin arg) (argValue arg) s.outputStatuses) }) hl
      · exact Adds.refl _
    · exact Adds.refl _
  · split
    · exact outputSet_adds s₁ _
    · exact Adds.refl _

/-! ## The actions -/

/-- The chain of the timeout, armed with a delay so long ago. -/
abbrev TimeoutChain (delay since : ℕ) (s : State) (q : List ℕ) : Prop :=
  Chain reactCmdTimeout s.valveTimer delay since s.timer q

/-- Nothing but the valve has timers that go off to the timeout. -/
theorem TimerOf.ne_timeout {cs : List Concern} {f : TimerFuture} (hcs : .valve ∉ cs)
    (h : TimerOf cs f) : f.reactor ≠ reactCmdTimeout := by
  obtain ⟨c, hc, htimed⟩ := h
  intro hf
  have hvalve : ∀ c : Concern, c.timed = some reactCmdTimeout → c = .valve := by
    intro c
    cases c <;> decide
  rw [hf] at htimed
  exact hcs (hvalve c htimed ▸ hc)

/-- **Starting to move** when no timeout is pending. -/
theorem moveOn_chain {pin led : ℕ} (hl : s.timer.Holds s.timer.pending)
    (hnone : s.timer.pending.length < timerMaxCallback →
      timersFor reactCmdTimeout s.timer.pending = [])
    (hlt : s.timer.counter + movingTimeout < 2 ^ 32) (hok : moveOn s pin led = .ok s') :
    TimeoutChain movingTimeout 0 s' [] := by
  obtain ⟨s₁, h₁, hok⟩ := bind_eq_ok.mp hok
  obtain ⟨s₂, h₂, hok⟩ := bind_eq_ok.mp hok
  have hserved : Timer.Served (TimerOf [.command, .trigger, .output]) s.timer s₂.timer :=
    ((onInputChange_made s _).served_ok h₁).trans
      (Part.served_ok (p := .outputStart _ _ _ _) h₂ (by simp))
  obtain ⟨hcounter, hl₂, hsub⟩ := hserved.timersFor_sublist
    (fun _ => TimerOf.ne_timeout (by simp)) hl
  obtain ⟨inst, timer, harm, rfl⟩ := armTimer_eq_ok hok
  refine Chain.arm hl₂ ?_ (by decide) (by rw [hcounter]; exact hlt) harm
  rw [hnone (hserved.room hl (room_of_timerArm hl₂ harm))] at hsub
  exact List.eq_nil_of_sublist_nil hsub

/-- **Moving on** when no timeout is queued, and the number of the valve
is that of its timer. -/
theorem doorMoving_chain {delay since : ℕ} (h : TimeoutChain delay since s [])
    (hown : ∀ f ∈ s.timer.pending, f.inst = s.valveTimer → f.reactor = reactCmdTimeout)
    (hlt : s.timer.counter + completeTimeout < 2 ^ 32) (hok : doorMoving s = .ok s') :
    TimeoutChain completeTimeout 0 s' [] := by
  have hserved : Timer.Served (fun _ => False) s.timer (valveCancelTimer s).timer :=
    Timer.Served.cancel _
  obtain ⟨hcounter, hl₁, -⟩ := hserved.timersFor_sublist (k := reactCmdTimeout)
    (fun _ h => h.elim) h.holds
  rw [doorMoving, valveArmTimer] at hok
  obtain ⟨inst, timer, harm, rfl⟩ := armTimer_eq_ok hok
  refine Chain.arm hl₁ ?_ (by decide) (by rw [hcounter]; exact hlt) harm
  refine timersFor_timerCancel h.holds (hserved.room h.holds (room_of_timerArm hl₁ harm))
    (by have := h.single; simpa using this) fun f hf => ?_
  exact cancelled_any hown hf (h.own f hf).1

/-- **Arriving** cancels the timeout, unless the list is full. -/
theorem moveOff_chain {pin led delay since : ℕ} {q : List ℕ} (h : TimeoutChain delay since s q)
    (hown : ∀ f ∈ s.timer.pending, f.inst = s.valveTimer → f.reactor = reactCmdTimeout)
    (hnext : (s.timer.currentInstance + 1) % 2 ^ 32 ≠ s.valveTimer)
    (hok : moveOff s pin led = .ok s') :
    TimeoutChain delay since s' q ∧
      (timersFor reactCmdTimeout s'.timer.pending).Sublist
        (timersFor reactCmdTimeout s.timer.pending) ∧
      (s'.timer.pending.length < timerMaxCallback →
        timersFor reactCmdTimeout s'.timer.pending = []) := by
  obtain ⟨s₁, h₁, hok⟩ := bind_eq_ok.mp hok
  obtain ⟨s₂, h₂, rfl⟩ := map_eq_ok.mp hok
  have hmade₁ := onInputChange_made s (pinAndValueAsArg pin false)
  have hvalve : s₂.valveTimer = s.valveTimer :=
    ((Part.frame_ok (p := .outputSet _ _) h₂).valveTimer (by simp)).trans
      ((hmade₁.frame_ok h₁).valveTimer (by simp))
  have hs₁₂ : Timer.Served (TimerOf [.command, .trigger, .output]) s.timer s₂.timer :=
    (hmade₁.served_ok h₁).trans (Part.served_ok (p := .outputSet _ _) h₂ (by simp))
  have hadds : Adds ((s.timer.currentInstance + 1) % 2 ^ 32) s.timer s₂.timer := by
    have hadds₁ := onInputChange_adds h.holds (pinAndValueAsArg pin false)
    have hadds₂ := @outputSet_adds led ((s.timer.currentInstance + 1) % 2 ^ 32) s₁ false
    rw [h₁] at hadds₁
    rw [h₂] at hadds₂
    exact hadds₁.trans hadds₂
  have hchain : TimeoutChain delay since s₂ q := by
    have hserved := Chain.served h hs₁₂ fun _ => TimerOf.ne_timeout (by simp)
    rwa [← hvalve] at hserved
  -- what was armed since has another number
  have hown₂ : ∀ f ∈ s₂.timer.pending, f.inst = s₂.valveTimer → f.reactor = reactCmdTimeout := by
    intro f hf hinst
    obtain ⟨l', hl', hmem⟩ := hadds _ h.holds
    rw [hl'.pending_eq] at hf
    rcases hmem f hf with hf | hf
    · exact hown f hf (hinst.trans hvalve)
    · exact absurd (hf.symm.trans (hinst.trans hvalve)) hnext
  have hserved : Timer.Served (fun _ => False) s₂.timer (valveCancelTimer s₂).timer :=
    Timer.Served.cancel _
  have hsub : (timersFor reactCmdTimeout (valveCancelTimer s₂).timer.pending).Sublist
      (timersFor reactCmdTimeout s.timer.pending) :=
    (hserved.timersFor_sublist (fun _ h => h.elim) hchain.holds).2.2.trans
      (hs₁₂.timersFor_sublist (fun _ => TimerOf.ne_timeout (by simp)) h.holds).2.2
  refine ⟨Chain.served hchain hserved fun _ h => h.elim, hsub, fun hroom => ?_⟩
  have hsingle := hchain.single
  exact timersFor_timerCancel hchain.holds (hserved.room hchain.holds hroom) (by omega)
    fun f hf => cancelled_any hown₂ hf (hchain.own f hf).1

/-! ## Any event -/

/-- **The invariant**: the timeout is a chain, there is none before the
first is armed, and its timer is pending only during a movement unless the
list is full. -/
structure Timed (hist : List (State × Event)) (s : State) : Prop where
  chain : TimeoutChain ((armedDelay hist).getD 0) (ticksSinceArm hist) s
    (waiting s.mail reactCmdTimeout)
  unarmed : armedDelay hist = none →
    timersFor reactCmdTimeout s.timer.pending = [] ∧ waiting s.mail reactCmdTimeout = []
  still : moving s = false → s.timer.pending.length < timerMaxCallback →
    timersFor reactCmdTimeout s.timer.pending = []

namespace Timed

/-- A step that arms no timeout. -/
theorem keeps (h : Timed hist s) (harms : arms (s, e) = none) (he : e ≠ .tick)
    (hchain : TimeoutChain ((armedDelay hist).getD 0) (ticksSinceArm hist) s'
      (waiting s'.mail reactCmdTimeout))
    (hnone : timersFor reactCmdTimeout s.timer.pending = [] ∧ waiting s.mail reactCmdTimeout = [] →
      timersFor reactCmdTimeout s'.timer.pending = [] ∧ waiting s'.mail reactCmdTimeout = [])
    (hstill : moving s' = false → s'.timer.pending.length < timerMaxCallback →
      timersFor reactCmdTimeout s'.timer.pending = []) : Timed (hist ++ [(s, e)]) s' := by
  have hdelay : armedDelay (hist ++ [(s, e)]) = armedDelay hist := by
    rw [armedDelay_concat, if_neg (by simp [harms])]
  have hsince : ticksSinceArm (hist ++ [(s, e)]) = ticksSinceArm hist := by
    rw [ticksSinceArm_concat, if_neg (by simp [harms]), if_neg he, Nat.add_zero]
  exact ⟨by rw [hdelay, hsince]; exact hchain, fun h' => hnone (h.unarmed (hdelay ▸ h')), hstill⟩

/-- A step that arms it. -/
theorem arm {delay : ℕ} (harms : arms (s, e) = some delay)
    (hchain : TimeoutChain delay 0 s' []) (hq : waiting s'.mail reactCmdTimeout = [])
    (hmoving : moving s' = true) : Timed (hist ++ [(s, e)]) s' := by
  have hdelay : armedDelay (hist ++ [(s, e)]) = some delay := by
    rw [armedDelay_concat, if_pos (by simp [harms]), harms]
  refine ⟨?_, fun h' => absurd (hdelay.symm.trans h') (by simp), fun h' => ?_⟩
  · rw [hdelay, ticksSinceArm_concat, if_pos (by simp [harms]), hq]
    exact hchain
  · rw [hmoving] at h'
    cases h'

/-- A step that has nothing to do with the door. -/
theorem other {A : TimerFuture → Prop} (h : Timed hist s) (harms : arms (s, e) = none)
    (he : e ≠ .tick) (hs : Timer.Served A s.timer s'.timer)
    (hA : ∀ f, A f → f.reactor ≠ reactCmdTimeout)
    (hq : waiting s'.mail reactCmdTimeout = waiting s.mail reactCmdTimeout)
    (hv : s'.valveTimer = s.valveTimer) (hd : s'.doorSm = s.doorSm) :
    Timed (hist ++ [(s, e)]) s' := by
  have hsub := (hs.timersFor_sublist hA h.chain.holds).2.2
  refine h.keeps harms he ?_ (fun h' => ⟨?_, hq.trans h'.2⟩) fun hm hroom => ?_
  · rw [TimeoutChain, hv, hq]
    exact Chain.served h.chain hs hA
  · rw [h'.1] at hsub
    exact List.eq_nil_of_sublist_nil hsub
  · rw [moving, hd] at hm
    rw [h.still hm (hs.room h.chain.holds hroom)] at hsub
    exact List.eq_nil_of_sublist_nil hsub

end Timed

/-- **What the transitions have in common**: the door starts to move when
it does not, moves on when it does, and does not move otherwise. -/
theorem doorTransition_moving {d d' : DoorState} {event : DoorEvent}
    (h : doorTransition d event = some (action, d')) :
    (armDelay action = none → d' ≠ .opening ∧ d' ≠ .closing) ∧
    (armDelay action ≠ none → (d' = .opening ∨ d' = .closing) ∧ event ≠ .timeout) ∧
    (armDelay action = some movingTimeout ∨ action = .none → d ≠ .opening ∧ d ≠ .closing) ∧
    (action ∈ [DoorAction.pushTimeout, .pullTimeout] → event = .timeout) ∧
    (action ∈ [DoorAction.pushOff, .pullOff] → event ≠ .timeout) := by
  revert h
  cases d <;> cases event <;> intro h <;> simp only [doorTransition, Option.some.injEq, Prod.mk.injEq,
    reduceCtorEq] at h <;> obtain ⟨rfl, rfl⟩ := h <;> decide

/-- The action of the event, where there is one. -/
theorem arms_of_event {event : DoorEvent} {d : DoorState} (hevent : doorEvent p = some event)
    (htrans : doorTransition p.1.doorSm event = some (action, d)) :
    doorAction p = some action ∧ arms p = armDelay action := by
  have hact : doorAction p = some action := by rw [doorAction, hevent, Option.bind_some, htrans]; rfl
  exact ⟨hact, by rw [arms, hact, Option.bind_some]⟩

/-- **An event of the door**, from the state in which its handler is
called. -/
theorem Timed.process (h : Timed hist s) (s₁ : State) (event : DoorEvent) (he : e ≠ .tick)
    (hevent : doorEvent (s, e) = some event) (harms : ArmsFresh (s, e))
    (hcancels : CancelsOwn (s, e)) (ht : s₁.timer = s.timer) (hd : s₁.doorSm = s.doorSm)
    (hv : s₁.valveTimer = s.valveTimer)
    (hchain : TimeoutChain ((armedDelay hist).getD 0) (ticksSinceArm hist) s₁
      (waiting s₁.mail reactCmdTimeout))
    (hwait : waiting s.mail reactCmdTimeout = [] → waiting s₁.mail reactCmdTimeout = [])
    (htimeout : event = .timeout → timersFor reactCmdTimeout s.timer.pending = [])
    (hok : processEvent s₁ event = .ok s') : Timed (hist ++ [(s, e)]) s' := by
  have hmail : waiting s'.mail reactCmdTimeout = waiting s₁.mail reactCmdTimeout :=
    ((processEvent_made s₁ event).frame_ok hok).waiting _ (by decide)
  unfold processEvent at hok
  split at hok
  · next action d htrans =>
    rw [hd] at htrans
    obtain ⟨hact, harm⟩ := arms_of_event (p := (s, e)) hevent htrans
    obtain ⟨hrest, hmoves, hstarts, htimeouts, hoff⟩ := doorTransition_moving htrans
    obtain ⟨s₂, hdo, rfl⟩ := map_eq_ok.mp hok
    have hmoving : moving { s₂ with doorSm := d } = true ↔ d = .opening ∨ d = .closing := by
      simp [moving]
    have hl₁ : s₁.timer.Holds s₁.timer.pending := hchain.holds
    have hroom₁ : moving s = false → s₁.timer.pending.length < timerMaxCallback →
        timersFor reactCmdTimeout s₁.timer.pending = [] := ht ▸ h.still
    have hbefore : armDelay action = some movingTimeout ∨ action = .none → moving s = false :=
      fun h' => by simpa [moving] using hstarts h'
    -- an action that arms no timeout ends the movement
    have hkeeps : armDelay action = none →
        TimeoutChain ((armedDelay hist).getD 0) (ticksSinceArm hist) s₂
          (waiting s₁.mail reactCmdTimeout) →
        (timersFor reactCmdTimeout s₁.timer.pending = [] →
          timersFor reactCmdTimeout s₂.timer.pending = []) →
        (s₂.timer.pending.length < timerMaxCallback →
          timersFor reactCmdTimeout s₂.timer.pending = []) →
        Timed (hist ++ [(s, e)]) { s₂ with doorSm := d } := by
      intro hnone hchain₂ hsub hroom
      refine h.keeps (harm.trans hnone) he (hmail ▸ hchain₂) (fun h' => ⟨?_, ?_⟩) fun _ => hroom
      · exact hsub (ht ▸ h'.1)
      · exact hmail ▸ hwait h'.2
    -- and one that arms it does so when none is queued
    have harmed : ∀ delay, armDelay action = some delay →
        waiting s₁.mail reactCmdTimeout = [] ∧ s₁.timer.counter + delay < 2 ^ 32 := by
      intro delay hdelay
      obtain ⟨hq, hlt⟩ := harms delay (by rw [harm, hdelay]; rfl)
      exact ⟨hwait hq, by rw [ht]; exact hlt⟩
    have harrive : ∀ delay, armDelay action = some delay → TimeoutChain delay 0 s₂ [] →
        Timed (hist ++ [(s, e)]) { s₂ with doorSm := d } := by
      intro delay hdelay hchain₂
      have hq := (harmed delay hdelay).1
      exact .arm (harm.trans hdelay) hchain₂ (hmail.trans hq)
        (hmoving.mpr (hmoves (by rw [hdelay]; simp)).1)
    have hown : action ∈ [DoorAction.doorMoving, .pushOff, .pullOff] →
        (∀ f ∈ s₁.timer.pending, f.inst = s₁.valveTimer → f.reactor = reactCmdTimeout) ∧
          (s₁.timer.currentInstance + 1) % 2 ^ 32 ≠ s₁.valveTimer := by
      intro hmem
      rw [ht, hv]
      exact hcancels action hact hmem
    cases action with
    | none =>
      obtain rfl := Except.ok.inj hdo
      exact hkeeps rfl hchain id (hroom₁ (hbefore (.inr rfl)))
    | pushOn | pullOn =>
      have hq := harmed movingTimeout rfl
      exact harrive _ rfl (moveOn_chain hl₁ (hroom₁ (hbefore (.inl rfl))) hq.2 hdo)
    | doorMoving =>
      obtain ⟨hq, hlt⟩ := harmed completeTimeout rfl
      rw [hq] at hchain
      exact harrive _ rfl (doorMoving_chain hchain (hown (by simp)).1 hlt hdo)
    | pushOff | pullOff =>
      obtain ⟨hmine, hnext⟩ := hown (by simp)
      obtain ⟨hchain₂, hsub, hroom₂⟩ := moveOff_chain hchain hmine hnext hdo
      refine hkeeps rfl hchain₂ (fun h' => ?_) hroom₂
      rw [h'] at hsub
      exact List.eq_nil_of_sublist_nil hsub
    | pushTimeout | pullTimeout =>
      have hs := (moveTimeout_made s₁ _ _).served_ok hdo
      have hv₂ := ((moveTimeout_made s₁ _ _).frame_ok hdo).valveTimer (by simp)
      have hne : ∀ f, TimerOf [.command, .trigger, .output] f → f.reactor ≠ reactCmdTimeout :=
        fun _ => TimerOf.ne_timeout (by simp)
      have hsub := (hs.timersFor_sublist hne hl₁).2.2
      -- the timeout has gone off
      rw [ht, htimeout (htimeouts (by simp))] at hsub
      have hnil := List.eq_nil_of_sublist_nil hsub
      refine hkeeps rfl ?_ (fun _ => hnil) fun _ => hnil
      rw [TimeoutChain, hv₂]
      exact Chain.served hchain hs hne
  · next hnone =>
    obtain rfl := Except.ok.inj hok
    have harm : arms (s, e) = none := by
      rw [arms, doorAction, hevent, Option.bind_some, ← hd, hnone]
      rfl
    refine h.keeps harm he hchain (fun h' => ⟨ht ▸ h'.1, hwait h'.2⟩) fun hm => ?_
    rw [ht]
    exact h.still (by rwa [moving, hd] at hm)

/-- The handlers that are not of the door cause no event of it. -/
theorem arms_of_not_door (hne : handle ∉ [reactDoorSensor, reactDoorCmd, reactCmdTimeout]) :
    arms (s, .run handle around) = none := by
  simp only [List.mem_cons, List.not_mem_nil, or_false, not_or] at hne
  have hevent : doorEvent (s, .run handle around) = none := by
    rw [doorEvent]
    dsimp only
    split
    · rfl
    · rw [if_neg hne.2.1, if_neg hne.1, if_neg hne.2.2]
  rw [arms, doorAction, hevent]
  rfl

theorem doorEvent_sensor {rest : List ℕ} (hw : waiting s.mail reactDoorSensor = arg :: rest) :
    doorEvent (s, .run reactDoorSensor around) =
      if argPin arg = inDoorDown then some (if argValue arg then .doorIsDown else .doorMovingUp)
      else if argPin arg = inDoorUp then some (if argValue arg then .doorIsUp else .doorMovingDown)
      else none := by
  rw [doorEvent]
  dsimp only
  rw [hw]
  dsimp only
  rw [if_neg (by decide), if_pos rfl]

theorem Timed.tick (h : Timed hist s) :
    Timed (hist ++ [(s, .tick)]) (notify { s with timer := timerTick s.timer } reactTimer 0) := by
  have harm : arms (s, Event.tick) = none := rfl
  have hl := timerTick_holds h.chain.holds
  have hq : waiting (deposit queueSize s.mail reactTimer 0) reactCmdTimeout =
      waiting s.mail reactCmdTimeout := by rw [waiting_deposit, if_neg (by decide)]
  have hdelay : armedDelay (hist ++ [(s, Event.tick)]) = armedDelay hist := by
    rw [armedDelay_concat, if_neg (by simp [harm])]
  refine ⟨?_, fun h' => ?_, fun hm hroom => ?_⟩
  · rw [hdelay, ticksSinceArm_concat, if_neg (by simp [harm]), if_pos rfl]
    show Chain _ _ _ _ (timerTick s.timer) (waiting (deposit _ _ _ _) reactCmdTimeout)
    rw [hq]
    exact h.chain.tick
  · show timersFor _ (timerTick s.timer).pending = [] ∧ waiting (deposit _ _ _ _) _ = []
    rw [hq, hl.pending_eq]
    exact h.unarmed (hdelay ▸ h')
  · show timersFor _ (timerTick s.timer).pending = []
    have hroom' : (timerTick s.timer).pending.length < timerMaxCallback := hroom
    rw [hl.pending_eq] at hroom' ⊢
    exact h.still hm hroom'

/-- **A dispatch** makes the timer of the timeout a notification. -/
theorem Timed.dispatch (h : Timed hist s) {mail : Mailroom ℕ} {d : List (ℕ × ℕ) × Timer}
    (hq : waiting mail reactCmdTimeout = waiting s.mail reactCmdTimeout)
    (hd : timerDispatch fuel s.timer = some d) :
    Timed (hist ++ [(s, .run reactTimer around)])
      { s with timer := d.2, mail := depositAll queueSize mail d.1 } := by
  obtain ⟨-, -, fired, hsplit, -, hwait⟩ :=
    timersFor_dispatch h.chain.holds (fun f hf => (h.chain.own f hf).2.1) hd
  refine h.keeps (arms_of_not_door (by decide)) (by simp) ?_ (fun h' => ?_) fun hm hroom => ?_
  · show Chain _ _ _ _ _ (waiting (depositAll queueSize mail _) reactCmdTimeout)
    rw [waiting_depositAll, hq]
    exact h.chain.dispatch hd (by decide)
  · rw [hsplit, List.append_eq_nil_iff] at h'
    refine ⟨h'.1.2, ?_⟩
    show waiting (depositAll queueSize mail _) reactCmdTimeout = []
    rw [waiting_depositAll, hq, hwait, h'.1.1, h'.2]
    rfl
  · -- a full list is not dispatched
    have hroom' : s.timer.pending.length < timerMaxCallback := by
      refine h.chain.holds.length_le.lt_of_ne fun hfull => ?_
      rw [timerDispatch_full h.chain.holds hfull hd] at hroom
      exact absurd hfull (show s.timer.pending.length < _ from hroom).ne
    have hnil := h.still hm hroom'
    rw [hsplit, List.append_eq_nil_iff] at hnil
    exact hnil.2

/-- An event that is not a timeout, from a state with the timers of before. -/
theorem Timed.event (h : Timed hist s) (s₁ : State) {event : DoorEvent} (he : e ≠ .tick)
    (harms : ArmsFresh (s, e)) (hcancels : CancelsOwn (s, e)) (hne : event ≠ .timeout)
    (hevent : doorEvent (s, e) = some event) (ht : s₁.timer = s.timer)
    (hd : s₁.doorSm = s.doorSm) (hv : s₁.valveTimer = s.valveTimer)
    (hq : waiting s₁.mail reactCmdTimeout = waiting s.mail reactCmdTimeout)
    (hok : processEvent s₁ event = .ok s') : Timed (hist ++ [(s, e)]) s' := by
  refine h.process s₁ event he hevent harms hcancels ht hd hv ?_ hq.trans
    (fun h' => absurd h' hne) hok
  rw [TimeoutChain, ht, hv, hq]
  exact h.chain

/-- **A change of a sensor** of the door. -/
theorem Timed.sensor (h : Timed hist s) (harms : ArmsFresh (s, .run reactDoorSensor around))
    (hcancels : CancelsOwn (s, .run reactDoorSensor around)) {mail : Mailroom ℕ} {rest : List ℕ}
    (hw : waiting s.mail reactDoorSensor = arg :: rest)
    (hq : waiting mail reactCmdTimeout = waiting s.mail reactCmdTimeout)
    (hok : onDoorSensorChange { s with mail := mail } arg = .ok s') :
    Timed (hist ++ [(s, .run reactDoorSensor around)]) s' := by
  have hevent : doorEvent (s, .run reactDoorSensor around) = _ := doorEvent_sensor hw
  unfold onDoorSensorChange at hok
  split at hok
  · next hdown =>
    rw [if_pos hdown] at hevent
    exact h.event
      { s with mail := mail, pins := ioportSetPinLevel s.pins ocDoorClosed (argValue arg) }
      (by simp) harms hcancels (by split <;> simp) hevent rfl rfl rfl hq hok
  · next hdown =>
    rw [if_neg hdown] at hevent
    split at hok
    · next hup =>
      rw [if_pos hup] at hevent
      exact h.event { s with mail := mail } (by simp) harms hcancels (by split <;> simp)
        hevent rfl rfl rfl hq hok
    · next hup =>
      rw [if_neg hup] at hevent
      obtain rfl := Except.ok.inj hok
      have harm : arms (s, .run reactDoorSensor around) = none := by
        rw [arms, doorAction, hevent]
        rfl
      exact h.other (A := fun _ => False) harm (by simp) (Timer.Served.refl _ _)
        (fun _ h => h.elim) hq rfl rfl

/-- **The timeout** takes the notification of the chain. -/
theorem Timed.timeout (h : Timed hist s) (harms : ArmsFresh (s, .run reactCmdTimeout around))
    (hcancels : CancelsOwn (s, .run reactCmdTimeout around)) {mail : Mailroom ℕ}
    (hcol : collect s.mail reactCmdTimeout = some (arg, mail))
    (hok : processEvent { s with mail := mail } .timeout = .ok s') :
    Timed (hist ++ [(s, .run reactCmdTimeout around)]) s' := by
  obtain ⟨rest, hw, hmail⟩ := collect_eq_some hcol
  have htaken := h.chain
  rw [TimeoutChain, hw] at htaken
  obtain ⟨hnil, hrest, hchain⟩ := htaken.take
  have hq : waiting mail reactCmdTimeout = [] := by rw [hmail, if_pos rfl, hrest]
  refine h.process { s with mail := mail } .timeout (by simp) ?_ harms hcancels rfl rfl rfl
    (hq.symm ▸ hchain) (fun _ => hq) (fun _ => hnil) hok
  rw [doorEvent]
  dsimp only
  rw [hw]
  dsimp only
  rw [if_neg (by decide), if_neg (by decide), if_pos rfl]

/-- **The step lemma.** -/
theorem Timed.step (ho : Orderly s) (h : Timed hist s) (harms : ArmsFresh (s, e))
    (hcancels : CancelsOwn (s, e)) (hr : Reacts fuel s e (.ok s')) : Timed (hist ++ [(s, e)]) s' := by
  cases hr with
  | tick => exact h.tick
  | twi status hlocked =>
    obtain ⟨transfer, mail, heq, hmail⟩ := twiInterrupt_spec s status
    rw [heq]
    exact h.other (A := fun _ => False) rfl (by simp) (Timer.Served.refl _ _) (fun _ h => h.elim)
      (hmail _ (by decide) (by decide)) rfl rfl
  | @run handle arg mail around _ hcol hhandles =>
    obtain ⟨h₀, -⟩ := ho.collect hcol
    obtain ⟨rest, hw, hmail⟩ := collect_eq_some hcol
    have hkept : reactCmdTimeout ≠ handle →
        waiting mail reactCmdTimeout = waiting s.mail reactCmdTimeout := fun hne => by
      rw [hmail, if_neg hne]
    generalize hok : (Except.ok s' : Except State State) = r at hhandles
    -- only the handlers of the door arm the timeout
    by_cases hdoor : handle ∈ [reactDoorSensor, reactDoorCmd, reactCmdTimeout]
    · cases hhandles with
      | doorSensor => exact h.sensor harms hcancels hw (hkept (by decide)) hok.symm
      | doorCmd =>
        exact h.event { s with mail := mail } (by simp) harms hcancels (by split <;> simp)
          (by simp [doorEvent, hw]) rfl rfl rfl (hkept (by decide)) hok.symm
      | cmdTimeout => exact h.timeout harms hcancels hcol hok.symm
      | _ => exact absurd hdoor (by decide)
    · have harm : arms (s, .run handle around) = none := arms_of_not_door hdoor
      have hq := hkept fun heq => hdoor (by rw [← heq]; decide)
      by_cases hspecial : handle ∈ [reactTimer, reactSample]
      · cases hhandles with
        | timer hd =>
          obtain rfl := Except.ok.inj hok
          exact h.dispatch hq hd
        | sample =>
          obtain rfl := Except.ok.inj hok
          exact h.other (A := fun _ => False) harm (by simp) (Timer.Served.refl _ _)
            (fun _ h => h.elim) ((h₀.sample_waiting around.high (by decide)).trans hq) rfl rfl
        | _ => exact absurd hspecial (by decide)
      · have hmade := handles_made hhandles hspecial
        have hcs : .valve ∉ concerns handle ∧ .door ∉ concerns handle := by
          cases hhandles with
          | doorSensor | doorCmd | cmdTimeout => exact absurd (by decide) hdoor
          | timer _ | sample => exact absurd (by decide) hspecial
          | _ => decide
        have hf := hmade.frame_ok hok.symm
        exact h.other harm (by simp) (hmade.served_ok hok.symm) (fun _ => TimerOf.ne_timeout hcs.1)
          ((hf.waiting _ (by decide)).trans hq) (hf.valveTimer hcs.1) (hf.doorSm hcs.2)

/-! ## Runs -/

theorem start_timed : Timed [] start := by
  have hnone : timersFor reactCmdTimeout start.timer.pending = [] ∧
      waiting start.mail reactCmdTimeout = [] := by decide +kernel
  obtain ⟨l, hl, -⟩ := start_orderly.timers
  refine ⟨⟨hl.holds_pending, by simp [hnone], fun f hf => ?_, fun h => absurd hnone.2 h⟩,
    fun _ => hnone, fun _ _ => hnone.1⟩
  rw [hnone.1] at hf
  cases hf

/-- The run lemma. -/
theorem timed_of_run (hr : Run (step fuel) start hist s)
    (hall : ∀ p ∈ hist, ArmsFresh p ∧ CancelsOwn p) : Timed hist s := by
  induction hr with
  | nil => exact start_timed
  | @snoc _ s _ e hrun hs ih =>
    obtain ⟨harms, hcancels⟩ := hall (s, e) (by simp)
    exact (ih fun p hp => hall p (by simp [hp])).step (orderly_of_run hrun) harms hcancels
      (reacts_of_step hs)

/-- A timeout is handled where one is queued. -/
theorem waiting_of_timeout (h : doorEvent p = some .timeout) :
    waiting p.1.mail reactCmdTimeout ≠ [] := by
  unfold doorEvent at h
  split at h
  · next handle around _ =>
    split at h
    · cases h
    · next arg rest hw =>
      by_cases hhandle : handle = reactCmdTimeout
      · rw [← hhandle, hw]
        simp
      · rw [if_neg hhandle] at h
        split_ifs at h <;> cases h
  · cases h

/-- **When timeouts are timely**: in every run in which the timer of the
valve is armed only when no timeout is queued, and not as the counter
wraps, and cancelling it hits no other timer. -/
theorem timely_timeouts (hr : Run (step fuel) start hist s)
    (hall : ∀ p ∈ hist, ArmsFresh p ∧ CancelsOwn p) : TimelyTimeouts hist := by
  rintro h₁ ⟨a, e⟩ h₂ rfl hmoving hevent
  have htimed := timed_of_run hr.step_of_mem.1 fun p hp => hall p (by simp [hp])
  have hqueued := waiting_of_timeout hevent
  cases hdelay : armedDelay h₁ with
  | none => exact absurd (htimed.unarmed hdelay).2 hqueued
  | some d =>
    have := htimed.chain.elapsed hqueued
    rw [hdelay, Option.getD_some] at this
    exact ⟨d, rfl, this⟩

/-! ## A door that moves as its timeout goes off -/

/-- The steps in which timeouts are timely, as the reactor takes them. -/
def timelyStep : State → Event → Option State :=
  guarded (fun p => mostUrgent p && (decide (ArmsFresh p) && decide (CancelsOwn p))) (step 64)

theorem timelyStep_tick (s : State) : timelyStep s .tick = step 64 s .tick := by
  have harms : ArmsFresh (s, Event.tick) := by simp [ArmsFresh, arms, doorAction, doorEvent]
  have hcancels : CancelsOwn (s, Event.tick) := by simp [CancelsOwn, doorAction, doorEvent]
  rw [timelyStep, guarded, if_pos (by simp [mostUrgent, harms, hcancels])]

/-- The door is down, and is told to open 40 ms later. Its sensor reads so
for 2960 ms, and no more for one sample less than it takes to settle. -/
def beforeTimeout : Option State :=
  stages timelyStep [([inDoorDown], 4, 8), ([inDoorDown, inDoorOpenClose], 4, 8),
    ([inDoorDown, inDoorOpenClose], 99, 29), ([inDoorDown, inDoorOpenClose], 59, 1),
    ([inDoorOpenClose], 4, 7)] start

/-- The bus is busy, and these inputs are high. -/
def withBusy (high : List ℕ) : Surroundings := ⟨high, true⟩

/-- The time of the next sample, at which the timeout goes off. -/
def lastReading (high : List ℕ) : List Event :=
  List.replicate 5 .tick ++ [.run reactTimer (withBusy high), .run reactDigitalOutput (withBusy high),
    .run reactI2cCommand (withBusy high), .run reactSample (withBusy high)]

theorem beforeTimeout_leads : ∃ s, beforeTimeout = some s ∧
    (runEvents timelyStep (lastReading [inDoorDown, inDoorOpenClose]) s).any (fun s₁ =>
      moving s₁ && decide (doorEvent (s₁, .run reactCmdTimeout idle) = some .timeout) &&
        (timelyStep s₁ (.run reactCmdTimeout idle)).isSome) = true ∧
    (runEvents (guarded mostUrgent (step 64)) (lastReading [inDoorOpenClose]) s).any (fun s₁ =>
      decide (arms (s₁, .run reactDoorSensor idle) = some completeTimeout) &&
      (guarded mostUrgent (step 64) s₁ (.run reactDoorSensor idle)).any fun s₂ =>
        moving s₂ && decide (doorEvent (s₂, .run reactCmdTimeout idle) = some .timeout) &&
        (guarded mostUrgent (step 64) s₂ (.run reactCmdTimeout idle)).any fun s => !moving s)
      = true := by
  have heval : beforeTimeout.any (fun s =>
      (runEvents timelyStep (lastReading [inDoorDown, inDoorOpenClose]) s).any (fun s₁ =>
        moving s₁ && decide (doorEvent (s₁, .run reactCmdTimeout idle) = some .timeout) &&
          (timelyStep s₁ (.run reactCmdTimeout idle)).isSome) &&
      (runEvents (guarded mostUrgent (step 64)) (lastReading [inDoorOpenClose]) s).any (fun s₁ =>
        decide (arms (s₁, .run reactDoorSensor idle) = some completeTimeout) &&
        (guarded mostUrgent (step 64) s₁ (.run reactDoorSensor idle)).any fun s₂ =>
          moving s₂ && decide (doorEvent (s₂, .run reactCmdTimeout idle) = some .timeout) &&
          (guarded mostUrgent (step 64) s₂ (.run reactCmdTimeout idle)).any fun s => !moving s))
      = true := by decide +kernel
  obtain ⟨s, hs, hchecks⟩ := (Option.any_eq_true _ _).mp heval
  rw [Bool.and_eq_true] at hchecks
  exact ⟨s, hs, hchecks⟩

/-- A door that does not move is given up in time. -/
theorem timely_timeouts_stuck : ∃ hist s, Run (step 64) start hist s ∧
    (∃ p ∈ hist, moving p.1 = true ∧ doorEvent p = some .timeout) ∧ TimelyTimeouts hist := by
  obtain ⟨s₀, h₀, hstuck, -⟩ := beforeTimeout_leads
  obtain ⟨s₁, h₁, hchecks⟩ := (Option.any_eq_true _ _).mp hstuck
  rw [Bool.and_eq_true, Bool.and_eq_true, decide_eq_true_iff] at hchecks
  obtain ⟨⟨hmoving, hevent⟩, hsome⟩ := hchecks
  obtain ⟨s, hs⟩ := Option.isSome_iff_exists.mp hsome
  obtain ⟨hist₀, hr₀⟩ := run_of_stages timelyStep_tick h₀
  obtain ⟨hist₁, hr₁, -⟩ := exists_run_of_runEvents h₁
  obtain ⟨hr, hall⟩ := ((hr₀.trans hr₁).snoc hs).of_guarded
  refine ⟨_, s, hr, ⟨(s₁, .run reactCmdTimeout idle), by simp, hmoving, hevent⟩,
    timely_timeouts hr fun p hp => ?_⟩
  have hp' := hall p hp
  rw [Bool.and_eq_true, Bool.and_eq_true, decide_eq_true_iff, decide_eq_true_iff] at hp'
  exact hp'.2

/-- **A door that moves as its timeout goes off** is given up at once,
when the new timeout has just been armed. -/
theorem timely_timeouts_fail_lastReading : ∃ hist s₁ s₂ s,
    Run (step 64) start
      (hist ++ [(s₁, .run reactDoorSensor idle), (s₂, .run reactCmdTimeout idle)]) s ∧
    (∀ p ∈ hist ++ [(s₁, .run reactDoorSensor idle), (s₂, .run reactCmdTimeout idle)],
      mostUrgent p = true) ∧
    arms (s₁, .run reactDoorSensor idle) = some completeTimeout ∧
    moving s₂ = true ∧ moving s = false ∧
    ¬ TimelyTimeouts (hist ++ [(s₁, .run reactDoorSensor idle), (s₂, .run reactCmdTimeout idle)]) := by
  obtain ⟨s₀, h₀, -, hmoves⟩ := beforeTimeout_leads
  obtain ⟨s₁, h₁, hchecks⟩ := (Option.any_eq_true _ _).mp hmoves
  rw [Bool.and_eq_true, decide_eq_true_iff] at hchecks
  obtain ⟨harm, hsensor⟩ := hchecks
  obtain ⟨s₂, h₂, hchecks⟩ := (Option.any_eq_true _ _).mp hsensor
  rw [Bool.and_eq_true, Bool.and_eq_true, decide_eq_true_iff] at hchecks
  obtain ⟨⟨hmoving, hevent⟩, htimeout⟩ := hchecks
  obtain ⟨s, hs, hstill⟩ := (Option.any_eq_true _ _).mp htimeout
  obtain ⟨hist₀, hr₀⟩ := run_of_stages timelyStep_tick h₀
  obtain ⟨hist, hr, hurgent⟩ := exists_run_of_last_two hr₀ h₁ h₂ hs
  refine ⟨hist, s₁, s₂, s, hr, hurgent, harm, hmoving, by simpa using hstill, fun htimely => ?_⟩
  obtain ⟨d, hd, hle⟩ := htimely (hist ++ [(s₁, .run reactDoorSensor idle)])
    (s₂, .run reactCmdTimeout idle) [] (by simp) hmoving hevent
  rw [armedDelay_concat, if_pos (by simp [harm]), harm] at hd
  rw [ticksSinceArm_concat, if_pos (by simp [harm]), ← Option.some.inj hd] at hle
  exact absurd hle (by decide)

end Controller

end CncPneumatics
