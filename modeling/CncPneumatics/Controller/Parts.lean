import CncPneumatics.Controller.Services
/-!
# The parts of the handlers

Every handler but those of the timers and of the inputs is a sequence of a
few parts, each a call of a service or the change of a variable. What a
part is about says which variables it can change, and so what a handler
leaves alone.
-/

namespace CncPneumatics

open Asx

namespace Controller

variable {fuel handle arg n : ℕ} {s s' s'' : State} {around : Surroundings}
  {r : Except State State}

/-! ## The parts -/

/-- What the handlers are made of. -/
inductive Part where
  | outputSet (handle : ℕ) (value : Bool)
  | outputStart (handle referenceTime : ℕ) (sequence : List Char) (rep : Bool)
  | outputNext (handle : ℕ)
  | startTone (pwmValue duration : ℕ)
  | stopTone
  | play (tempo : ℕ) (music : List Char)
  | nextNote
  | armTransmit (delay : ℕ)
  | trigger
  | setStatuses (statuses : List OutputStatus)
  | setCommand (command : Opcode)
  | armValve (delay : ℕ)
  | cancelValve
  | setDoor (next : DoorState)
  | setDoorPin (value : Bool)
  | setErrors (count : ℕ)
  | stop
  | endGrace
  | send

/-- What a part does. -/
def Part.run : Part → State → Except State State
  | .outputSet handle value, s => Controller.outputSet s handle value
  | .outputStart handle referenceTime sequence rep, s =>
    Controller.outputStart s handle referenceTime sequence rep
  | .outputNext handle, s =>
    onOutput s handle (digitalOutputReactorHandler reactDigitalOutput handle)
  | .startTone pwmValue duration, s => onSound s (piezzoStartTone reactToneStop pwmValue duration)
  | .stopTone, s => onSound s fun p => .ok (piezzoStopTone p)
  | .play tempo music, s => onSound s (piezzoPlay reactPiezzo tempo music)
  | .nextNote, s => onSound s (playNextNote reactPiezzo)
  | .armTransmit delay, s =>
    armTimer s reactI2cCommand delay fun s inst => { s with transmitTimer := inst }
  | .trigger, s => triggerNextTransmit s
  | .setStatuses statuses, s => .ok { s with outputStatuses := statuses }
  | .setCommand command, s => .ok { s with currentCommand := command }
  | .armValve delay, s => valveArmTimer s delay
  | .cancelValve, s => .ok (valveCancelTimer s)
  | .setDoor next, s => .ok { s with doorSm := next }
  | .setDoorPin value, s => .ok { s with pins := ioportSetPinLevel s.pins ocDoorClosed value }
  | .setErrors count, s => .ok { s with commsErrorCount := count }
  | .stop, s => .ok { s with stopTransmit := true }
  | .endGrace, s => .ok (onCommsGraceOver s)
  | .send, s => .ok (i2cMasterSend s s.currentCommand)

/-- What a part can be about. -/
inductive Concern where
  | output
  | tone
  | tune
  | transmit
  | trigger
  | command
  | valve
  | door
  | pin
  | errors
  | stop
  | grace
  | bus
deriving DecidableEq

@[simp] def Part.concern : Part → Concern
  | .outputSet .. | .outputStart .. | .outputNext _ => .output
  | .startTone .. | .stopTone => .tone
  | .play .. | .nextNote => .tune
  | .armTransmit _ => .transmit
  | .trigger => .trigger
  | .setStatuses _ | .setCommand _ => .command
  | .armValve _ | .cancelValve => .valve
  | .setDoor _ => .door
  | .setDoorPin _ => .pin
  | .setErrors _ => .errors
  | .stop => .stop
  | .endGrace => .grace
  | .send => .bus

/-- Made of at most `n` parts with these concerns. -/
def Made (cs : List Concern) (n : ℕ) (s : State) (r : Except State State) : Prop :=
  MadeOf Part.run (fun p => p.concern ∈ cs) n s r

namespace Made

variable {cs cs' : List Concern} {m : ℕ} {f : State → Except State State} {p : Part}

theorem nothing (s : State) : Made cs 0 s (.ok s) := MadeOf.nothing s

theorem part (p : Part) (hp : p.concern ∈ cs) (s : State) : Made cs 1 s (p.run s) :=
  MadeOf.part (p := p) hp s

theorem mono (h : Made cs n s r) (hcs : cs ⊆ cs') (hn : n ≤ m) : Made cs' m s r :=
  MadeOf.mono h (fun _ hp => hcs hp) hn

theorem bind (h : Made cs n s r) (hf : ∀ s₁, Made cs m s₁ (f s₁)) : Made cs (n + m) s (r.bind f) :=
  MadeOf.bind h fun s₁ _ => hf s₁

theorem map {g : State → State} (h : Made cs n s r) (p : Part) (hp : p.concern ∈ cs)
    (hg : ∀ s, p.run s = .ok (g s)) : Made cs (n + 1) s (r.map g) :=
  MadeOf.map (p := p) (A := fun p : Part => p.concern ∈ cs) h hp hg

theorem le (h : Made cs n s r) (hn : n ≤ m) : Made cs m s r := h.mono (List.Subset.refl _) hn

end Made

/-! ## What handlers are made of -/

theorem onI2cError_made (s : State) : Made [.errors, .output, .tone, .stop] 5 s (onI2cError s) := by
  have hmany : ∀ s₁, Made [.errors, .output, .tone, .stop] 4 s₁
      ((outputSet s₁ chuckReleasedOc false).bind fun s =>
        (outputSet s ledFault true).bind fun s =>
        (onSound s (piezzoStartTone reactToneStop (piezzoFreqToPwm 2000) (timerSeconds 5))).map
          fun s => { s with stopTransmit := true }) := fun s₁ => by
    refine Made.bind (m := 3) (Made.part (.outputSet _ _) (by simp) s₁) fun s₂ => ?_
    refine Made.bind (m := 2) (Made.part (.outputSet _ _) (by simp) s₂) fun s₃ => ?_
    exact Made.map (Made.part (.startTone _ _) (by simp) s₃) .stop (by simp) fun _ => rfl
  have hfew : ∀ s₁, Made [.errors, .output, .tone, .stop] 4 s₁
      (outputStart s₁ ledFault (timerMilliseconds 50) ['+', '-'] false) := fun s₁ =>
    (Made.part (.outputStart _ _ _ _) (by simp) s₁).le (by omega)
  unfold onI2cError
  dsimp only
  split
  · exact Made.bind (Made.part (.setErrors (errorCountAfter s)) (by simp) s) hmany
  · exact Made.bind (Made.part (.setErrors (errorCountAfter s)) (by simp) s) hfew

theorem onI2cRead_made (s : State) (arg : ℕ) : Made [.errors, .output] 2 s (onI2cRead s arg) := by
  have hset : ∀ s₁, Made [.errors, .output] 1 s₁ (outputSet s₁ chuckReleasedOc (arg ≠ 0)) :=
    fun s₁ => Made.part (.outputSet _ _) (by simp) s₁
  unfold onI2cRead
  dsimp only
  split
  · exact Made.bind (Made.part (.setErrors (s.commsErrorCount - 1)) (by simp) s) hset
  · exact (hset s).le (by omega)

theorem onSendI2cCommand_made (s : State) (busy : Bool) :
    Made [.errors, .output, .tone, .stop, .bus, .transmit] 6 s (onSendI2cCommand s busy) := by
  unfold onSendI2cCommand
  split
  · refine Made.bind (n := 5) (m := 1) ?_ fun s₁ => Made.part (.armTransmit _) (by simp) s₁
    split
    · exact (onI2cError_made s).mono (by decide) le_rfl
    · exact (Made.part .send (by simp) s).le (by omega)
  · exact (Made.nothing s).le (by omega)

theorem refreshOpcode_made (s : State) : Made [.command, .trigger] 2 s (refreshOpcode s) := by
  unfold refreshOpcode
  dsimp only
  split
  · exact Made.bind (f := triggerNextTransmit)
      (Made.part (.setCommand (firstOpcode s.outputStatuses)) (by simp) s)
      fun s₁ => Made.part .trigger (by simp) s₁
  · exact (Made.nothing s).le (by omega)

theorem onInputChange_made (s : State) (arg : ℕ) :
    Made [.command, .trigger, .output] 4 s (onInputChange s arg) := by
  unfold onInputChange
  refine Made.bind (n := 3) (m := 1) ?_ fun s₁ => ?_
  · split
    · exact Made.bind (m := 2) (f := refreshOpcode) (Made.part (.setStatuses _) (by simp) s)
        fun s₁ => (refreshOpcode_made s₁).mono (by decide) le_rfl
    · exact (Made.nothing s).le (by omega)
  · split
    · exact Made.part (.outputSet _ _) (by simp) s₁
    · exact (Made.nothing s₁).le (by omega)

/-- What a movement of the door is about. -/
@[simp] def doorConcerns : List Concern := [.command, .trigger, .output, .valve, .door, .pin]

theorem moveOn_made (s : State) (pin led : ℕ) : Made doorConcerns 6 s (moveOn s pin led) := by
  refine Made.bind (m := 2) ((onInputChange_made s _).mono (by decide) le_rfl) fun s₁ => ?_
  refine Made.bind (m := 1) (Made.part (.outputStart _ _ _ _) (by simp) s₁) fun s₂ => ?_
  exact Made.part (.armValve _) (by simp) s₂

theorem moveOff_made (s : State) (pin led : ℕ) : Made doorConcerns 6 s (moveOff s pin led) := by
  refine Made.bind (m := 2) ((onInputChange_made s _).mono (by decide) le_rfl) fun s₁ => ?_
  exact Made.map (Made.part (.outputSet _ _) (by simp) s₁) .cancelValve (by simp)
    fun _ => rfl

theorem moveTimeout_made (s : State) (pin led : ℕ) :
    Made [.command, .trigger, .output] 6 s (moveTimeout s pin led) := by
  refine Made.bind (m := 2) (onInputChange_made s _) fun s₁ => ?_
  exact (Made.part (.outputStart _ _ _ _) (by simp) s₁).le (by omega)

theorem doorMoving_made (s : State) : Made doorConcerns 2 s (doorMoving s) :=
  Made.bind (f := fun s => valveArmTimer s completeTimeout)
    (Made.part .cancelValve (by simp) s) fun s₁ => Made.part (.armValve _) (by simp) s₁

theorem doorAct_made (s : State) (action : DoorAction) :
    Made doorConcerns 6 s (doorAct s action) := by
  cases action with
  | none => exact (Made.nothing s).le (by omega)
  | pushOn | pullOn => exact moveOn_made s _ _
  | pushOff | pullOff => exact moveOff_made s _ _
  | pushTimeout | pullTimeout => exact (moveTimeout_made s _ _).mono (by decide) le_rfl
  | doorMoving => exact (doorMoving_made s).le (by omega)

theorem processEvent_made (s : State) (event : DoorEvent) :
    Made doorConcerns 7 s (processEvent s event) := by
  unfold processEvent
  split
  · exact Made.map (doorAct_made s _) (.setDoor _) (by simp) fun _ => rfl
  · exact (Made.nothing s).le (by omega)

theorem onDoorSensorChange_made (s : State) (arg : ℕ) :
    Made doorConcerns 8 s (onDoorSensorChange s arg) := by
  unfold onDoorSensorChange
  split
  · exact Made.bind (f := fun s => processEvent s _)
      (Made.part (.setDoorPin (argValue arg)) (by simp) s) fun s₁ => processEvent_made s₁ _
  · split
    · exact (processEvent_made s _).le (by omega)
    · exact (Made.nothing s).le (by omega)

/-- What a handler is about. -/
def concerns (handle : ℕ) : List Concern :=
  [[.tune], [.errors, .output, .tone, .stop, .bus, .transmit], [.errors, .output], [.tone],
   [.errors, .output, .tone, .stop], [.command, .trigger, .output], doorConcerns, doorConcerns,
   doorConcerns, [.grace], [], [.output], [], [], [], [.tune], [.tone]].getD handle []

/-- **Every handler** but those of the timers and the inputs is made of
parts with its concerns. -/
theorem handles_made (h : Handles fuel s arg around handle r)
    (hne : handle ∉ [reactTimer, reactSample]) : Made (concerns handle) 8 s r := by
  cases h with
  | timer _ | sample => exact absurd (by decide) hne
  | beep => exact (Made.part (.play _ _) (show Concern.tune ∈ _ by decide) s).le (by omega)
  | i2cCommand => exact (onSendI2cCommand_made s _).mono (by decide) (by omega)
  | i2cRead => exact (onI2cRead_made s _).mono (by decide) (by omega)
  | sounder =>
    unfold onSounder
    split
    · exact (Made.part (.startTone _ _) (show Concern.tone ∈ _ by decide) s).le (by omega)
    · exact (Made.part .stopTone (show Concern.tone ∈ _ by decide) s).le (by omega)
  | i2cError => exact (onI2cError_made s).mono (by decide) (by omega)
  | inputChange => exact (onInputChange_made s _).mono (by decide) (by omega)
  | doorSensor => exact (onDoorSensorChange_made s _).mono (by decide) le_rfl
  | doorCmd | cmdTimeout => exact (processEvent_made s _).mono (by decide) (by omega)
  | graceOver => exact (Made.part .endGrace (show Concern.grace ∈ _ by decide) s).le (by omega)
  | digitalOutput =>
    exact (Made.part (.outputNext _) (show Concern.output ∈ _ by decide) s).le (by omega)
  | piezzo => exact (Made.part .nextNote (show Concern.tune ∈ _ by decide) s).le (by omega)
  | toneStop => exact (Made.part .stopTone (show Concern.tone ∈ _ by decide) s).le (by omega)

/-! ## What is left alone -/

/-- **What is left alone** by all that has these concerns. -/
structure Frame (cs : List Concern) (s s' : State) : Prop where
  inputs : s'.inputs = s.inputs
  mail : .bus ∉ cs → s'.mail = s.mail
  waiting : ∀ k, k ≠ reactI2cError → waiting s'.mail k = waiting s.mail k
  transfer : .bus ∉ cs → s'.transfer = s.transfer
  commsErrorCount : .errors ∉ cs → s'.commsErrorCount = s.commsErrorCount
  inGrace : .grace ∉ cs → s'.commsInErrorGracePeriodActive = s.commsInErrorGracePeriodActive
  stopTransmit : .stop ∉ cs → s'.stopTransmit = s.stopTransmit
  transmitTimer : .transmit ∉ cs → .trigger ∉ cs → s'.transmitTimer = s.transmitTimer
  currentCommand : .command ∉ cs → s'.currentCommand = s.currentCommand
  tune : .tune ∉ cs → s'.piezzo.timerInstance = s.piezzo.timerInstance ∧
    s'.piezzo.duration = s.piezzo.duration
  doorSm : .door ∉ cs → s'.doorSm = s.doorSm
  valveTimer : .valve ∉ cs → s'.valveTimer = s.valveTimer

variable {cs : List Concern}

theorem Frame.refl (cs : List Concern) (s : State) : Frame cs s s :=
  ⟨rfl, fun _ => rfl, fun _ _ => rfl, fun _ => rfl, fun _ => rfl, fun _ => rfl, fun _ => rfl,
    fun _ _ => rfl, fun _ => rfl, fun _ => ⟨rfl, rfl⟩, fun _ => rfl, fun _ => rfl⟩

theorem Frame.trans (h : Frame cs s s') (h' : Frame cs s' s'') : Frame cs s s'' where
  inputs := h'.inputs.trans h.inputs
  mail := fun hc => (h'.mail hc).trans (h.mail hc)
  waiting := fun k hk => (h'.waiting k hk).trans (h.waiting k hk)
  transfer := fun hc => (h'.transfer hc).trans (h.transfer hc)
  commsErrorCount := fun hc => (h'.commsErrorCount hc).trans (h.commsErrorCount hc)
  inGrace := fun hc => (h'.inGrace hc).trans (h.inGrace hc)
  stopTransmit := fun hc => (h'.stopTransmit hc).trans (h.stopTransmit hc)
  transmitTimer := fun hc hc' => (h'.transmitTimer hc hc').trans (h.transmitTimer hc hc')
  currentCommand := fun hc => (h'.currentCommand hc).trans (h.currentCommand hc)
  tune := fun hc =>
    ⟨(h'.tune hc).1.trans (h.tune hc).1, (h'.tune hc).2.trans (h.tune hc).2⟩
  doorSm := fun hc => (h'.doorSm hc).trans (h.doorSm hc)
  valveTimer := fun hc => (h'.valveTimer hc).trans (h.valveTimer hc)

/-- Arming a timer changes nothing but the timers, and what is done with
the number. -/
theorem resultState_armTimer (s : State) (reactor delay : ℕ) (store : State → ℕ → State) :
    resultState (armTimer s reactor delay store) = s ∨
      ∃ inst timer, timerArm s.timer reactor (timerGetCountFromNow s.timer delay) 0 0 =
          some (inst, timer) ∧
        resultState (armTimer s reactor delay store) = store { s with timer := timer } inst := by
  unfold armTimer
  split
  · next inst timer harm => exact .inr ⟨inst, timer, harm, rfl⟩
  · exact .inl rfl

/-- What arming a timer leaves where it does not stop. -/
theorem armTimer_eq_ok {reactor delay : ℕ} {store : State → ℕ → State}
    (h : armTimer s reactor delay store = .ok s') :
    ∃ inst timer, timerArm s.timer reactor (timerGetCountFromNow s.timer delay) 0 0 =
        some (inst, timer) ∧ s' = store { s with timer := timer } inst := by
  unfold armTimer at h
  split at h
  · next inst timer harm => exact ⟨inst, timer, harm, (Except.ok.inj h).symm⟩
  · cases h

/-- Tones leave the timer of the tune and the duration of its note. -/
theorem startTone_tune (reactor pwmValue duration : ℕ) (p : SoundState) :
    (resultState (piezzoStartTone reactor pwmValue duration p)).piezzo.timerInstance =
        p.piezzo.timerInstance ∧
      (resultState (piezzoStartTone reactor pwmValue duration p)).piezzo.duration =
        p.piezzo.duration := by
  unfold piezzoStartTone
  dsimp only
  split
  · split <;> exact ⟨rfl, rfl⟩
  · exact ⟨rfl, rfl⟩

theorem stopTone_tune (p : Piezzo) :
    (stopTone p).timerInstance = p.timerInstance ∧ (stopTone p).duration = p.duration := by
  unfold Asx.stopTone
  dsimp only
  split <;> exact ⟨rfl, rfl⟩

/-- One case a part. -/
theorem Part.frame (p : Part) (hp : p.concern ∈ cs) (s : State) :
    Frame cs s (resultState (p.run s)) := by
  cases p with
  | outputSet | outputStart | outputNext =>
    simp only [Part.run, Controller.outputSet, Controller.outputStart, onOutput, resultState_within]
    exact { Frame.refl cs s with }
  | startTone pwmValue duration =>
    simp only [Part.run, onSound, resultState_within]
    exact { Frame.refl cs s with tune := fun _ => startTone_tune _ _ _ _ }
  | stopTone =>
    simp only [Part.run, onSound, resultState_within]
    exact { Frame.refl cs s with tune := fun _ => stopTone_tune _ }
  | play | nextNote =>
    simp only [Part.run, onSound, resultState_within]
    exact { Frame.refl cs s with tune := fun hc => absurd hp hc }
  | armTransmit delay =>
    rcases resultState_armTimer s reactI2cCommand delay
      fun s inst => { s with transmitTimer := inst } with heq | ⟨inst, timer, -, heq⟩
    · rw [Part.run, heq]; exact Frame.refl cs s
    · rw [Part.run, heq]
      exact { Frame.refl cs s with transmitTimer := fun hc => absurd hp hc }
  | trigger =>
    -- cancelling first only changes the timers
    obtain ⟨timer, htrigger⟩ : ∃ timer, triggerNextTransmit s =
        armTimer { s with timer := timer } reactI2cCommand (timerMilliseconds 1)
          fun s inst => { s with transmitTimer := inst } := by
      unfold triggerNextTransmit
      dsimp only
      split
      · exact ⟨_, rfl⟩
      · exact ⟨_, rfl⟩
    rcases resultState_armTimer { s with timer := timer } reactI2cCommand (timerMilliseconds 1)
      fun s inst => { s with transmitTimer := inst } with heq | ⟨inst, timer', -, heq⟩
    · rw [Part.run, htrigger, heq]
      exact { Frame.refl cs s with }
    · rw [Part.run, htrigger, heq]
      exact { Frame.refl cs s with transmitTimer := fun _ hc => absurd hp hc }
  | armValve delay =>
    rcases resultState_armTimer s reactCmdTimeout delay
      fun s inst => { s with valveTimer := inst } with heq | ⟨inst, timer, -, heq⟩
    · rw [Part.run, valveArmTimer, heq]; exact Frame.refl cs s
    · rw [Part.run, valveArmTimer, heq]
      exact { Frame.refl cs s with valveTimer := fun hc => absurd hp hc }
  | setStatuses | cancelValve | setDoorPin => exact { Frame.refl cs s with }
  | setCommand => exact { Frame.refl cs s with currentCommand := fun hc => absurd hp hc }
  | setDoor => exact { Frame.refl cs s with doorSm := fun hc => absurd hp hc }
  | setErrors => exact { Frame.refl cs s with commsErrorCount := fun hc => absurd hp hc }
  | stop => exact { Frame.refl cs s with stopTransmit := fun hc => absurd hp hc }
  | endGrace => exact { Frame.refl cs s with inGrace := fun hc => absurd hp hc }
  | send =>
    simp only [Part.run, i2cMasterSend, resultState_ok]
    split
    · refine { Frame.refl cs s with
        mail := fun hc => absurd hp hc
        waiting := fun k hk => ?_
        transfer := fun hc => absurd hp hc }
      show CncPneumatics.waiting (deposit queueSize s.mail reactI2cError _) k = _
      rw [waiting_deposit, if_neg hk]
    · exact { Frame.refl cs s with transfer := fun hc => absurd hp hc }

/-- What a part that does not stop leaves alone. -/
theorem Part.frame_ok {p : Part} (h : p.run s = .ok s') : Frame [p.concern] s s' := by
  have hframe := p.frame (List.mem_singleton_self _) s
  rwa [h] at hframe

/-- **What a handler leaves alone.** -/
theorem Made.frame (h : Made cs n s r) : Frame cs s (resultState r) :=
  h.relates (Frame.refl cs) (fun _ _ _ => Frame.trans) fun p s hp => p.frame hp s

theorem Made.frame_ok (h : Made cs n s r) (hr : r = .ok s') : Frame cs s s' := by
  have hframe := h.frame
  rwa [hr] at hframe

/-! ## Timers -/

/-- The handler to which the timers of a part go off. -/
def Concern.timed : Concern → Option ℕ
  | .output => some reactDigitalOutput
  | .tone => some reactToneStop
  | .tune => some reactPiezzo
  | .transmit | .trigger => some reactI2cCommand
  | .valve => some reactCmdTimeout
  | _ => none

/-- A timer of one of the concerns. -/
def TimerOf (cs : List Concern) (f : TimerFuture) : Prop := ∃ c ∈ cs, c.timed = some f.reactor

theorem armTimer_served {reactor delay : ℕ} {store : State → ℕ → State}
    (hr : reactor ≠ reactorNullHandle) (hstore : ∀ s inst, (store s inst).timer = s.timer)
    (hA : ∀ f : TimerFuture, f.reactor = reactor → TimerOf cs f) :
    Timer.Served (TimerOf cs) s.timer (resultState (armTimer s reactor delay store)).timer := by
  rcases resultState_armTimer s reactor delay store with heq | ⟨inst, timer, harm, heq⟩
  · rw [heq]; exact Timer.Served.refl _ _
  · rw [heq, hstore]
    exact Timer.Served.arm harm hr fun _ => hA _ rfl

theorem onOutput_served {f : OutputState → Except OutputState OutputState} {A : TimerFuture → Prop}
    (hf : ∀ o, Timer.Served A o.timer (resultState (f o)).timer) :
    Timer.Served A s.timer (resultState (onOutput s handle f)).timer := by
  rw [onOutput, resultState_within]
  exact hf ⟨s.timer, s.pins, s.outputs.getD handle default⟩

theorem onSound_served {f : SoundState → Except SoundState SoundState} {A : TimerFuture → Prop}
    (hf : ∀ p, Timer.Served A p.timer (resultState (f p)).timer) :
    Timer.Served A s.timer (resultState (onSound s f)).timer := by
  rw [onSound, resultState_within]
  exact hf ⟨s.timer, s.piezzo⟩

/-- One case a part. -/
theorem Part.served (p : Part) (hp : p.concern ∈ cs) (s : State) :
    Timer.Served (TimerOf cs) s.timer (resultState (p.run s)).timer := by
  have hkind : ∀ {k : ℕ}, p.concern.timed = some k → ∀ f : TimerFuture, f.reactor = k →
      TimerOf cs f := fun htimed f hf => ⟨_, hp, by rw [htimed, hf]⟩
  have harm : ∀ {k delay : ℕ} {store : State → ℕ → State}, p.concern.timed = some k →
      k ≠ reactorNullHandle → (∀ s inst, (store s inst).timer = s.timer) → ∀ s : State,
      Timer.Served (TimerOf cs) s.timer (resultState (armTimer s k delay store)).timer :=
    fun htimed hr hstore s => armTimer_served hr hstore (hkind htimed)
  cases p with
  | outputSet handle value =>
    refine onOutput_served (f := fun o => .ok (digitalOutputSet value o)) fun o => ?_
    have hs : OutputServes reactDigitalOutput 0 o (digitalOutputSet value o) := OutputServes.set value
    exact hs.timer.mono fun f hf => hkind rfl f hf.1
  | outputStart handle =>
    refine onOutput_served fun o => ?_
    exact (OutputServes.start (by decide) _ _ _).timer.mono fun f hf => hkind rfl f hf.1
  | outputNext handle =>
    refine onOutput_served fun o => ?_
    exact (OutputServes.reactorHandler (by decide)).timer.mono fun f hf => hkind rfl f hf.1
  | startTone =>
    exact onSound_served fun _ => (piezzoStartTone_served (by decide) _ _).mono (hkind rfl)
  | stopTone => exact onSound_served fun _ => Timer.Served.refl _ _
  | play => exact onSound_served fun _ => (piezzoPlay_served (by decide) _ _).mono (hkind rfl)
  | nextNote => exact onSound_served fun _ => (playNextNote_served (by decide)).mono (hkind rfl)
  | armTransmit =>
    rw [Part.run]
    exact harm rfl (by decide) (fun _ _ => by rfl) s
  | trigger =>
    simp only [Part.run, triggerNextTransmit]
    refine Timer.Served.trans ?_ (harm rfl (by decide) (fun _ _ => by rfl) _)
    split
    · exact Timer.Served.cancel _
    · exact Timer.Served.refl _ _
  | armValve =>
    rw [Part.run, valveArmTimer]
    exact harm rfl (by decide) (fun _ _ => by rfl) s
  | cancelValve => exact Timer.Served.cancel _
  | send =>
    simp only [Part.run, i2cMasterSend, resultState_ok]
    split <;> exact Timer.Served.refl _ _
  | _ => exact Timer.Served.refl _ _

theorem Part.served_ok {p : Part} (h : p.run s = .ok s') (hp : p.concern ∈ cs) :
    Timer.Served (TimerOf cs) s.timer s'.timer := by
  have hserved := p.served hp s
  rwa [h] at hserved

/-- **What a handler does with the timers**: it arms those of its concerns,
and cancels any. -/
theorem Made.served (h : Made cs n s r) :
    Timer.Served (TimerOf cs) s.timer (resultState r).timer :=
  h.relates (R := fun s s' => Timer.Served (TimerOf cs) s.timer s'.timer)
    (fun _ => Timer.Served.refl _ _) (fun _ _ _ => Timer.Served.trans) fun p s hp => p.served hp s

theorem Made.served_ok (h : Made cs n s r) (hr : r = .ok s') :
    Timer.Served (TimerOf cs) s.timer s'.timer := by
  have hserved := h.served
  rwa [hr] at hserved

end Controller

end CncPneumatics
