import CncPneumatics.Common.Run
import CncPneumatics.Controller.Services
/-!
# What the handlers do

Every handler but those of the timers and of the inputs is a sequence of
services. From this follows what holds of the timers, the queues and the
inputs in every state the controller reaches: who can be notified, and of
what.
-/

namespace CncPneumatics

open Asx

namespace Controller

variable {fuel handle arg : ℕ} {s s' : State} {around : Surroundings} {r : Except State State}
  {e : Event} {W : List ℕ}

/-! ## The door -/

/-- A timer of a service or of the valve. -/
def DoorTimer (f : TimerFuture) : Prop := ServiceTimer f ∨ f.reactor = reactCmdTimeout

theorem Serves.door (h : Serves W s s') : Acts DoorTimer W s s' :=
  h.toActs.mono (fun _ => .inl) fun _ => id

theorem valveArmTimer_acts (hw : Wired s) (delay : ℕ) :
    Acts DoorTimer W s (resultState (valveArmTimer s delay)) := by
  unfold valveArmTimer armTimer
  split
  · next inst timer harm =>
    refine .of_timer hw ?_ ⟨[], rfl, by simp⟩ rfl rfl rfl rfl
    exact Timer.Served.arm harm (by decide) fun _ => .inr rfl
  · exact .refl hw

theorem valveCancelTimer_acts (hw : Wired s) : Acts DoorTimer W s (valveCancelTimer s) :=
  .of_timer hw (Timer.Served.cancel _) ⟨[], rfl, by simp⟩ rfl rfl rfl rfl

theorem moveOn_acts (hw : Wired s) (pin : ℕ) {led : ℕ} (hled : led ∈ leds) :
    Acts DoorTimer ledPins s (resultState (moveOn s pin led)) := by
  refine (onInputChange_serves hw _).door.bind fun s₁ _ h₁ => ?_
  refine (outputStart_serves h₁.wired hled _ _ _).door.bind fun s₂ _ h₂ => ?_
  exact valveArmTimer_acts h₂.wired _

theorem moveOff_acts (hw : Wired s) (pin : ℕ) {led : ℕ} (hled : led ∈ leds) :
    Acts DoorTimer ledPins s (resultState (moveOff s pin led)) := by
  refine (onInputChange_serves hw _).door.bind fun s₁ _ h₁ => ?_
  have h₂ := (outputSet_serves h₁.wired hled false).door
  refine h₂.trans ?_
  rcases resultState_map (outputSet s₁ led false) valveCancelTimer with heq | heq
  · rw [heq]; exact .refl h₂.wired
  · rw [heq]; exact valveCancelTimer_acts h₂.wired

theorem moveTimeout_acts (hw : Wired s) (pin : ℕ) {led : ℕ} (hled : led ∈ leds) :
    Acts DoorTimer ledPins s (resultState (moveTimeout s pin led)) :=
  (onInputChange_serves hw _).door.bind fun _ _ h₁ =>
    (outputStart_serves h₁.wired hled _ _ _).door

/-- The actions of the door, one case each. -/
theorem doorAct_acts (hw : Wired s) (action : DoorAction) :
    Acts DoorTimer ledPins s (resultState (doorAct s action)) := by
  cases action with
  | none => exact .refl hw
  | pushOn => exact moveOn_acts hw _ (by decide)
  | pushOff => exact moveOff_acts hw _ (by decide)
  | pushTimeout => exact moveTimeout_acts hw _ (by decide)
  | pullOn => exact moveOn_acts hw _ (by decide)
  | pullOff => exact moveOff_acts hw _ (by decide)
  | pullTimeout => exact moveTimeout_acts hw _ (by decide)
  | doorMoving =>
    have hcancel := valveCancelTimer_acts (W := ledPins) hw
    exact hcancel.trans (valveArmTimer_acts hcancel.wired _)

theorem processEvent_acts (hw : Wired s) (event : DoorEvent) :
    Acts DoorTimer ledPins s (resultState (processEvent s event)) := by
  unfold processEvent
  split
  · next action next _ =>
    have h := doorAct_acts hw action
    refine h.trans ?_
    rcases resultState_map (doorAct s action) fun s => { s with doorSm := next } with heq | heq
    · rw [heq]; exact .refl h.wired
    · rw [heq]
      exact .of_timer h.wired (Timer.Served.refl _ _) ⟨[], rfl, by simp⟩ rfl rfl rfl rfl
  · exact .refl hw

/-- A change of a sensor also writes to `OC_DOOR_CLOSED`. -/
theorem onDoorSensorChange_acts (hw : Wired s) (arg : ℕ) :
    Acts DoorTimer (ocDoorClosed :: ledPins) s (resultState (onDoorSensorChange s arg)) := by
  have hdoor : ∀ s₁ event, Wired s₁ →
      Acts DoorTimer (ocDoorClosed :: ledPins) s₁ (resultState (processEvent s₁ event)) :=
    fun s₁ event h => (processEvent_acts h event).mono (fun _ => id) (List.subset_cons_self _ _)
  unfold onDoorSensorChange
  split
  · have hwrite : Acts DoorTimer (ocDoorClosed :: ledPins) s
        { s with pins := ioportSetPinLevel s.pins ocDoorClosed (argValue arg) } :=
      .of_timer hw (Timer.Served.refl _ _) ⟨[(ocDoorClosed, argValue arg)], rfl, by simp⟩
        rfl rfl rfl rfl
    exact hwrite.trans (hdoor _ _ hwrite.wired)
  · split
    · exact hdoor s _ hw
    · exact .refl hw

/-! ## Communication -/

/-- **Setting the output of the chuck** writes the value to its pin. -/
theorem outputSet_chuck (hw : Wired s) (value : Bool) :
    ∃ s', outputSet s chuckReleasedOc value = .ok s' ∧
      Acts ServiceTimer [ocChuckReleased] s s' ∧ pinLevel s'.pins ocChuckReleased = value := by
  refine ⟨_, rfl, ?_, ?_⟩
  · have hserves : Serves [ocChuckReleased] s (resultState (outputSet s chuckReleasedOc value)) :=
      onOutput_serves hw (by decide) (by decide) (show ledFault ∈ leds by decide)
        fun _ => OutputServes.set value
    exact hserves.toActs
  · have hpin : (cancelSequence ⟨s.timer, s.pins, s.outputs.getD chuckReleasedOc default⟩).out.pin =
        ocChuckReleased :=
      (@OutputServes.cancelSequence 0 0 _).pin.trans (hw.pin chuckReleasedOc)
    show pinLevel (ioportSetPinLevel _ _ value) ocChuckReleased = value
    rw [hpin, pinLevel_set, if_pos rfl]

theorem onI2cRead_acts (hw : Wired s) (arg : ℕ) :
    Acts ServiceTimer [ocChuckReleased] s (resultState (onI2cRead s arg)) ∧
      pinLevel (resultState (onI2cRead s arg)).pins ocChuckReleased = decide (arg ≠ 0) := by
  unfold onI2cRead
  have hcount : Acts ServiceTimer [ocChuckReleased] s (if 0 < s.commsErrorCount then
      { s with commsErrorCount := s.commsErrorCount - 1 } else s) := by
    split
    · exact .of_timer hw (Timer.Served.refl _ _) ⟨[], rfl, by simp⟩ rfl rfl rfl rfl
    · exact .refl hw
  obtain ⟨s', hok, hacts, hlevel⟩ := outputSet_chuck hcount.wired (decide (arg ≠ 0))
  dsimp only
  rw [hok]
  exact ⟨hcount.trans hacts, hlevel⟩

/-- **An error** either stops the transmission, the chuck being set first,
or only blinks. -/
theorem onI2cError_spec (hw : Wired s) {t : State} (ht : resultState (onI2cError s) = t) :
    Keeps ServiceTimer (ocChuckReleased :: ledPins) s t ∧ t.mail = s.mail ∧ t.transfer = s.transfer ∧
      (commsTooManyErrors ≤ errorCountAfter s ∧ pinLevel t.pins ocChuckReleased = false ∧
          (s.stopTransmit = true → t.stopTransmit = true) ∨
        errorCountAfter s < commsTooManyErrors ∧ Acts ServiceTimer ledPins s t) := by
  subst ht
  unfold onI2cError
  dsimp only
  set s₀ : State := { s with commsErrorCount := errorCountAfter s } with hs₀
  have h₀ : Acts ServiceTimer ledPins s s₀ :=
    .of_timer hw (Timer.Served.refl _ _) ⟨[], rfl, by simp⟩ rfl rfl rfl rfl
  have hmono : ∀ {s₁ s₂ : State}, Acts ServiceTimer ledPins s₁ s₂ →
      Acts ServiceTimer (ocChuckReleased :: ledPins) s₁ s₂ :=
    fun h => h.mono (fun _ => id) (List.subset_cons_self _ _)
  split
  · next hmany =>
    obtain ⟨s₁, hok, h₁, hlevel⟩ := outputSet_chuck h₀.wired false
    rw [hok]
    -- what follows does not write to the pin of the chuck
    have h₂ : Acts ServiceTimer ledPins s₁ (resultState ((outputSet s₁ ledFault true).bind fun s =>
        onSound s (piezzoStartTone reactToneStop (piezzoFreqToPwm 2000) (timerSeconds 5)))) :=
      (outputSet_serves h₁.wired (show ledFault ∈ leds by decide) true).toActs.bind fun s₂ _ h =>
        (onSound_serves h.wired fun _ => SoundServes.startTone _ _).toActs
    have h₃ := (hmono h₀).trans ((h₁.mono (fun _ => id) (by simp)).trans (hmono h₂))
    have hlevel₃ := (h₂.pinLevel (by decide)).trans hlevel
    rw [bind_ok, bind_map]
    rcases resultState_map ((outputSet s₁ ledFault true).bind fun s =>
        onSound s (piezzoStartTone reactToneStop (piezzoFreqToPwm 2000) (timerSeconds 5)))
      (fun s => { s with stopTransmit := true }) with heq | heq
    · rw [heq]
      exact ⟨h₃.toKeeps, h₃.mail, h₃.transfer, .inl ⟨hmany, hlevel₃, h₃.stopTransmit.trans⟩⟩
    · rw [heq]
      exact ⟨⟨h₃.wired, h₃.timer, h₃.pins, h₃.inputs, h₃.waiting⟩, h₃.mail, h₃.transfer,
        .inl ⟨hmany, hlevel₃, fun _ => rfl⟩⟩
  · next hfew =>
    have h₁ := h₀.trans (outputStart_serves h₀.wired (show ledFault ∈ leds by decide)
      (timerMilliseconds 50) ['+', '-'] false).toActs
    exact ⟨(hmono h₁).toKeeps, h₁.mail, h₁.transfer, .inr ⟨not_le.mp hfew, h₁⟩⟩

/-- Sending changes the transfer, and can only fail to the error handler. -/
theorem i2cMasterSend_keeps {A : TimerFuture → Prop} (hw : Wired s) (code : Opcode) :
    Keeps A W s (i2cMasterSend s code) ∧ (i2cMasterSend s code).stopTransmit = s.stopTransmit := by
  unfold i2cMasterSend
  dsimp only
  split
  · refine ⟨⟨hw, Timer.Served.refl _ _, ⟨[], rfl, by simp⟩, rfl, fun k hk => ?_⟩, rfl⟩
    show waiting (deposit queueSize s.mail reactI2cError _) k = _
    rw [waiting_deposit, if_neg hk]
  · exact ⟨⟨hw, Timer.Served.refl _ _, ⟨[], rfl, by simp⟩, rfl, fun _ _ => rfl⟩, rfl⟩

theorem onSendI2cCommand_keeps (hw : Wired s) (busy : Bool) :
    Keeps ServiceTimer (ocChuckReleased :: ledPins) s (resultState (onSendI2cCommand s busy)) := by
  unfold onSendI2cCommand
  split
  · have hfirst : Keeps ServiceTimer (ocChuckReleased :: ledPins) s (resultState
        (if busy then onI2cError s else .ok (i2cMasterSend s s.currentCommand))) := by
      split
      · exact (onI2cError_spec hw rfl).1
      · exact (i2cMasterSend_keeps hw _).1
    refine resultState_bind (fun _ _ _ => Keeps.trans) hfirst fun s₁ heq => ?_
    rw [heq] at hfirst
    exact (armTransmit_serves hfirst.wired _).toActs.toKeeps
  · exact .refl hw

/-- **The interrupt** changes the transfer, and notifies the handlers of
replies and errors. -/
theorem twiInterrupt_spec (s : State) (status : MasterStatus) :
    ∃ transfer mail, twiInterrupt s status = { s with transfer := transfer, mail := mail } ∧
      ∀ k, k ≠ reactI2cError → k ≠ reactI2cRead → waiting mail k = waiting s.mail k := by
  have hdeposit : ∀ j arg, j = reactI2cError ∨ j = reactI2cRead → ∀ k, k ≠ reactI2cError →
      k ≠ reactI2cRead → waiting (deposit queueSize s.mail j arg) k = waiting s.mail k := by
    intro j arg hj k h₁ h₂
    rw [waiting_deposit, if_neg (by rcases hj with rfl | rfl <;> assumption)]
  unfold twiInterrupt i2cOnComplete
  dsimp only
  split
  · split_ifs
    · exact ⟨_, _, rfl, hdeposit _ _ (.inl rfl)⟩
    · exact ⟨_, _, rfl, hdeposit _ _ (.inr rfl)⟩
    · exact ⟨_, _, rfl, hdeposit _ _ (.inr rfl)⟩
    · exact ⟨_, _, rfl, hdeposit _ _ (.inl rfl)⟩
  · exact ⟨_, _, rfl, fun _ _ _ => rfl⟩

/-! ## Any handler -/

/-- The pins that a handler writes to. -/
def touches (handle : ℕ) : List ℕ :=
  if handle = reactDoorSensor then ocDoorClosed :: ledPins
  else if handle ∈ [reactI2cRead, reactI2cError, reactI2cCommand] then ocChuckReleased :: ledPins
  else ledPins

/-- The timers that a handler arms. -/
def Arms (handle : ℕ) : TimerFuture → Prop :=
  if handle ∈ [reactDoorSensor, reactDoorCmd, reactCmdTimeout] then DoorTimer else ServiceTimer

/-- **A handler that is not about the bus**, nor that of the timers or the
inputs. -/
theorem handles_acts (hw : Wired s) (h : Handles fuel s arg around handle r)
    (harg : handle = reactDigitalOutput → arg ∈ leds)
    (hne : handle ∉ [reactI2cCommand, reactI2cError, reactTimer, reactSample]) :
    Acts (Arms handle) (touches handle) s (resultState r) := by
  cases h with
  | i2cCommand | i2cError | timer _ | sample => exact absurd (by decide) hne
  | beep => exact (onSound_serves hw fun _ => SoundServes.play _ _).toActs
  | i2cRead => exact (onI2cRead_acts hw arg).1.mono (fun _ => id) (by decide)
  | sounder =>
    unfold onSounder
    split
    · exact (onSound_serves hw fun _ => SoundServes.startTone _ _).toActs
    · exact (onSound_serves hw fun _ => SoundServes.stopTone).toActs
  | inputChange => exact (onInputChange_serves hw arg).toActs
  | doorSensor => exact onDoorSensorChange_acts hw arg
  | doorCmd => exact processEvent_acts hw _
  | cmdTimeout => exact processEvent_acts hw _
  | graceOver => exact .of_timer hw (Timer.Served.refl _ _) ⟨[], rfl, by simp⟩ rfl rfl rfl rfl
  | digitalOutput =>
    exact (onLed_serves hw (harg rfl) fun _ => OutputServes.reactorHandler (by decide)).toActs
  | piezzo => exact (onSound_serves hw fun _ => SoundServes.playNextNote).toActs
  | toneStop => exact (onSound_serves hw fun _ => SoundServes.stopTone).toActs

/-- **Any handler** but those of the timers and the inputs. -/
theorem handles_keeps (hw : Wired s) (h : Handles fuel s arg around handle r)
    (harg : handle = reactDigitalOutput → arg ∈ leds)
    (hne : handle ∉ [reactTimer, reactSample]) :
    Keeps (Arms handle) (touches handle) s (resultState r) := by
  by_cases hbus : handle ∈ [reactI2cCommand, reactI2cError]
  · simp only [List.mem_cons, List.not_mem_nil, or_false] at hbus
    rcases hbus with rfl | rfl
    · cases h
      exact onSendI2cCommand_keeps hw _
    · cases h
      exact (onI2cError_spec hw rfl).1
  · exact (handles_acts hw h harg (by
      simp only [List.mem_cons, List.not_mem_nil, or_false, not_or] at hbus hne ⊢
      exact ⟨hbus.1, hbus.2, hne⟩)).toKeeps

/-! ## Whom a notification can reach -/

/-- A timer that the controller arms. -/
def OwnTimer (f : TimerFuture) : Prop :=
  ServiceTimer f ∨ f.reactor ∈ [reactCmdTimeout, reactCommsGraceOver, reactSample]

theorem Serves.own (h : Serves W s s') : Acts OwnTimer W s s' :=
  h.toActs.mono (fun _ => .inl) fun _ => id

theorem Arms.own {f : TimerFuture} (h : Arms handle f) : OwnTimer f := by
  unfold Arms at h
  split at h
  · exact h.imp_right fun h => by simp [h]
  · exact .inl h

/-- **The timers, queues and inputs** are those that `main` set up: a
timer goes off to one of its own handlers, the queue of the outputs holds
diodes, and each input has its handler. -/
structure Orderly (s : State) : Prop where
  wired : Wired s
  timers : ∃ l, s.timer.Holds l ∧ ∀ f ∈ l, OwnTimer f
  outputs : ∀ arg ∈ waiting s.mail reactDigitalOutput, arg ∈ leds
  inputs : s.inputs.map (fun di => (di.pin, di.handler)) = inputTable

theorem Orderly.keeps (h : Orderly s) (hk : Keeps OwnTimer W s s') : Orderly s' where
  wired := hk.wired
  timers := by
    obtain ⟨l, hl, hown⟩ := h.timers
    obtain ⟨l', hl', hmem⟩ := hk.timer.mem hl
    exact ⟨l', hl', fun f hf => (hmem f hf).elim (hown f) id⟩
  outputs := by rw [hk.waiting _ (by decide)]; exact h.outputs
  inputs := by rw [hk.inputs]; exact h.inputs

/-- The state in which a handler is called. -/
theorem Orderly.collect (h : Orderly s) {mail : Mailroom ℕ}
    (hcol : collect s.mail handle = some (arg, mail)) :
    Orderly { s with mail := mail } ∧ (handle = reactDigitalOutput → arg ∈ leds) := by
  obtain ⟨rest, hw, hmail⟩ := collect_eq_some hcol
  refine ⟨⟨h.wired, h.timers, fun a ha => ?_, h.inputs⟩, ?_⟩
  · rw [hmail] at ha
    split at ha
    · next heq => exact h.outputs a (by rw [heq, hw]; exact List.mem_cons_of_mem _ ha)
    · exact h.outputs a ha
  · rintro rfl
    exact h.outputs arg (by rw [hw]; simp)

/-- **A dispatch** notifies of own timers, and leaves own timers. -/
theorem Orderly.dispatch (h : Orderly s) {d : List (ℕ × ℕ) × Timer}
    (hd : timerDispatch fuel s.timer = some d) :
    (∀ n ∈ d.1, ∃ f, OwnTimer f ∧ n = (f.reactor, f.arg)) ∧
      ∃ l, d.2.Holds l ∧ ∀ f ∈ l, OwnTimer f := by
  obtain ⟨l, hl, hown⟩ := h.timers
  obtain ⟨l', hl', -, hdrain⟩ := timerDispatch_holds hl hd
  have hrenew : ∀ f, OwnTimer f → f.rep ≠ 0 → ∀ j c, OwnTimer ⟨f.reactor, j, c, f.rep, 0⟩ := by
    rintro f ((hf | ⟨hf, -⟩) | hf) - j c
    · exact .inl (.inl hf)
    · exact .inl (.inr ⟨hf, show ledFault ∈ leds by decide⟩)
    · exact .inr hf
  obtain ⟨hns, hl''⟩ := ringDrain_forall hrenew hown hdrain
  exact ⟨hns, l', hl', hl''⟩

/-- The handlers that timers go off to. -/
def timedHandles : List ℕ :=
  [reactI2cCommand, reactPiezzo, reactToneStop, reactDigitalOutput, reactCmdTimeout,
   reactCommsGraceOver, reactSample]

theorem OwnTimer.timed {f : TimerFuture} (h : OwnTimer f) : f.reactor ∈ timedHandles := by
  rcases h with (h | ⟨h, -⟩) | h
  · simp only [List.mem_cons, List.not_mem_nil, or_false] at h
    rcases h with h | h | h <;> rw [h] <;> decide
  · rw [h]; decide
  · simp only [List.mem_cons, List.not_mem_nil, or_false] at h
    rcases h with h | h | h <;> rw [h] <;> decide

/-- A dispatch leaves the queues of the other handlers alone. -/
theorem Orderly.dispatch_waiting (h : Orderly s) {d : List (ℕ × ℕ) × Timer}
    (hd : timerDispatch fuel s.timer = some d) {k : ℕ} (hk : k ∉ timedHandles) :
    waiting (depositAll queueSize s.mail d.1) k = waiting s.mail k := by
  have hnone : waiting d.1 k = [] := waiting_eq_nil_iff.mpr fun n hn hnk => by
    obtain ⟨f, hf, rfl⟩ := (h.dispatch hd).1 n hn
    exact hk (hnk ▸ hf.timed)
  rw [waiting_depositAll, hnone, List.foldl_nil]

/-- A sampling pass leaves alone the queues of all that handle no input. -/
theorem Orderly.sample_waiting (h : Orderly s) (high : List ℕ) {k : ℕ}
    (hk : k ∉ inputTable.map Prod.snd) : waiting (onSample s high).mail k = waiting s.mail k := by
  show waiting (depositAll queueSize s.mail (digitalInputSample _ s.inputs).2) k = _
  have hnone : waiting (digitalInputSample (fun pin => decide (pin ∈ high)) s.inputs).2 k = [] := by
    rw [digitalInputSample_snd]
    refine waiting_eq_nil_iff.mpr fun n hn hnk => ?_
    obtain ⟨di, hdi, hn⟩ := List.mem_filterMap.mp hn
    unfold sampleNotice at hn
    split at hn
    · obtain rfl := Option.some.inj hn
      refine hk (hnk ▸ h.inputs ▸ ?_)
      rw [List.map_map]
      exact List.mem_map_of_mem hdi
    · cases hn
  rw [waiting_depositAll, hnone, List.foldl_nil]

theorem Orderly.onSample (h : Orderly s) (high : List ℕ) : Orderly (onSample s high) where
  wired := h.wired
  timers := h.timers
  outputs := by rw [h.sample_waiting high (by decide)]; exact h.outputs
  inputs := by
    show (digitalInputSample _ s.inputs).1.map _ = _
    rw [digitalInputSample_fst, List.map_map, ← h.inputs]
    exact List.map_congr_left fun di _ => by simp

/-- A notification of a timer of an output. -/
theorem OwnTimer.led {f : TimerFuture} (h : OwnTimer f) (hf : f.reactor = reactDigitalOutput) :
    f.arg ∈ leds := by
  rcases h with (h | ⟨-, h⟩) | h
  · rw [hf] at h; exact absurd h (by decide)
  · exact h
  · rw [hf] at h; exact absurd h (by decide)

/-- **The step lemma.** -/
theorem Orderly.reacts (h : Orderly s) (hr : Reacts fuel s e r) : Orderly (resultState r) := by
  cases hr with
  | tick =>
    refine ⟨h.wired, ?_, ?_, h.inputs⟩
    · obtain ⟨l, hl, hown⟩ := h.timers
      exact ⟨l, timerTick_holds hl, hown⟩
    · show ∀ arg ∈ waiting (deposit queueSize s.mail reactTimer 0) reactDigitalOutput, _
      rw [waiting_deposit, if_neg (by decide)]
      exact h.outputs
  | twi status hlocked =>
    obtain ⟨transfer, mail, heq, hmail⟩ := twiInterrupt_spec s status
    rw [resultState_ok, heq]
    exact ⟨h.wired, h.timers, by rw [hmail _ (by decide) (by decide)]; exact h.outputs, h.inputs⟩
  | @run handle arg mail around r hcol hhandles =>
    obtain ⟨h₀, harg⟩ := h.collect hcol
    by_cases hne : handle ∈ [reactTimer, reactSample]
    · simp only [List.mem_cons, List.not_mem_nil, or_false] at hne
      rcases hne with rfl | rfl
      · cases hhandles with
        | timer hd =>
          obtain ⟨hns, htimers⟩ := h₀.dispatch hd
          refine ⟨h₀.wired, htimers, fun a ha => ?_, h₀.inputs⟩
          rcases mem_waiting_depositAll ha with ha | ha
          · exact h₀.outputs a ha
          · obtain ⟨f, hf, heq⟩ := hns _ (mem_of_waiting ha)
            obtain ⟨hreactor, rfl⟩ := Prod.mk.inj heq
            exact hf.led hreactor.symm
      · cases hhandles
        exact h₀.onSample _
    · exact h₀.keeps ((handles_keeps h₀.wired hhandles harg hne).mono (fun _ => Arms.own) fun _ => id)

/-- A step that does not stop. -/
theorem reacts_of_step (h : step fuel s e = some s') : Reacts fuel s e (.ok s') := by
  obtain ⟨r, hr, hok⟩ := Option.bind_eq_some_iff.mp h
  exact reacts_of_react (toOption_eq_some hok ▸ hr)

/-- After `board_init` the only timer is that of the inputs. -/
theorem boardInit_spec : ∃ s, boardInit = .ok s ∧ Wired s ∧ s.mail = [] ∧
    ∃ l, s.timer.Holds l ∧ ∀ f ∈ l, OwnTimer f := by
  obtain ⟨t, harm, hholds, -⟩ := timerArm_eq_some timerInit_holds (by decide)
    (show reactSample ≠ reactorNullHandle by decide) (timerGetCountFromNow timerInit 0)
    digitalInputSamplePeriod 0
  unfold boardInit
  dsimp only
  rw [harm]
  refine ⟨_, rfl, rfl, rfl, _, hholds, fun f hf => ?_⟩
  rw [List.mem_singleton.mp hf]
  exact .inr (show reactSample ∈ _ by decide)

/-- What `main` starts are services. -/
theorem start_orderly : Orderly start := by
  obtain ⟨s, hok, hw, hmail, htimers⟩ := boardInit_spec
  unfold start main
  rw [hok, bind_ok]
  dsimp only
  set s₀ : State := { s with inputs := inputTable.map fun p => digitalInput p.1 p.2 diFilt4 } with hs₀
  have h₀ : Orderly s₀ := by
    refine ⟨hw, htimers, fun a ha => ?_, ?_⟩
    · rw [hs₀, hmail] at ha; cases ha
    · rfl
  refine h₀.keeps (W := ledPins) (Acts.toKeeps ?_)
  refine (outputStart_serves h₀.wired (by decide) _ _ _).own.bind fun s₁ _ h₁ => ?_
  refine (outputStart_serves h₁.wired (by decide) _ _ _).own.bind fun s₂ _ h₂ => ?_
  refine (outputStart_serves h₂.wired (by decide) _ _ _).own.bind fun s₃ _ h₃ => ?_
  refine (outputStart_serves h₃.wired (by decide) _ _ _).own.bind fun s₄ _ h₄ => ?_
  refine (triggerNextTransmit_serves h₄.wired).own.bind fun s₅ _ h₅ => ?_
  have hgrace : Acts OwnTimer ledPins s₅ (resultState (armTimer s₅ reactCommsGraceOver
      commsGracePeriod fun s _ => s)) := by
    unfold armTimer
    split
    · next harm =>
      refine .of_timer h₅.wired ?_ ⟨[], rfl, by simp⟩ rfl rfl rfl rfl
      exact Timer.Served.arm harm (by decide) fun _ => .inr (by simp)
    · exact .refl h₅.wired
  refine hgrace.bind fun s₆ _ h₆ => ?_
  exact (onSound_serves h₆.wired fun _ => SoundServes.play _ _).own

/-- The run lemma. -/
theorem orderly_of_run {hist : List (State × Event)} (hr : Run (step fuel) start hist s) :
    Orderly s :=
  hr.invariant (I := Orderly) start_orderly fun _ _ _ h hs => h.reacts (reacts_of_step hs)

end Controller

end CncPneumatics
