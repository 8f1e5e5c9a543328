import CncPneumatics.Asx.TimerServed
import CncPneumatics.Controller.Model
/-!
# What the services do

The outputs, the sounds and the periodic transmit all work the same way:
they write to pins of outputs, and arm and cancel timers of their own. One
relation says so, and that everything else is left alone; every handler is
a sequence of such services and of the few things it does itself.
-/

namespace CncPneumatics

open Asx

namespace Controller

variable {s s' s'' : State} {handle arg : ℕ} {W W' : List ℕ}

/-! ## Outputs -/

/-- What the functions of an output do: write to its pin, and arm timers
that come back to it. -/
structure OutputServes (reactor arg : ℕ) (o o' : OutputState) : Prop where
  timer : Timer.Served (fun f => f.reactor = reactor ∧ f.arg = arg) o.timer o'.timer
  pins : ∃ ws, o'.pins = ws ++ o.pins ∧ ∀ p ∈ ws, p.1 = o.out.pin
  pin : o'.out.pin = o.out.pin

namespace OutputServes

variable {reactor : ℕ} {o o' o'' : OutputState}

theorem trans (h : OutputServes reactor arg o o') (h' : OutputServes reactor arg o' o'') :
    OutputServes reactor arg o o'' where
  timer := h.timer.trans h'.timer
  pins := by
    obtain ⟨ws, hw, hp⟩ := h.pins
    obtain ⟨ws', hw', hp'⟩ := h'.pins
    refine ⟨ws' ++ ws, by rw [hw', hw, List.append_assoc], fun p hmem => ?_⟩
    rcases List.mem_append.mp hmem with hmem | hmem
    · rw [hp' p hmem, h.pin]
    · exact hp p hmem
  pin := h'.pin.trans h.pin

/-- Writing to the pin, and to the record but for its pin. -/
theorem write (ws : PinWrites) (hws : ∀ p ∈ ws, p.1 = o.out.pin) (out : DigitalOutput)
    (hout : out.pin = o.out.pin) : OutputServes reactor arg o ⟨o.timer, ws ++ o.pins, out⟩ where
  timer := Timer.Served.refl _ _
  pins := ⟨ws, rfl, hws⟩
  pin := hout

theorem cancelSequence : OutputServes reactor arg o (cancelSequence o) := by
  unfold Asx.cancelSequence
  split
  · exact ⟨Timer.Served.cancel _, ⟨[], rfl, by simp⟩, rfl⟩
  · exact write [] (by simp) _ rfl

theorem parseNext : OutputServes reactor arg o (parseNext o).2 := by
  unfold Asx.parseNext
  split
  · exact write [] (by simp) _ rfl
  · next c cs _ =>
    -- at most one write, to the pin of the output
    obtain ⟨ws, hpins, hws⟩ : ∃ ws : PinWrites,
        (if c = '+' then ioportSetPinLevel o.pins o.out.pin true
          else if c = '-' then ioportSetPinLevel o.pins o.out.pin false else o.pins) =
            ws ++ o.pins ∧ ∀ p ∈ ws, p.1 = o.out.pin := by
      split
      · exact ⟨[(o.out.pin, true)], rfl, by simp⟩
      · split
        · exact ⟨[(o.out.pin, false)], rfl, by simp⟩
        · exact ⟨[], rfl, by simp⟩
    dsimp only
    rw [hpins]
    split
    · exact write ws hws _ rfl
    · split
      · exact write ws hws _ rfl
      · exact write ws hws _ rfl

theorem reactorHandler (hr : reactor ≠ reactorNullHandle) :
    OutputServes reactor arg o (resultState (digitalOutputReactorHandler reactor arg o)) := by
  unfold digitalOutputReactorHandler
  dsimp only
  refine trans parseNext ?_
  split
  · split
    · next inst timer harm =>
      exact ⟨Timer.Served.arm harm hr fun _ => ⟨rfl, rfl⟩, ⟨[], rfl, by simp⟩, rfl⟩
    · exact write [] (by simp) _ rfl
  · exact write [] (by simp) _ rfl

theorem set (value : Bool) : OutputServes reactor arg o (digitalOutputSet value o) := by
  unfold digitalOutputSet
  refine trans cancelSequence ?_
  exact write [((Asx.cancelSequence o).out.pin, value)] (by simp) _ rfl

theorem start (hr : reactor ≠ reactorNullHandle) (referenceTime : ℕ) (sequence : List Char)
    (rep : Bool) : OutputServes reactor arg o
      (resultState (digitalOutputStart reactor arg referenceTime sequence rep o)) := by
  unfold digitalOutputStart
  dsimp only
  have hwrite : OutputServes reactor arg (Asx.cancelSequence o) _ := write [] (by simp)
    { (Asx.cancelSequence o).out with
      sequence := sequence
      next := sequence
      rep := rep
      referencePeriodMs := referenceTime % 2 ^ 16 } rfl
  exact (cancelSequence.trans hwrite).trans (reactorHandler hr)

end OutputServes

/-! ## Sounds -/

section Sounds

variable {p : SoundState} {reactor : ℕ}

/-- Notes come back to the reactor of the tune. -/
theorem playNextNote_served (hr : reactor ≠ reactorNullHandle) :
    Timer.Served (fun f => f.reactor = reactor) p.timer
      (resultState (playNextNote reactor p)).timer := by
  unfold playNextNote
  split
  · dsimp only
    split
    · next inst timer harm => exact Timer.Served.arm harm hr fun _ => rfl
    · exact Timer.Served.refl _ _
  · exact Timer.Served.refl _ _

theorem piezzoPlay_served (hr : reactor ≠ reactorNullHandle) (tempo : ℕ) (music : List Char) :
    Timer.Served (fun f => f.reactor = reactor) p.timer
      (resultState (piezzoPlay reactor tempo music p)).timer := by
  unfold piezzoPlay
  dsimp only
  refine Timer.Served.trans ?_ (playNextNote_served hr)
  show Timer.Served _ p.timer (ite _ _ _)
  split
  · exact Timer.Served.cancel _
  · exact Timer.Served.refl _ _

/-- The end of a tone comes back to the reactor that stops it. -/
theorem piezzoStartTone_served (hr : reactor ≠ reactorNullHandle) (pwmValue duration : ℕ) :
    Timer.Served (fun f => f.reactor = reactor) p.timer
      (resultState (piezzoStartTone reactor pwmValue duration p)).timer := by
  unfold piezzoStartTone
  dsimp only
  split
  · split
    · next harm => exact Timer.Served.arm harm hr fun _ => rfl
    · exact Timer.Served.refl _ _
  · exact Timer.Served.refl _ _

end Sounds

/-- What the functions of the piezzo do: arm timers of their own. -/
def SoundServes (p p' : SoundState) : Prop :=
  Timer.Served (fun f => f.reactor = reactPiezzo ∨ f.reactor = reactToneStop) p.timer p'.timer

namespace SoundServes

variable {p : SoundState}

theorem playNextNote : SoundServes p (resultState (playNextNote reactPiezzo p)) :=
  (playNextNote_served (by decide)).mono fun _ => .inl

theorem play (tempo : ℕ) (music : List Char) :
    SoundServes p (resultState (piezzoPlay reactPiezzo tempo music p)) :=
  (piezzoPlay_served (by decide) tempo music).mono fun _ => .inl

theorem startTone (pwmValue duration : ℕ) :
    SoundServes p (resultState (piezzoStartTone reactToneStop pwmValue duration p)) :=
  (piezzoStartTone_served (by decide) pwmValue duration).mono fun _ => .inr

theorem stopTone : SoundServes p (piezzoStopTone p) := Timer.Served.refl _ _

end SoundServes

/-! ## Services -/

/-- The outputs drive their pins. -/
def Wired (s : State) : Prop := s.outputs.map DigitalOutput.pin = outputPins

/-- The handles of the light-emitting diodes. -/
def leds : List ℕ := [ledFault, ledChuck, ledDoorOpening, ledDoorClosing]

/-- Their pins. -/
def ledPins : List ℕ := [ledFaultPin, ledChuckPin, ledDoorOpeningPin, ledDoorClosingPin]

/-- A timer of a service: the next transmit, a note, the end of a tone or
the next step of a diode. -/
def ServiceTimer (f : TimerFuture) : Prop :=
  f.reactor ∈ [reactI2cCommand, reactPiezzo, reactToneStop] ∨
    f.reactor = reactDigitalOutput ∧ f.arg ∈ leds

/-- **What a handler leaves alone**, one that arms timers of the kind `A`
and writes to the pins `W`. -/
structure Keeps (A : TimerFuture → Prop) (W : List ℕ) (s s' : State) : Prop where
  wired : Wired s'
  timer : Timer.Served A s.timer s'.timer
  pins : ∃ ws, s'.pins = ws ++ s.pins ∧ ∀ p ∈ ws, p.1 ∈ W
  inputs : s'.inputs = s.inputs
  waiting : ∀ k, k ≠ reactI2cError → waiting s'.mail k = waiting s.mail k

/-- One that has nothing to do with the bus leaves more alone. -/
structure Acts (A : TimerFuture → Prop) (W : List ℕ) (s s' : State) : Prop
    extends Keeps A W s s' where
  mail : s'.mail = s.mail
  transfer : s'.transfer = s.transfer
  stopTransmit : s'.stopTransmit = s.stopTransmit

/-- And a service even more. -/
structure Serves (W : List ℕ) (s s' : State) : Prop extends Acts ServiceTimer W s s' where
  commsErrorCount : s'.commsErrorCount = s.commsErrorCount
  doorSm : s'.doorSm = s.doorSm
  valveTimer : s'.valveTimer = s.valveTimer

variable {A B : TimerFuture → Prop}

namespace Keeps

theorem refl (hw : Wired s) : Keeps A W s s :=
  ⟨hw, Timer.Served.refl _ _, ⟨[], rfl, by simp⟩, rfl, fun _ _ => rfl⟩

theorem trans (h : Keeps A W s s') (h' : Keeps A W s' s'') : Keeps A W s s'' where
  wired := h'.wired
  timer := h.timer.trans h'.timer
  pins := by
    obtain ⟨ws, hw, hp⟩ := h.pins
    obtain ⟨ws', hw', hp'⟩ := h'.pins
    refine ⟨ws' ++ ws, by rw [hw', hw, List.append_assoc], fun p hmem => ?_⟩
    exact (List.mem_append.mp hmem).elim (hp' p) (hp p)
  inputs := h'.inputs.trans h.inputs
  waiting := fun k hk => (h'.waiting k hk).trans (h.waiting k hk)

theorem mono (h : Keeps A W s s') (hA : ∀ f, A f → B f) (hW : W ⊆ W') : Keeps B W' s s' := by
  obtain ⟨ws, hw, hp⟩ := h.pins
  exact ⟨h.wired, h.timer.mono hA, ⟨ws, hw, fun p hmem => hW (hp p hmem)⟩, h.inputs, h.waiting⟩

/-- A pin that is not written to keeps its level. -/
theorem pinLevel (h : Keeps A W s s') {pin : ℕ} (hpin : pin ∉ W) :
    pinLevel s'.pins pin = pinLevel s.pins pin := by
  obtain ⟨ws, hw, hp⟩ := h.pins
  rw [hw]
  exact pinLevel_append fun p hmem heq => hpin (heq ▸ hp p hmem)

end Keeps

namespace Acts

/-- Timers, outputs and their pins. -/
theorem of_timer (hw : Wired s') (ht : Timer.Served A s.timer s'.timer)
    (hp : ∃ ws, s'.pins = ws ++ s.pins ∧ ∀ p ∈ ws, p.1 ∈ W) (hi : s'.inputs = s.inputs)
    (hm : s'.mail = s.mail) (htr : s'.transfer = s.transfer)
    (hs : s'.stopTransmit = s.stopTransmit) : Acts A W s s' :=
  ⟨⟨hw, ht, hp, hi, fun _ _ => by rw [hm]⟩, hm, htr, hs⟩

theorem refl (hw : Wired s) : Acts A W s s := ⟨.refl hw, rfl, rfl, rfl⟩

theorem trans (h : Acts A W s s') (h' : Acts A W s' s'') : Acts A W s s'' where
  toKeeps := h.toKeeps.trans h'.toKeeps
  mail := h'.mail.trans h.mail
  transfer := h'.transfer.trans h.transfer
  stopTransmit := h'.stopTransmit.trans h.stopTransmit

theorem mono (h : Acts A W s s') (hA : ∀ f, A f → B f) (hW : W ⊆ W') : Acts B W' s s' :=
  ⟨h.toKeeps.mono hA hW, h.mail, h.transfer, h.stopTransmit⟩

/-- A sequence of handlers. -/
theorem bind {r : Except State State} {f : State → Except State State}
    (h : Acts A W s (resultState r))
    (hf : ∀ s₁, r = .ok s₁ → Acts A W s s₁ → Acts A W s₁ (resultState (f s₁))) :
    Acts A W s (resultState (r.bind f)) := by
  cases r with
  | error s₁ => exact h
  | ok s₁ => exact h.trans (hf s₁ rfl h)

end Acts

namespace Serves

/-- What a service has to show. -/
theorem of_timer (hw : Wired s') (ht : Timer.Served ServiceTimer s.timer s'.timer)
    (hp : ∃ ws, s'.pins = ws ++ s.pins ∧ ∀ p ∈ ws, p.1 ∈ W) (hi : s'.inputs = s.inputs)
    (hm : s'.mail = s.mail) (htr : s'.transfer = s.transfer)
    (hs : s'.stopTransmit = s.stopTransmit) (hc : s'.commsErrorCount = s.commsErrorCount)
    (hd : s'.doorSm = s.doorSm) (hv : s'.valveTimer = s.valveTimer) : Serves W s s' :=
  ⟨.of_timer hw ht hp hi hm htr hs, hc, hd, hv⟩

theorem refl (hw : Wired s) : Serves W s s := ⟨.refl hw, rfl, rfl, rfl⟩

theorem trans (h : Serves W s s') (h' : Serves W s' s'') : Serves W s s'' where
  toActs := h.toActs.trans h'.toActs
  commsErrorCount := h'.commsErrorCount.trans h.commsErrorCount
  doorSm := h'.doorSm.trans h.doorSm
  valveTimer := h'.valveTimer.trans h.valveTimer

/-- A sequence of services. -/
theorem bind {r : Except State State} {f : State → Except State State}
    (h : Serves W s (resultState r))
    (hf : ∀ s₁, r = .ok s₁ → Serves W s s₁ → Serves W s₁ (resultState (f s₁))) :
    Serves W s (resultState (r.bind f)) := by
  cases r with
  | error s₁ => exact h
  | ok s₁ => exact h.trans (hf s₁ rfl h)

end Serves

/-- The pin of an output. -/
theorem Wired.pin (hw : Wired s) (handle : ℕ) :
    (s.outputs.getD handle default).pin = outputPins.getD handle 0 := by
  unfold Wired at hw
  rw [← hw, List.getD_eq_getElem?_getD, List.getD_eq_getElem?_getD, List.getElem?_map]
  cases s.outputs[handle]? <;> rfl

/-- A function of an output, whose timers come back to a diode. -/
theorem onOutput_serves (hw : Wired s) (hlt : handle < outputPins.length)
    (hpin : outputPins.getD handle 0 ∈ W) (hled : arg ∈ leds)
    {f : OutputState → Except OutputState OutputState}
    (hf : ∀ o, OutputServes reactDigitalOutput arg o (resultState (f o))) :
    Serves W s (resultState (onOutput s handle f)) := by
  rw [onOutput, resultState_within]
  set o : OutputState := ⟨s.timer, s.pins, s.outputs.getD handle default⟩ with ho
  have h := hf o
  have hout : o.out.pin = outputPins.getD handle 0 := hw.pin handle
  have hwired : Wired { s with
      timer := (resultState (f o)).timer
      pins := (resultState (f o)).pins
      outputs := s.outputs.set handle (resultState (f o)).out } := by
    show (s.outputs.set handle (resultState (f o)).out).map DigitalOutput.pin = outputPins
    rw [List.map_set, h.pin, hout, show s.outputs.map DigitalOutput.pin = outputPins from hw,
      List.getD_eq_getElem?_getD, List.getElem?_eq_getElem hlt, Option.getD_some,
      List.set_getElem_self]
  refine .of_timer hwired ?_ ?_ rfl rfl rfl rfl rfl rfl rfl
  · exact h.timer.mono fun g hg => .inr ⟨hg.1, hg.2 ▸ hled⟩
  · obtain ⟨ws, hws, hp⟩ := h.pins
    exact ⟨ws, hws, fun p hmem => by rw [hp p hmem, hout]; exact hpin⟩

/-- A function of a diode. -/
theorem onLed_serves (hw : Wired s) (hled : handle ∈ leds)
    {f : OutputState → Except OutputState OutputState}
    (hf : ∀ o, OutputServes reactDigitalOutput handle o (resultState (f o))) :
    Serves ledPins s (resultState (onOutput s handle f)) := by
  have hcases := hled
  simp only [leds, List.mem_cons, List.not_mem_nil, or_false] at hcases
  rcases hcases with rfl | rfl | rfl | rfl <;>
    exact onOutput_serves hw (by decide) (by decide) hled hf

theorem outputSet_serves (hw : Wired s) (hled : handle ∈ leds) (value : Bool) :
    Serves ledPins s (resultState (outputSet s handle value)) :=
  onLed_serves hw hled fun _ => OutputServes.set value

theorem outputStart_serves (hw : Wired s) (hled : handle ∈ leds) (referenceTime : ℕ)
    (sequence : List Char) (rep : Bool) :
    Serves ledPins s (resultState (outputStart s handle referenceTime sequence rep)) :=
  onLed_serves hw hled fun _ => OutputServes.start (by decide) _ _ _

/-- What a function of the piezzo that does not stop leaves. -/
theorem onSound_eq_ok {f : SoundState → Except SoundState SoundState} (h : onSound s f = .ok s') :
    ∃ o, f ⟨s.timer, s.piezzo⟩ = .ok o ∧ s' = { s with timer := o.timer, piezzo := o.piezzo } := by
  obtain ⟨o, ho, hput⟩ := within_eq_ok.mp h
  exact ⟨o, ho, hput.symm⟩

/-- A function of the piezzo. -/
theorem onSound_serves (hw : Wired s) {f : SoundState → Except SoundState SoundState}
    (hf : ∀ p, SoundServes p (resultState (f p))) :
    Serves W s (resultState (onSound s f)) := by
  rw [onSound, resultState_within]
  refine .of_timer hw ?_ ⟨[], rfl, by simp⟩ rfl rfl rfl rfl rfl rfl rfl
  exact (hf ⟨s.timer, s.piezzo⟩).mono fun g hg => .inl (by
    rcases hg with hg | hg <;> simp [hg])

/-- The next transmit is armed. -/
theorem armTransmit_serves (hw : Wired s) (delay : ℕ) :
    Serves W s (resultState (armTimer s reactI2cCommand delay
      fun s inst => { s with transmitTimer := inst })) := by
  unfold armTimer
  split
  · next inst timer harm =>
    refine .of_timer hw ?_ ⟨[], rfl, by simp⟩ rfl rfl rfl rfl rfl rfl rfl
    exact Timer.Served.arm harm (by decide) fun _ => .inl (by simp)
  · exact .refl hw

theorem triggerNextTransmit_serves (hw : Wired s) :
    Serves W s (resultState (triggerNextTransmit s)) := by
  unfold triggerNextTransmit
  dsimp only
  have hcancel : Serves W s (if s.transmitTimer ≠ timerInvalidInstance then
      { s with timer := (timerCancel s.timer s.transmitTimer).2 } else s) := by
    split
    · exact .of_timer hw (Timer.Served.cancel _) ⟨[], rfl, by simp⟩ rfl rfl rfl rfl rfl rfl rfl
    · exact .refl hw
  exact hcancel.trans (armTransmit_serves hcancel.wired _)

theorem refreshOpcode_serves (hw : Wired s) : Serves W s (resultState (refreshOpcode s)) := by
  unfold refreshOpcode
  dsimp only
  split
  · have hset : Serves W s { s with currentCommand := firstOpcode s.outputStatuses } :=
      .of_timer hw (Timer.Served.refl _ _) ⟨[], rfl, by simp⟩ rfl rfl rfl rfl rfl rfl rfl
    exact hset.trans (triggerNextTransmit_serves hset.wired)
  · exact .refl hw

theorem onInputChange_serves (hw : Wired s) (arg : ℕ) :
    Serves ledPins s (resultState (onInputChange s arg)) := by
  unfold onInputChange
  refine Serves.bind ?_ fun s₁ _ h₁ => ?_
  · split
    · have hset : Serves ledPins s { s with
          outputStatuses := setStatus (argPin arg) (argValue arg) s.outputStatuses } :=
        .of_timer hw (Timer.Served.refl _ _) ⟨[], rfl, by simp⟩ rfl rfl rfl rfl rfl rfl rfl
      exact hset.trans (refreshOpcode_serves hset.wired)
    · exact .refl hw
  · split
    · exact outputSet_serves h₁.wired (by decide) _
    · exact .refl h₁.wired

end Controller

end CncPneumatics
