import CncPneumatics.Controller.Model
/-!
# The handlers and the queues

No handler of the controller looks at the queues. One that notifies nobody
returns the same whatever waits; and what the others notify is added to
what waits, whatever that is.
-/

namespace CncPneumatics

open Asx

namespace Controller

variable {s : State} {m : Mailroom ℕ} {f g : State → Except State State}

/-- A controller with these messages. -/
def withMail (m : Mailroom ℕ) (s : State) : State := { s with mail := m }

/-- With these messages, and then its own. -/
def onto (m : Mailroom ℕ) (s : State) : State := withMail (depositAll queueSize m s.mail) s

/-- It does not look at the queues. -/
def Blind (f : State → Except State State) : Prop := ∀ m, Commutes (withMail m) f

/-- What it notifies is added to what waits. -/
def Posts (f : State → Except State State) : Prop :=
  ∀ m s, f (withMail m s) = onBoth (onto m) (f (withMail [] s))

theorem Blind.mail (hf : Blind f) {s' : State} (h : f s = .ok s') : s'.mail = s.mail := by
  have heq := hf s.mail s
  rw [show withMail s.mail s = s from rfl, h, onBoth, Except.ok.injEq] at heq
  rw [heq]
  rfl

/-- One that notifies nobody. -/
theorem Blind.posts (hf : Blind f) : Posts f := by
  intro m s
  have hnone := hf [] s
  rw [show withMail m s = withMail m (withMail [] s) from rfl, hf m (withMail [] s), hnone]
  cases f s <;> rfl

/-- What is done afterwards, by one that notifies nobody. -/
theorem Posts.bind (hf : Posts f) (hg : Blind g) : Posts fun s => (f s).bind g := by
  intro m s
  dsimp only
  rw [hf m s]
  cases f (withMail [] s) with
  | error _ => rfl
  | ok s₁ =>
    show g (withMail _ s₁) = onBoth (onto m) (g s₁)
    rw [hg _ s₁]
    cases hs : g s₁ with
    | error s₂ =>
      have heq := hg s₁.mail s₁
      rw [show withMail s₁.mail s₁ = s₁ from rfl, hs, onBoth, Except.error.injEq] at heq
      rw [onBoth, onBoth, onto, heq]
      rfl
    | ok s₂ => rw [onBoth, onBoth, onto, hg.mail hs]

theorem Posts.ite {P : State → Prop} [DecidablePred P] (hP : ∀ m s, P (withMail m s) ↔ P s)
    (hf : Posts f) (hg : Posts g) : Posts fun s => if P s then f s else g s := by
  intro m s
  dsimp only
  have hiff : P (withMail m s) ↔ P (withMail [] s) := (hP m s).trans (hP [] s).symm
  by_cases h : P (withMail [] s)
  · rw [if_pos (hiff.mpr h), if_pos h, hf]
  · rw [if_neg fun h' => h (hiff.mp h'), if_neg h, hg]

/-! ## Services -/

theorem onOutput_blind (handle : ℕ) (h : OutputState → Except OutputState OutputState) :
    Blind fun s => onOutput s handle h := fun _ => .within (fun _ => rfl) fun _ _ => rfl

theorem outputSet_blind (handle : ℕ) (value : Bool) : Blind fun s => outputSet s handle value :=
  onOutput_blind _ _

theorem outputStart_blind (handle referenceTime : ℕ) (sequence : List Char) (rep : Bool) :
    Blind fun s => outputStart s handle referenceTime sequence rep := onOutput_blind _ _

theorem onSound_blind (h : SoundState → Except SoundState SoundState) : Blind fun s => onSound s h :=
  fun _ => .within (fun _ => rfl) fun _ _ => rfl

theorem armTimer_blind (reactor delay : ℕ) {store : State → ℕ → State}
    (hstore : ∀ m s inst, store (withMail m s) inst = withMail m (store s inst)) :
    Blind fun s => armTimer s reactor delay store := by
  intro m s
  dsimp only [armTimer, withMail]
  cases timerArm s.timer reactor (timerGetCountFromNow s.timer delay) 0 0 with
  | none => rfl
  | some r => exact congrArg Except.ok (hstore m { s with timer := r.2 } r.1)

theorem triggerNextTransmit_blind : Blind triggerNextTransmit := by
  intro m
  have harm : Commutes (withMail m) fun s => armTimer s reactI2cCommand (timerMilliseconds 1)
      fun s inst => { s with transmitTimer := inst } := armTimer_blind _ _ (fun _ _ _ => rfl) m
  exact harm.comp (k := fun s : State => if s.transmitTimer ≠ timerInvalidInstance then
    { s with timer := (timerCancel s.timer s.transmitTimer).2 } else s) fun s =>
    (apply_ite (withMail m) (s.transmitTimer ≠ timerInvalidInstance)
      { s with timer := (timerCancel s.timer s.transmitTimer).2 } s).symm

theorem refreshOpcode_blind : Blind refreshOpcode := fun m =>
  .ite (fun _ => Iff.rfl) ((triggerNextTransmit_blind m).comp (k := fun s : State =>
    { s with currentCommand := firstOpcode s.outputStatuses }) fun _ => rfl) (.ok fun _ => rfl)

/-! ## Handlers that notify nobody -/

theorem onI2cError_blind : Blind onI2cError := by
  intro m
  have hsound : Commutes (withMail m) fun s => (onSound s (piezzoStartTone reactToneStop
      (piezzoFreqToPwm 2000) (timerSeconds 5))).map fun s => { s with stopTransmit := true } :=
    (onSound_blind _ m).map fun _ => rfl
  have hstop := (outputSet_blind chuckReleasedOc false m).bind
    ((outputSet_blind ledFault true m).bind hsound)
  have hblink := outputStart_blind ledFault (timerMilliseconds 50) ['+', '-'] false m
  exact .comp (g := withMail m) (k := fun s : State => { s with commsErrorCount := errorCountAfter s })
    (fun _ => rfl) (.ite (P := fun s : State => commsTooManyErrors ≤ s.commsErrorCount)
      (fun _ => Iff.rfl) hstop hblink)

theorem onI2cRead_blind (arg : ℕ) : Blind fun s => onI2cRead s arg := fun m =>
  (outputSet_blind _ _ m).comp (k := fun s : State =>
    if 0 < s.commsErrorCount then { s with commsErrorCount := s.commsErrorCount - 1 } else s)
    fun s => (apply_ite (withMail m) (0 < s.commsErrorCount)
      { s with commsErrorCount := s.commsErrorCount - 1 } s).symm

theorem onInputChange_blind (arg : ℕ) : Blind fun s => onInputChange s arg := fun m =>
  .bind (.ite (fun _ => Iff.rfl) ((refreshOpcode_blind m).comp (k := fun s : State =>
      { s with outputStatuses := setStatus (argPin arg) (argValue arg) s.outputStatuses })
      fun _ => rfl) (.ok fun _ => rfl))
    (.ite (fun _ => Iff.rfl) (outputSet_blind _ _ m) (.ok fun _ => rfl))

theorem onSounder_blind (arg : ℕ) : Blind fun s => onSounder s arg := fun m =>
  .ite (fun _ => Iff.rfl) (onSound_blind _ m) (onSound_blind _ m)

theorem valveArmTimer_blind (delay : ℕ) : Blind fun s => valveArmTimer s delay :=
  armTimer_blind _ _ fun _ _ _ => rfl

/-- The actions of the door. -/
theorem doorAct_blind (action : DoorAction) : Blind fun s => doorAct s action := by
  intro m
  have hon : ∀ pin led, Commutes (withMail m) fun s => moveOn s pin led := fun _ _ =>
    (onInputChange_blind _ m).bind ((outputStart_blind _ _ _ _ m).bind (valveArmTimer_blind _ m))
  have hoff : ∀ pin led, Commutes (withMail m) fun s => moveOff s pin led := fun _ _ =>
    (onInputChange_blind _ m).bind ((outputSet_blind _ _ m).map fun _ => rfl)
  have htimeout : ∀ pin led, Commutes (withMail m) fun s => moveTimeout s pin led := fun _ _ =>
    (onInputChange_blind _ m).bind (outputStart_blind _ _ _ _ m)
  cases action with
  | none => exact .ok fun _ => rfl
  | pushOn => exact hon _ _
  | pushOff => exact hoff _ _
  | pushTimeout => exact htimeout _ _
  | pullOn => exact hon _ _
  | pullOff => exact hoff _ _
  | pullTimeout => exact htimeout _ _
  | doorMoving =>
    have harm := valveArmTimer_blind completeTimeout m
    exact .comp (g := withMail m) (k := valveCancelTimer) (fun _ => rfl) harm

theorem processEvent_blind (event : DoorEvent) : Blind fun s => processEvent s event := by
  intro m s
  dsimp only
  unfold processEvent
  rw [show (withMail m s).doorSm = s.doorSm from rfl]
  cases doorTransition s.doorSm event with
  | none => rfl
  | some p =>
    exact (doorAct_blind p.1 m).map (k := fun s : State => { s with doorSm := p.2 }) (fun _ => rfl) s

theorem onDoorSensorChange_blind (arg : ℕ) : Blind fun s => onDoorSensorChange s arg := fun m =>
  .ite (fun _ => Iff.rfl)
    ((processEvent_blind _ m).comp (k := fun s : State =>
      { s with pins := ioportSetPinLevel s.pins ocDoorClosed (argValue arg) }) fun _ => rfl)
    (.ite (fun _ => Iff.rfl) (processEvent_blind _ m) (.ok fun _ => rfl))

/-! ## The bus -/

/-- Sending notifies only when the bus is not free. -/
theorem i2cMasterSend_posts (code : Opcode) :
    i2cMasterSend (withMail m s) code = onto m (i2cMasterSend (withMail [] s) code) := by
  unfold i2cMasterSend
  dsimp only [withMail]
  split <;> rfl

theorem onSendI2cCommand_posts (busy : Bool) : Posts fun s => onSendI2cCommand s busy := by
  have hsend : Posts fun s : State =>
      if busy then onI2cError s else .ok (i2cMasterSend s s.currentCommand) :=
    .ite (fun _ _ => Iff.rfl) onI2cError_blind.posts fun _ _ =>
      congrArg Except.ok (i2cMasterSend_posts _)
  exact .ite (fun _ _ => Iff.rfl) (hsend.bind (armTimer_blind _ _ fun _ _ _ => rfl))
    (Blind.posts fun _ => .ok fun _ => rfl)

/-- So does the interrupt. -/
theorem twiInterrupt_posts (status : MasterStatus) :
    twiInterrupt (withMail m s) status = onto m (twiInterrupt (withMail [] s) status) := by
  unfold twiInterrupt i2cOnComplete
  dsimp only [withMail]
  split
  · split_ifs <;> rfl
  · rfl

end Controller

end CncPneumatics
