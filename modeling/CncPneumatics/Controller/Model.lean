import CncPneumatics.Asx.DigitalInput
import CncPneumatics.Asx.DigitalOutput
import CncPneumatics.Asx.Piezzo
import CncPneumatics.Asx.Twim
import CncPneumatics.Common.Mailbox
import CncPneumatics.Common.Outcome
import CncPneumatics.OpCodes
/-!
# The controller

The pneumatic controller: `main.cpp` with its state machine and `i2c.c`,
over the services that `board.c` starts. It watches the inputs, drives the
door and sends the command of the highest priority to the hub, every
100 ms and whenever it changes. This is the release build.

The queues of the reactor are a mailroom. A handler is one step; where it
alerts and stops, its result is the state it stopped in.
-/

namespace CncPneumatics

open Asx

namespace Controller

/-! ## Configuration -/

def ocChuckReleased : ℕ := ioportCreatePin 0 1
def ocDoorClosed : ℕ := ioportCreatePin 0 2
def inDoorUp : ℕ := ioportCreatePin 0 3
def inChuckOpen : ℕ := ioportCreatePin 0 4
def inSpindleAirBlast : ℕ := ioportCreatePin 0 5
def inToolsetAirBlast : ℕ := ioportCreatePin 0 6
def inSounder : ℕ := ioportCreatePin 0 7
def piezzoDrivePin : ℕ := ioportCreatePin 1 2
def inDoorDown : ℕ := ioportCreatePin 1 3
def inBeep : ℕ := ioportCreatePin 1 4
def inDoorOpenClose : ℕ := ioportCreatePin 1 5
def ledChuckPin : ℕ := ioportCreatePin 2 0
def ledDoorClosingPin : ℕ := ioportCreatePin 2 1
def ledDoorOpeningPin : ℕ := ioportCreatePin 2 2
def ledFaultPin : ℕ := ioportCreatePin 2 3

/-- `COMMS_TOO_MANY_ERRORS`. -/
def commsTooManyErrors : ℕ := 100

/-- `DI_FILT4`. -/
def diFilt4 : ℕ := timerMilliseconds 40

/-- `COMMS_GRACE_PERIOD`. -/
def commsGracePeriod : ℕ := timerSeconds 5

/-- `I2C_DELAY_BETWEEN_TRANSMIT`. -/
def i2cDelayBetweenTransmit : ℕ := timerMilliseconds 100

/-- `valve::moving_timeout`. -/
def movingTimeout : ℕ := timerSeconds 3

/-- `valve::complete_timeout`. -/
def completeTimeout : ℕ := timerSeconds 8

/-- `arcade_tune`. -/
def arcadeTune : List Char :=
  ['C', ',', '3', ' ', 'R', ' ', 'C', ' ', 'E', ' ', 'G', ' ', 'E', ' ', 'G', ' ', 'E', ' ',
   'D', ' ', 'R', ' ', 'D', ' ', 'F', ' ', 'A', '2', '~', 'A', '3', ' ', 'B', ' ', 'G', ' ',
   'E', ' ', 'B', ' ', 'G', ' ', 'E', ' ', 'B', ' ', 'G', ' ', 'E', ' ', 'C', Char.ofNat 39,
   ' ', 'R', ' ', 'B', ',', ' ', 'C', Char.ofNat 39, '~', 'C', '1']

/-! The handles, in the order in which they are registered: by `main.cpp`,
then by the services. -/

def reactBeep : ℕ := 0
def reactI2cCommand : ℕ := 1
def reactI2cRead : ℕ := 2
def reactSounder : ℕ := 3
def reactI2cError : ℕ := 4
def reactInputChange : ℕ := 5
def reactDoorSensor : ℕ := 6
def reactDoorCmd : ℕ := 7
def reactCmdTimeout : ℕ := 8
def reactCommsGraceOver : ℕ := 9
def reactTimer : ℕ := 10
def reactDigitalOutput : ℕ := 11
def reactSample : ℕ := 12
def reactPiezzo : ℕ := 15
def reactToneStop : ℕ := 16

/-- The size of the queue of each handler. -/
def queueSize (handle : ℕ) : ℕ :=
  if handle = reactI2cCommand then 2 else if handle = reactDigitalOutput then 8 else 1

/-- The priority of each handler. -/
def priority (handle : ℕ) : ℕ :=
  [180, 130, 130, 80, 80, 80, 80, 80, 30, 30, 190, 180, 90, 170, 170, 130, 130].getD handle 0

/-! The digital outputs, in the order in which they are declared. -/

def ledFault : ℕ := 0
def ledChuck : ℕ := 1
def ledDoorOpening : ℕ := 2
def ledDoorClosing : ℕ := 3
def chuckReleasedOc : ℕ := 4

/-! ## State -/

/-- `output_status_t`. -/
structure OutputStatus where
  pin : ℕ
  opcode : Opcode
  state : Bool
deriving DecidableEq

/-- The states of `door_sm`. -/
inductive DoorState where
  | unknown
  | closed
  | opened
  | opening
  | closing
deriving DecidableEq

/-- Its events. -/
inductive DoorEvent where
  | open
  | close
  | doorIsUp
  | doorIsDown
  | doorMovingUp
  | doorMovingDown
  | timeout
deriving DecidableEq

/-- The actions of its transitions. -/
inductive DoorAction where
  | none
  | pushOn
  | pushOff
  | pushTimeout
  | pullOn
  | pullOff
  | pullTimeout
  | doorMoving
deriving DecidableEq

/-- The static variables of the controller, its services and its pins. -/
structure State where
  timer : Timer
  mail : Mailroom ℕ
  pins : PinWrites
  /-- `_first_sampled` and its chain. -/
  inputs : List DigitalInput
  outputs : List DigitalOutput
  piezzo : Piezzo
  transfer : Transfer
  lastSent : Opcode
  currentCommand : Opcode
  outputStatuses : List OutputStatus
  commsErrorCount : ℕ
  commsInErrorGracePeriodActive : Bool
  stopTransmit : Bool
  transmitTimer : ℕ
  doorSm : DoorState
  /-- `valve::timer`. -/
  valveTimer : ℕ

variable (s : State)

/-! ## Services -/

/-- `reactor_notify`. -/
def notify (handle arg : ℕ) : State := { s with mail := deposit queueSize s.mail handle arg }

/-- What a digital output function does, given the handle of an output. -/
def onOutput (handle : ℕ) (f : OutputState → Except OutputState OutputState) :
    Except State State :=
  within (fun s => ⟨s.timer, s.pins, s.outputs.getD handle default⟩)
    (fun s o => { s with timer := o.timer, pins := o.pins, outputs := s.outputs.set handle o.out })
    f s

def outputSet (handle : ℕ) (value : Bool) : Except State State :=
  onOutput s handle fun o => .ok (digitalOutputSet value o)

def outputStart (handle referenceTime : ℕ) (sequence : List Char) (rep : Bool) :
    Except State State :=
  onOutput s handle (digitalOutputStart reactDigitalOutput handle referenceTime sequence rep)

/-- What a piezzo function does. -/
def onSound (f : SoundState → Except SoundState SoundState) : Except State State :=
  within (fun s => ⟨s.timer, s.piezzo⟩)
    (fun s p => { s with timer := p.timer, piezzo := p.piezzo }) f s

/-- `timer_arm` with no repeat and no argument: what is done with the
instance. -/
def armTimer (reactor delay : ℕ) (store : State → ℕ → State) : Except State State :=
  match timerArm s.timer reactor (timerGetCountFromNow s.timer delay) 0 0 with
  | some (inst, timer) => .ok (store { s with timer := timer } inst)
  | none => .error s

/-! ## Two-wire -/

/-- `package`, as `i2c_master_send` fills it. -/
def i2cPackage : TwiPackage := ⟨1, 1⟩

/-- `i2c_master_send`. -/
def i2cMasterSend (code : Opcode) : State :=
  let s := { s with lastSent := code }
  let r := twiMasterTransfer s.transfer true
  let s := { s with transfer := r.2 }
  if r.1 ≠ .statusOk then notify s reactI2cError r.1.asArg else s

/-- `_i2c_on_complete`. -/
def i2cOnComplete (status : StatusCode) : State :=
  let s := { s with transfer := twimRelease s.transfer }
  if status = .statusOk then
    let reply := opcodesDecodeReply s.lastSent s.transfer.buffer
    if reply = .error then notify s reactI2cError StatusCode.errBadData.asArg
    else notify s reactI2cRead (if reply = .on then 1 else 0)
  else notify s reactI2cError status.asArg

/-- The interrupt of the two-wire interface. -/
def twiInterrupt (status : MasterStatus) : State :=
  let r := twimInterruptHandler i2cPackage s.transfer status
  let s := { s with transfer := r.2 }
  match r.1 with
  | some status => i2cOnComplete s status
  | none => s

/-! ## Communication -/

/-- `on_comms_grace_over`. -/
def onCommsGraceOver : State := { s with commsInErrorGracePeriodActive := false }

/-- The error count with which `on_i2c_error` decides, 8 bits wide. -/
def errorCountAfter : ℕ :=
  if s.commsInErrorGracePeriodActive then s.commsErrorCount else (s.commsErrorCount + 2) % 2 ^ 8

/-- `on_i2c_error`. -/
def onI2cError : Except State State :=
  let s := { s with commsErrorCount := errorCountAfter s }
  if commsTooManyErrors ≤ s.commsErrorCount then
    (outputSet s chuckReleasedOc false).bind fun s =>
    (outputSet s ledFault true).bind fun s =>
    (onSound s (piezzoStartTone reactToneStop (piezzoFreqToPwm 2000) (timerSeconds 5))).map fun s =>
      { s with stopTransmit := true }
  else outputStart s ledFault (timerMilliseconds 50) ['+', '-'] false

/-- `on_i2c_read`. -/
def onI2cRead (arg : ℕ) : Except State State :=
  let s := if 0 < s.commsErrorCount then { s with commsErrorCount := s.commsErrorCount - 1 } else s
  outputSet s chuckReleasedOc (arg ≠ 0)

/-- `on_send_i2c_command`, where the bus is busy or not. -/
def onSendI2cCommand (busy : Bool) : Except State State :=
  if s.stopTransmit = false then
    (if busy then onI2cError s else .ok (i2cMasterSend s s.currentCommand)).bind fun s =>
      armTimer s reactI2cCommand i2cDelayBetweenTransmit fun s inst => { s with transmitTimer := inst }
  else .ok s

/-- `trigger_next_transmit`. -/
def triggerNextTransmit : Except State State :=
  let s := if s.transmitTimer ≠ timerInvalidInstance then
      { s with timer := (timerCancel s.timer s.transmitTimer).2 }
    else s
  armTimer s reactI2cCommand (timerMilliseconds 1) fun s inst => { s with transmitTimer := inst }

/-- The opcode of the first output that is on, or idle. -/
def firstOpcode (l : List OutputStatus) : Opcode :=
  match l.find? OutputStatus.state with
  | some o => o.opcode
  | none => opcodesCmdIdle

/-- `refresh_opcode`. -/
def refreshOpcode : Except State State :=
  let newCmd := firstOpcode s.outputStatuses
  if s.currentCommand ≠ newCmd then triggerNextTransmit { s with currentCommand := newCmd } else .ok s

/-! ## Inputs -/

/-- The table with the state of the first entry for a pin written. -/
def setStatus (pin : ℕ) (value : Bool) : List OutputStatus → List OutputStatus
  | [] => []
  | o :: l => if o.pin = pin then { o with state := value } :: l else o :: setStatus pin value l

/-- `on_input_change`. -/
def onInputChange (arg : ℕ) : Except State State :=
  (if s.outputStatuses.any fun o => o.pin = argPin arg then
      refreshOpcode { s with
        outputStatuses := setStatus (argPin arg) (argValue arg) s.outputStatuses }
    else .ok s).bind fun s =>
      if argPin arg = inChuckOpen then outputSet s ledChuck (argValue arg) else .ok s

/-- `on_beep_input`. -/
def onBeepInput : Except State State := onSound s (piezzoPlay reactPiezzo 150 ['B', '4'])

/-- `on_sounder`. -/
def onSounder (arg : ℕ) : Except State State :=
  if argValue arg then onSound s (piezzoStartTone reactToneStop (piezzoFreqToPwm 1400) 0)
  else onSound s fun p => .ok (piezzoStopTone p)

/-! ## The door -/

/-- `valve::arm_timer`. -/
def valveArmTimer (delay : ℕ) : Except State State :=
  armTimer s reactCmdTimeout delay fun s inst => { s with valveTimer := inst }

/-- `timer_cancel(timer)`. -/
def valveCancelTimer : State := { s with timer := (timerCancel s.timer s.valveTimer).2 }

/-- `valve::push_on` and `valve::pull_on`. -/
def moveOn (pin led : ℕ) : Except State State :=
  (onInputChange s (pinAndValueAsArg pin true)).bind fun s =>
  (outputStart s led (timerSeconds 1) ['+', '1', '-'] true).bind fun s =>
  valveArmTimer s movingTimeout

/-- `valve::push_off` and `valve::pull_off`. -/
def moveOff (pin led : ℕ) : Except State State :=
  (onInputChange s (pinAndValueAsArg pin false)).bind fun s =>
  (outputSet s led false).map fun s => valveCancelTimer s

/-- `valve::push_timeout` and `valve::pull_timeout`. -/
def moveTimeout (pin led : ℕ) : Except State State :=
  (onInputChange s (pinAndValueAsArg pin false)).bind fun s =>
  outputStart s led (timerSeconds 1) ['+', '4', '-'] true

def pushOn : Except State State := moveOn s inDoorUp ledDoorOpening
def pushOff : Except State State := moveOff s inDoorUp ledDoorOpening
def pushTimeout : Except State State := moveTimeout s inDoorUp ledDoorOpening
def pullOn : Except State State := moveOn s inDoorDown ledDoorClosing
def pullOff : Except State State := moveOff s inDoorDown ledDoorClosing
def pullTimeout : Except State State := moveTimeout s inDoorDown ledDoorClosing

/-- `valve::door_moving`. -/
def doorMoving : Except State State := valveArmTimer (valveCancelTimer s) completeTimeout

def doorAct : DoorAction → Except State State
  | .none => .ok s
  | .pushOn => pushOn s
  | .pushOff => pushOff s
  | .pushTimeout => pushTimeout s
  | .pullOn => pullOn s
  | .pullOff => pullOff s
  | .pullTimeout => pullTimeout s
  | .doorMoving => doorMoving s

/-- The transition table of `door_sm`. -/
def doorTransition : DoorState → DoorEvent → Option (DoorAction × DoorState)
  | .unknown, .doorIsUp => some (.none, .opened)
  | .unknown, .doorIsDown => some (.none, .closed)
  | .closed, .open => some (.pushOn, .opening)
  | .opened, .close => some (.pullOn, .closing)
  | .opening, .doorMovingUp => some (.doorMoving, .opening)
  | .opening, .timeout => some (.pushTimeout, .unknown)
  | .opening, .doorIsUp => some (.pushOff, .opened)
  | .closing, .doorMovingDown => some (.doorMoving, .closing)
  | .closing, .timeout => some (.pullTimeout, .unknown)
  | .closing, .doorIsDown => some (.pullOff, .closed)
  | _, _ => none

/-- `door_sm.process_event`: the matching row of the table, if there is
one. -/
def processEvent (event : DoorEvent) : Except State State :=
  match doorTransition s.doorSm event with
  | some (action, next) => (doorAct s action).map fun s => { s with doorSm := next }
  | none => .ok s

/-- `on_cmd_timeout`. -/
def onCmdTimeout : Except State State := processEvent s .timeout

/-- `on_door_cmd`. -/
def onDoorCmd (arg : ℕ) : Except State State :=
  processEvent s (if argValue arg then .open else .close)

/-- `on_door_sensor_change`. -/
def onDoorSensorChange (arg : ℕ) : Except State State :=
  if argPin arg = inDoorDown then
    processEvent { s with pins := ioportSetPinLevel s.pins ocDoorClosed (argValue arg) }
      (if argValue arg then .doorIsDown else .doorMovingUp)
  else if argPin arg = inDoorUp then
    processEvent s (if argValue arg then .doorIsUp else .doorMovingDown)
  else .ok s

/-! ## Start -/

/-- The table of outputs in the order of their priorities, none of them
on. -/
def outputStatusesInit : List OutputStatus :=
  [⟨inChuckOpen, opcodesCmdUnclampChuck, false⟩, ⟨inSpindleAirBlast, opcodesCmdBlastSpindle, false⟩,
   ⟨inToolsetAirBlast, opcodesCmdBlastToolsetter, false⟩, ⟨inDoorUp, opcodesCmdPullDoor, false⟩,
   ⟨inDoorDown, opcodesCmdPushDoor, false⟩]

/-- The inputs that `main` declares, each with the handle it notifies. -/
def inputTable : List (ℕ × ℕ) :=
  [(inDoorUp, reactDoorSensor), (inDoorDown, reactDoorSensor), (inChuckOpen, reactInputChange),
   (inSpindleAirBlast, reactInputChange), (inToolsetAirBlast, reactInputChange),
   (inDoorOpenClose, reactDoorCmd), (inSounder, reactSounder), (inBeep, reactBeep)]

/-- The pins of the digital outputs. -/
def outputPins : List ℕ :=
  [ledFaultPin, ledChuckPin, ledDoorOpeningPin, ledDoorClosingPin, ocChuckReleased]

/-- The pins that `board_init` drives low. -/
def boardPins : List ℕ :=
  [ocDoorClosed, ocChuckReleased, ledChuckPin, ledDoorClosingPin, ledDoorOpeningPin, ledFaultPin,
   piezzoDrivePin]

/-- `board_init`, on static variables as they are at first. -/
def boardInit : Except State State :=
  let s : State :=
    { timer := timerInit
      mail := []
      pins := boardPins.foldl (fun w pin => ioportSetPinLevel w pin false) []
      inputs := []
      outputs := outputPins.map digitalOutput
      piezzo := piezzoInit
      transfer := twiMasterInit
      lastSent := 0
      currentCommand := opcodesCmdIdle
      outputStatuses := outputStatusesInit
      commsErrorCount := 0
      commsInErrorGracePeriodActive := true
      stopTransmit := false
      transmitTimer := timerInvalidInstance
      doorSm := .unknown
      valveTimer := timerInvalidInstance }
  -- `digital_input_init`
  match timerArm s.timer reactSample (timerGetCountFromNow s.timer 0) digitalInputSamplePeriod 0 with
  | some (_, timer) => .ok { s with timer := timer }
  | none => .error s

/-- `main` up to `reactor_run`. -/
def main : Except State State :=
  boardInit.bind fun s =>
  let s := { s with inputs := inputTable.map fun p => digitalInput p.1 p.2 diFilt4 }
  (outputStart s ledFault 1000 ['+', '+', '-'] false).bind fun s =>
  (outputStart s ledChuck 1000 ['+', '+', '-'] false).bind fun s =>
  (outputStart s ledDoorOpening 1000 ['+', '+', '-'] false).bind fun s =>
  (outputStart s ledDoorClosing 1000 ['+', '+', '-'] false).bind fun s =>
  (triggerNextTransmit s).bind fun s =>
  (armTimer s reactCommsGraceOver commsGracePeriod fun s _ => s).bind fun s =>
  onSound s (piezzoPlay reactPiezzo 190 arcadeTune)

/-- The state in which `main` enters `reactor_run`. -/
def start : State := resultState main

/-! ## Running -/

/-- What a handler finds around it: the input pins that are high, and
whether the bus is busy. -/
structure Surroundings where
  high : List ℕ
  busy : Bool
deriving DecidableEq

/-- What can happen to the controller. -/
inductive Event where
  /-- A millisecond passes. -/
  | tick
  /-- The two-wire interface interrupts. -/
  | twi (status : MasterStatus)
  /-- The reactor runs a handler. -/
  | run (handle : ℕ) (around : Surroundings)
deriving DecidableEq

/-- `timer_dispatch`, whose notifications go to the queues. -/
def onTimer (fuel : ℕ) (s : State) : Option (Except State State) :=
  (timerDispatch fuel s.timer).map fun r =>
    .ok { s with timer := r.2, mail := depositAll queueSize s.mail r.1 }

/-- `_digital_input_sample`. -/
def onSample (high : List ℕ) : State :=
  let r := digitalInputSample (fun pin => decide (pin ∈ high)) s.inputs
  { s with inputs := r.1, mail := depositAll queueSize s.mail r.2 }

/-- The handler of a handle, on the state after the queue was popped. The
other two handlers are those of direct inputs, of which there are none. -/
def handler (fuel : ℕ) (s : State) (handle arg : ℕ) (around : Surroundings) : Option (Except State State) :=
  if handle = reactBeep then some (onBeepInput s)
  else if handle = reactI2cCommand then some (onSendI2cCommand s around.busy)
  else if handle = reactI2cRead then some (onI2cRead s arg)
  else if handle = reactSounder then some (onSounder s arg)
  else if handle = reactI2cError then some (onI2cError s)
  else if handle = reactInputChange then some (onInputChange s arg)
  else if handle = reactDoorSensor then some (onDoorSensorChange s arg)
  else if handle = reactDoorCmd then some (onDoorCmd s arg)
  else if handle = reactCmdTimeout then some (onCmdTimeout s)
  else if handle = reactCommsGraceOver then some (.ok (onCommsGraceOver s))
  else if handle = reactTimer then onTimer fuel s
  else if handle = reactDigitalOutput then
    some (onOutput s arg (digitalOutputReactorHandler reactDigitalOutput arg))
  else if handle = reactSample then some (.ok (onSample s around.high))
  else if handle = reactPiezzo then some (onSound s (playNextNote reactPiezzo))
  else if handle = reactToneStop then some (onSound s fun p => .ok (piezzoStopTone p))
  else none

/-- What an event leads to. The two-wire interface interrupts while a
transfer is in flight. -/
def react (fuel : ℕ) (s : State) : Event → Option (Except State State)
  | .tick => some (.ok (notify { s with timer := timerTick s.timer } reactTimer 0))
  | .twi status => if s.transfer.locked then some (.ok (twiInterrupt s status)) else none
  | .run handle around => (collect s.mail handle).bind fun r =>
      handler fuel { s with mail := r.2 } handle r.1 around

/-- One step that does not stop. -/
def step (fuel : ℕ) (s : State) (e : Event) : Option State :=
  (react fuel s e).bind Except.toOption

/-! ## What a handler can be -/

variable {s} {fuel handle arg : ℕ} {around : Surroundings} {r : Except State State}

/-- **The handlers**, each with what it leads to. -/
inductive Handles (fuel : ℕ) (s : State) (arg : ℕ) (around : Surroundings) :
    ℕ → Except State State → Prop
  | beep : Handles fuel s arg around reactBeep (onBeepInput s)
  | i2cCommand : Handles fuel s arg around reactI2cCommand (onSendI2cCommand s around.busy)
  | i2cRead : Handles fuel s arg around reactI2cRead (onI2cRead s arg)
  | sounder : Handles fuel s arg around reactSounder (onSounder s arg)
  | i2cError : Handles fuel s arg around reactI2cError (onI2cError s)
  | inputChange : Handles fuel s arg around reactInputChange (onInputChange s arg)
  | doorSensor : Handles fuel s arg around reactDoorSensor (onDoorSensorChange s arg)
  | doorCmd : Handles fuel s arg around reactDoorCmd (onDoorCmd s arg)
  | cmdTimeout : Handles fuel s arg around reactCmdTimeout (onCmdTimeout s)
  | graceOver : Handles fuel s arg around reactCommsGraceOver (.ok (onCommsGraceOver s))
  | timer {d : List (ℕ × ℕ) × Timer} : timerDispatch fuel s.timer = some d →
      Handles fuel s arg around reactTimer
        (.ok { s with timer := d.2, mail := depositAll queueSize s.mail d.1 })
  | digitalOutput : Handles fuel s arg around reactDigitalOutput
      (onOutput s arg (digitalOutputReactorHandler reactDigitalOutput arg))
  | sample : Handles fuel s arg around reactSample (.ok (onSample s around.high))
  | piezzo : Handles fuel s arg around reactPiezzo (onSound s (playNextNote reactPiezzo))
  | toneStop : Handles fuel s arg around reactToneStop (onSound s fun p => .ok (piezzoStopTone p))

theorem handles_of_handler (h : handler fuel s handle arg around = some r) :
    Handles fuel s arg around handle r := by
  unfold handler at h
  by_cases hbeep : handle = reactBeep
  · rw [if_pos hbeep] at h
    exact hbeep ▸ Option.some.inj h ▸ .beep
  rw [if_neg hbeep] at h
  by_cases hcommand : handle = reactI2cCommand
  · rw [if_pos hcommand] at h
    exact hcommand ▸ Option.some.inj h ▸ .i2cCommand
  rw [if_neg hcommand] at h
  by_cases hread : handle = reactI2cRead
  · rw [if_pos hread] at h
    exact hread ▸ Option.some.inj h ▸ .i2cRead
  rw [if_neg hread] at h
  by_cases hsounder : handle = reactSounder
  · rw [if_pos hsounder] at h
    exact hsounder ▸ Option.some.inj h ▸ .sounder
  rw [if_neg hsounder] at h
  by_cases herror : handle = reactI2cError
  · rw [if_pos herror] at h
    exact herror ▸ Option.some.inj h ▸ .i2cError
  rw [if_neg herror] at h
  by_cases hinput : handle = reactInputChange
  · rw [if_pos hinput] at h
    exact hinput ▸ Option.some.inj h ▸ .inputChange
  rw [if_neg hinput] at h
  by_cases hsensor : handle = reactDoorSensor
  · rw [if_pos hsensor] at h
    exact hsensor ▸ Option.some.inj h ▸ .doorSensor
  rw [if_neg hsensor] at h
  by_cases hcmd : handle = reactDoorCmd
  · rw [if_pos hcmd] at h
    exact hcmd ▸ Option.some.inj h ▸ .doorCmd
  rw [if_neg hcmd] at h
  by_cases htimeout : handle = reactCmdTimeout
  · rw [if_pos htimeout] at h
    exact htimeout ▸ Option.some.inj h ▸ .cmdTimeout
  rw [if_neg htimeout] at h
  by_cases hgrace : handle = reactCommsGraceOver
  · rw [if_pos hgrace] at h
    exact hgrace ▸ Option.some.inj h ▸ .graceOver
  rw [if_neg hgrace] at h
  by_cases htimer : handle = reactTimer
  · rw [if_pos htimer] at h
    obtain ⟨d, hd, rfl⟩ := Option.map_eq_some_iff.mp h
    exact htimer ▸ .timer hd
  rw [if_neg htimer] at h
  by_cases houtput : handle = reactDigitalOutput
  · rw [if_pos houtput] at h
    exact houtput ▸ Option.some.inj h ▸ .digitalOutput
  rw [if_neg houtput] at h
  by_cases hsample : handle = reactSample
  · rw [if_pos hsample] at h
    exact hsample ▸ Option.some.inj h ▸ .sample
  rw [if_neg hsample] at h
  by_cases hpiezzo : handle = reactPiezzo
  · rw [if_pos hpiezzo] at h
    exact hpiezzo ▸ Option.some.inj h ▸ .piezzo
  rw [if_neg hpiezzo] at h
  by_cases hstop : handle = reactToneStop
  · rw [if_pos hstop] at h
    exact hstop ▸ Option.some.inj h ▸ .toneStop
  rw [if_neg hstop] at h
  cases h

/-- **What can happen**, each event with what it leads to. -/
inductive Reacts (fuel : ℕ) (s : State) : Event → Except State State → Prop
  | tick : Reacts fuel s .tick (.ok (notify { s with timer := timerTick s.timer } reactTimer 0))
  | twi (status : MasterStatus) : s.transfer.locked = true →
      Reacts fuel s (.twi status) (.ok (twiInterrupt s status))
  | run {handle arg : ℕ} {mail : Mailroom ℕ} {around : Surroundings} {r : Except State State} :
      collect s.mail handle = some (arg, mail) →
      Handles fuel { s with mail := mail } arg around handle r →
      Reacts fuel s (.run handle around) r

theorem reacts_of_react {e : Event} (h : react fuel s e = some r) : Reacts fuel s e r := by
  cases e with
  | tick => exact Option.some.inj h ▸ .tick
  | twi status =>
    simp only [react] at h
    split_ifs at h with hlocked
    exact Option.some.inj h ▸ .twi status hlocked
  | run handle around =>
    obtain ⟨⟨arg, mail⟩, hcol, hr⟩ := Option.bind_eq_some_iff.mp h
    exact .run hcol (handles_of_handler hr)

end Controller

end CncPneumatics
