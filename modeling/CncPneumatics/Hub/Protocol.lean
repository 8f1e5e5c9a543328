import CncPneumatics.Asx.DigitalInput
import CncPneumatics.Asx.Ioport
import CncPneumatics.Common.Mailbox
import CncPneumatics.OpCodes
/-!
# The hub

The pneumatic hub: `protocol.c` with the services under it, as `main.c`
sets them up. A byte from the controller is a command, honoured at most
once a second, and a check every two seconds turns all valves off when
nothing valid was received since the last one.

The queues of the reactor are a mailroom. A handler is one step; where it
alerts and stops, its result is the state it stopped in.
-/

namespace CncPneumatics

open Asx

namespace Hub

/-! ## Configuration -/

def ioportToolSetterAirBlast : ℕ := ioportCreatePin 0 4
def ioportChuckClamp : ℕ := ioportCreatePin 0 5
def ioportSpindleClean : ℕ := ioportCreatePin 0 6
def ioportDoorPush : ℕ := ioportCreatePin 0 7
def ioportDoorPull : ℕ := ioportCreatePin 1 3
def ioportPressureReadout : ℕ := ioportCreatePin 1 2

/-- The five valves. -/
def valves : List ℕ :=
  [ioportToolSetterAirBlast, ioportChuckClamp, ioportSpindleClean, ioportDoorPush, ioportDoorPull]

/-- `NO_NEW_COMMAND_GRACE_PERIOD`. -/
def noNewCommandGracePeriod : ℕ := timerMilliseconds 1000

/-! The handles, in the order in which `main` has them registered. -/

def reactTimer : ℕ := 0
def reactSample : ℕ := 1
def reactAcceptComms : ℕ := 4
def reactCheckComms : ℕ := 5
def reactI2cHandler : ℕ := 6

/-- Every handler has a queue of one. -/
def queueSize (_ : ℕ) : ℕ := 1

/-! ## State -/

/-- The static variables of the hub, its timers, queues and pins. -/
structure State where
  timer : Timer
  mail : Mailroom ℕ
  pins : PinWrites
  /-- `_first_sampled` and its chain. -/
  inputs : List DigitalInput
  currentCmd : Opcode
  readyToAcceptNewCommand : Bool
  readyToAcceptTimerInstance : ℕ
  messageReceivedCounter : ℕ

/-! ## Handlers -/

/-- The writes with which `_protocol_process` turns off all valves. -/
def valvesOff (w : PinWrites) : PinWrites :=
  let w := ioportSetPinLevel w ioportToolSetterAirBlast false
  let w := ioportSetPinLevel w ioportChuckClamp false
  let w := ioportSetPinLevel w ioportSpindleClean false
  let w := ioportSetPinLevel w ioportDoorPush false
  ioportSetPinLevel w ioportDoorPull false

/-- The switch of `_protocol_process`. -/
def valveOn (cmd : Opcode) (w : PinWrites) : PinWrites :=
  if cmd = opcodesCmdIdle then w
  else if cmd = opcodesCmdPushDoor then ioportSetPinLevel w ioportDoorPush true
  else if cmd = opcodesCmdPullDoor then ioportSetPinLevel w ioportDoorPull true
  else if cmd = opcodesCmdBlastToolsetter then ioportSetPinLevel w ioportToolSetterAirBlast true
  else if cmd = opcodesCmdUnclampChuck then ioportSetPinLevel w ioportChuckClamp true
  else if cmd = opcodesCmdBlastSpindle then ioportSetPinLevel w ioportSpindleClean true
  else w

/-- `_protocol_process`. -/
def protocolProcess (s : State) (cmd : Opcode) : Except State State :=
  let s := { s with pins := valveOn cmd (valvesOff s.pins) }
  let s := { s with readyToAcceptNewCommand := false }
  let s := if s.readyToAcceptTimerInstance ≠ timerInvalidInstance then
      { s with timer := (timerCancel s.timer s.readyToAcceptTimerInstance).2 }
    else s
  match timerArm s.timer reactAcceptComms (timerGetCountFromNow s.timer noNewCommandGracePeriod)
      0 0 with
  | some (inst, timer) => .ok { s with timer := timer, readyToAcceptTimerInstance := inst }
  | none => .error s

/-- `_on_check_comms`. -/
def onCheckComms (s : State) : Except State State :=
  let checked := if s.messageReceivedCounter = 0 then
      (protocolProcess s opcodesCmdIdle).map fun s => { s with currentCmd := opcodesCmdIdle }
    else .ok s
  checked.map fun s => { s with messageReceivedCounter := 0 }

/-- `_on_accept_command_again`. -/
def onAcceptCommandAgain (s : State) : State :=
  { s with readyToAcceptNewCommand := true, readyToAcceptTimerInstance := timerInvalidInstance }

/-- `protocol_handle_traffic`. -/
def protocolHandleTraffic (s : State) (arg : ℕ) : Except State State :=
  let cmd := UInt8.ofNat arg
  if opcodesCheckCmdValid cmd ≠ opcodesCmdError then
    let s := { s with messageReceivedCounter := (s.messageReceivedCounter + 1) % 2 ^ 16 }
    if s.currentCmd ≠ cmd ∧ s.readyToAcceptNewCommand then
      protocolProcess { s with currentCmd := cmd } cmd
    else .ok s
  else .ok s

/-- `timer_dispatch`, whose notifications go to the queues. -/
def onTimer (fuel : ℕ) (s : State) : Option State :=
  (timerDispatch fuel s.timer).map fun r =>
    { s with timer := r.2, mail := depositAll queueSize s.mail r.1 }

/-- `_digital_input_sample`, at a level of the pressure readout. -/
def onSample (s : State) (pressure : Bool) : State :=
  let r := digitalInputSample (fun pin => pin = ioportPressureReadout && pressure) s.inputs
  { s with inputs := r.1, mail := depositAll queueSize s.mail r.2 }

/-! ## Start -/

/-- `timer_arm` where the result is not used. -/
def armTimer (s : State) (reactor count rep arg : ℕ) : Except State State :=
  match timerArm s.timer reactor count rep arg with
  | some (_, timer) => .ok { s with timer := timer }
  | none => .error s

/-- `board_init`, on static variables as they are at first. -/
def boardInit : Except State State :=
  let s : State := ⟨timerInit, [], valvesOff [], [], opcodesCmdIdle, true, timerInvalidInstance, 0⟩
  -- `digital_input_init`
  armTimer s reactSample (timerGetCountFromNow s.timer 0) digitalInputSamplePeriod 0

/-- `protocol_init`. -/
def protocolInit (s : State) : Except State State :=
  armTimer s reactCheckComms (timerGetCountFromNow s.timer (timerSeconds 5)) (timerSeconds 2) 0

/-- `main` up to `reactor_run`, with `pressure_mon_init`. -/
def main : Except State State :=
  boardInit.bind fun s =>
    protocolInit { s with inputs :=
      s.inputs ++ [digitalInput ioportPressureReadout reactorNullHandle (timerMilliseconds 50)] }

/-- The state in which `main` enters `reactor_run`. -/
def start : State :=
  match main with
  | .ok s => s
  | .error s => s

/-! ## Running -/

/-- What can happen to the hub. -/
inductive Event where
  /-- A millisecond passes. -/
  | tick
  /-- The two-wire interface received a byte. -/
  | receive (byte : UInt8)
  /-- The reactor runs a handler, at a level of the pressure readout. -/
  | run (handle : ℕ) (pressure : Bool)
deriving DecidableEq

/-- The handler of a handle, on the state after the queue was popped. The
other two handlers are those of direct inputs, of which there are none. -/
def handler (fuel : ℕ) (s : State) (handle arg : ℕ) (pressure : Bool) : Option State :=
  if handle = reactTimer then onTimer fuel s
  else if handle = reactSample then some (onSample s pressure)
  else if handle = reactAcceptComms then some (onAcceptCommandAgain s)
  else if handle = reactCheckComms then (onCheckComms s).toOption
  else if handle = reactI2cHandler then (protocolHandleTraffic s arg).toOption
  else none

/-- One step. A tick finds every queue empty: each handler is run before
the next tick. -/
def step (fuel : ℕ) (s : State) : Event → Option State
  | .tick =>
    if s.mail = [] then
      some { s with timer := timerTick s.timer, mail := deposit queueSize s.mail reactTimer 0 }
    else none
  | .receive byte => some { s with mail := deposit queueSize s.mail reactI2cHandler byte.toNat }
  | .run handle pressure =>
    (collect s.mail handle).bind fun r => handler fuel { s with mail := r.2 } handle r.1 pressure

end Hub

end CncPneumatics
