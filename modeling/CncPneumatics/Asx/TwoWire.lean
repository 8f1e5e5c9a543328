import Mathlib.Logic.Relation
import CncPneumatics.Asx.TwimRegisters
import CncPneumatics.Asx.Twis
/-!
# The wire between the two

What the hardware of the two interfaces makes of the registers: a master
and a slave take turns, and each is interrupted when it is its turn. This
is the environment of the two drivers, as the registers are documented.
A slave that aborts or has nothing left to send lets go of the line, which
then reads as ones.
-/

namespace CncPneumatics

namespace Asx

/-- What is on the line. -/
inductive Line where
  | idle
  /-- A START with an address and the direction. -/
  | address (value : UInt8)
  /-- The slave acknowledged. -/
  | acked
  | nacked
  /-- A byte from the master. -/
  | byte (data : UInt8)
  /-- The slave has to send a byte. -/
  | request
  /-- A byte from the slave. -/
  | reply (data : UInt8)
  /-- The master did not acknowledge it, and stops. -/
  | refused
  | stopped
deriving DecidableEq

namespace Line

/-- The slave has this address. -/
def addresses (value : UInt8) (twi : TwiSlave) : Bool := value >>> 1 = twi.address >>> 1

/-- The direction in an address. -/
def reads (value : UInt8) : Bool := value &&& 1 = 1

/-- With what the slave is interrupted, when it is its turn. -/
def slaveStatus (twi : TwiSlave) : Line → Option SlaveStatus
  | .address value =>
    if addresses value twi then some ⟨false, false, true, true, false, reads value, false, value⟩
    else none
  | .byte data => some ⟨false, false, false, false, true, false, false, data⟩
  | .request => some ⟨false, false, false, false, true, true, false, 0⟩
  | .refused => some ⟨false, false, false, false, true, true, true, 0⟩
  -- only with the stop interrupt enabled
  | .stopped => if twi.stopInterrupt then some ⟨false, false, true, false, false, false, false, 0⟩
    else none
  | _ => none

/-- What the slave makes of it. -/
def afterSlave (answer : SlaveAnswer) : Line → Line
  | .address value =>
    match answer.command with
    | some .response => if reads value then .request else .acked
    | some _ => .nacked
    | none => .address value
  | .byte data =>
    match answer.command with
    | some .nackCompTrans => .nacked
    | some _ => .acked
    | none => .byte data
  | .request =>
    match answer.command with
    | some _ => .reply (answer.data.getD 0xFF)
    | none => .request
  | .refused => if answer.command.isSome then .stopped else .refused
  | .stopped => if answer.clearsApif then .idle else .stopped
  | line => line

/-- With what the master is interrupted, when it is its turn. -/
def masterStatus : Line → Option MasterStatus
  | .acked => some .writeInterrupt
  | .nacked => some .busErrorOrNack
  | .reply data => some (.readInterrupt data)
  | _ => none

/-- What the master makes of it. -/
def afterMaster (write : Option MasterWrite) (line : Line) : Line :=
  match write with
  | some (.maddr value) => .address value
  | some (.mdata value) => .byte value
  | some .recvTrans => .request
  | some .nackStop => .refused
  | some .stop => .stopped
  | none => line

/-- What becomes of a line that interrupts nobody: an address that nobody
has is not acknowledged. -/
def settle : Line → Line
  | .address _ => .nacked
  | .stopped => .idle
  | line => line

variable {twi : TwiSlave} {answer : SlaveAnswer} {value data : UInt8}

/-- Only the slave that has the address is interrupted. -/
theorem slaveStatus_address (h : addresses value twi = true) :
    slaveStatus twi (.address value) =
      some ⟨false, false, true, true, false, reads value, false, value⟩ := if_pos h

theorem slaveStatus_stopped : slaveStatus twi .stopped =
    if twi.stopInterrupt then some ⟨false, false, true, false, false, false, false, 0⟩ else none :=
  rfl

theorem afterSlave_address (h : answer.command = some .response) :
    afterSlave answer (.address value) = if reads value then .request else .acked := by
  cases answer
  cases h
  rfl

theorem afterSlave_response (h : answer.command = some .response) :
    afterSlave answer (.byte data) = .acked := by
  cases answer
  cases h
  rfl

@[simp] theorem afterSlave_request : afterSlave ⟨some data, some .response, false⟩ .request =
    .reply data := rfl

@[simp] theorem afterSlave_refused (command : SlaveCommand) :
    afterSlave (.commands command) .refused = .stopped := rfl

theorem afterSlave_nack (h : answer.command = some .nackCompTrans) :
    afterSlave answer (.byte data) = .nacked := by
  cases answer
  cases h
  rfl

end Line

/-! ## Two drivers -/

variable {α : Type*}

/-- A master and a slave with its application, and the statuses with which
the callback of the master was called. -/
structure Link (α : Type*) where
  master : TwiMaster
  slave : TwiSlave
  app : α
  line : Line
  reported : List StatusCode

namespace Link

/-- The slave is interrupted. -/
def slaveStep (process : ProcessData α) (l : Link α) (st : SlaveStatus) : Link α :=
  let r := twiSlaveInterruptHandler process l.slave l.app st
  { l with slave := r.2.1, app := r.2.2, line := l.line.afterSlave r.1 }

/-- The master is. -/
def masterStep (l : Link α) (st : MasterStatus) : Link α :=
  let r := l.master.interruptHandler st
  { l with
    master := r.next, line := l.line.afterMaster r.write
    reported := l.reported ++ r.callback.toList }

/-- The next thing that happens on a line without faults. -/
def step (process : ProcessData α) (l : Link α) : Link α :=
  match l.line.slaveStatus l.slave with
  | some st => l.slaveStep process st
  | none =>
    match l.line.masterStatus with
    | some st => l.masterStep st
    | none => { l with line := l.line.settle }

/-- The master starts a transfer. -/
def start (l : Link α) (chip : UInt8) (addr : List UInt8) (read : Bool) : Link α :=
  let r := l.master.transfer chip addr read
  { l with master := r.2.2, line := l.line.afterMaster r.2.1 }

/-- What the line comes to. -/
def Reaches (process : ProcessData α) : Link α → Link α → Prop :=
  Relation.ReflTransGen fun l l' => step process l = l'

end Link

end Asx

end CncPneumatics
