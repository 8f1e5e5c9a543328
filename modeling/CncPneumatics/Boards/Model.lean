import CncPneumatics.Asx.TwoWire
import CncPneumatics.Common.Run
import CncPneumatics.Controller.Model
import CncPneumatics.Hub.Slave
/-!
# The two boards

The controller and the hub with the wire between them. Each board runs at
its own pace. The line may lose a transfer at any point, by a lost
arbitration or a bus error, bytes on it may be altered, and the slave may
see a bus error or a collision.
-/

namespace CncPneumatics

open Asx

namespace Boards

/-- The two boards and the line. -/
structure State where
  controller : Controller.State
  hub : Hub.State
  slave : TwiSlave
  line : Line

/-- What can happen. -/
inductive Event where
  /-- Something on the controller, apart from the interrupts of the wire. -/
  | controller (e : Controller.Event)
  /-- Something on the hub. -/
  | hub (e : Hub.Event)
  /-- The next thing that happens on the line. -/
  | wire
  /-- Bits of the byte on the line are flipped. -/
  | noise (bits : UInt8)
  /-- The master loses the arbitration, or meets a bus error. -/
  | fault (lost : Bool)
  /-- The slave sees a collision, or a bus error. -/
  | slaveFault (collision : Bool)
deriving DecidableEq

/-- The bus is idle for the master: there was a STOP. -/
def busIdle (line : Line) : Bool := line = .idle || line = .stopped

/-- What happens on the controller without the wire. Only an idle bus is
not busy. -/
def ownEvent (line : Line) : Controller.Event → Bool
  | .twi _ => false
  | .run handle around => handle ≠ Controller.reactI2cCommand || around.busy || busIdle line
  | .tick => true

/-- What happens on the hub without the wire. -/
def ownHubEvent : Hub.Event → Bool
  | .receive _ => false
  | _ => true

/-- The transfer of the controller at its registers, with the package that
`i2c_master_send` fills. -/
def master (c : Controller.State) : TwiMaster where
  maddr := Hub.twiSlaveAddr <<< 1
  chip := Hub.twiSlaveAddr
  addr := [c.lastSent]
  buffer := [c.transfer.buffer]
  addrCount := c.transfer.addrCount
  dataCount := c.transfer.dataCount
  read := c.transfer.read
  locked := c.transfer.locked
  status := none

/-- A transfer starts between two states of the controller. -/
def starts (c c' : Controller.State) : Bool := !c.transfer.locked && c'.transfer.locked

/-- The line after a transfer of `i2c_master_send` started. -/
def startLine (c : Controller.State) (line : Line) : Line :=
  line.afterMaster ((master c).transfer Hub.twiSlaveAddr [c.lastSent] true).2.1

/-- The slave is interrupted. -/
def slaveTurn (s : State) (st : SlaveStatus) : State :=
  let r := twiSlaveInterruptHandler Hub.slaveProcess s.slave s.hub st
  { s with slave := r.2.1, hub := r.2.2, line := s.line.afterSlave r.1 }

/-- The master is. -/
def masterTurn (s : State) (st : MasterStatus) : State :=
  { s with
    controller := Controller.twiInterrupt s.controller st
    line := s.line.afterMaster ((master s.controller).interruptHandler st).write }

/-- The next thing that happens on the line. -/
def wire (s : State) : State :=
  match s.line.slaveStatus s.slave with
  | some st => slaveTurn s st
  | none =>
    match s.line.masterStatus with
    | some st => masterTurn s st
    | none => { s with line := s.line.settle }

/-- Bits of a byte are flipped. -/
def flip (bits : UInt8) : Line → Option Line
  | .byte data => some (.byte (data ^^^ bits))
  | .reply data => some (.reply (data ^^^ bits))
  | _ => none

/-- The status of a fault of the master. -/
def faultStatus (lost : Bool) : MasterStatus := if lost then .arbitrationLost else .busErrorOrNack

/-- The status of a fault of the slave. -/
def slaveFaultStatus (collision : Bool) : SlaveStatus :=
  ⟨!collision, collision, false, false, false, false, false, 0⟩

/-- One step. -/
def step (fuel : ℕ) (s : State) : Event → Option State
  | .controller e =>
    if ownEvent s.line e then
      (Controller.step fuel s.controller e).map fun c =>
        { s with
          controller := c
          line := if starts s.controller c then
              startLine { c with transfer := s.controller.transfer } s.line
            else s.line }
    else none
  | .hub e =>
    if ownHubEvent e then (Hub.step fuel s.hub e).map fun hub => { s with hub := hub } else none
  | .wire => some (wire s)
  | .noise bits => (flip bits s.line).map fun line => { s with line := line }
  | .fault lost =>
    if s.controller.transfer.locked then some (masterTurn s (faultStatus lost)) else none
  | .slaveFault collision => some (slaveTurn s (slaveFaultStatus collision))

/-- Both boards enter their reactors. -/
def start : State := ⟨Controller.start, Hub.start, Hub.i2cSlaveInit, .idle⟩

end Boards

end CncPneumatics
