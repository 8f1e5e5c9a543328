import CncPneumatics.Asx.Twis
import CncPneumatics.Hub.Protocol
/-!
# The hub on the wire

`i2c_slave.c` with `pressure_mon.c`: a byte from the controller is
answered at once, in the interrupt, with the state of the pressure input,
and handed to the protocol through its queue.
-/

namespace CncPneumatics

open Asx

namespace Hub

/-- `TWI_SLAVE_ADDR`. -/
def twiSlaveAddr : UInt8 := 0x54

/-- The pressure input is on. -/
def pressureOn (s : State) : Bool := s.inputs.head?.any digitalInputValue

/-- `pressure_mon_reply`. -/
def pressureMonReply (s : State) : OpcodesReply := if pressureOn s then .on else .off

/-- `slave_process`. -/
def slaveProcess : ProcessData State := fun slave s =>
  let received := slave.receivedData[0]
  ({ slave with sendData := slave.sendData.set 0 (opcodesEncodeReply (pressureMonReply s) received) },
    { s with mail := deposit queueSize s.mail reactI2cHandler received.toNat })

/-- `i2c_slave_init`. -/
def i2cSlaveInit : TwiSlave := slaveStart twiSlaveAddr

variable {slave : TwiSlave} {s : State} {st : SlaveStatus} {data : UInt8}

/-- For the protocol the byte is received. -/
theorem slaveProcess_receive (fuel : ℕ) (slave : TwiSlave) (s : State) :
    step fuel s (.receive slave.receivedData[0]) = some (slaveProcess slave s).2 := rfl

/-- The first byte of a transaction: it is the one that is handed over, and
the reply to it is ready. -/
theorem slaveProcess_first (h : slave.bytesReceived = 0) (habort : slave.abort = false) :
    twiSlaveReadHandler slaveProcess slave s data =
      (.commands .response,
        { slave with
          stopInterrupt := true, receivedData := slave.receivedData.set 0 data, bytesReceived := 1
          sendData := slave.sendData.set 0 (opcodesEncodeReply (pressureMonReply s) data) },
        { s with mail := deposit queueSize s.mail reactI2cHandler data.toNat }) := by
  unfold twiSlaveReadHandler twiSlaveStore slaveProcess
  simp [h, habort]

end Hub

end CncPneumatics
