import CncPneumatics.Asx.DigitalInput
import CncPneumatics.Asx.Ioport
import CncPneumatics.Asx.TimerChain
/-!
# Direct inputs

`digital_input.c`, for the inputs whose changes interrupt: the interrupt
of a port masks the pins that changed and queues a notification for each
of them; its handler notifies the handler of the input, and has the
interrupt acknowledged at once or when a timer goes off. A pin is unmasked
when its interrupt is acknowledged.

The reactor, the timers and the ports are around it. Handlers and
interrupts come one after the other, in any order. The handler of the
acknowledgements gets a pointer to the input, which is its place in the
chain `_first_direct` here.
-/

namespace CncPneumatics

namespace Asx

/-- `digital_input_t`, direct. -/
structure DirectInput where
  pin : ℕ
  /-- The reactor handle to notify, or the null handle. -/
  handler : ℕ
  senseMode : ℕ
  /-- How long an acknowledgement is put off, and 0 where it is not. -/
  filter : ℕ
deriving DecidableEq

/-- **The direct inputs of a program** and the handles that its reactor
gave out: those of the driver are its own. -/
structure DirectInputs where
  /-- `_first_direct`, with the inputs chained to it. -/
  firstDirect : List DirectInput
  timerReactorHandle : ℕ
  reactSample : ℕ
  reactDirectHandler : ℕ
  reactAckIt : ℕ
  /-- The length of the queue of every handle. -/
  queueSize : ℕ → ℕ
  pin_lt : ∀ di ∈ firstDirect, di.pin < 16
  timer_ne : timerReactorHandle ≠ reactDirectHandler ∧ timerReactorHandle ≠ reactAckIt
  sample_ne : reactSample ≠ reactDirectHandler ∧ reactSample ≠ reactAckIt ∧
    reactSample ≠ reactorNullHandle
  direct_ne : reactDirectHandler ≠ reactAckIt
  ack_ne : reactAckIt ≠ reactorNullHandle
  handler_ne : ∀ di ∈ firstDirect, di.handler ≠ reactDirectHandler ∧ di.handler ≠ reactAckIt
  direct_one : queueSize reactDirectHandler = 1
  ack_one : queueSize reactAckIt = 1

/-- The static variables of the driver, and what is around it. -/
structure DirectState where
  /-- `_isr_bit_mask`, for each port. -/
  isrBitMask : List (BitVec 8)
  /-- The sense mode of each pin, 0 where it does not interrupt. -/
  isc : ℕ → ℕ
  timer : Timer
  mail : Mailroom ℕ

/-- `ioport_set_pin_sense_mode`. -/
def ioportSetPinSenseMode (isc : ℕ → ℕ) (pin senseMode : ℕ) : ℕ → ℕ :=
  fun pin' => if pin' = pin then senseMode % 8 else isc pin'

/-- `ioport_enable_pin`, which leaves the pin without a sense mode. -/
def ioportEnablePin (isc : ℕ → ℕ) (pin : ℕ) : ℕ → ℕ := ioportSetPinSenseMode isc pin 0

variable (c : DirectInputs)

/-- `reactor_notify`. -/
def directNotify (handle arg : ℕ) (s : DirectState) : DirectState :=
  { s with mail := deposit c.queueSize s.mail handle arg }

/-! ## The interrupt -/

/-- What `_handle_pin_change_isr` does for a bit of the mask. -/
def pinChanged (portId : ℕ) (portValue : BitVec 8) (i : ℕ) (s : DirectState) : DirectState :=
  let pin := ioportCreatePin portId i
  -- the value is the whole port, as a `bool`
  let pav := pinAndValueAsArg pin (decide (portValue ≠ 0))
  directNotify c c.reactDirectHandler pav { s with isc := ioportEnablePin s.isc pin }

/-- The loop of `_handle_pin_change_isr`; a mask of 8 bits is used up in 8
turns. -/
def pinChangeLoop (portId : ℕ) (portValue : BitVec 8) :
    ℕ → BitVec 8 → ℕ → DirectState → DirectState
  | 0, _, _, s => s
  | fuel + 1, mask, i, s =>
    if mask = 0 then s
    else
      let s := if mask &&& 1 ≠ 0 then pinChanged c portId portValue i s else s
      pinChangeLoop portId portValue fuel (mask >>> 1) (i + 1) s

/-- `_handle_pin_change_isr`. -/
def handlePinChangeIsr (portId : ℕ) (portValue mask : BitVec 8) (s : DirectState) : DirectState :=
  let handlingMask := cell s.isrBitMask portId
  let mask := mask &&& ~~~handlingMask
  let s := { s with isrBitMask := s.isrBitMask.set portId (cell s.isrBitMask portId ||| mask) }
  pinChangeLoop c portId portValue 8 mask 0 s

/-! ## The handlers -/

/-- `_clear_interrupt`, of the input at a place in the chain. -/
def clearInterrupt (arg : ℕ) (s : DirectState) : DirectState :=
  match c.firstDirect[arg]? with
  | none => s
  | some next =>
    let portId := ioportPinToPortId next.pin
    { s with
      isrBitMask := s.isrBitMask.set portId
        (cell s.isrBitMask portId &&& ~~~ioportPinToMask next.pin)
      isc := ioportSetPinSenseMode s.isc next.pin next.senseMode }

/-- What `_digital_input_direct_handler` does with the input responsible,
at its place in the chain; `none` where `timer_arm` alerts and stops. -/
def directResponsible (arg i : ℕ) (next : DirectInput) (s : DirectState) : Option DirectState :=
  let s := if next.handler ≠ reactorNullHandle then directNotify c next.handler arg s else s
  if next.filter ≠ 0 then
    (timerArm s.timer c.reactAckIt (timerGetCountFromNow s.timer next.filter) 0 i).map fun r =>
      { s with timer := r.2 }
  else some (clearInterrupt c i s)

/-- The loop of `_digital_input_direct_handler`, from a place in the chain
on. -/
def directHandlerFrom (arg : ℕ) : List DirectInput → ℕ → DirectState → Option DirectState
  | [], _, s => some s
  | next :: rest, i, s =>
    if next.pin = argPin arg then directResponsible c arg i next s
    else directHandlerFrom arg rest (i + 1) s

/-- `_digital_input_direct_handler`. -/
def digitalInputDirectHandler (arg : ℕ) (s : DirectState) : Option DirectState :=
  directHandlerFrom c arg c.firstDirect 0 s

/-- The state after the inputs are registered with `digital_input`, and
`digital_input_init`. -/
def digitalInputInit : DirectState where
  isrBitMask := [0, 0]
  isc := c.firstDirect.foldl (fun isc di => ioportSetPinSenseMode isc di.pin di.senseMode) fun _ => 0
  timer := ((timerArm timerInit c.reactSample (timerGetCountFromNow timerInit 0)
    digitalInputSamplePeriod 0).map Prod.snd).getD timerInit
  mail := []

/-! ## Running -/

/-- What can happen to the driver. -/
inductive DirectEvent where
  /-- The interrupt of a port, with the levels of its pins and its flags. -/
  | pinChange (portId : ℕ) (portValue mask : BitVec 8)
  /-- A millisecond passes. -/
  | tick
  /-- The reactor runs a handler. -/
  | run (handle : ℕ)
  /-- Another user of the timers arms one. -/
  | arm (reactor count rep arg : ℕ)
  /-- It cancels one of its own. -/
  | cancel (inst : ℕ)
deriving DecidableEq

/-- What the handler of a handle does. -/
def directHandle (fuel handle arg : ℕ) (s : DirectState) : Option DirectState :=
  if handle = c.timerReactorHandle then
    (timerDispatch fuel s.timer).map fun r =>
      { s with timer := r.2, mail := depositAll c.queueSize s.mail r.1 }
  else if handle = c.reactDirectHandler then digitalInputDirectHandler c arg s
  else if handle = c.reactAckIt then some (clearInterrupt c arg s)
  -- the others do nothing that the driver sees
  else some s

/-- One step. -/
def directStep (fuel : ℕ) (s : DirectState) : DirectEvent → Option DirectState
  | .pinChange portId portValue mask =>
    if portId < 2 then some (handlePinChangeIsr c portId portValue mask s) else none
  | .tick => some (directNotify c c.timerReactorHandle 0 { s with timer := timerTick s.timer })
  | .run handle =>
    (collect s.mail handle).bind fun r => directHandle c fuel handle r.1 { s with mail := r.2 }
  | .arm reactor count rep arg =>
    if reactor = c.reactAckIt ∨ reactor = c.reactDirectHandler ∨ reactor = reactorNullHandle then none
    else (timerArm s.timer reactor count rep arg).map fun r => { s with timer := r.2 }
  | .cancel inst =>
    if ∃ f ∈ s.timer.pending, f.inst = inst ∧ f.reactor = c.reactAckIt then none
    else some { s with timer := (timerCancel s.timer inst).2 }

end Asx

end CncPneumatics
