import CncPneumatics.Boards.Model
import CncPneumatics.Common.Project
import CncPneumatics.Controller.Bus
/-!
# The phases of a transfer

Where a transfer stands is on the line: how far the master is, and that
the slave has a clean buffer when the command comes. From this invariant
every step of the two boards is one of a few, and a run of both is a run
of each.
-/

namespace CncPneumatics

open Asx

namespace Boards

variable {fuel : ℕ} {s s' : State} {e : Event} {h : List (State × Event)} {line : Line}
  {t : Transfer}

/-- The addresses with which a transfer begins and goes on. -/
def writeAddress : UInt8 := Hub.twiSlaveAddr <<< 1
def readAddress : UInt8 := writeAddress ||| 1

/-- A transfer of one command and one reply that got so far. -/
def Underway (t : Transfer) (addrCount : ℕ) : Prop :=
  t.locked = true ∧ t.read = true ∧ t.dataCount = 0 ∧ t.addrCount = addrCount

/-- **Where a transfer stands**, by what is on the line. -/
def Phase (t : Transfer) (slave : TwiSlave) : Line → Prop
  | .idle | .refused | .stopped => t.locked = false
  | .address value =>
    value = writeAddress ∧ Underway t 0 ∨ value = readAddress ∧ Underway t 1
  | .acked => Underway t 0 ∧ slave.bytesReceived = 0 ∨ Underway t 1
  | .byte _ => Underway t 1 ∧ slave.bytesReceived = 0
  | .request => Underway t 1 ∧ slave.bytesSent = 0
  | .reply _ => Underway t 1
  | .nacked => False

/-- The slave is at its address, and does not abort. -/
structure Attentive (slave : TwiSlave) : Prop where
  address : slave.address = writeAddress
  abort : slave.abort = false

/-- **The two boards are linked.** -/
structure Linked (s : State) : Prop where
  phase : Phase s.controller.transfer s.slave s.line
  attentive : Attentive s.slave

/-! ## Turns -/

/-- The controller has the reply. -/
def replied (c : Controller.State) (data : UInt8) : Controller.State :=
  Controller.i2cOnComplete
    { c with transfer := { c.transfer with buffer := data, dataCount := 1 } } .statusOk

theorem twisSendBufferSize_pos : 0 < twisSendBufferSize := Nat.succ_pos 7

/-- The slave has the reply to a command. -/
def prepared (s : State) (data : UInt8) : TwiSlave :=
  { s.slave with
    sendData := s.slave.sendData.set 0 (opcodesEncodeReply (Hub.pressureMonReply s.hub) data)
      twisSendBufferSize_pos }

/-- The slave has the same bytes. -/
structure SameData (slave slave' : TwiSlave) : Prop where
  sendData : slave'.sendData = slave.sendData
  address : slave'.address = slave.address
  abort : slave'.abort = slave.abort

/-- **The next thing that happens on the line**, case by case. -/
inductive Turn (s : State) : State → Prop
  | idle : s.line = .idle → Turn s s
  | addressed (read : Bool) {slave' : TwiSlave} :
      s.line = .address (if read then readAddress else writeAddress) → SameData s.slave slave' →
      slave'.bytesReceived = 0 → slave'.bytesSent = 0 →
      Turn s { s with slave := slave', line := if read then .request else .acked }
  | sends : s.line = .acked → Underway s.controller.transfer 0 →
      Turn s { s with
        controller := { s.controller with
          transfer := { s.controller.transfer with addrCount := 1 } }
        line := .byte s.controller.lastSent }
  | restarts : s.line = .acked → Underway s.controller.transfer 1 →
      Turn s { s with line := .address readAddress }
  | receives {data : UInt8} {slave' : TwiSlave} : s.line = .byte data →
      SameData (prepared s data) slave' →
      Turn s { s with
        slave := slave'
        hub := { s.hub with mail := deposit Hub.queueSize s.hub.mail Hub.reactI2cHandler data.toNat }
        line := .acked }
  | replies {slave' : TwiSlave} : s.line = .request → SameData s.slave slave' →
      Turn s { s with slave := slave', line := .reply s.slave.sendData[0] }
  | completes {data : UInt8} : s.line = .reply data →
      Turn s { s with controller := replied s.controller data, line := .refused }
  | ends {slave' : TwiSlave} : s.line = .refused → SameData s.slave slave' →
      Turn s { s with slave := slave', line := .stopped }
  | stops {slave' : TwiSlave} : s.line = .stopped → SameData s.slave slave' →
      Turn s { s with slave := slave', line := .idle }

theorem wire_slave {st : SlaveStatus} (hst : s.line.slaveStatus s.slave = some st) :
    wire s = slaveTurn s st := by rw [wire, hst]

theorem wire_master (st : MasterStatus) (hst : s.line.masterStatus = some st)
    (hslave : s.line.slaveStatus s.slave = none) : wire s = masterTurn s st := by
  rw [wire, hslave, hst]

theorem wire_nobody (hmaster : s.line.masterStatus = none)
    (hslave : s.line.slaveStatus s.slave = none) : wire s = { s with line := s.line.settle } := by
  rw [wire, hslave, hmaster]

/-- The two addresses are that of the slave, in either direction. -/
theorem address_spec (ha : Attentive s.slave) (read : Bool) :
    Line.addresses (if read then readAddress else writeAddress) s.slave = true ∧
      Line.reads (if read then readAddress else writeAddress) = read := by
  rw [Line.addresses, ha.address]
  cases read <;> decide

/-- The slave is addressed. -/
theorem slaveTurn_address {value : UInt8} (ha : Attentive s.slave) (hline : s.line = .address value)
    (st : SlaveStatus) (hst : st.cause = .addressed) :
    ∃ slave', SameData s.slave slave' ∧ slave'.bytesReceived = 0 ∧ slave'.bytesSent = 0 ∧
      slaveTurn s st =
        { s with slave := slave', line := if Line.reads value then .request else .acked } := by
  refine ⟨{ s.slave with
    status := .busy, result := .unknown, stopInterrupt := false
    bytesReceived := 0, bytesSent := 0 }, ⟨rfl, rfl, rfl⟩, rfl, rfl, ?_⟩
  rw [slaveTurn, twiSlaveInterruptHandler_eq, hst]
  simp [SlaveCause.handle, twiSlaveAddressMatchHandler, ha.abort, hline,
    Line.afterSlave_address, SlaveAnswer.commands]

/-- The slave has to send. -/
theorem slaveTurn_data (s : State) (rxAck : Bool) :
    slaveTurn s ⟨false, false, false, false, true, true, rxAck, 0⟩ =
      { s with
        slave := (twiSlaveWriteHandler s.slave rxAck).2
        line := s.line.afterSlave (twiSlaveWriteHandler s.slave rxAck).1 } := rfl

/-- The write interrupt of a transfer that has sent nothing, or the
command. -/
theorem masterTurn_write {n : ℕ} (hunder : Underway s.controller.transfer n) :
    (n = 0 → masterTurn s .writeInterrupt =
        { s with
          controller := { s.controller with
            transfer := { s.controller.transfer with addrCount := 1 } }
          line := .byte s.controller.lastSent }) ∧
      (n = 1 → masterTurn s .writeInterrupt = { s with line := .address readAddress }) := by
  obtain ⟨hlocked, hread, hdata, haddr⟩ := hunder
  constructor
  · rintro rfl
    simp [masterTurn, Controller.twiInterrupt, twimInterruptHandler, twimWriteHandler,
      Controller.i2cPackage, haddr, TwiMaster.interruptHandler, TwiMaster.writeHandler, master,
      Line.afterMaster]
  · rintro rfl
    simp [masterTurn, Controller.twiInterrupt, twimInterruptHandler, twimWriteHandler,
      Controller.i2cPackage, haddr, hdata, hread, TwiMaster.interruptHandler,
      TwiMaster.writeHandler, master, Line.afterMaster, readAddress, writeAddress]

/-- The read interrupt ends the transfer. -/
theorem masterTurn_read (hunder : Underway s.controller.transfer 1) (data : UInt8) :
    masterTurn s (.readInterrupt data) =
      { s with controller := replied s.controller data, line := .refused } := by
  obtain ⟨hlocked, hread, hdata, haddr⟩ := hunder
  simp [masterTurn, Controller.twiInterrupt, twimInterruptHandler, twimReadHandler,
    Controller.i2cPackage, hdata, TwiMaster.interruptHandler, TwiMaster.readHandler, master,
    TwiMaster.finish, Line.afterMaster, replied]

/-- **Every turn of the line** is one of these. -/
theorem Linked.turn (hl : Linked s) : Turn s (wire s) := by
  obtain ⟨hphase, ha⟩ := hl
  cases hline : s.line with
  | idle =>
    have hs : { s with line := Line.idle } = s := by rw [← hline]
    rw [wire_nobody (by rw [hline]; rfl) (by rw [hline]; rfl), hline,
      show Line.idle.settle = .idle from rfl, hs]
    exact .idle hline
  | address value =>
    rw [hline] at hphase
    obtain ⟨read, rfl⟩ : ∃ read : Bool, value = if read then readAddress else writeAddress :=
      hphase.elim (fun h => ⟨false, h.1⟩) fun h => ⟨true, h.1⟩
    obtain ⟨hmatch, hreads⟩ := address_spec ha read
    rw [wire_slave (by rw [hline, Line.slaveStatus_address hmatch])]
    obtain ⟨slave', hsame, hreceived, hsent, hturn⟩ := slaveTurn_address ha hline
      ⟨false, false, true, true, false, _, false, _⟩ rfl
    rw [hturn, hreads]
    exact .addressed read hline hsame hreceived hsent
  | acked =>
    rw [hline] at hphase
    rw [wire_master .writeInterrupt (by rw [hline]; rfl) (by rw [hline]; rfl)]
    rcases hphase with ⟨hunder, -⟩ | hunder
    · rw [(masterTurn_write hunder).1 rfl]
      exact .sends hline hunder
    · rw [(masterTurn_write hunder).2 rfl]
      exact .restarts hline hunder
  | nacked => rw [hline] at hphase; exact hphase.elim
  | byte data =>
    rw [hline] at hphase
    obtain ⟨hunder, hzero⟩ := hphase
    have hturn : slaveTurn s ⟨false, false, false, false, true, false, false, data⟩ =
        { s with
          slave := (twiSlaveReadHandler Hub.slaveProcess s.slave s.hub data).2.1
          hub := (twiSlaveReadHandler Hub.slaveProcess s.slave s.hub data).2.2
          line := s.line.afterSlave (twiSlaveReadHandler Hub.slaveProcess s.slave s.hub data).1 } :=
      rfl
    rw [wire_slave (by rw [hline]; rfl), hturn, Hub.slaveProcess_first hzero ha.abort, hline]
    exact .receives hline ⟨rfl, rfl, rfl⟩
  | request =>
    rw [hline] at hphase
    have hturn := slaveTurn_data s false
    rw [twiSlaveWriteHandler, if_neg (by simp), dif_pos (by rw [hphase.2]; decide), hline] at hturn
    rw [wire_slave (by rw [hline]; rfl), hturn]
    simp only [hphase.2]
    exact .replies hline ⟨rfl, rfl, rfl⟩
  | reply data =>
    rw [hline] at hphase
    rw [wire_master (.readInterrupt data) (by rw [hline]; rfl) (by rw [hline]; rfl),
      masterTurn_read hphase data]
    exact .completes hline
  | refused =>
    -- the slave answers in any case
    have hanswer : (Line.refused.afterSlave (twiSlaveWriteHandler s.slave true).1) = .stopped ∧
        SameData s.slave (twiSlaveWriteHandler s.slave true).2 := by
      unfold twiSlaveWriteHandler
      split_ifs <;> exact ⟨rfl, rfl, rfl, rfl⟩
    rw [wire_slave (by rw [hline]; rfl), slaveTurn_data, hline, hanswer.1]
    exact .ends hline hanswer.2
  | stopped =>
    cases hstop : s.slave.stopInterrupt with
    | true =>
      rw [wire_slave (by rw [hline, Line.slaveStatus_stopped, if_pos hstop]), slaveTurn, hline]
      exact .stops hline ⟨rfl, rfl, rfl⟩
    | false =>
      rw [wire_nobody (by rw [hline]; rfl)
        (by rw [hline, Line.slaveStatus_stopped, if_neg (by simp [hstop])]), hline]
      exact .stops hline ⟨rfl, rfl, rfl⟩

/-! ## Steps -/

/-- **What a step can be**, from linked boards. -/
inductive Steps (fuel : ℕ) (s : State) : Event → State → Prop
  | own {e : Controller.Event} {c : Controller.State} :
      Controller.step fuel s.controller e = some c → (∀ st, e ≠ .twi st) →
      Controller.SameBus s.controller c → Controller.sendsOn s.controller e = false →
      Steps fuel s (.controller e) { s with controller := c }
  | sends {e : Controller.Event} {c : Controller.State} :
      Controller.step fuel s.controller e = some c → (∀ st, e ≠ .twi st) → busIdle s.line = true →
      Controller.Sends s.controller c → Controller.sendsOn s.controller e = true →
      Underway c.transfer 0 →
      Steps fuel s (.controller e) { s with controller := c, line := .address writeAddress }
  | hub {e : Hub.Event} {hub : Hub.State} : Hub.step fuel s.hub e = some hub →
      (∀ byte, e ≠ .receive byte) → Steps fuel s (.hub e) { s with hub := hub }
  | wire {s' : State} : Turn s s' → Steps fuel s .wire s'
  | noise {bits : UInt8} {line : Line} : flip bits s.line = some line →
      Steps fuel s (.noise bits) { s with line := line }
  | fault {lost : Bool} : s.controller.transfer.locked = true →
      Steps fuel s (.fault lost) { s with
        controller := Controller.i2cOnComplete s.controller (if lost then .errBusy else .errIoError)
        line := .stopped }
  | slaveFault {collision : Bool} {result : TwisResult} :
      Steps fuel s (.slaveFault collision)
        { s with slave := twiSlaveBusFault s.slave result }

/-- On an idle bus no transfer is in flight. -/
theorem Linked.free_of_busIdle (hl : Linked s) (h : busIdle s.line = true) :
    s.controller.transfer.locked = false := by
  have hphase := hl.phase
  simp only [busIdle, Bool.or_eq_true, decide_eq_true_eq] at h
  rcases h with h | h <;> rw [h] at hphase <;> exact hphase

theorem Linked.steps (hl : Linked s) (hstep : step fuel s e = some s') : Steps fuel s e s' := by
  cases e with
  | controller e =>
    simp only [step] at hstep
    split_ifs at hstep with hown
    obtain ⟨c, hc, rfl⟩ := Option.map_eq_some_iff.mp hstep
    have hne : ∀ st, e ≠ .twi st := by rintro st rfl; cases hown
    rcases Controller.own_bus hc hne with ⟨hsame, hnot⟩ | ⟨hon, hsends⟩
    · have hstarts : starts s.controller c = false := by
        rw [starts, hsame.transfer]
        cases s.controller.transfer.locked <;> rfl
      rw [hstarts, if_neg (by simp)]
      exact .own hc hne hsame hnot
    · have hidle : busIdle s.line = true := by
        cases e with
        | run handle around =>
          simp only [Controller.sendsOn, Bool.and_eq_true, decide_eq_true_eq, Bool.not_eq_true',
            Bool.or_eq_false_iff] at hon
          simpa [ownEvent, hon.1, hon.2.1] using hown
        | _ => cases hon
      have hfree := hl.free_of_busIdle hidle
      have htransfer := hsends.transfer
      rw [twiMasterTransfer, if_neg (by rw [hfree]; simp)] at htransfer
      have hstarts : starts s.controller c = true := by rw [starts, hfree, htransfer]; rfl
      have hline : startLine { c with transfer := s.controller.transfer } s.line =
          .address writeAddress := by
        simp [startLine, TwiMaster.transfer, master, hfree, Line.afterMaster, writeAddress]
      rw [hstarts, if_pos rfl, hline]
      exact .sends hc hne hidle hsends hon (by rw [htransfer]; exact ⟨rfl, rfl, rfl, rfl⟩)
  | hub e =>
    simp only [step] at hstep
    split_ifs at hstep with hown
    obtain ⟨hub, hh, rfl⟩ := Option.map_eq_some_iff.mp hstep
    exact .hub hh (by rintro byte rfl; cases hown)
  | wire => exact Option.some.inj hstep ▸ .wire hl.turn
  | noise bits =>
    obtain ⟨line, hline, rfl⟩ := Option.map_eq_some_iff.mp hstep
    exact .noise hline
  | fault lost =>
    simp only [step] at hstep
    split_ifs at hstep with hlocked
    obtain rfl := Option.some.inj hstep
    have hturn : masterTurn s (faultStatus lost) = { s with
        controller := Controller.i2cOnComplete s.controller (if lost then .errBusy else .errIoError)
        line := .stopped } := by
      cases lost <;> rfl
    rw [hturn]
    exact .fault hlocked
  | slaveFault collision =>
    -- nothing is answered, and the line waits
    have hline : s.line.afterSlave .nothing = s.line := by cases s.line <;> rfl
    have hturn : slaveTurn s (slaveFaultStatus collision) = { s with
        slave := twiSlaveBusFault s.slave (if collision then .transmitCollision else .busError)
        line := s.line.afterSlave .nothing } := by
      cases collision <;> rfl
    rw [← Option.some.inj hstep, hturn, hline]
    exact .slaveFault

/-! ## The invariant -/

/-- The callback releases the transfer, and notifies the handler of replies
or that of errors. -/
theorem i2cOnComplete_eq (c : Controller.State) (status : StatusCode) :
    ∃ mail, Controller.i2cOnComplete c status =
      { c with transfer := twimRelease c.transfer, mail := mail } := by
  unfold Controller.i2cOnComplete
  dsimp only
  split_ifs <;> exact ⟨_, rfl⟩

/-- A slave with the same data is as attentive. -/
theorem Attentive.same {slave slave' : TwiSlave} (ha : Attentive slave)
    (hs : SameData slave slave') : Attentive slave' :=
  ⟨hs.address.trans ha.address, hs.abort.trans ha.abort⟩

/-- A slave that lost its place has a clean buffer. -/
theorem Phase.fault {slave : TwiSlave} (hp : Phase t slave line) (result : TwisResult) :
    Phase t (twiSlaveBusFault slave result) line := by
  cases line with
  | acked => exact hp.imp (fun h => ⟨h.1, rfl⟩) id
  | byte | request => exact ⟨hp.1, rfl⟩
  | _ => exact hp

/-- Flipping bits leaves the phase. -/
theorem Phase.flip {slave : TwiSlave} (hp : Phase t slave line) {bits : UInt8} {line' : Line}
    (hf : Boards.flip bits line = some line') : Phase t slave line' := by
  cases line with
  | byte | reply => exact Option.some.inj hf ▸ hp
  | _ => cases hf

/-- A turn of the line. -/
theorem Linked.of_turn (hl : Linked s) (ht : Turn s s') : Linked s' := by
  obtain ⟨hphase, ha⟩ := hl
  cases ht with
  | idle _ => exact ⟨hphase, ha⟩
  | addressed read hline hsame hreceived hsent =>
    rw [hline] at hphase
    refine ⟨?_, ha.same hsame⟩
    have hne : writeAddress ≠ readAddress := by decide
    cases read with
    | true =>
      rcases hphase with ⟨heq, -⟩ | ⟨-, hunder⟩
      · exact absurd heq.symm hne
      · exact ⟨hunder, hsent⟩
    | false =>
      rcases hphase with ⟨-, hunder⟩ | ⟨heq, -⟩
      · exact .inl ⟨hunder, hreceived⟩
      · exact absurd heq hne
  | sends hline hunder =>
    rw [hline] at hphase
    obtain ⟨hlocked, hread, hdata, haddr⟩ := hunder
    refine ⟨⟨⟨hlocked, hread, hdata, rfl⟩, ?_⟩, ha⟩
    rcases hphase with ⟨-, hzero⟩ | hunder
    · exact hzero
    · rw [hunder.2.2.2] at haddr; cases haddr
  | restarts _ hunder => exact ⟨.inr ⟨rfl, hunder⟩, ha⟩
  | receives hline hsame =>
    rw [hline] at hphase
    exact ⟨.inr hphase.1, hsame.address.trans ha.address, hsame.abort.trans ha.abort⟩
  | replies hline hsame =>
    rw [hline] at hphase
    exact ⟨hphase.1, ha.same hsame⟩
  | completes =>
    obtain ⟨mail, heq⟩ := i2cOnComplete_eq _ _
    rw [replied, heq]
    exact ⟨rfl, ha⟩
  | ends hline hsame | stops hline hsame =>
    rw [hline] at hphase
    exact ⟨hphase, ha.same hsame⟩

/-- The step lemma. -/
theorem Linked.step (hl : Linked s) (hstep : step fuel s e = some s') : Linked s' := by
  cases hl.steps hstep with
  | own _ _ hsame _ => exact ⟨by rw [hsame.transfer]; exact hl.phase, hl.attentive⟩
  | sends _ _ _ _ _ hunder => exact ⟨.inl ⟨rfl, hunder⟩, hl.attentive⟩
  | hub => exact ⟨hl.phase, hl.attentive⟩
  | wire hturn => exact hl.of_turn hturn
  | noise hflip => exact ⟨hl.phase.flip hflip, hl.attentive⟩
  | fault =>
    obtain ⟨mail, heq⟩ := i2cOnComplete_eq s.controller _
    rw [heq]
    exact ⟨rfl, hl.attentive⟩
  | slaveFault => exact ⟨hl.phase.fault _, hl.attentive.address, hl.attentive.abort⟩

/-- Nothing is in flight at first. -/
theorem start_linked : Linked start := by
  refine ⟨?_, by decide +kernel, rfl⟩
  show Controller.start.transfer.locked = false
  decide +kernel

/-- **The run lemma.** -/
theorem linked_of_run (hr : Run (Boards.step fuel) start h s) : Linked s :=
  hr.invariant (I := Linked) start_linked fun _ _ _ hl hstep => hl.step hstep

/-! ## The parts -/

/-- What a step is to the controller. -/
def controllerPart (p : State × Event) : Option Controller.Event :=
  match p.2 with
  | .controller e => some e
  | .wire => p.1.line.masterStatus.map .twi
  | .fault lost => some (.twi (faultStatus lost))
  | _ => none

/-- The byte that the slave receives next. -/
def arriving : Line → Option UInt8
  | .byte data => some data
  | _ => none

/-- What a step is to the hub. -/
def hubPart (p : State × Event) : Option Hub.Event :=
  match p.2 with
  | .hub e => some e
  | .wire => (arriving p.1.line).map .receive
  | _ => none

/-- An interrupt of the controller, as one of its events. -/
theorem step_twi {c : Controller.State} (hlocked : c.transfer.locked = true) (st : MasterStatus) :
    Controller.step fuel c (.twi st) = some (Controller.twiInterrupt c st) := by
  simp [Controller.step, Controller.react, hlocked, Except.toOption]

/-- What a turn of the line is to the controller. -/
theorem Linked.controller_turn (hl : Linked s) (ht : Turn s s') (fuel : ℕ) :
    StepOrStay (Controller.step fuel) s.controller s'.controller
      (s.line.masterStatus.map .twi) := by
  obtain ⟨hphase, ha⟩ := hl
  cases ht with
  | idle hline => rw [hline]; rfl
  | addressed read hline | receives hline | replies hline | ends hline | stops hline =>
    rw [hline]
    rfl
  | sends hline hunder =>
    rw [hline]
    exact (step_twi hunder.1 .writeInterrupt).trans
      (congrArg (fun s => some s.controller) ((masterTurn_write hunder).1 rfl))
  | restarts hline hunder =>
    rw [hline]
    exact (step_twi hunder.1 .writeInterrupt).trans
      (congrArg (fun s => some s.controller) ((masterTurn_write hunder).2 rfl))
  | @completes data hline =>
    rw [hline] at hphase ⊢
    exact (step_twi hphase.1 (.readInterrupt data)).trans
      (congrArg (fun s => some s.controller) (masterTurn_read hphase data))

/-- **The controller** takes a step of its own, or none. -/
theorem Linked.controller_step (hl : Linked s) (hstep : Boards.step fuel s e = some s') :
    StepOrStay (Controller.step fuel) s.controller s'.controller (controllerPart (s, e)) := by
  cases hl.steps hstep with
  | own hc _ _ _ => exact hc
  | sends hc _ _ _ _ _ => exact hc
  | hub | noise | slaveFault => rfl
  | @fault lost hlocked =>
    refine (step_twi hlocked (faultStatus lost)).trans (congrArg some ?_)
    cases lost <;> rfl
  | wire hturn => exact hl.controller_turn hturn fuel

/-- **The hub** takes a step of its own, or none. -/
theorem Linked.hub_step (hl : Linked s) (hstep : Boards.step fuel s e = some s') :
    StepOrStay (Hub.step fuel) s.hub s'.hub (hubPart (s, e)) := by
  cases hl.steps hstep with
  | own | sends | noise | slaveFault | fault => rfl
  | hub hh _ => exact hh
  | wire hturn =>
    have hpart : hubPart (s, .wire) = (arriving s.line).map .receive := rfl
    rw [hpart]
    cases hturn with
    | receives hline | idle hline | addressed _ hline | sends hline | restarts hline | replies hline
    | completes hline | ends hline | stops hline =>
      rw [hline]
      rfl

/-- The controller's part of a history. -/
def ofController (h : List (State × Event)) : List (Controller.State × Controller.Event) :=
  project State.controller controllerPart h

/-- The hub's part. -/
def ofHub (h : List (State × Event)) : List (Hub.State × Hub.Event) :=
  project State.hub hubPart h

theorem ofHub_append (h₁ h₂ : List (State × Event)) : ofHub (h₁ ++ h₂) = ofHub h₁ ++ ofHub h₂ :=
  project_append

/-- **A run of the two boards is a run of the controller.** -/
theorem run_controller (hr : Run (Boards.step fuel) start h s) :
    Run (Controller.step fuel) Controller.start (ofController h) s.controller :=
  Run.project State.controller controllerPart hr fun _ _ _ _ hrun hstep =>
    (linked_of_run hrun).controller_step hstep

/-- **And one of the hub.** -/
theorem run_hub (hr : Run (Boards.step fuel) start h s) :
    Run (Hub.step fuel) Hub.start (ofHub h) s.hub :=
  Run.project State.hub hubPart hr fun _ _ _ _ hrun hstep => (linked_of_run hrun).hub_step hstep

end Boards

end CncPneumatics
