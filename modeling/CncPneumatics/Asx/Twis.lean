import Mathlib.Data.UInt
import CncPneumatics.Common.Run
/-!
# The two-wire slave

`twis.c`: the interrupts of a slave, which answers to its address, takes
the bytes that the master writes into one buffer, and sends those of
another. The callback that processes a byte belongs to the application. It
may prepare the bytes to send, and ask to abort.

A buffer is a vector of its size, so that each access comes with the bound
that the driver checked before it.
-/

namespace CncPneumatics

namespace Asx

/-! ## The driver -/

/-- `TWIS_RECEIVE_BUFFER_SIZE`. -/
abbrev twisReceiveBufferSize : ℕ := 8

/-- `TWIS_SEND_BUFFER_SIZE`. -/
abbrev twisSendBufferSize : ℕ := 8

/-- `TWIS_STATUS_READY` and `TWIS_STATUS_BUSY`. -/
inductive TwisStatus where
  | ready
  | busy
deriving DecidableEq

/-- `TWIS_RESULT_t`. -/
inductive TwisResult where
  | unknown
  | ok
  | bufferOverflow
  | transmitCollision
  | busError
  | fail
  | aborted
deriving DecidableEq

/-- `TWI_Slave_t`, with what the driver keeps in the registers of its
interface. -/
structure TwiSlave where
  /-- `SADDR`. -/
  address : UInt8
  /-- The bit `PIEN` of `SCTRLA`. -/
  stopInterrupt : Bool
  receivedData : Vector UInt8 twisReceiveBufferSize
  sendData : Vector UInt8 twisSendBufferSize
  bytesReceived : ℕ
  bytesSent : ℕ
  status : TwisStatus
  result : TwisResult
  abort : Bool
deriving DecidableEq

/-- What the handler reads: the bits of `SSTATUS`, and `SDATA`. -/
structure SlaveStatus where
  busErr : Bool
  coll : Bool
  apif : Bool
  ap : Bool
  dif : Bool
  dir : Bool
  rxAck : Bool
  data : UInt8
deriving DecidableEq

/-- What it writes to `SCTRLB`. -/
inductive SlaveCommand where
  /-- `TWI_SCMD_RESPONSE_gc`. -/
  | response
  /-- `TWI_SCMD_COMPTRANS_gc`. -/
  | compTrans
  /-- `TWI_ACKACT_bm | TWI_SCMD_COMPTRANS_gc`. -/
  | nackCompTrans
deriving DecidableEq

/-- What it writes to its registers: `SDATA`, `SCTRLB`, and the flag
`APIF` to clear it. -/
structure SlaveAnswer where
  data : Option UInt8
  command : Option SlaveCommand
  clearsApif : Bool
deriving DecidableEq

/-- Nothing is written. -/
def SlaveAnswer.nothing : SlaveAnswer := ⟨none, none, false⟩

/-- A command without data. -/
def SlaveAnswer.commands (command : SlaveCommand) : SlaveAnswer := ⟨none, some command, false⟩

/-- Static memory, before the driver is initialised. -/
def TwiSlave.blank : TwiSlave :=
  ⟨0, false, Vector.replicate _ 0, Vector.replicate _ 0, 0, 0, .ready, .unknown, false⟩

/-- `TWI_SlaveInitializeDriver`. -/
def twiSlaveInitializeDriver (twi : TwiSlave) : TwiSlave :=
  { twi with bytesReceived := 0, bytesSent := 0, status := .ready, result := .unknown, abort := false }

/-- `TWI_SlaveInitializeModule`, which enables the interrupts of address
and data only. -/
def twiSlaveInitializeModule (twi : TwiSlave) (address : UInt8) : TwiSlave :=
  { twi with stopInterrupt := false, address := address <<< 1 }

/-- `TWI_SlaveTransactionFinished`. -/
def twiSlaveTransactionFinished (twi : TwiSlave) (result : TwisResult) : TwiSlave :=
  { twi with result := result, status := .ready }

/-- `TWI_SlaveAddressMatchHandler`. -/
def twiSlaveAddressMatchHandler (twi : TwiSlave) : SlaveAnswer × TwiSlave :=
  if twi.abort then
    (.commands .compTrans, { twiSlaveTransactionFinished twi .aborted with abort := false })
  else
    (.commands .response,
      { twi with
        status := .busy, result := .unknown, stopInterrupt := false
        bytesReceived := 0, bytesSent := 0 })

/-- `TWI_SlaveStopHandler`. -/
def twiSlaveStopHandler (twi : TwiSlave) : SlaveAnswer × TwiSlave :=
  (⟨none, none, true⟩, twiSlaveTransactionFinished { twi with stopInterrupt := false } .ok)

/-- `TWI_SlaveWriteHandler`: the slave sends. -/
def twiSlaveWriteHandler (twi : TwiSlave) (rxAck : Bool) : SlaveAnswer × TwiSlave :=
  if 0 < twi.bytesSent ∧ rxAck then
    (.commands .compTrans, twiSlaveTransactionFinished twi .ok)
  else if h : twi.bytesSent < twisSendBufferSize then
    (⟨some twi.sendData[twi.bytesSent], some .response, false⟩,
      { twi with bytesSent := twi.bytesSent + 1 })
  else (.commands .compTrans, twiSlaveTransactionFinished twi .bufferOverflow)

variable {α : Type*}

/-- `Process_Data`, on the slave and the state of the application. -/
abbrev ProcessData (α : Type*) := TwiSlave → α → TwiSlave × α

/-- A byte is stored and processed. -/
def twiSlaveStore (process : ProcessData α) (twi : TwiSlave) (app : α) (data : UInt8)
    (h : twi.bytesReceived < twisReceiveBufferSize) : TwiSlave × α :=
  let r := process { twi with receivedData := twi.receivedData.set twi.bytesReceived data } app
  ({ r.1 with bytesReceived := (r.1.bytesReceived + 1) % 2 ^ 8 }, r.2)

/-- `TWI_SlaveReadHandler`: the slave receives. -/
def twiSlaveReadHandler (process : ProcessData α) (twi : TwiSlave) (app : α) (data : UInt8) :
    SlaveAnswer × TwiSlave × α :=
  let twi := { twi with stopInterrupt := true }
  if h : twi.bytesReceived < twisReceiveBufferSize then
    let r := twiSlaveStore process twi app data h
    if r.1.abort then
      (.commands .compTrans, { twiSlaveTransactionFinished r.1 .aborted with abort := false }, r.2)
    else (.commands .response, r)
  else (.commands .nackCompTrans, twiSlaveTransactionFinished twi .bufferOverflow, app)

/-- `TWI_SlaveDataHandler`. -/
def twiSlaveDataHandler (process : ProcessData α) (twi : TwiSlave) (app : α) (st : SlaveStatus) :
    SlaveAnswer × TwiSlave × α :=
  if st.dir then
    let r := twiSlaveWriteHandler twi st.rxAck
    (r.1, r.2, app)
  else twiSlaveReadHandler process twi app st.data

/-- The first two branches of the handler: what was under way is over. -/
def twiSlaveBusFault (twi : TwiSlave) (result : TwisResult) : TwiSlave :=
  { twi with bytesReceived := 0, bytesSent := 0, result := result, status := .ready }

/-- `TWI_SlaveInterruptHandler`. -/
def twiSlaveInterruptHandler (process : ProcessData α) (twi : TwiSlave) (app : α)
    (st : SlaveStatus) : SlaveAnswer × TwiSlave × α :=
  if st.busErr then (.nothing, twiSlaveBusFault twi .busError, app)
  else if st.coll then (.nothing, twiSlaveBusFault twi .transmitCollision, app)
  else if st.apif ∧ st.ap then
    let r := twiSlaveAddressMatchHandler twi
    (r.1, r.2, app)
  else if st.apif then
    let r := twiSlaveStopHandler twi
    (r.1, r.2, app)
  else if st.dif then twiSlaveDataHandler process twi app st
  else (.nothing, twiSlaveTransactionFinished twi .fail, app)

/-! ## What an interrupt is about -/

/-- Why the slave was interrupted. -/
inductive SlaveCause where
  | fault (result : TwisResult)
  | addressed
  | stopped
  | sends (rxAck : Bool)
  | receives (data : UInt8)
  | unexpected
deriving DecidableEq

/-- The first bit that is set, in the order in which the handler looks at
them. -/
def SlaveStatus.cause (st : SlaveStatus) : SlaveCause :=
  if st.busErr then .fault .busError
  else if st.coll then .fault .transmitCollision
  else if st.apif then if st.ap then .addressed else .stopped
  else if st.dif then if st.dir then .sends st.rxAck else .receives st.data
  else .unexpected

/-- What is done about it. -/
def SlaveCause.handle (process : ProcessData α) (twi : TwiSlave) (app : α) :
    SlaveCause → SlaveAnswer × TwiSlave × α
  | .fault result => (.nothing, twiSlaveBusFault twi result, app)
  | .addressed => ((twiSlaveAddressMatchHandler twi).1, (twiSlaveAddressMatchHandler twi).2, app)
  | .stopped => ((twiSlaveStopHandler twi).1, (twiSlaveStopHandler twi).2, app)
  | .sends rxAck =>
    ((twiSlaveWriteHandler twi rxAck).1, (twiSlaveWriteHandler twi rxAck).2, app)
  | .receives data => twiSlaveReadHandler process twi app data
  | .unexpected => (.nothing, twiSlaveTransactionFinished twi .fail, app)

/-- **The handler goes by the cause.** -/
theorem twiSlaveInterruptHandler_eq (process : ProcessData α) (twi : TwiSlave) (app : α)
    (st : SlaveStatus) :
    twiSlaveInterruptHandler process twi app st = st.cause.handle process twi app := by
  unfold twiSlaveInterruptHandler SlaveStatus.cause twiSlaveDataHandler
  split_ifs <;> first | rfl | simp_all

/-! ## The bytes of a transaction

A transaction begins where the slave is addressed. A fault ends it, and
whatever comes next is stored from the start of the buffer again. -/

/-- What was received since. -/
def SlaveCause.receive (bytes : List UInt8) : SlaveCause → List UInt8
  | .fault _ | .addressed => []
  | .receives data => bytes ++ [data]
  | _ => bytes

/-- How many bytes were sent since. The master ends the transaction when
it does not acknowledge one, and there are no more than the buffer has. -/
def SlaveCause.send (count : ℕ) : SlaveCause → ℕ
  | .fault _ | .addressed => 0
  | .sends rxAck => if 0 < count ∧ rxAck then count else min twisSendBufferSize (count + 1)
  | _ => count

/-- The bytes received in the last transaction. -/
def receivedSince (sts : List SlaveStatus) : List UInt8 :=
  sts.foldl (fun bytes st => st.cause.receive bytes) []

/-- The number of bytes sent in it. -/
def sentSince (sts : List SlaveStatus) : ℕ := sts.foldl (fun count st => st.cause.send count) 0

theorem receivedSince_concat (sts : List SlaveStatus) (st : SlaveStatus) :
    receivedSince (sts ++ [st]) = st.cause.receive (receivedSince sts) := by
  rw [receivedSince, List.foldl_append]
  rfl

theorem sentSince_concat (sts : List SlaveStatus) (st : SlaveStatus) :
    sentSince (sts ++ [st]) = st.cause.send (sentSince sts) := by
  rw [sentSince, List.foldl_append]
  rfl

/-- **The callback** changes nothing of the driver but the bytes to send
and the flag to abort. -/
def Modest (process : ProcessData α) : Prop :=
  ∀ twi app, ∃ data abort, (process twi app).1 = { twi with sendData := data, abort := abort }

/-- **The driver knows its transaction**: the first bytes received are in
the buffer, in their order, and both counters count. -/
structure Tells (bytes : List UInt8) (sent : ℕ) (twi : TwiSlave) : Prop where
  received : twi.receivedData.toList.take twi.bytesReceived = bytes.take twisReceiveBufferSize
  bytesReceived : twi.bytesReceived = min twisReceiveBufferSize bytes.length
  bytesSent : twi.bytesSent = sent
  sent_le : sent ≤ twisSendBufferSize
  abort : twi.abort = false

variable {process : ProcessData α} {twi : TwiSlave} {app : α} {bytes : List UInt8} {sent : ℕ}
  {data : UInt8}

/-- A byte goes to the place after those before it. -/
theorem take_set_succ {n i : ℕ} (v : Vector UInt8 n) (h : i < n) (x : UInt8) :
    (v.set i x).toList.take (i + 1) = v.toList.take i ++ [x] := by
  rw [Vector.toList_set, List.take_set, List.take_succ_eq_append_getElem (by simpa using h),
    List.set_append_right _ _ (by simp [Nat.min_eq_left h.le])]
  simp [Nat.min_eq_left h.le]

/-- **A byte that fits** is stored after the others. -/
theorem Tells.store (h : Tells bytes sent twi) (hm : Modest process)
    (hlt : twi.bytesReceived < twisReceiveBufferSize) (app : α) (data : UInt8) :
    ∃ abort, (twiSlaveStore process twi app data hlt).1.abort = abort ∧
      Tells (bytes ++ [data]) sent
        { (twiSlaveStore process twi app data hlt).1 with abort := false } := by
  obtain ⟨sends, abort, hr⟩ :=
    hm { twi with receivedData := twi.receivedData.set twi.bytesReceived data } app
  have hcount := h.bytesReceived
  have hlen : bytes.length < twisReceiveBufferSize := by omega
  refine ⟨abort, by rw [twiSlaveStore, hr], ?_⟩
  have hmod : (twi.bytesReceived + 1) % 2 ^ 8 = twi.bytesReceived + 1 :=
    Nat.mod_eq_of_lt (by unfold twisReceiveBufferSize at hlt; omega)
  rw [twiSlaveStore, hr]
  refine ⟨?_, ?_, h.bytesSent, h.sent_le, rfl⟩
  · dsimp only
    rw [hmod, take_set_succ _ hlt, h.received, List.take_of_length_le hlen.le,
      List.take_of_length_le (by rw [List.length_append, List.length_singleton]; omega)]
  · dsimp only
    rw [hmod, List.length_append, List.length_singleton]
    omega

/-- A byte is received: it is stored, or not acknowledged. -/
theorem Tells.receives (h : Tells bytes sent twi) (hm : Modest process) (app : α) (data : UInt8) :
    Tells (bytes ++ [data]) sent (twiSlaveReadHandler process twi app data).2.1 ∧
      ((twiSlaveReadHandler process twi app data).1.command = some .nackCompTrans ↔
        twisReceiveBufferSize ≤ bytes.length) ∧
      (twisReceiveBufferSize ≤ bytes.length →
        (twiSlaveReadHandler process twi app data).2.2 = app) := by
  have hcount := h.bytesReceived
  have hstop : Tells bytes sent { twi with stopInterrupt := true } :=
    ⟨h.received, h.bytesReceived, h.bytesSent, h.sent_le, h.abort⟩
  unfold twiSlaveReadHandler
  dsimp only
  by_cases hlt : twi.bytesReceived < twisReceiveBufferSize
  · obtain ⟨abort, habort, hstore⟩ := hstop.store hm hlt app data
    have hroom : ¬ twisReceiveBufferSize ≤ bytes.length := by omega
    rw [dif_pos hlt]
    cases abort with
    | true =>
      rw [if_pos habort]
      exact ⟨⟨hstore.received, hstore.bytesReceived, hstore.bytesSent, hstore.sent_le, rfl⟩,
        by simp [SlaveAnswer.commands, hroom], fun hfull => absurd hfull hroom⟩
    | false =>
      rw [if_neg (by rw [habort]; simp)]
      exact ⟨⟨hstore.received, hstore.bytesReceived, hstore.bytesSent, hstore.sent_le, habort⟩,
        by simp [SlaveAnswer.commands, hroom], fun hfull => absurd hfull hroom⟩
  · -- the buffer is full: nothing is stored, and the callback is not called
    have hfull : twisReceiveBufferSize ≤ bytes.length := by omega
    rw [dif_neg hlt]
    refine ⟨⟨?_, ?_, h.bytesSent, h.sent_le, h.abort⟩, by simp [SlaveAnswer.commands, hfull],
      fun _ => rfl⟩
    · rw [List.take_append_of_le_length hfull]
      exact h.received
    · rw [List.length_append, List.length_singleton]
      show twi.bytesReceived = _
      omega

/-- A byte is sent, unless the master has enough or there is none left. -/
theorem Tells.sends (h : Tells bytes sent twi) (rxAck : Bool) :
    Tells bytes ((SlaveCause.sends rxAck).send sent) (twiSlaveWriteHandler twi rxAck).2 ∧
      (twiSlaveWriteHandler twi rxAck).1.data =
        if 0 < sent ∧ rxAck then none else twi.sendData.toList[sent]? := by
  have hle := h.sent_le
  have hsent := h.bytesSent
  subst hsent
  rw [twiSlaveWriteHandler, SlaveCause.send]
  by_cases hnack : 0 < twi.bytesSent ∧ rxAck = true
  · rw [if_pos hnack, if_pos hnack, if_pos hnack]
    exact ⟨⟨h.received, h.bytesReceived, rfl, h.sent_le, h.abort⟩, rfl⟩
  · rw [if_neg hnack, if_neg hnack, if_neg hnack]
    by_cases hlt : twi.bytesSent < twisSendBufferSize
    · rw [dif_pos hlt]
      refine ⟨⟨h.received, h.bytesReceived, ?_, Nat.min_le_left _ _, h.abort⟩, ?_⟩
      · dsimp only
        omega
      · rw [List.getElem?_eq_getElem (by simpa using hlt)]
        simp
    · rw [dif_neg hlt]
      refine ⟨⟨h.received, h.bytesReceived, ?_, Nat.min_le_left _ _, h.abort⟩, ?_⟩
      · show twi.bytesSent = _
        omega
      · rw [List.getElem?_eq_none (by simpa using hlt)]
        rfl

/-- One case a cause. -/
theorem Tells.handle (h : Tells bytes sent twi) (hm : Modest process) (app : α)
    (cause : SlaveCause) :
    Tells (cause.receive bytes) (cause.send sent) (cause.handle process twi app).2.1 := by
  cases cause with
  | fault result =>
    exact ⟨by simp [SlaveCause.handle, twiSlaveBusFault, SlaveCause.receive], rfl, rfl,
      Nat.zero_le _, h.abort⟩
  | addressed =>
    rw [SlaveCause.handle, twiSlaveAddressMatchHandler, if_neg (by rw [h.abort]; simp)]
    exact ⟨by simp [SlaveCause.receive], rfl, rfl, Nat.zero_le _, h.abort⟩
  | sends rxAck => exact (h.sends rxAck).1
  | receives data => exact (h.receives hm app data).1
  | stopped | unexpected =>
    exact ⟨h.received, h.bytesReceived, h.bytesSent, h.sent_le, h.abort⟩

/-! ## Any sequence of interrupts -/

/-- The slave as the application initialises it. -/
def slaveStart (address : UInt8) : TwiSlave :=
  twiSlaveInitializeModule (twiSlaveInitializeDriver .blank) address

/-- An interrupt, on the slave with its application. -/
def slaveInterrupt (process : ProcessData α) (s : TwiSlave × α) (st : SlaveStatus) :
    SlaveAnswer × (TwiSlave × α) :=
  twiSlaveInterruptHandler process s.1 s.2 st

/-- The slave after a sequence of interrupts. -/
def slaveAfter (process : ProcessData α) (address : UInt8) (app : α) (sts : List SlaveStatus) :
    TwiSlave × α :=
  (answers (slaveInterrupt process) sts (slaveStart address, app)).2

/-- The run lemma. -/
theorem tells_of_interrupts (hm : Modest process) (address : UInt8) (app : α)
    (sts : List SlaveStatus) :
    Tells (receivedSince sts) (sentSince sts) (slaveAfter process address app sts).1 := by
  induction sts using List.reverseRecOn with
  | nil => exact ⟨rfl, rfl, rfl, Nat.zero_le _, rfl⟩
  | append_singleton sts st ih =>
    rw [slaveAfter, answers_append, receivedSince_concat, sentSince_concat]
    have hstep := ih.handle hm (slaveAfter process address app sts).2 st.cause
    rw [← twiSlaveInterruptHandler_eq] at hstep
    exact hstep

/-- **Whatever the order of the interrupts**, the slave stores the bytes of
its transaction in their order and none of another one. It refuses the
ninth and those after it, without a call to the application; and the bytes
that the master reads are those of its buffer, in their order, up to the
one that is not acknowledged. -/
theorem slave_keeps_transaction (hm : Modest process) (address : UInt8) (app : α)
    (sts : List SlaveStatus) (st : SlaveStatus) :
    let s := slaveAfter process address app sts
    let r := slaveInterrupt process s st
    s.1.receivedData.toList.take s.1.bytesReceived =
        (receivedSince sts).take twisReceiveBufferSize ∧
      s.1.bytesReceived = min twisReceiveBufferSize (receivedSince sts).length ∧
      (∀ data, st.cause = .receives data →
        (r.1.command = some .nackCompTrans ↔
          twisReceiveBufferSize ≤ (receivedSince sts).length) ∧
        (twisReceiveBufferSize ≤ (receivedSince sts).length → r.2.2 = s.2)) ∧
      ∀ rxAck, st.cause = .sends rxAck → r.1.data =
        if 0 < sentSince sts ∧ rxAck then none else s.1.sendData.toList[sentSince sts]? := by
  intro s r
  have h : Tells (receivedSince sts) (sentSince sts) s.1 := tells_of_interrupts hm address app sts
  have hr : r = st.cause.handle process s.1 s.2 := twiSlaveInterruptHandler_eq process s.1 s.2 st
  refine ⟨h.received, h.bytesReceived, fun data hcause => ?_, fun rxAck hcause => ?_⟩
  · rw [hr, hcause]
    exact (h.receives hm s.2 data).2
  · rw [hr, hcause]
    exact (h.sends rxAck).2

/-- A callback that sends back what was received, and counts. -/
def echoData : ProcessData ℕ := fun twi count => ({ twi with sendData := twi.receivedData }, count + 1)

/-- The status of a byte received. -/
def SlaveStatus.received (data : UInt8) : SlaveStatus :=
  ⟨false, false, false, false, true, false, false, data⟩

/-- The status of an address received. -/
def SlaveStatus.matched (read : Bool) : SlaveStatus :=
  ⟨false, false, true, true, false, read, false, 0⟩

/-- The ninth byte of a transaction is refused, and the buffer keeps the
first eight. -/
theorem slave_keeps_transaction_ninth :
    let s := slaveAfter echoData 0x54 0
      (SlaveStatus.matched false :: [1, 2, 3, 4, 5, 6, 7, 8].map SlaveStatus.received)
    s.1.receivedData.toList = [1, 2, 3, 4, 5, 6, 7, 8] ∧
      (slaveInterrupt echoData s (.received 9)).1.command = some .nackCompTrans := by
  intro s
  have hm : Modest echoData := fun twi _ => ⟨twi.receivedData, twi.abort, rfl⟩
  obtain ⟨htake, hcount, hfull, -⟩ := slave_keeps_transaction hm 0x54 0
    (SlaveStatus.matched false :: [1, 2, 3, 4, 5, 6, 7, 8].map SlaveStatus.received) (.received 9)
  refine ⟨?_, ((hfull 9 rfl).1.mpr (by decide))⟩
  have h8 : s.1.bytesReceived = 8 := hcount.trans (by decide)
  rw [show (slaveAfter echoData 0x54 0 _).1.bytesReceived = 8 from h8,
    List.take_of_length_le (by simp)] at htake
  exact htake.trans (by decide)

end Asx

end CncPneumatics
