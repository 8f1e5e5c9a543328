import CncPneumatics.Asx.Twim
import CncPneumatics.Common.Run
/-!
# The two-wire master at its registers

`twim.c` again, with what it reads and writes: the bytes of the package,
those of its buffer, and the registers of the bus. For a package with a
buffer of one byte this is the transfer that only counts.
-/

namespace CncPneumatics

namespace Asx

/-- What the driver writes to the registers of the bus. -/
inductive MasterWrite where
  /-- `MADDR`: a START and this byte. -/
  | maddr (value : UInt8)
  /-- `MDATA`. -/
  | mdata (value : UInt8)
  /-- `TWI_MCMD_RECVTRANS_gc`. -/
  | recvTrans
  /-- `TWI_MCMD_STOP_gc`. -/
  | stop
  /-- `TWI_ACKACT_bm | TWI_MCMD_STOP_gc`. -/
  | nackStop
deriving DecidableEq

/-- `transfer`, with its package, the memory of its buffer, and `MADDR`. -/
structure TwiMaster where
  maddr : UInt8
  chip : UInt8
  /-- As many bytes as `addr_length` says. -/
  addr : List UInt8
  /-- As many bytes as `length` says. -/
  buffer : List UInt8
  addrCount : ℕ
  dataCount : ℕ
  read : Bool
  locked : Bool
  /-- There is none while the operation is in progress. -/
  status : Option StatusCode
deriving DecidableEq

/-- What an interrupt leads to: the register written, the status with
which the callback is called, and the transfer. -/
structure MasterStep where
  write : Option MasterWrite
  callback : Option StatusCode
  next : TwiMaster

namespace TwiMaster

variable (t : TwiMaster)

/-- A transfer that is over: its status is stored and the callback called. -/
def finish (write : Option MasterWrite) (status : StatusCode) : MasterStep :=
  ⟨write, some status, { t with status := some status }⟩

/-- `twi_master_transfer` with `no_wait`, for a package with the buffer of
the transfer. -/
def transfer (chip : UInt8) (addr : List UInt8) (read : Bool) :
    StatusCode × Option MasterWrite × TwiMaster :=
  -- `twim_acquire`
  if t.locked then (.errBusy, none, t)
  else
    let value := if addr ≠ [] ∨ read = false then chip <<< 1 else chip <<< 1 ||| 1
    (.statusOk, some (.maddr value),
      { t with
        locked := true, status := none, chip := chip, addr := addr, addrCount := 0, dataCount := 0
        read := read, maddr := value })

/-- `twim_write_handler`. -/
def writeHandler : MasterStep :=
  if h : t.addrCount < t.addr.length then
    ⟨some (.mdata (t.addr.get ⟨_, h⟩)), none, { t with addrCount := t.addrCount + 1 }⟩
  else if h : t.dataCount < t.buffer.length then
    if t.read then
      -- a repeated START
      let value := t.maddr ||| 1
      ⟨some (.maddr value), none, { t with maddr := value }⟩
    else ⟨some (.mdata (t.buffer.get ⟨_, h⟩)), none, { t with dataCount := t.dataCount + 1 }⟩
  else t.finish (some .stop) .statusOk

/-- `twim_read_handler`. -/
def readHandler (data : UInt8) : MasterStep :=
  if t.dataCount < t.buffer.length then
    let t := { t with buffer := t.buffer.set t.dataCount data, dataCount := t.dataCount + 1 }
    if t.dataCount < t.buffer.length then ⟨some .recvTrans, none, t⟩
    else t.finish (some .nackStop) .statusOk
  else t.finish (some .stop) .errNoMemory

/-- `twim_interrupt_handler`. -/
def interruptHandler : MasterStatus → MasterStep
  | .arbitrationLost => t.finish (some .stop) .errBusy
  | .busErrorOrNack => t.finish (some .stop) .errIoError
  | .writeInterrupt => t.writeHandler
  | .readInterrupt data => t.readHandler data
  | .none => t.finish none .errProtocol

/-! ## The transfer that only counts -/

/-- The counters and the flags, with the first byte of the buffer. -/
def toTransfer : Transfer := ⟨t.addrCount, t.dataCount, t.read, t.locked, t.buffer.headD 0⟩

/-- The lengths of the package. -/
def package : TwiPackage := ⟨t.addr.length, t.buffer.length⟩

variable {t}

/-- **One interrupt, at both levels**, with a buffer of one byte. -/
theorem interruptHandler_toTransfer (hone : t.buffer.length = 1) (st : MasterStatus) :
    twimInterruptHandler t.package t.toTransfer st =
        ((t.interruptHandler st).callback, (t.interruptHandler st).next.toTransfer) ∧
      (t.interruptHandler st).next.package = t.package := by
  cases st with
  | arbitrationLost | busErrorOrNack | none => exact ⟨rfl, rfl⟩
  | writeInterrupt =>
    rw [twimInterruptHandler, interruptHandler, twimWriteHandler, writeHandler]
    by_cases haddr : t.addrCount < t.addr.length
    · rw [if_pos (show t.toTransfer.addrCount < t.package.addrLength from haddr), dif_pos haddr]
      exact ⟨rfl, rfl⟩
    · rw [if_neg (show ¬ t.toTransfer.addrCount < t.package.addrLength from haddr), dif_neg haddr]
      by_cases hdata : t.dataCount < t.buffer.length
      · rw [if_pos (show t.toTransfer.dataCount < t.package.length from hdata), dif_pos hdata]
        cases hread : t.read <;> simp [toTransfer, package, hread]
      · rw [if_neg (show ¬ t.toTransfer.dataCount < t.package.length from hdata), dif_neg hdata]
        exact ⟨rfl, rfl⟩
  | readInterrupt data =>
    obtain ⟨byte, hbyte⟩ := List.length_eq_one_iff.mp hone
    rw [twimInterruptHandler, interruptHandler, twimReadHandler, readHandler]
    by_cases hdata : t.dataCount < t.buffer.length
    · have hzero : t.dataCount = 0 := by omega
      simp [toTransfer, package, finish, hzero, hbyte]
    · rw [if_neg (show ¬ t.toTransfer.dataCount < t.package.length from hdata), if_neg hdata]
      exact ⟨rfl, rfl⟩

end TwiMaster

end Asx

end CncPneumatics
