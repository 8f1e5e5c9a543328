import Mathlib.Data.UInt
/-!
# The two-wire master

`twim.c`, for a transfer without waiting: starting one, and the interrupts
that carry it on until it is over and its callback is called.
-/

namespace CncPneumatics

namespace Asx

/-- `status_code_t`, as far as a transfer returns it. -/
inductive StatusCode where
  | statusOk
  | errIoError
  | errBadData
  | errProtocol
  | errNoMemory
  | errBusy
deriving DecidableEq

/-- The status as a pointer-sized argument. -/
def StatusCode.asArg : StatusCode → ℕ
  | .statusOk => 0
  | .errIoError => 2 ^ 16 - 1
  | .errBadData => 2 ^ 16 - 4
  | .errProtocol => 2 ^ 16 - 5
  | .errNoMemory => 2 ^ 16 - 7
  | .errBusy => 2 ^ 16 - 10

/-- The lengths of a `twi_package_t`. -/
structure TwiPackage where
  addrLength : ℕ
  length : ℕ

/-- `transfer`, with the buffer of its package. -/
structure Transfer where
  addrCount : ℕ
  dataCount : ℕ
  read : Bool
  locked : Bool
  buffer : UInt8
deriving DecidableEq

/-- `twi_master_init`. -/
def twiMasterInit : Transfer := ⟨0, 0, false, false, 0⟩

/-- `twi_master_transfer` with `no_wait`. -/
def twiMasterTransfer (t : Transfer) (read : Bool) : StatusCode × Transfer :=
  if t.locked then (.errBusy, t)
  else (.statusOk, { t with locked := true, addrCount := 0, dataCount := 0, read := read })

/-- The bits of `MSTATUS`, in the order in which the handler looks at
them, with `MDATA` where a byte was read. -/
inductive MasterStatus where
  | arbitrationLost
  | busErrorOrNack
  | writeInterrupt
  | readInterrupt (data : UInt8)
  | none
deriving DecidableEq

/-- `twim_write_handler`. -/
def twimWriteHandler (pkg : TwiPackage) (t : Transfer) : Option StatusCode × Transfer :=
  if t.addrCount < pkg.addrLength then (Option.none, { t with addrCount := t.addrCount + 1 })
  else if t.dataCount < pkg.length then
    -- a read goes on with a repeated start
    if t.read then (Option.none, t) else (Option.none, { t with dataCount := t.dataCount + 1 })
  else (some .statusOk, t)

/-- `twim_read_handler`. -/
def twimReadHandler (pkg : TwiPackage) (t : Transfer) (data : UInt8) :
    Option StatusCode × Transfer :=
  if t.dataCount < pkg.length then
    let t := { t with buffer := data, dataCount := t.dataCount + 1 }
    if t.dataCount < pkg.length then (Option.none, t) else (some .statusOk, t)
  else (some .errNoMemory, t)

/-- `twim_interrupt_handler`: the status with which it calls the callback,
if it does. -/
def twimInterruptHandler (pkg : TwiPackage) (t : Transfer) : MasterStatus → Option StatusCode × Transfer
  | .arbitrationLost => (some .errBusy, t)
  | .busErrorOrNack => (some .errIoError, t)
  | .writeInterrupt => twimWriteHandler pkg t
  | .readInterrupt data => twimReadHandler pkg t data
  | .none => (some .errProtocol, t)

/-- `twim_release`, called when the transfer is over. -/
def twimRelease (t : Transfer) : Transfer := { t with locked := false }

end Asx

end CncPneumatics
