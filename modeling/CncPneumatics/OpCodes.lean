import Mathlib.Data.UInt
/-!
# Command codes

`op_codes.h`: one byte a command, and the reply that encodes the state of
the hub's input over the command it answers.
-/

namespace CncPneumatics

/-- `opcodes_cmd_t`, whose values are bytes. -/
abbrev Opcode := UInt8

def opcodesCmdError : Opcode := 0
def opcodesCmdIdle : Opcode := 0b01001111
def opcodesCmdPushDoor : Opcode := 0b01110001
def opcodesCmdPullDoor : Opcode := 0b00001010
def opcodesCmdBlastToolsetter : Opcode := 0b01111010
def opcodesCmdBlastSpindle : Opcode := 0b01001000
def opcodesCmdUnclampChuck : Opcode := 0b10000110
def opcodesCmdReserved0 : Opcode := 0b11001001
def opcodesCmdReserved1 : Opcode := 0b10110000

/-- `opcodes_reply_t`. -/
inductive OpcodesReply where
  | off
  | on
  | error
deriving DecidableEq

/-- `OPCODE_INPUT_IS_ON_MASK`. -/
def opcodeInputIsOnMask : UInt8 := 0xA5

/-- `OPCODE_INPUT_IS_OFF_MASK`. -/
def opcodeInputIsOffMask : UInt8 := 0x5A

/-- `opcodes_check_cmd_valid`. -/
def opcodesCheckCmdValid (value : UInt8) : Opcode :=
  if value = opcodesCmdIdle ∨ value = opcodesCmdPushDoor ∨ value = opcodesCmdPullDoor ∨
      value = opcodesCmdBlastToolsetter ∨ value = opcodesCmdBlastSpindle ∨
      value = opcodesCmdUnclampChuck ∨ value = opcodesCmdReserved0 ∨
      value = opcodesCmdReserved1 then value
  else opcodesCmdError

/-- `opcodes_decode_reply`. -/
def opcodesDecodeReply (cmd : Opcode) (valueRead : UInt8) : OpcodesReply :=
  if cmd ^^^ opcodeInputIsOnMask = valueRead then .on
  else if cmd ^^^ opcodeInputIsOffMask = valueRead then .off
  else .error

/-- `opcodes_encode_reply`. -/
def opcodesEncodeReply (reply : OpcodesReply) (cmdReceived : Opcode) : UInt8 :=
  match reply with
  | .off => cmdReceived ^^^ opcodeInputIsOffMask
  | .on => cmdReceived ^^^ opcodeInputIsOnMask
  | .error => opcodesCmdError

/-- **A reply decodes to what was encoded**, whatever the command. -/
theorem opcodesDecodeReply_encode (reply : OpcodesReply) (cmd : Opcode) (h : reply ≠ .error) :
    opcodesDecodeReply cmd (opcodesEncodeReply reply cmd) = reply := by
  cases reply with
  | on => rw [opcodesEncodeReply, opcodesDecodeReply, if_pos rfl]
  | off =>
    have hne : cmd ^^^ opcodeInputIsOnMask ≠ cmd ^^^ opcodeInputIsOffMask := by
      intro heq
      have hmask : opcodeInputIsOnMask = opcodeInputIsOffMask := by
        have := congrArg (cmd ^^^ ·) heq
        simpa [← UInt8.xor_assoc] using this
      exact absurd hmask (by decide)
    rw [opcodesEncodeReply, opcodesDecodeReply, if_neg hne, if_pos rfl]
  | error => exact absurd rfl h

/-- The other reply. -/
def OpcodesReply.other : OpcodesReply → OpcodesReply
  | .off => .on
  | .on => .off
  | .error => .error

/-- What flips all bits of a reply makes the other one of it. -/
def opcodeInputMasks : UInt8 := opcodeInputIsOnMask ^^^ opcodeInputIsOffMask

/-- Two masked bytes are one and the same when what was altered is what
the masks differ in. -/
theorem xor_mask_eq_iff (cmd mask mask' e₁ e₂ : UInt8) :
    cmd ^^^ mask = cmd ^^^ e₁ ^^^ mask' ^^^ e₂ ↔ e₁ ^^^ e₂ = mask ^^^ mask' := by
  have hleft : cmd ^^^ e₁ ^^^ mask' ^^^ e₂ = cmd ^^^ (mask' ^^^ (e₁ ^^^ e₂)) := by ac_rfl
  rw [hleft, UInt8.xor_right_inj]
  constructor
  · rintro rfl
    rw [UInt8.xor_comm mask', UInt8.xor_assoc, UInt8.xor_self, UInt8.xor_zero]
  · intro heq
    rw [heq, UInt8.xor_comm mask, ← UInt8.xor_assoc, UInt8.xor_self, UInt8.zero_xor]

/-- **An altered exchange.** When the command is altered on the way to the
hub and the reply on the way back, the controller reads the reply that
was meant if both alterations are the same, the other one if together
they flip every bit, and an error otherwise. -/
theorem opcodesDecodeReply_altered (reply : OpcodesReply) (h : reply ≠ .error) (cmd e₁ e₂ : UInt8) :
    opcodesDecodeReply cmd (opcodesEncodeReply reply (cmd ^^^ e₁) ^^^ e₂) =
      if e₁ ^^^ e₂ = 0 then reply else if e₁ ^^^ e₂ = opcodeInputMasks then reply.other
      else .error := by
  have hmasks : opcodeInputIsOffMask ^^^ opcodeInputIsOnMask = opcodeInputMasks := by decide
  have hne : opcodeInputMasks ≠ 0 := by decide
  unfold opcodesDecodeReply
  cases reply with
  | error => exact absurd rfl h
  | on =>
    simp only [opcodesEncodeReply, xor_mask_eq_iff, UInt8.xor_self, hmasks]
    rfl
  | off =>
    have hon : opcodeInputIsOnMask ^^^ opcodeInputIsOffMask = opcodeInputMasks := rfl
    simp only [opcodesEncodeReply, xor_mask_eq_iff, UInt8.xor_self, hon]
    -- the decoder looks for the other reply first
    by_cases hzero : e₁ ^^^ e₂ = 0
    · rw [hzero, if_neg hne.symm, if_pos rfl, if_pos rfl]
    · rw [if_neg hzero, if_neg hzero]
      rfl

end CncPneumatics
