import Mathlib.Data.List.Basic
/-!
# Pins

Pins by number, and the levels of the output pins, kept as the list of
every write made to them, the last one first. Each suffix of the list is
the state of the pins at some moment.
-/

namespace CncPneumatics

namespace Asx

/-- Every write to a pin, the last one first. -/
abbrev PinWrites := List (ℕ × Bool)

/-- `IOPORT_CREATE_PIN`, with the ports numbered from PORTA on. -/
def ioportCreatePin (port pin : ℕ) : ℕ := port * 8 + pin

/-- `ioport_pin_to_port_id`. -/
def ioportPinToPortId (pin : ℕ) : ℕ := pin / 8

/-- `ioport_pin_to_index`. -/
def ioportPinToIndex (pin : ℕ) : ℕ := pin % 8

/-- `ioport_pin_to_mask`. -/
def ioportPinToMask (pin : ℕ) : BitVec 8 := 1#8 <<< ioportPinToIndex pin

theorem ioportPinToIndex_lt (pin : ℕ) : ioportPinToIndex pin < 8 := Nat.mod_lt _ (by decide)

/-- A pin is the one of its port at its index. -/
theorem ioportCreatePin_port_index (pin : ℕ) :
    ioportCreatePin (ioportPinToPortId pin) (ioportPinToIndex pin) = pin := by
  unfold ioportCreatePin ioportPinToPortId ioportPinToIndex
  omega

theorem ioportPinToPortId_create {port i : ℕ} (hi : i < 8) :
    ioportPinToPortId (ioportCreatePin port i) = port := by
  unfold ioportCreatePin ioportPinToPortId
  omega

theorem ioportPinToIndex_create {port i : ℕ} (hi : i < 8) :
    ioportPinToIndex (ioportCreatePin port i) = i := by
  unfold ioportCreatePin ioportPinToIndex
  omega

/-- The mask of a pin has the bit of its index. -/
theorem getLsbD_ioportPinToMask (pin i : ℕ) :
    (ioportPinToMask pin).getLsbD i = decide (i = ioportPinToIndex pin) := by
  rw [ioportPinToMask, ← BitVec.twoPow_eq, BitVec.getLsbD_twoPow]
  have := ioportPinToIndex_lt pin
  simp [this, eq_comm]

/-- `ioport_set_pin_level`. -/
def ioportSetPinLevel (w : PinWrites) (pin : ℕ) (level : Bool) : PinWrites := (pin, level) :: w

/-- The level a pin was driven to, low before the first write. -/
def pinLevel (w : PinWrites) (pin : ℕ) : Bool :=
  match w.find? fun p => p.1 = pin with
  | some p => p.2
  | none => false

@[simp] theorem pinLevel_nil (pin : ℕ) : pinLevel [] pin = false := rfl

theorem pinLevel_set (w : PinWrites) (pin pin' : ℕ) (level : Bool) :
    pinLevel (ioportSetPinLevel w pin level) pin' =
      if pin' = pin then level else pinLevel w pin' := by
  unfold ioportSetPinLevel pinLevel
  rw [List.find?_cons]
  by_cases h : pin' = pin
  · simp [h]
  · simp [h, Ne.symm h]

/-- `ioport_toggle_pin_level`. -/
def ioportTogglePinLevel (w : PinWrites) (pin : ℕ) : PinWrites :=
  ioportSetPinLevel w pin !pinLevel w pin

/-- Writes to other pins. -/
theorem pinLevel_append {ws w : PinWrites} {pin : ℕ} (h : ∀ p ∈ ws, p.1 ≠ pin) :
    pinLevel (ws ++ w) pin = pinLevel w pin := by
  unfold pinLevel
  rw [List.find?_append, List.find?_eq_none.mpr fun p hp => by simpa using h p hp]
  rfl

end Asx

end CncPneumatics
