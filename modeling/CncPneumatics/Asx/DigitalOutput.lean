import CncPneumatics.Asx.Ioport
import CncPneumatics.Asx.Timer
/-!
# Digital outputs

`digital_output.c`: an output is driven directly or plays a sequence, a
text of levels and durations. A step of the sequence sets the pin and arms
a timer for the next one.
-/

namespace CncPneumatics

namespace Asx

/-- `_digital_output_t`. A pointer into a text is what is left to read. -/
structure DigitalOutput where
  pin : ℕ
  /-- `reference_period_ms`, 16 bits wide. -/
  referencePeriodMs : ℕ
  currentDurationShift : ℕ
  timer : ℕ
  sequence : List Char
  next : List Char
  /-- `repeat`. -/
  rep : Bool
deriving DecidableEq, Inhabited

/-- What the functions read and write: the timers, the pins and the
record of the output they were given. -/
structure OutputState where
  timer : Timer
  pins : PinWrites
  out : DigitalOutput

/-- `digital_output`, whose storage is zero at first. -/
def digitalOutput (pin : ℕ) : DigitalOutput := ⟨pin, 0, 0, 0, [], [], false⟩

/-- `_cancel_sequence`, which is given the instance by value. -/
def cancelSequence (s : OutputState) : OutputState :=
  if s.out.timer ≠ 0 then { s with timer := (timerCancel s.timer s.out.timer).2 } else s

/-- `_parse_next`, in the order of its states: spaces, then a level, then
a duration. Whatever is none of these is left where it is. -/
def parseNext (s : OutputState) : Bool × OutputState :=
  match s.out.next.dropWhile (· = ' ') with
  | [] => (false, { s with out := { s.out with next := s.out.sequence } })
  | c :: cs =>
    let pins := if c = '+' then ioportSetPinLevel s.pins s.out.pin true
      else if c = '-' then ioportSetPinLevel s.pins s.out.pin false else s.pins
    match if c = '+' ∨ c = '-' then cs else c :: cs with
    | [] => (false, { s with pins := pins, out := { s.out with next := s.out.sequence } })
    | d :: ds =>
      if d.isDigit then
        (true, { s with pins := pins, out := { s.out with
          currentDurationShift := d.toNat - '0'.toNat, next := ds } })
      else (true, { s with pins := pins, out := { s.out with next := d :: ds } })

/-- `_digital_output_reactor_handler`; `arg` is the pointer to the output. -/
def digitalOutputReactorHandler (reactor arg : ℕ) (s : OutputState) :
    Except OutputState OutputState :=
  let r := parseNext s
  if r.1 ∨ r.2.out.rep then
    match timerArm r.2.timer reactor (timerGetCountFromNow r.2.timer
        (r.2.out.referencePeriodMs >>> r.2.out.currentDurationShift)) 0 arg with
    | some (inst, timer) => .ok { r.2 with timer := timer, out := { r.2.out with timer := inst } }
    | none => .error r.2
  else .ok { r.2 with out := { r.2.out with timer := 0 } }

/-- `digitial_output_set`. -/
def digitalOutputSet (value : Bool) (s : OutputState) : OutputState :=
  let s := cancelSequence s
  { s with pins := ioportSetPinLevel s.pins s.out.pin value }

/-- `digitial_output_toggle`. -/
def digitalOutputToggle (s : OutputState) : OutputState :=
  let s := cancelSequence s
  { s with pins := ioportTogglePinLevel s.pins s.out.pin }

/-- `digitial_output_start`. -/
def digitalOutputStart (reactor arg referenceTime : ℕ) (sequence : List Char) (rep : Bool)
    (s : OutputState) : Except OutputState OutputState :=
  let s := cancelSequence s
  digitalOutputReactorHandler reactor arg { s with out := { s.out with
    sequence := sequence
    next := sequence
    rep := rep
    referencePeriodMs := referenceTime % 2 ^ 16 } }

end Asx

end CncPneumatics
