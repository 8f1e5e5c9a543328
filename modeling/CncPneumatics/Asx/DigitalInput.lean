import CncPneumatics.Asx.Timer
/-!
# Digital inputs

`digital_input.c`, for the inputs that are sampled: each has an integrator
that counts up while the pin is high and down while it is low, and settles
on or off at the ends of its range. A change of the settled state is
notified with the pin and its value packed into one word.
-/

namespace CncPneumatics

namespace Asx

/-- `DIGITAL_INPUT_SAMPLE_PERIOD`. -/
def digitalInputSamplePeriod : ℕ := timerMilliseconds 5

/-- `di_input_state_t`. -/
inductive DiInputState where
  | off
  | on
  | unknown
deriving DecidableEq, Inhabited

/-- `digital_input_t`, sampled. -/
structure DigitalInput where
  pin : ℕ
  /-- The reactor handle to notify, or the null handle. -/
  handler : ℕ
  input : DiInputState
  integratorThreshold : ℕ
  integrator : ℕ
deriving DecidableEq

/-- `pin_and_value_as_arg`: the pin in the low byte, the value above. -/
def pinAndValueAsArg (pin : ℕ) (value : Bool) : ℕ := pin + 256 * value.toNat

/-- The pin of a `pin_and_value_t`. -/
def argPin (arg : ℕ) : ℕ := arg % 256

/-- The value of a `pin_and_value_t`. -/
def argValue (arg : ℕ) : Bool := decide (arg / 256 % 256 ≠ 0)

@[simp] theorem argPin_pinAndValueAsArg {pin : ℕ} (hpin : pin < 256) (value : Bool) :
    argPin (pinAndValueAsArg pin value) = pin := by
  cases value <;> simp only [argPin, pinAndValueAsArg, Bool.toNat_false, Bool.toNat_true] <;> omega

@[simp] theorem argValue_pinAndValueAsArg {pin : ℕ} (hpin : pin < 256) (value : Bool) :
    argValue (pinAndValueAsArg pin value) = value := by
  have h : (pin + 256 * value.toNat) / 256 % 256 = value.toNat := by
    cases value <;> simp only [Bool.toNat_false, Bool.toNat_true] <;> omega
  rw [argValue, pinAndValueAsArg, h]
  cases value <;> rfl

/-- `digital_input`, with the sensing disabled. -/
def digitalInput (pin reactor filterValue : ℕ) : DigitalInput where
  pin := pin
  handler := reactor
  input := .unknown
  integratorThreshold := filterValue / digitalInputSamplePeriod % 256
  integrator := 0

/-- The integrator of `_digital_input_sample`. -/
def digitalInputIntegrate (di : DigitalInput) (level : Bool) : DigitalInput :=
  if level then
    if di.integrator < di.integratorThreshold then
      let di := { di with integrator := di.integrator + 1 }
      if di.integrator = di.integratorThreshold then { di with input := .on } else di
    else di
  else
    if di.integrator ≠ 0 then
      let di := { di with integrator := di.integrator - 1 }
      if di.integrator = 0 then { di with input := .off } else di
    else di

/-- `digital_input_value`: the settled state, on or not. -/
def digitalInputValue (di : DigitalInput) : Bool := decide (di.input = .on)

/-- The loop of `_digital_input_sample` at given levels of the pins: the
inputs after it, and the notifications it makes. -/
def digitalInputSample (level : ℕ → Bool) : List DigitalInput → List DigitalInput × List (ℕ × ℕ)
  | [] => ([], [])
  | di :: rest =>
    let di' := digitalInputIntegrate di (level di.pin)
    let rest' := digitalInputSample level rest
    (di' :: rest'.1,
      if di'.input ≠ di.input ∧ di.handler ≠ reactorNullHandle then
        (di.handler, pinAndValueAsArg di.pin (digitalInputValue di')) :: rest'.2
      else rest'.2)

variable {di : DigitalInput} {dis : List DigitalInput} {level : ℕ → Bool}

/-- Integrating changes the integrator and the settled state only. -/
@[simp] theorem digitalInputIntegrate_pin (l : Bool) :
    (digitalInputIntegrate di l).pin = di.pin := by
  unfold digitalInputIntegrate
  dsimp only
  split_ifs <;> rfl

@[simp] theorem digitalInputIntegrate_handler (l : Bool) :
    (digitalInputIntegrate di l).handler = di.handler := by
  unfold digitalInputIntegrate
  dsimp only
  split_ifs <;> rfl

theorem digitalInputSample_fst :
    (digitalInputSample level dis).1 = dis.map fun di => digitalInputIntegrate di (level di.pin) := by
  induction dis with
  | nil => rfl
  | cons di dis ih => rw [digitalInputSample, List.map_cons, ← ih]

/-- What a sampling pass notifies of one input, if anything. -/
def sampleNotice (level : ℕ → Bool) (di : DigitalInput) : Option (ℕ × ℕ) :=
  if (digitalInputIntegrate di (level di.pin)).input ≠ di.input ∧ di.handler ≠ reactorNullHandle then
    some (di.handler, pinAndValueAsArg di.pin
      (digitalInputValue (digitalInputIntegrate di (level di.pin))))
  else none

/-- **A pass notifies the inputs that changed**, in their order. -/
theorem digitalInputSample_snd :
    (digitalInputSample level dis).2 = dis.filterMap (sampleNotice level) := by
  induction dis with
  | nil => rfl
  | cons di dis ih =>
    rw [digitalInputSample, List.filterMap_cons, sampleNotice, ← ih]
    dsimp only
    split_ifs <;> rfl

/-- **The value with which an input settles** in a pass, if it does: its
integrator gets to an end of its range, and it was not settled there. -/
def settling (level : Bool) (di : DigitalInput) : Option Bool :=
  if level then
    if di.integrator + 1 = di.integratorThreshold ∧ di.input ≠ .on then some true else none
  else if di.integrator = 1 ∧ di.input ≠ .off then some false else none

/-- An input that does not settle keeps its state. -/
theorem digitalInputIntegrate_settling (di : DigitalInput) (l : Bool) :
    ((digitalInputIntegrate di l).input ≠ di.input ↔ (settling l di).isSome = true) ∧
      ∀ v, settling l di = some v → digitalInputValue (digitalInputIntegrate di l) = v := by
  unfold digitalInputIntegrate settling digitalInputValue
  dsimp only
  cases l with
  | true =>
    simp only [if_true]
    by_cases hend : di.integrator + 1 = di.integratorThreshold
    · rw [if_pos (show di.integrator < di.integratorThreshold by omega), if_pos hend]
      by_cases hon : di.input = .on
      · simp [hend, hon]
      · simp [hend, hon, Ne.symm hon]
    · rw [if_neg (show ¬ (di.integrator + 1 = di.integratorThreshold ∧ di.input ≠ .on) from
        fun h => hend h.1), if_neg hend]
      split <;> simp
  | false =>
    simp only [Bool.false_eq_true, if_false]
    by_cases hend : di.integrator = 1
    · by_cases hoff : di.input = .off
      · simp [hend, hoff]
      · simp [hend, hoff, Ne.symm hoff]
    · rw [if_neg (show ¬ (di.integrator = 1 ∧ di.input ≠ .off) from fun h => hend h.1)]
      split
      · rw [if_neg (show di.integrator - 1 ≠ 0 by omega)]; simp
      · simp

/-- Inputs with no handler notify nothing. -/
theorem digitalInputSample_quiet (level : ℕ → Bool) (h : ∀ di ∈ dis, di.handler = reactorNullHandle) :
    (digitalInputSample level dis).2 = [] := by
  rw [digitalInputSample_snd, List.filterMap_eq_nil_iff]
  intro di hdi
  rw [sampleNotice, if_neg]
  rintro ⟨-, hne⟩
  exact hne (h di hdi)

end Asx

end CncPneumatics
