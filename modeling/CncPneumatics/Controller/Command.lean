import CncPneumatics.Common.Run
import CncPneumatics.Controller.Parts
/-!
# The current command

The command sent to the hub is that of the first output that is on. Of the
two entries that stand for the door, each is on exactly while the door
moves its way, whatever the order in which inputs, door events, commands
and timeouts come.
-/

namespace CncPneumatics

open Asx

namespace Controller

variable {s s' s'' : State} {fuel handle arg pin : ℕ} {value : Bool} {f : ℕ → Bool}

/-! ## The table -/

/-- The table with each state given by a function of the pin. -/
def tableWith (f : ℕ → Bool) : List OutputStatus :=
  outputStatusesInit.map fun o => { o with state := f o.pin }

/-- The pins of the table. -/
def tablePins : List ℕ :=
  [inChuckOpen, inSpindleAirBlast, inToolsetAirBlast, inDoorUp, inDoorDown]

/-- The state of the entry for a pin, off where there is none. -/
def statusOf (s : State) (pin : ℕ) : Bool :=
  match s.outputStatuses.find? fun o => o.pin = pin with
  | some o => o.state
  | none => false

theorem setStatus_tableWith (hpin : pin ∈ tablePins) :
    setStatus pin value (tableWith f) = tableWith (Function.update f pin value) := by
  simp only [tablePins, List.mem_cons, List.not_mem_nil, or_false] at hpin
  rcases hpin with rfl | rfl | rfl | rfl | rfl <;>
    simp [tableWith, outputStatusesInit, setStatus, Function.update_apply, inChuckOpen,
      inSpindleAirBlast, inToolsetAirBlast, inDoorUp, inDoorDown, ioportCreatePin]

theorem statusOf_tableWith (h : s.outputStatuses = tableWith f) (hpin : pin ∈ tablePins) :
    statusOf s pin = f pin := by
  unfold statusOf
  rw [h]
  simp only [tablePins, List.mem_cons, List.not_mem_nil, or_false] at hpin
  rcases hpin with rfl | rfl | rfl | rfl | rfl <;>
    simp [tableWith, outputStatusesInit, inChuckOpen, inSpindleAirBlast, inToolsetAirBlast,
      inDoorUp, inDoorDown, ioportCreatePin]

/-- A pin that is not in the table. -/
theorem setStatus_of_not_any {l : List OutputStatus}
    (h : ¬ (l.any fun o => o.pin = pin) = true) : setStatus pin value l = l := by
  induction l with
  | nil => rfl
  | cons o l ih =>
    simp only [List.any_cons, Bool.or_eq_true, decide_eq_true_eq, not_or] at h
    rw [setStatus, if_neg h.1, ih h.2]

/-! ## Who writes to it -/

/-- The table, the command and the door are as they were. -/
structure SameTable (s s' : State) : Prop where
  outputStatuses : s'.outputStatuses = s.outputStatuses
  currentCommand : s'.currentCommand = s.currentCommand
  doorSm : s'.doorSm = s.doorSm

theorem SameTable.refl (s : State) : SameTable s s := ⟨rfl, rfl, rfl⟩

theorem SameTable.trans (h : SameTable s s') (h' : SameTable s' s'') : SameTable s s'' :=
  ⟨h'.1.trans h.1, h'.2.trans h.2, h'.3.trans h.3⟩

theorem onOutput_table (s : State) (handle : ℕ) (g : OutputState → Except OutputState OutputState) :
    SameTable s (resultState (onOutput s handle g)) := by
  rw [onOutput, resultState_within]
  exact ⟨rfl, rfl, rfl⟩

theorem armTimer_table (s : State) (reactor delay : ℕ) (store : State → ℕ → State)
    (hstore : ∀ s inst, SameTable s (store s inst)) :
    SameTable s (resultState (armTimer s reactor delay store)) := by
  unfold armTimer
  split
  · next inst timer _ =>
    have h : SameTable s { s with timer := timer } := ⟨rfl, rfl, rfl⟩
    exact h.trans (hstore _ inst)
  · exact .refl s

theorem valveArmTimer_table (s : State) (delay : ℕ) :
    SameTable s (resultState (valveArmTimer s delay)) :=
  armTimer_table s _ _ _ fun _ _ => ⟨rfl, rfl, rfl⟩

theorem triggerNextTransmit_table (s : State) :
    SameTable s (resultState (triggerNextTransmit s)) := by
  unfold triggerNextTransmit
  dsimp only
  refine .trans ?_ (armTimer_table _ _ _ _ fun _ _ => ⟨rfl, rfl, rfl⟩)
  split
  · exact ⟨rfl, rfl, rfl⟩
  · exact .refl s

/-- One case a part. -/
theorem Part.table (p : Part) (hcommand : p.concern ≠ .command) (hdoor : p.concern ≠ .door)
    (s : State) : SameTable s (resultState (p.run s)) := by
  have hframe := p.frame (List.mem_singleton_self p.concern) s
  refine ⟨?_, hframe.currentCommand (by simpa using hcommand.symm),
    hframe.doorSm (by simpa using hdoor.symm)⟩
  cases p with
  | outputSet | outputStart | outputNext =>
    simp only [Part.run, Controller.outputSet, Controller.outputStart]
    exact (onOutput_table s _ _).outputStatuses
  | startTone | stopTone | play | nextNote => rw [Part.run, onSound, resultState_within]
  | armTransmit delay =>
    have h : SameTable s (resultState (armTimer s reactI2cCommand delay
        fun s inst => { s with transmitTimer := inst })) := armTimer_table _ _ _ _ fun _ _ => ⟨rfl, rfl, rfl⟩
    exact h.outputStatuses
  | armValve delay => exact (valveArmTimer_table s delay).outputStatuses
  | trigger => exact (triggerNextTransmit_table s).outputStatuses
  | setStatuses | setCommand => exact absurd rfl hcommand
  | cancelValve | setDoor | setDoorPin | setErrors | stop | endGrace => rfl
  | send =>
    rw [Part.run, resultState_ok, i2cMasterSend]
    dsimp only
    split <;> rfl

theorem Made.table {cs : List Concern} {n : ℕ} {r : Except State State} (h : Made cs n s r)
    (hcommand : .command ∉ cs) (hdoor : .door ∉ cs) : SameTable s (resultState r) :=
  h.relates SameTable.refl (fun _ _ _ => SameTable.trans) fun p s hp =>
    p.table (fun heq => hcommand (heq ▸ hp)) (fun heq => hdoor (heq ▸ hp)) s

/-- **The handlers that are not about the outputs and the door** leave
them alone. -/
theorem handler_table (hne : handle ∉ [reactInputChange, reactDoorSensor, reactDoorCmd,
      reactCmdTimeout]) {around : Surroundings} {r : Except State State}
    (h : Handles fuel s arg around handle r) : SameTable s (resultState r) := by
  have hconcerns : .command ∉ concerns handle ∧ .door ∉ concerns handle := by
    cases h with
    | inputChange | doorSensor | doorCmd | cmdTimeout => exact absurd (by decide) hne
    | _ => decide
  by_cases hown : handle ∈ [reactTimer, reactSample]
  · cases h with
    | timer _ | sample => exact ⟨rfl, rfl, rfl⟩
    | _ => exact absurd hown (by decide)
  · exact (handles_made h hown).table hconcerns.1 hconcerns.2

/-! ## What the inputs and the door write -/

/-- The state that a handler returned is the state it left. -/
theorem SameTable.of_ok {r : Except State State} (h : SameTable s (resultState r))
    (hr : r = .ok s') : SameTable s s' := by rwa [hr] at h

/-- `refresh_opcode` makes the command that of the first output. -/
theorem refreshOpcode_ok (h : refreshOpcode s = .ok s') :
    s'.outputStatuses = s.outputStatuses ∧ s'.currentCommand = firstOpcode s'.outputStatuses ∧
      s'.doorSm = s.doorSm := by
  unfold refreshOpcode at h
  dsimp only at h
  split at h
  · have ht := (triggerNextTransmit_table { s with
      currentCommand := firstOpcode s.outputStatuses }).of_ok h
    exact ⟨ht.outputStatuses, by rw [ht.currentCommand, ht.outputStatuses], ht.doorSm⟩
  · next hsame =>
    obtain rfl := Except.ok.inj h
    exact ⟨rfl, not_not.mp hsame, rfl⟩

/-- The table after a handler, whose command goes with the table if it did
before. -/
structure Writes (s s' : State) (l : List OutputStatus) : Prop where
  outputStatuses : s'.outputStatuses = l
  currentCommand : s.currentCommand = firstOpcode s.outputStatuses →
    s'.currentCommand = firstOpcode s'.outputStatuses
  doorSm : s'.doorSm = s.doorSm

theorem Writes.trans_same {l : List OutputStatus} (h : Writes s s' l) (h' : SameTable s' s'') :
    Writes s s'' l where
  outputStatuses := h'.outputStatuses.trans h.outputStatuses
  currentCommand := fun hc => by
    rw [h'.currentCommand, h'.outputStatuses]; exact h.currentCommand hc
  doorSm := h'.doorSm.trans h.doorSm

theorem SameTable.writes (h : SameTable s s') : Writes s s' s.outputStatuses where
  outputStatuses := h.outputStatuses
  currentCommand := fun hc => by rw [h.currentCommand, h.outputStatuses]; exact hc
  doorSm := h.doorSm

/-- **A change of an input** writes its entry. -/
theorem onInputChange_ok (h : onInputChange s arg = .ok s') :
    Writes s s' (setStatus (argPin arg) (argValue arg) s.outputStatuses) := by
  unfold onInputChange at h
  obtain ⟨s₁, h₁, h₂⟩ := bind_eq_ok.mp h
  have hlast : SameTable s₁ s' := by
    split at h₂
    · exact (onOutput_table _ _ _).of_ok h₂
    · exact Except.ok.inj h₂ ▸ .refl s₁
  refine Writes.trans_same ?_ hlast
  split at h₁
  · obtain ⟨ht, hc, hd⟩ := refreshOpcode_ok h₁
    exact ⟨ht, fun _ => hc, hd⟩
  · next hany =>
    obtain rfl := Except.ok.inj h₁
    rw [setStatus_of_not_any hany]
    exact (SameTable.refl s).writes

/-- What the actions of the door write. -/
def doorWrites : DoorAction → List OutputStatus → List OutputStatus
  | .pushOn => setStatus inDoorUp true
  | .pushOff | .pushTimeout => setStatus inDoorUp false
  | .pullOn => setStatus inDoorDown true
  | .pullOff | .pullTimeout => setStatus inDoorDown false
  | .none | .doorMoving => id

theorem moveOn_ok {led : ℕ} (hpin : pin < 256) (h : moveOn s pin led = .ok s') :
    Writes s s' (setStatus pin true s.outputStatuses) := by
  obtain ⟨s₁, h₁, h⟩ := bind_eq_ok.mp h
  obtain ⟨s₂, h₂, h₃⟩ := bind_eq_ok.mp h
  have hw := onInputChange_ok h₁
  rw [argPin_pinAndValueAsArg hpin, argValue_pinAndValueAsArg hpin] at hw
  exact (hw.trans_same ((onOutput_table _ _ _).of_ok h₂)).trans_same
    ((valveArmTimer_table s₂ _).of_ok h₃)

theorem moveOff_ok {led : ℕ} (hpin : pin < 256) (h : moveOff s pin led = .ok s') :
    Writes s s' (setStatus pin false s.outputStatuses) := by
  obtain ⟨s₁, h₁, h⟩ := bind_eq_ok.mp h
  obtain ⟨s₂, h₂, rfl⟩ := map_eq_ok.mp h
  have hw := onInputChange_ok h₁
  rw [argPin_pinAndValueAsArg hpin, argValue_pinAndValueAsArg hpin] at hw
  exact (hw.trans_same ((onOutput_table _ _ _).of_ok h₂)).trans_same ⟨rfl, rfl, rfl⟩

theorem moveTimeout_ok {led : ℕ} (hpin : pin < 256) (h : moveTimeout s pin led = .ok s') :
    Writes s s' (setStatus pin false s.outputStatuses) := by
  obtain ⟨s₁, h₁, h₂⟩ := bind_eq_ok.mp h
  have hw := onInputChange_ok h₁
  rw [argPin_pinAndValueAsArg hpin, argValue_pinAndValueAsArg hpin] at hw
  exact hw.trans_same ((onOutput_table _ _ _).of_ok h₂)

/-- **The actions of the door**, one case each. -/
theorem doorAct_ok {action : DoorAction} (h : doorAct s action = .ok s') :
    Writes s s' (doorWrites action s.outputStatuses) := by
  cases action with
  | none => exact Except.ok.inj h ▸ (SameTable.refl s).writes
  | pushOn => exact moveOn_ok (by decide) h
  | pushOff => exact moveOff_ok (by decide) h
  | pushTimeout => exact moveTimeout_ok (by decide) h
  | pullOn => exact moveOn_ok (by decide) h
  | pullOff => exact moveOff_ok (by decide) h
  | pullTimeout => exact moveTimeout_ok (by decide) h
  | doorMoving =>
    have hcancel : SameTable s (valveCancelTimer s) := ⟨rfl, rfl, rfl⟩
    exact (hcancel.trans ((valveArmTimer_table _ _).of_ok h)).writes

/-! ## The invariant -/

/-- **The table goes with the door and the command with the table.** -/
structure Commanded (s : State) : Prop where
  table : ∃ f, s.outputStatuses = tableWith f ∧
    (f inDoorUp = true ↔ s.doorSm = .opening) ∧ (f inDoorDown = true ↔ s.doorSm = .closing)
  command : s.currentCommand = firstOpcode s.outputStatuses

theorem Commanded.same (h : Commanded s) (hs : SameTable s s') : Commanded s' where
  table := by rw [hs.outputStatuses, hs.doorSm]; exact h.table
  command := by rw [hs.currentCommand, hs.outputStatuses]; exact h.command

/-- The inputs that are not fake. -/
def realInputs : List ℕ := [inChuckOpen, inSpindleAirBlast, inToolsetAirBlast]

/-- A change of a real input. -/
theorem Commanded.input (h : Commanded s) (hpin : pin ∈ realInputs) (hp : argPin arg = pin)
    (hs : onInputChange s arg = .ok s') : Commanded s' := by
  obtain ⟨f, hf, hup, hdown⟩ := h.table
  have hw := onInputChange_ok hs
  have hmem : pin ∈ tablePins := by
    revert hpin; simp only [realInputs, tablePins, List.mem_cons]; tauto
  refine ⟨⟨Function.update f pin (argValue arg), ?_, ?_, ?_⟩, hw.currentCommand h.command⟩
  · rw [hw.outputStatuses, hf, hp, setStatus_tableWith hmem]
  · rw [hw.doorSm, Function.update_of_ne]
    · exact hup
    · rintro rfl; exact absurd hpin (by decide)
  · rw [hw.doorSm, Function.update_of_ne]
    · exact hdown
    · rintro rfl; exact absurd hpin (by decide)

/-- **Every row of the transition table** leaves the entries of the door
as its target state wants them. -/
theorem doorTransition_table {d next : DoorState} {event : DoorEvent} {action : DoorAction}
    (hrow : doorTransition d event = some (action, next))
    (hup : f inDoorUp = true ↔ d = .opening) (hdown : f inDoorDown = true ↔ d = .closing) :
    ∃ g, doorWrites action (tableWith f) = tableWith g ∧ (g inDoorUp = true ↔ next = .opening) ∧
      (g inDoorDown = true ↔ next = .closing) := by
  have hne : inDoorUp ≠ inDoorDown := by decide
  have writeUp (b : Bool) (h : b = true ↔ next = .opening) (hd : d = .closing ↔ next = .closing) :
      ∃ g, setStatus inDoorUp b (tableWith f) = tableWith g ∧
        (g inDoorUp = true ↔ next = .opening) ∧ (g inDoorDown = true ↔ next = .closing) :=
    ⟨Function.update f inDoorUp b, setStatus_tableWith (by decide),
      by rw [Function.update_self]; exact h,
      by rw [Function.update_of_ne hne.symm]; exact hdown.trans hd⟩
  have writeDown (b : Bool) (h : b = true ↔ next = .closing) (hd : d = .opening ↔ next = .opening) :
      ∃ g, setStatus inDoorDown b (tableWith f) = tableWith g ∧
        (g inDoorUp = true ↔ next = .opening) ∧ (g inDoorDown = true ↔ next = .closing) :=
    ⟨Function.update f inDoorDown b, setStatus_tableWith (by decide),
      by rw [Function.update_of_ne hne]; exact hup.trans hd,
      by rw [Function.update_self]; exact h⟩
  have keep (h : d = .opening ↔ next = .opening) (hd : d = .closing ↔ next = .closing) :
      ∃ g, tableWith f = tableWith g ∧ (g inDoorUp = true ↔ next = .opening) ∧
        (g inDoorDown = true ↔ next = .closing) :=
    ⟨f, rfl, hup.trans h, hdown.trans hd⟩
  cases d <;> cases event <;> cases hrow
  · exact keep (by simp) (by simp)
  · exact keep (by simp) (by simp)
  · exact writeUp true (by simp) (by simp)
  · exact writeDown true (by simp) (by simp)
  · exact writeUp false (by simp) (by simp)
  · exact keep (by simp) (by simp)
  · exact writeUp false (by simp) (by simp)
  · exact writeDown false (by simp) (by simp)
  · exact keep (by simp) (by simp)
  · exact writeDown false (by simp) (by simp)

/-- **An event of the door.** -/
theorem Commanded.event (h : Commanded s) {event : DoorEvent}
    (hs : processEvent s event = .ok s') : Commanded s' := by
  obtain ⟨f, hf, hup, hdown⟩ := h.table
  unfold processEvent at hs
  split at hs
  · next action next hrow =>
    obtain ⟨s₁, hact, rfl⟩ := map_eq_ok.mp hs
    have hw := doorAct_ok hact
    refine ⟨?_, hw.currentCommand h.command⟩
    obtain ⟨g, hg, hup', hdown'⟩ := doorTransition_table hrow hup hdown
    exact ⟨g, by rw [← hg, ← hf]; exact hw.outputStatuses, hup', hdown'⟩
  · exact Except.ok.inj hs ▸ h

/-! ## Any order of calls -/

/-- A notification delivered to a handler, or what may happen between two
of them. -/
inductive Call where
  /-- A real input changed. -/
  | input (pin : ℕ) (value : Bool)
  | doorCmd (value : Bool)
  /-- A sensor of the door changed. -/
  | doorSensor (pin : ℕ) (value : Bool)
  | timeout
  | tick
  /-- Another handler is run. -/
  | other (handle arg : ℕ) (around : Surroundings)
deriving DecidableEq

/-- The call of a handler that returns. -/
def callStep (fuel : ℕ) (s : State) : Call → Option State
  | .input pin value =>
    if pin ∈ realInputs then (onInputChange s (pinAndValueAsArg pin value)).toOption else none
  | .doorCmd value => (onDoorCmd s (pinAndValueAsArg inDoorOpenClose value)).toOption
  | .doorSensor pin value => (onDoorSensorChange s (pinAndValueAsArg pin value)).toOption
  | .timeout => (onCmdTimeout s).toOption
  | .tick => some { s with timer := timerTick s.timer }
  | .other handle arg around =>
    if handle ∈ [reactInputChange, reactDoorSensor, reactDoorCmd, reactCmdTimeout] then none
    else (handler fuel s handle arg around).bind Except.toOption

/-- A change of a sensor is an event, but for the pin that it drives. -/
theorem Commanded.sensor (h : Commanded s) (hs : onDoorSensorChange s arg = .ok s') :
    Commanded s' := by
  have hpin : Commanded { s with pins := ioportSetPinLevel s.pins ocDoorClosed (argValue arg) } :=
    h.same ⟨rfl, rfl, rfl⟩
  unfold onDoorSensorChange at hs
  split_ifs at hs
  · exact hpin.event hs
  · exact hpin.event hs
  · exact h.event hs
  · exact h.event hs
  · exact Except.ok.inj hs ▸ h

/-- The step lemma. -/
theorem callStep_commanded (h : Commanded s) {call : Call} (hs : callStep fuel s call = some s') :
    Commanded s' := by
  cases call with
  | input pin value =>
    simp only [callStep] at hs
    split_ifs at hs with hpin
    have hlt : pin < 256 := by
      simp only [realInputs, List.mem_cons, List.not_mem_nil, or_false] at hpin
      rcases hpin with rfl | rfl | rfl <;> decide
    exact h.input hpin (argPin_pinAndValueAsArg hlt value) (toOption_eq_some hs)
  | doorCmd value => exact h.event (toOption_eq_some hs)
  | doorSensor pin value => exact h.sensor (toOption_eq_some hs)
  | timeout => exact h.event (toOption_eq_some hs)
  | tick => exact Option.some.inj hs ▸ h.same ⟨rfl, rfl, rfl⟩
  | other handle arg around =>
    simp only [callStep] at hs
    split_ifs at hs with hmem
    obtain ⟨r, hr, hok⟩ := Option.bind_eq_some_iff.mp hs
    exact h.same ((handler_table hmem (handles_of_handler hr)).of_ok (toOption_eq_some hok))

/-- At the start no output is on, and the door is anywhere. -/
theorem start_commanded : Commanded start where
  table := ⟨fun _ => false, by decide +kernel, by decide +kernel, by decide +kernel⟩
  command := by decide +kernel

/-- The run lemma. -/
theorem commanded_of_run {hist : List (State × Call)} (hr : Run (callStep fuel) start hist s) :
    Commanded s :=
  hr.invariant (I := Commanded) start_commanded fun _ _ _ h hs => callStep_commanded h hs

theorem firstOpcode_cons (o : OutputStatus) (l : List OutputStatus) :
    firstOpcode (o :: l) = if o.state then o.opcode else firstOpcode l := by
  unfold firstOpcode
  rw [List.find?_cons]
  cases o.state <;> rfl

/-- The opcode of the table, by priority. -/
theorem firstOpcode_tableWith : firstOpcode (tableWith f) =
    if f inChuckOpen then opcodesCmdUnclampChuck
    else if f inSpindleAirBlast then opcodesCmdBlastSpindle
    else if f inToolsetAirBlast then opcodesCmdBlastToolsetter
    else if f inDoorUp then opcodesCmdPullDoor
    else if f inDoorDown then opcodesCmdPushDoor else opcodesCmdIdle := by
  simp only [tableWith, outputStatusesInit, List.map_cons, List.map_nil, firstOpcode_cons]
  rfl

/-- The command of a door entry is that of an output that is on, with none
of a higher priority on. -/
theorem door_of_firstOpcode
    (hf : firstOpcode (tableWith f) ∈ [opcodesCmdPullDoor, opcodesCmdPushDoor]) :
    (f inDoorUp = true ∨ f inDoorDown = true) ∧ ∀ pin ∈ realInputs, f pin = false := by
  rw [firstOpcode_tableWith] at hf
  split_ifs at hf with hchuck hspindle htoolset hup hdown
  · exact absurd hf (by decide)
  · exact absurd hf (by decide)
  · exact absurd hf (by decide)
  · exact ⟨.inl hup, by simp [realInputs, hchuck, hspindle, htoolset]⟩
  · exact ⟨.inr hdown, by simp [realInputs, hchuck, hspindle, htoolset]⟩
  · exact absurd hf (by decide)

/-- **The current command.** However inputs change and door events,
commands and timeouts come, after each handler the entry of `IN_DOOR_UP`
is on exactly when the door is opening and that of `IN_DOOR_DOWN` exactly
when it is closing, and the current command is that of the first entry
that is on. So the door is commanded only while it moves and no real input
is on. -/
theorem command_follows_table {hist : List (State × Call)}
    (hr : Run (callStep fuel) start hist s) :
    (statusOf s inDoorUp = true ↔ s.doorSm = .opening) ∧
      (statusOf s inDoorDown = true ↔ s.doorSm = .closing) ∧
      s.currentCommand = firstOpcode s.outputStatuses ∧
      (s.currentCommand ∈ [opcodesCmdPullDoor, opcodesCmdPushDoor] →
        (s.doorSm = .opening ∨ s.doorSm = .closing) ∧
          ∀ pin ∈ realInputs, statusOf s pin = false) := by
  obtain ⟨⟨f, hf, hup, hdown⟩, hc⟩ := commanded_of_run hr
  rw [statusOf_tableWith hf (by decide), statusOf_tableWith hf (by decide)]
  refine ⟨hup, hdown, hc, fun hdoor => ?_⟩
  rw [hc, hf] at hdoor
  obtain ⟨hon, hoff⟩ := door_of_firstOpcode hdoor
  refine ⟨hon.imp hup.mp hdown.mp, fun pin hpin => ?_⟩
  rw [statusOf_tableWith hf]
  · exact hoff pin hpin
  · revert hpin; simp only [realInputs, tablePins, List.mem_cons]; tauto

/-- The door is closed and told to open, and then the chuck is opened. -/
def openThenChuck : List Call :=
  [.doorSensor inDoorDown true, .doorCmd true, .input inChuckOpen true]

theorem command_follows_table_openThenChuck :
    ∃ hist s, Run (callStep 0) start hist s ∧ s.doorSm = .opening ∧
      statusOf s inDoorUp = true ∧ s.currentCommand = opcodesCmdUnclampChuck ∧
      s.currentCommand = firstOpcode s.outputStatuses := by
  have hrun : (runEvents (callStep 0) openThenChuck start).any (fun s =>
      s.doorSm = .opening && s.currentCommand = opcodesCmdUnclampChuck) = true := by decide +kernel
  obtain ⟨s, hes, hs⟩ := (Option.any_eq_true _ _).mp hrun
  rw [Bool.and_eq_true, decide_eq_true_eq, decide_eq_true_eq] at hs
  obtain ⟨hist, hr, -⟩ := exists_run_of_runEvents hes
  obtain ⟨hup, -, hc, -⟩ := command_follows_table hr
  exact ⟨hist, s, hr, hs.1, hup.mpr hs.1, hs.2, hc⟩

end Controller

end CncPneumatics
