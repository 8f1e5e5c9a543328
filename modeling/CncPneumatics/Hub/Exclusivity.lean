import CncPneumatics.Common.Outcome
import CncPneumatics.Common.Run
import CncPneumatics.Hub.Protocol
/-!
# One valve at a time

The handlers of the hub, called in any order: when one returns, the valves
are those of the current command, and no write to a pin on the way there
has ever left two of them on.
-/

namespace CncPneumatics

open Asx

namespace Hub

variable {s s' : State} {w w' : PinWrites} {cmd : Opcode} {fuel : ℕ}

/-! ## Patterns -/

/-- The valve that a command turns on. -/
def valveOf (cmd : Opcode) : Option ℕ :=
  if cmd = opcodesCmdPushDoor then some ioportDoorPush
  else if cmd = opcodesCmdPullDoor then some ioportDoorPull
  else if cmd = opcodesCmdBlastToolsetter then some ioportToolSetterAirBlast
  else if cmd = opcodesCmdUnclampChuck then some ioportChuckClamp
  else if cmd = opcodesCmdBlastSpindle then some ioportSpindleClean
  else none

/-- The valves that are on are those of the command. -/
def ShowsPattern (w : PinWrites) (cmd : Opcode) : Prop :=
  ∀ v ∈ valves, pinLevel w v = true ↔ valveOf cmd = some v

/-- At most one valve is on. -/
def Exclusive (w : PinWrites) : Prop :=
  ∀ v ∈ valves, ∀ v' ∈ valves, pinLevel w v = true → pinLevel w v' = true → v = v'

/-- At most one valve is on, and was after every write. -/
def AlwaysExclusive (w : PinWrites) : Prop := ∀ w', w' <:+ w → Exclusive w'

theorem AlwaysExclusive.now (h : AlwaysExclusive w) : Exclusive w := h w (List.suffix_refl w)

/-- Turning a valve off leaves at most one on. -/
theorem AlwaysExclusive.setOff (h : AlwaysExclusive w) (pin : ℕ) :
    AlwaysExclusive (ioportSetPinLevel w pin false) := by
  intro w' hw'
  rcases List.suffix_cons_iff.mp hw' with rfl | hw'
  · intro v hv v' hv' hon hon'
    rw [show ((pin, false) :: w : PinWrites) = ioportSetPinLevel w pin false from rfl,
      pinLevel_set] at hon hon'
    split at hon <;> split at hon' <;> first | cases hon | cases hon' | skip
    exact h.now v hv v' hv' hon hon'
  · exact h w' hw'

/-- Turning one on does when all are off. -/
theorem AlwaysExclusive.setOn (h : AlwaysExclusive w) (hoff : ∀ v ∈ valves, pinLevel w v = false)
    (pin : ℕ) : AlwaysExclusive (ioportSetPinLevel w pin true) := by
  intro w' hw'
  rcases List.suffix_cons_iff.mp hw' with rfl | hw'
  · have hpin : ∀ v ∈ valves, pinLevel (ioportSetPinLevel w pin true) v = true → v = pin := by
      intro v hv hon
      rw [pinLevel_set] at hon
      by_contra hne
      rw [if_neg hne, hoff v hv] at hon
      cases hon
    intro v hv v' hv' hon hon'
    exact (hpin v hv hon).trans (hpin v' hv' hon').symm
  · exact h w' hw'

/-- `valvesOff` turns off every valve. -/
theorem pinLevel_valvesOff (w : PinWrites) : ∀ v ∈ valves, pinLevel (valvesOff w) v = false := by
  intro v hv
  simp only [valves, List.mem_cons, List.not_mem_nil, or_false] at hv
  simp only [valvesOff, pinLevel_set]
  rcases hv with rfl | rfl | rfl | rfl | rfl <;> simp

theorem AlwaysExclusive.valvesOff (h : AlwaysExclusive w) : AlwaysExclusive (Hub.valvesOff w) :=
  ((((h.setOff _).setOff _).setOff _).setOff _).setOff _

/-- The switch turns on the valve of the command, if it has one. -/
theorem valveOn_eq (cmd : Opcode) (w : PinWrites) :
    valveOn cmd w = match valveOf cmd with
      | some v => ioportSetPinLevel w v true
      | none => w := by
  unfold valveOn valveOf
  by_cases hidle : cmd = opcodesCmdIdle
  · subst hidle; rfl
  · rw [if_neg hidle]
    split_ifs <;> rfl

/-- **Processing a command shows its pattern.** -/
theorem showsPattern_process (cmd : Opcode) (w : PinWrites) :
    ShowsPattern (valveOn cmd (valvesOff w)) cmd := by
  intro v hv
  rw [valveOn_eq]
  cases hcmd : valveOf cmd with
  | none => rw [pinLevel_valvesOff w v hv]; simp
  | some v' =>
    rw [pinLevel_set, Option.some.injEq]
    by_cases hvv : v = v'
    · simp [hvv]
    · rw [if_neg hvv, pinLevel_valvesOff w v hv]
      simpa using Ne.symm hvv

/-- **And never turns on two valves on the way.** -/
theorem AlwaysExclusive.process (h : AlwaysExclusive w) (cmd : Opcode) :
    AlwaysExclusive (valveOn cmd (Hub.valvesOff w)) := by
  rw [valveOn_eq]
  cases valveOf cmd with
  | none => exact h.valvesOff
  | some v => exact h.valvesOff.setOn (pinLevel_valvesOff w) v

/-! ## Handlers -/

/-- What `_protocol_process` does to the pins and to the command, whether
or not it returns. -/
theorem protocolProcess_frame (s : State) (cmd : Opcode) :
    (resultState (protocolProcess s cmd)).pins = valveOn cmd (valvesOff s.pins) ∧
      (resultState (protocolProcess s cmd)).currentCmd = s.currentCmd := by
  unfold protocolProcess
  dsimp only
  split_ifs <;> split <;> exact ⟨rfl, rfl⟩

/-- **The pins agree with the current command**, and have never shown two
valves on. -/
structure Agree (s : State) : Prop where
  shows : ShowsPattern s.pins s.currentCmd
  always : AlwaysExclusive s.pins

/-- A handler ends in agreement, and stops with at most one valve on. -/
def Settles (r : Except State State) : Prop :=
  AlwaysExclusive (resultState r).pins ∧ ∀ s, r = .ok s → Agree s

theorem Agree.settles (h : Agree s) : Settles (.ok s) :=
  ⟨h.always, fun _ heq => Except.ok.inj heq ▸ h⟩

/-- Processing the command that is, or is about to be, the current one. -/
theorem protocolProcess_settles (h : AlwaysExclusive s.pins) (cmd : Opcode) :
    AlwaysExclusive (resultState (protocolProcess s cmd)).pins ∧
      ∀ s', protocolProcess s cmd = .ok s' → ShowsPattern s'.pins cmd := by
  obtain ⟨hpins, -⟩ := protocolProcess_frame s cmd
  refine ⟨by rw [hpins]; exact h.process cmd, fun s' hs' => ?_⟩
  rw [hs'] at hpins
  simp only [resultState] at hpins
  rw [hpins]
  exact showsPattern_process cmd s.pins

theorem protocolHandleTraffic_settles (h : Agree s) (arg : ℕ) :
    Settles (protocolHandleTraffic s arg) := by
  unfold protocolHandleTraffic
  dsimp only
  have hcount : Agree { s with
      messageReceivedCounter := (s.messageReceivedCounter + 1) % 2 ^ 16 } := ⟨h.shows, h.always⟩
  by_cases hvalid : opcodesCheckCmdValid (UInt8.ofNat arg) ≠ opcodesCmdError
  · rw [if_pos hvalid]
    by_cases hnew : s.currentCmd ≠ UInt8.ofNat arg ∧ s.readyToAcceptNewCommand
    · rw [if_pos hnew]
      -- the command is stored before the pins are written
      set s₁ : State := { s with
        messageReceivedCounter := (s.messageReceivedCounter + 1) % 2 ^ 16,
        currentCmd := UInt8.ofNat arg } with hs₁
      obtain ⟨halways, hshows⟩ := protocolProcess_settles (s := s₁) h.always (UInt8.ofNat arg)
      have hcmd := (protocolProcess_frame s₁ (UInt8.ofNat arg)).2
      refine ⟨halways, fun s' hs' => ⟨?_, ?_⟩⟩
      · have := hshows s' hs'
        rw [hs'] at hcmd
        simp only [resultState] at hcmd
        rw [hcmd]
        exact this
      · rw [hs'] at halways
        exact halways
    · rw [if_neg hnew]
      exact hcount.settles
  · rw [if_neg hvalid]
    exact h.settles

theorem onCheckComms_settles (h : Agree s) : Settles (onCheckComms s) := by
  unfold onCheckComms
  by_cases hsilent : s.messageReceivedCounter = 0
  · simp only [if_pos hsilent]
    obtain ⟨halways, hshows⟩ := protocolProcess_settles (s := s) h.always opcodesCmdIdle
    -- the command is stored after the pins were written
    cases hp : protocolProcess s opcodesCmdIdle with
    | error s₁ =>
      rw [hp] at halways
      exact ⟨halways, fun s' hs' => by cases hs'⟩
    | ok s₁ =>
      rw [hp] at halways
      refine ⟨halways, fun s' hs' => ?_⟩
      obtain rfl := Except.ok.inj hs'
      exact ⟨hshows s₁ hp, halways⟩
  · simp only [if_neg hsilent]
    exact ⟨h.always, fun s' hs' => by obtain rfl := Except.ok.inj hs'; exact ⟨h.shows, h.always⟩⟩

/-! ## Any order of calls -/

/-- A call of a handler from outside the reactor, or what may happen
between two of them. -/
inductive Call where
  | traffic (arg : ℕ)
  | check
  | accept
  | tick
  | dispatch
deriving DecidableEq

/-- A step of a machine that runs until a handler stops it. -/
def callStep (fuel : ℕ) : Except State State → Call → Option (Except State State)
  | .ok s, .traffic arg => some (protocolHandleTraffic s arg)
  | .ok s, .check => some (onCheckComms s)
  | .ok s, .accept => some (.ok (onAcceptCommandAgain s))
  | .ok s, .tick => some (.ok { s with timer := timerTick s.timer })
  | .ok s, .dispatch => (onTimer fuel s).map .ok
  | .error _, _ => none

/-- The step lemma. -/
theorem callStep_settles (h : Agree s) {call : Call} {r : Except State State}
    (hstep : callStep fuel (.ok s) call = some r) : Settles r := by
  cases call with
  | traffic arg => exact Option.some.inj hstep ▸ protocolHandleTraffic_settles h arg
  | check => exact Option.some.inj hstep ▸ onCheckComms_settles h
  | accept => exact Option.some.inj hstep ▸ Agree.settles ⟨h.shows, h.always⟩
  | tick => exact Option.some.inj hstep ▸ Agree.settles ⟨h.shows, h.always⟩
  | dispatch =>
    simp only [callStep, onTimer, Option.map_map, Option.map_eq_some_iff] at hstep
    obtain ⟨d, -, rfl⟩ := hstep
    exact Agree.settles ⟨h.shows, h.always⟩

/-- The hub starts idle, with all valves off. -/
theorem start_agree : Agree start := by
  have hpins : start.pins = valvesOff [] := by decide +kernel
  have hcmd : start.currentCmd = opcodesCmdIdle := by decide +kernel
  have hnone : AlwaysExclusive [] := fun w' hw' v _ v' _ hon => by
    rw [List.suffix_nil.mp hw', pinLevel_nil] at hon
    cases hon
  exact ⟨by rw [hpins, hcmd]; exact showsPattern_process opcodesCmdIdle [],
    by rw [hpins]; exact hnone.valvesOff⟩

/-- The run lemma. -/
theorem settles_of_run {hist : List (Except State State × Call)} {r : Except State State}
    (hr : Run (callStep fuel) (.ok start) hist r) : Settles r := by
  refine hr.invariant (I := Settles) start_agree.settles ?_
  intro r call r' hr hstep
  cases r with
  | error s => cases hstep
  | ok s => exact callStep_settles (hr.2 s rfl) hstep

/-- **One valve at a time.** However the handlers of the hub are called
after its start, when one of them returns the valves on are exactly that
of the current command; and after every single write to a pin, also in a
handler that stops, at most one valve is on. -/
theorem valves_agree_and_exclude {hist : List (Except State State × Call)}
    {r : Except State State} (hr : Run (callStep fuel) (.ok start) hist r) :
    (∀ s, r = .ok s → ShowsPattern s.pins s.currentCmd) ∧
      ∀ w, w <:+ (resultState r).pins →
        (∀ v ∈ valves, ∀ v' ∈ valves, pinLevel w v = true → pinLevel w v' = true → v = v') ∧
        ¬ (pinLevel w ioportDoorPush = true ∧ pinLevel w ioportDoorPull = true) := by
  obtain ⟨halways, hagree⟩ := settles_of_run hr
  refine ⟨fun s hs => (hagree s hs).shows, fun w hw => ⟨halways w hw, ?_⟩⟩
  rintro ⟨hpush, hpull⟩
  exact absurd (halways w hw _ (by decide) _ (by decide) hpush hpull) (by decide)

/-- After a command to push the door its valve is on. -/
theorem valves_agree_and_exclude_push :
    pinLevel (resultState (protocolHandleTraffic start opcodesCmdPushDoor.toNat)).pins
        ioportDoorPush = true ∧
      ShowsPattern (resultState (protocolHandleTraffic start opcodesCmdPushDoor.toNat)).pins
        opcodesCmdPushDoor := by
  have hrun : Run (callStep 0) (.ok start) [(.ok start, .traffic opcodesCmdPushDoor.toNat)]
      (protocolHandleTraffic start opcodesCmdPushDoor.toNat) := Run.snoc (h := []) .nil rfl
  have hshows := (valves_agree_and_exclude hrun).1
  have hok : (protocolHandleTraffic start opcodesCmdPushDoor.toNat).toBool = true := by
    decide +kernel
  have hcmd : (resultState (protocolHandleTraffic start opcodesCmdPushDoor.toNat)).currentCmd =
      opcodesCmdPushDoor := by decide +kernel
  refine ⟨by decide +kernel, ?_⟩
  cases hr : protocolHandleTraffic start opcodesCmdPushDoor.toNat with
  | error s => rw [hr] at hok; cases hok
  | ok s =>
    rw [hr] at hcmd
    rw [resultState] at hcmd ⊢
    rw [← hcmd]
    exact hshows s hr

end Hub

end CncPneumatics
