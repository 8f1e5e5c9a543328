import CncPneumatics.Hub.Clock
import CncPneumatics.Hub.Exclusivity
/-!
# The traffic of the hub

What a message and a check do to the running hub: the cases of their
handlers, the agreement of the pins with the current command over a run,
and what the message counter says of the last valid message.
-/

namespace CncPneumatics

open Asx

namespace Hub

variable {fuel : ℕ} {s s' : State} {hist : List (State × Event)} {p : State × Event} {e : Event}

/-! ## Cases -/

/-- `_protocol_process` clears the flag. -/
theorem protocolProcess_not_ready {cmd : Opcode} (h : protocolProcess s cmd = .ok s') :
    s'.readyToAcceptNewCommand = false := by
  unfold protocolProcess at h
  dsimp only at h
  split at h
  · obtain rfl := Except.ok.inj h
    split <;> rfl
  · cases h

/-- And leaves the message counter alone. -/
theorem protocolProcess_counter {cmd : Opcode} (h : protocolProcess s cmd = .ok s') :
    s'.messageReceivedCounter = s.messageReceivedCounter := by
  unfold protocolProcess at h
  dsimp only at h
  split at h
  · obtain rfl := Except.ok.inj h
    split <;> rfl
  · cases h

/-- And the queues. -/
theorem protocolProcess_mail {cmd : Opcode} (h : protocolProcess s cmd = .ok s') :
    s'.mail = s.mail := by
  unfold protocolProcess at h
  dsimp only at h
  split at h
  · obtain rfl := Except.ok.inj h
    split <;> rfl
  · cases h

/-- And the command. -/
theorem protocolProcess_currentCmd {cmd : Opcode} (h : protocolProcess s cmd = .ok s') :
    s'.currentCmd = s.currentCmd := by
  have := (protocolProcess_frame s cmd).2
  rwa [h] at this

/-- A check that returns did nothing but reset the counter, or found it
zero. -/
theorem onCheckComms_cases (h : onCheckComms s = .ok s') :
    (s.messageReceivedCounter ≠ 0 ∧ s' = { s with messageReceivedCounter := 0 }) ∨
      (s.messageReceivedCounter = 0 ∧ ∃ s₁, protocolProcess s opcodesCmdIdle = .ok s₁ ∧
        s' = { s₁ with currentCmd := opcodesCmdIdle, messageReceivedCounter := 0 }) := by
  unfold onCheckComms at h
  by_cases hz : s.messageReceivedCounter = 0
  · refine .inr ⟨hz, ?_⟩
    simp only [if_pos hz] at h
    cases hp : protocolProcess s opcodesCmdIdle with
    | error s₁ => rw [hp] at h; cases h
    | ok s₁ =>
      rw [hp] at h
      exact ⟨s₁, rfl, (Except.ok.inj h).symm⟩
  · simp only [if_neg hz] at h
    exact .inl ⟨hz, (Except.ok.inj h).symm⟩

/-- A message is counted and processed, only counted, or not valid. -/
theorem protocolHandleTraffic_cases {arg : ℕ} (h : protocolHandleTraffic s arg = .ok s') :
    (isValid (UInt8.ofNat arg) = true ∧ s.currentCmd ≠ UInt8.ofNat arg ∧
        s.readyToAcceptNewCommand = true ∧
        protocolProcess { s with
          messageReceivedCounter := (s.messageReceivedCounter + 1) % 2 ^ 16
          currentCmd := UInt8.ofNat arg } (UInt8.ofNat arg) = .ok s') ∨
      (isValid (UInt8.ofNat arg) = true ∧
        (s.currentCmd = UInt8.ofNat arg ∨ s.readyToAcceptNewCommand = false) ∧
        s' = { s with messageReceivedCounter := (s.messageReceivedCounter + 1) % 2 ^ 16 }) ∨
      (isValid (UInt8.ofNat arg) = false ∧ s' = s) := by
  unfold protocolHandleTraffic at h
  dsimp only at h
  by_cases hvalid : opcodesCheckCmdValid (UInt8.ofNat arg) ≠ opcodesCmdError
  · have hv : isValid (UInt8.ofNat arg) = true := by simpa [isValid] using hvalid
    rw [if_pos hvalid] at h
    by_cases hnew : s.currentCmd ≠ UInt8.ofNat arg ∧ s.readyToAcceptNewCommand = true
    · rw [if_pos hnew] at h
      exact .inl ⟨hv, hnew.1, hnew.2, h⟩
    · rw [if_neg hnew] at h
      refine .inr (.inl ⟨hv, ?_, (Except.ok.inj h).symm⟩)
      by_cases hcmd : s.currentCmd = UInt8.ofNat arg
      · exact .inl hcmd
      · exact .inr (by simpa [hcmd] using hnew)
  · have hv : isValid (UInt8.ofNat arg) = false := by simpa [isValid] using hvalid
    rw [if_neg hvalid] at h
    exact .inr (.inr ⟨hv, (Except.ok.inj h).symm⟩)

/-- A new command is taken when the hub is ready. -/
theorem protocolHandleTraffic_takes {cmd : Opcode} (hready : s.readyToAcceptNewCommand = true)
    (hvalid : isValid cmd = true) (hnew : s.currentCmd ≠ cmd)
    (h : protocolHandleTraffic s cmd.toNat = .ok s') : s'.currentCmd = cmd := by
  have hcases := protocolHandleTraffic_cases h
  rw [UInt8.ofNat_toNat] at hcases
  rcases hcases with ⟨-, -, -, hproc⟩ | ⟨-, hkept, -⟩ | ⟨hnot, -⟩
  · exact protocolProcess_currentCmd hproc
  · rcases hkept with hsame | hnotReady
    · exact absurd hsame hnew
    · rw [hready] at hnotReady
      cases hnotReady
  · rw [hvalid] at hnot
    cases hnot

/-! ## Agreement -/

/-- The handlers keep the pins in agreement with the command, and nothing
else touches either. -/
theorem agree_of_run (hr : Run (step fuel) start hist s) : Agree s := by
  refine hr.invariant (I := Agree) start_agree ?_
  intro s e s' h hstep
  cases steps_of_step hstep with
  | tick _ => exact ⟨h.shows, h.always⟩
  | receive => exact ⟨h.shows, h.always⟩
  | timer _ _ => exact ⟨h.shows, h.always⟩
  | sample _ => exact ⟨h.shows, h.always⟩
  | accept _ => exact ⟨h.shows, h.always⟩
  | check hcol hs' =>
    rename_i mail pressure
    have hmail : Agree { s with mail := mail } := ⟨h.shows, h.always⟩
    exact (onCheckComms_settles hmail).2 s' hs'
  | traffic hcol hs' =>
    rename_i arg mail pressure
    have hmail : Agree { s with mail := mail } := ⟨h.shows, h.always⟩
    exact (protocolHandleTraffic_settles hmail arg).2 s' hs'

/-! ## The counter and the last message -/

/-- The step handled a valid message. -/
def isMessage (p : State × Event) : Bool := (handled p).any isValid

/-- When a valid message was last handled. -/
def messagedAt (hist : List (State × Event)) : Option ℕ := (lastWhere isMessage hist).map timeOf

theorem messagedAt_concat : messagedAt (hist ++ [p]) =
    if isMessage p then some (timeOf p) else messagedAt hist := by
  rw [messagedAt, lastWhere_concat]
  cases isMessage p <;> rfl

/-- The times that a history remembers are not in the future. -/
theorem remembered_le (hr : Run (step fuel) start hist s) (hb : Bounded hist)
    {P : State × Event → Bool} {t : ℕ} (ht : (lastWhere P hist).map timeOf = some t) :
    t ≤ s.timer.counter := by
  obtain ⟨p, hp, rfl⟩ := Option.map_eq_some_iff.mp ht
  exact timeOf_le hr hb (lastWhere_eq_some hp).1

/-- **The counter tells whether a valid message came after the last
check.** -/
structure Heard (hist : List (State × Event)) (s : State) : Prop where
  silent : s.messageReceivedCounter = 0 → ∀ m, messagedAt hist = some m →
    ∃ l, checkedAt hist = some l ∧ m ≤ l
  heard : s.messageReceivedCounter ≠ 0 → ∃ m, messagedAt hist = some m ∧
    ∀ l, checkedAt hist = some l → l ≤ m

/-- A step that neither handles a message nor checks. -/
theorem Heard.keep (h : Heard hist s) (h₁ : isMessage p = false)
    (h₂ : runs reactCheckComms p = false)
    (hcounter : s'.messageReceivedCounter = s.messageReceivedCounter) :
    Heard (hist ++ [p]) s' := by
  have hm : messagedAt (hist ++ [p]) = messagedAt hist := by rw [messagedAt_concat, h₁]; rfl
  have hc : checkedAt (hist ++ [p]) = checkedAt hist := by rw [checkedAt_concat, h₂]; rfl
  constructor
  · rw [hcounter, hm, hc]; exact h.silent
  · rw [hcounter, hm, hc]; exact h.heard

/-- The counter does not wrap between two checks. -/
theorem counter_succ (hr : Run (step fuel) start hist s) (hb : Bounded (hist ++ [p]))
    (hc : runs reactCheckComms p = false) (hp : (handled p).isSome) :
    (s.messageReceivedCounter + 1) % 2 ^ 16 = s.messageReceivedCounter + 1 := by
  obtain ⟨_, _, _, h⟩ := inv_of_run hr hb.of_concat
  have h1 := h.counter_le
  have h2 := hb.messages_lt _ (List.prefix_refl _)
  rw [messagesSince, countSince_concat, hc, hp] at h2
  simp only [Bool.false_eq_true, if_false, if_true] at h2
  exact Nat.mod_eq_of_lt (by rw [messagesSince] at h1; omega)

theorem heard_of_run (hr : Run (step fuel) start hist s) (hb : Bounded hist) : Heard hist s := by
  refine hr.invariant_history (I := fun hist s => Bounded hist → Heard hist s) ?_ ?_ hb
  · intro _
    exact ⟨fun _ m hm => (by cases hm), fun hne => absurd (by decide +kernel) hne⟩
  · intro hist s e s' hrun ih hstep hb
    have h := ih hb.of_concat
    cases steps_of_step hstep with
    | tick _ => exact h.keep rfl rfl rfl
    | receive => exact h.keep rfl rfl rfl
    | timer _ _ => exact h.keep rfl rfl rfl
    | sample _ => exact h.keep rfl rfl rfl
    | accept _ => exact h.keep rfl rfl rfl
    | check hcol hs' =>
      rename_i mail pressure
      have hc : checkedAt (hist ++ [(s, .run reactCheckComms pressure)]) =
          some s.timer.counter := by rw [checkedAt_concat]; rfl
      have hm : messagedAt (hist ++ [(s, .run reactCheckComms pressure)]) = messagedAt hist := by
        rw [messagedAt_concat]; rfl
      have hz : s'.messageReceivedCounter = 0 := by
        rcases onCheckComms_cases hs' with ⟨-, rfl⟩ | ⟨-, _, -, rfl⟩ <;> rfl
      refine ⟨fun _ m hm' => ⟨_, hc, ?_⟩, fun hne => absurd hz hne⟩
      rw [hm] at hm'
      exact remembered_le hrun hb.of_concat hm'
    | traffic hcol hs' =>
      rename_i arg mail pressure
      have hhandled := handled_of_collect pressure hcol
      have hsucc := counter_succ hrun hb rfl (by rw [hhandled]; rfl)
      have hc : checkedAt (hist ++ [(s, .run reactI2cHandler pressure)]) = checkedAt hist := by
        rw [checkedAt_concat]; rfl
      have hisMessage : isMessage (s, .run reactI2cHandler pressure) =
          isValid (UInt8.ofNat arg) := by
        rw [isMessage, hhandled]; rfl
      have hm : messagedAt (hist ++ [(s, .run reactI2cHandler pressure)]) = _ := messagedAt_concat
      rw [hisMessage] at hm
      -- a valid message is counted, whether or not it is processed
      have hvalid (hv : isValid (UInt8.ofNat arg) = true)
          (hne : s'.messageReceivedCounter = s.messageReceivedCounter + 1) :
          Heard (hist ++ [(s, .run reactI2cHandler pressure)]) s' := by
        rw [hv, if_pos rfl] at hm
        refine ⟨fun hz => by omega, fun _ => ⟨_, hm, fun l hl => ?_⟩⟩
        rw [hc] at hl
        exact remembered_le hrun hb.of_concat hl
      rcases protocolHandleTraffic_cases hs' with ⟨hv, -, -, hproc⟩ | ⟨hv, -, rfl⟩ | ⟨hv, rfl⟩
      · exact hvalid hv ((protocolProcess_counter hproc).trans hsucc)
      · exact hvalid hv hsucc
      · exact h.keep (hisMessage.trans hv) rfl rfl

/-- The first milliseconds after a command that was processed at the
start, without traffic. -/
def quietAfterCommand (n : ℕ) : List Event :=
  (List.range n).flatMap fun k => [.tick, .run reactTimer false] ++
    (if k = 0 ∨ (k + 1) % digitalInputSamplePeriod = 0 then [.run reactSample false] else []) ++
    if k + 1 = noNewCommandGracePeriod then [.run reactAcceptComms false] else []

end Hub

end CncPneumatics
