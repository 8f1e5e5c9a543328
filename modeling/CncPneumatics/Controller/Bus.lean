import CncPneumatics.Controller.Command
import CncPneumatics.Controller.Handlers
/-!
# The bus of the controller

What the controller does to the two-wire interface by itself: only the
handler of commands starts a transfer, with the current command, and only
the interrupts of the interface notify the handler of replies.
-/

namespace CncPneumatics

open Asx

namespace Controller

variable {s s' s'' : State} {fuel handle arg : ℕ} {around : Surroundings} {e : Event}
  {r : Except State State}

/-- The transfer, and what was sent last, are as they were. -/
structure SameBus (s s' : State) : Prop where
  transfer : s'.transfer = s.transfer
  lastSent : s'.lastSent = s.lastSent

theorem SameBus.refl (s : State) : SameBus s s := ⟨rfl, rfl⟩

theorem SameBus.trans (h : SameBus s s') (h' : SameBus s' s'') : SameBus s s'' :=
  ⟨h'.1.trans h.1, h'.2.trans h.2⟩

theorem armTimer_bus (s : State) (reactor delay : ℕ) (store : State → ℕ → State)
    (hstore : ∀ s inst, SameBus s (store s inst)) :
    SameBus s (resultState (armTimer s reactor delay store)) := by
  rcases resultState_armTimer s reactor delay store with heq | ⟨inst, timer, -, heq⟩
  · rw [heq]; exact .refl s
  · rw [heq]
    have htimer : SameBus s { s with timer := timer } := ⟨rfl, rfl⟩
    exact htimer.trans (hstore _ inst)

/-- One case a part. -/
theorem Part.bus (p : Part) (hbus : p.concern ≠ .bus) (s : State) :
    SameBus s (resultState (p.run s)) := by
  cases p with
  | outputSet | outputStart | outputNext =>
    simp only [Part.run, Controller.outputSet, Controller.outputStart, onOutput, resultState_within]
    exact ⟨rfl, rfl⟩
  | startTone | stopTone | play | nextNote =>
    rw [Part.run, onSound, resultState_within]
    exact ⟨rfl, rfl⟩
  | armTransmit delay =>
    rw [Part.run]
    exact armTimer_bus s _ _ _ fun _ _ => ⟨rfl, rfl⟩
  | armValve delay =>
    rw [Part.run, valveArmTimer]
    exact armTimer_bus s _ _ _ fun _ _ => ⟨rfl, rfl⟩
  | trigger =>
    simp only [Part.run, triggerNextTransmit]
    refine .trans ?_ (armTimer_bus _ _ _ _ fun _ _ => ⟨rfl, rfl⟩)
    split <;> exact ⟨rfl, rfl⟩
  | send => exact absurd rfl hbus
  | _ => exact ⟨rfl, rfl⟩

theorem Made.bus {cs : List Concern} {n : ℕ} (h : Made cs n s r) (hbus : .bus ∉ cs) :
    SameBus s (resultState r) :=
  h.relates SameBus.refl (fun _ _ _ => SameBus.trans) fun p s hp =>
    p.bus (fun heq => hbus (heq ▸ hp)) s

/-- **A transfer starts** between two states: it carries the current
command. -/
structure Sends (s s' : State) : Prop where
  stopTransmit : s.stopTransmit = false
  transfer : s'.transfer = (twiMasterTransfer s.transfer true).2
  lastSent : s'.lastSent = s.currentCommand

theorem i2cMasterSend_bus (s : State) (code : Opcode) :
    (i2cMasterSend s code).transfer = (twiMasterTransfer s.transfer true).2 ∧
      (i2cMasterSend s code).lastSent = code := by
  unfold i2cMasterSend
  dsimp only
  split <;> exact ⟨rfl, rfl⟩

/-- The handler of commands sends, when it is not stopped and the bus is
not busy. -/
theorem onSendI2cCommand_bus (s : State) (busy : Bool) :
    SameBus s (resultState (onSendI2cCommand s busy)) ∧ (busy || s.stopTransmit) = true ∨
      (busy || s.stopTransmit) = false ∧ Sends s (resultState (onSendI2cCommand s busy)) := by
  have harm (s₁ : State) : SameBus s₁ (resultState (armTimer s₁ reactI2cCommand
      i2cDelayBetweenTransmit fun s inst => { s with transmitTimer := inst })) :=
    armTimer_bus s₁ _ _ _ fun _ _ => ⟨rfl, rfl⟩
  unfold onSendI2cCommand
  split
  · next hstop =>
    cases busy with
    | true =>
      have herror := (onI2cError_made s).bus (by decide)
      rw [if_pos rfl]
      exact .inl ⟨resultState_bind (fun _ _ _ => SameBus.trans) herror fun s₁ _ => harm s₁, rfl⟩
    | false =>
      rw [if_neg (by simp), bind_ok]
      obtain ⟨htransfer, hlast⟩ := i2cMasterSend_bus s s.currentCommand
      obtain ⟨h₁, h₂⟩ := harm (i2cMasterSend s s.currentCommand)
      exact .inr ⟨hstop, hstop, h₁.trans htransfer, h₂.trans hlast⟩
  · next hstop => exact .inl ⟨.refl s, by simpa using Or.inr hstop⟩

/-- The event sends a command: it runs the handler of commands, which is
not stopped, on a bus that is not busy. -/
def sendsOn (s : State) : Event → Bool
  | .run handle around => handle = reactI2cCommand && !(around.busy || s.stopTransmit)
  | _ => false

/-- **What the controller does to the bus** by itself. -/
theorem reacts_bus (hr : Reacts fuel s e r) (hown : ∀ st, e ≠ .twi st) :
    SameBus s (resultState r) ∧ sendsOn s e = false ∨
      sendsOn s e = true ∧ Sends s (resultState r) := by
  cases hr with
  | tick => exact .inl ⟨⟨rfl, rfl⟩, rfl⟩
  | twi st _ => exact absurd rfl (hown st)
  | @run handle arg mail around r hcol hhandles =>
    by_cases hbus : handle = reactI2cCommand
    · cases hhandles with
      | i2cCommand =>
        rcases onSendI2cCommand_bus { s with mail := mail } around.busy with
          ⟨hsame, hbusy⟩ | ⟨hbusy, hsends⟩
        · exact .inl ⟨⟨hsame.transfer, hsame.lastSent⟩, by simp [sendsOn, hbusy]⟩
        · exact .inr ⟨by simp [sendsOn, hbusy], hsends.stopTransmit, hsends.transfer, hsends.lastSent⟩
      | _ => exact absurd hbus (by decide)
    · have hnone : sendsOn s (.run handle around) = false := by simp [sendsOn, hbus]
      refine .inl ⟨?_, hnone⟩
      by_cases htimed : handle ∈ [reactTimer, reactSample]
      · cases hhandles with
        | timer _ | sample => exact ⟨rfl, rfl⟩
        | _ => exact absurd htimed (by decide)
      · have hne : Concern.bus ∉ concerns handle := by
          cases hhandles with
          | i2cCommand => exact absurd rfl hbus
          | _ => decide
        have hsame := (handles_made hhandles htimed).bus hne
        exact ⟨hsame.transfer, hsame.lastSent⟩

theorem own_bus (h : step fuel s e = some s') (hown : ∀ st, e ≠ .twi st) :
    SameBus s s' ∧ sendsOn s e = false ∨ sendsOn s e = true ∧ Sends s s' :=
  reacts_bus (reacts_of_step h) hown

/-- **Who posts to the handler of replies**: nothing that the controller
does by itself. -/
theorem reacts_read_waiting (ho : Orderly s) (hr : Reacts fuel s e r) (hown : ∀ st, e ≠ .twi st)
    (hread : ∀ around, e ≠ .run reactI2cRead around) :
    waiting (resultState r).mail reactI2cRead = waiting s.mail reactI2cRead := by
  cases hr with
  | tick =>
    show waiting (deposit queueSize s.mail reactTimer 0) reactI2cRead = _
    rw [waiting_deposit, if_neg (by decide)]
  | twi st _ => exact absurd rfl (hown st)
  | @run handle arg mail around r hcol hhandles =>
    obtain ⟨rest, -, hwait⟩ := collect_eq_some hcol
    have hne : reactI2cRead ≠ handle := fun heq => hread around (by rw [heq])
    have hmail : waiting mail reactI2cRead = waiting s.mail reactI2cRead := by
      rw [hwait, if_neg hne]
    have ho' := (ho.collect hcol).1
    refine Eq.trans ?_ hmail
    by_cases htimed : handle ∈ [reactTimer, reactSample]
    · cases hhandles with
      | timer hd => exact ho'.dispatch_waiting hd (by decide)
      | sample => exact ho'.sample_waiting around.high (by decide)
      | _ => exact absurd htimed (by decide)
    · exact (handles_made hhandles htimed).frame.waiting reactI2cRead (by decide)

theorem own_read_waiting (ho : Orderly s) (h : step fuel s e = some s') (hown : ∀ st, e ≠ .twi st)
    (hread : ∀ around, e ≠ .run reactI2cRead around) :
    waiting s'.mail reactI2cRead = waiting s.mail reactI2cRead :=
  reacts_read_waiting ho (reacts_of_step h) hown hread

/-- And the handler of replies takes one. -/
theorem reacts_read_takes (hr : Reacts fuel s (.run reactI2cRead around) r) :
    ∃ arg, waiting s.mail reactI2cRead = arg :: waiting (resultState r).mail reactI2cRead := by
  cases hr with
  | @run handle arg mail around r hcol hhandles =>
    obtain ⟨rest, hw, hwait⟩ := collect_eq_some hcol
    have hframe := (handles_made hhandles (by decide)).frame.waiting reactI2cRead (by decide)
    refine ⟨arg, ?_⟩
    rw [hframe, hw]
    show arg :: rest = arg :: waiting mail reactI2cRead
    rw [hwait, if_pos rfl]

end Controller

end CncPneumatics
