import CncPneumatics.Controller.Bus
/-!
# The command in a running controller

What holds of the table of outputs under any order of calls holds in every
state of the running controller: the handler of input changes is only
called for the inputs it is meant for, and no other handler writes to the
table but those of the door.
-/

namespace CncPneumatics

open Asx

namespace Controller

variable {s s' : State} {fuel handle arg : ℕ} {e : Event} {hist : List (State × Event)}

/-- **The table goes with door and inputs**, and those that wait to change
it are real inputs. -/
structure Directed (s : State) : Prop where
  commanded : Commanded s
  inputs : ∀ arg ∈ waiting s.mail reactInputChange, argPin arg ∈ realInputs

/-- A step that neither writes to the table nor posts an input. -/
theorem Directed.same (h : Directed s) (ht : SameTable s s')
    (hw : ∀ arg ∈ waiting s'.mail reactInputChange, arg ∈ waiting s.mail reactInputChange) :
    Directed s' :=
  ⟨h.commanded.same ht, fun arg harg => h.inputs arg (hw arg harg)⟩

/-- The inputs that notify the handler of input changes. -/
theorem realInputs_of_table {pin : ℕ} (h : (pin, reactInputChange) ∈ inputTable) :
    pin ∈ realInputs ∧ pin < 256 := by
  have hall : ∀ p ∈ inputTable, p.2 = reactInputChange → p.1 ∈ realInputs ∧ p.1 < 256 := by decide
  exact hall _ h rfl

/-- A sampling pass posts real inputs. -/
theorem Directed.sample (h : Directed s) (ho : Orderly s) (high : List ℕ) :
    Directed (onSample s high) := by
  refine ⟨h.commanded.same ⟨rfl, rfl, rfl⟩, fun arg harg => ?_⟩
  rcases mem_waiting_depositAll harg with harg | harg
  · exact h.inputs arg harg
  · have hmem := mem_of_waiting harg
    rw [digitalInputSample_snd] at hmem
    obtain ⟨di, hdi, hn⟩ := List.mem_filterMap.mp hmem
    unfold sampleNotice at hn
    split at hn
    · obtain ⟨hhandler, rfl⟩ := Prod.mk.inj (Option.some.inj hn)
      have hin : (di.pin, di.handler) ∈ inputTable := ho.inputs ▸ List.mem_map_of_mem hdi
      rw [hhandler] at hin
      obtain ⟨hreal, hlt⟩ := realInputs_of_table hin
      rw [argPin_pinAndValueAsArg hlt]
      exact hreal
    · cases hn

/-- A handler on the state after its message was taken. -/
theorem Directed.handled (h : Directed s) {mail : Mailroom ℕ}
    (hcol : collect s.mail handle = some (arg, mail)) :
    Directed { s with mail := mail } ∧ (handle = reactInputChange → argPin arg ∈ realInputs) := by
  obtain ⟨rest, hw, hmail⟩ := collect_eq_some hcol
  refine ⟨h.same ⟨rfl, rfl, rfl⟩ fun a ha => ?_, ?_⟩
  · rw [hmail] at ha
    split at ha
    · next heq =>
      rw [heq, hw]
      exact List.mem_cons_of_mem _ ha
    · exact ha
  · rintro rfl
    exact h.inputs arg (by rw [hw]; simp)

/-- The step lemma. -/
theorem Directed.step (h : Directed s) (ho : Orderly s) (hs : step fuel s e = some s') :
    Directed s' := by
  generalize hok : (Except.ok s' : Except State State) = r
  have hr : Reacts fuel s e r := hok ▸ reacts_of_step hs
  cases hr with
  | tick =>
    obtain rfl := Except.ok.inj hok
    have hw : waiting (deposit queueSize s.mail reactTimer 0) reactInputChange =
        waiting s.mail reactInputChange := by
      rw [waiting_deposit, if_neg (by decide)]
    exact h.same ⟨rfl, rfl, rfl⟩ fun a ha => hw ▸ ha
  | twi status _ =>
    obtain rfl := Except.ok.inj hok
    obtain ⟨transfer, mail, heq, hmail⟩ := twiInterrupt_spec s status
    rw [heq]
    exact h.same ⟨rfl, rfl, rfl⟩ fun a ha => by rwa [← hmail _ (by decide) (by decide)]
  | @run handle arg mail around r hcol hhandles =>
    obtain ⟨h₀, hreal⟩ := h.handled hcol
    have ho₀ := (ho.collect hcol).1
    by_cases htimed : handle ∈ [reactTimer, reactSample]
    · cases hhandles with
      | timer hd =>
        obtain rfl := Except.ok.inj hok
        exact h₀.same ⟨rfl, rfl, rfl⟩ fun a ha => by rwa [← ho₀.dispatch_waiting hd (by decide)]
      | sample =>
        obtain rfl := Except.ok.inj hok
        exact h₀.sample ho₀ _
      | _ => exact absurd htimed (by decide)
    · have hw := (handles_made hhandles htimed).frame.waiting reactInputChange (by decide)
      rw [← hok, resultState_ok] at hw
      have hkeep : ∀ a ∈ waiting s'.mail reactInputChange, argPin a ∈ realInputs :=
        fun a ha => h₀.inputs a (hw ▸ ha)
      -- the handlers that write to the table, and the others
      by_cases hwrites : handle ∈ [reactInputChange, reactDoorSensor, reactDoorCmd, reactCmdTimeout]
      · refine ⟨?_, hkeep⟩
        cases hhandles with
        | inputChange => exact h₀.commanded.input (hreal rfl) rfl hok.symm
        | doorSensor => exact h₀.commanded.sensor hok.symm
        | doorCmd | cmdTimeout => exact h₀.commanded.event hok.symm
        | _ => exact absurd hwrites (by decide)
      · exact ⟨h₀.commanded.same ((handler_table hwrites hhandles).of_ok hok.symm), hkeep⟩

theorem start_directed : Directed start := by
  refine ⟨start_commanded, ?_⟩
  have hw : waiting start.mail reactInputChange = [] := by decide +kernel
  rw [hw]
  simp

/-- The run lemma. -/
theorem directed_of_run (hr : Run (step fuel) start hist s) : Directed s := by
  refine hr.invariant_history (I := fun _ s => Directed s) start_directed ?_
  intro _ s e s' hrun h hs
  exact h.step (orderly_of_run hrun) hs

/-- The commands that the controller ever sends. -/
def sentCommands : List Opcode :=
  [opcodesCmdIdle, opcodesCmdPushDoor, opcodesCmdPullDoor, opcodesCmdBlastToolsetter,
   opcodesCmdUnclampChuck, opcodesCmdBlastSpindle]

/-- **The current command** is one of them. -/
theorem Commanded.mem_sentCommands (h : Commanded s) : s.currentCommand ∈ sentCommands := by
  obtain ⟨f, hf, -, -⟩ := h.table
  rw [h.command, hf, firstOpcode_tableWith]
  split_ifs <;> decide

end Controller

end CncPneumatics
