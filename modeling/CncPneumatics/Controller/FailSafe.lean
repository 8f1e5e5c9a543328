import CncPneumatics.Controller.Handlers
import CncPneumatics.Controller.Schedule
/-!
# The communication fail-safe

When there are too many errors, `on_i2c_error` sets the output of the
chuck to off and stops the transmission. Nothing stops the handler of
replies from setting it again: a transfer that is still in flight, or a
reply that is still queued, has the last word.
-/

namespace CncPneumatics

open Asx

namespace Controller

variable {fuel handle arg : ℕ} {s s' t : State} {around : Surroundings} {r : Except State State}
  {e : Event} {W : List ℕ} {hist : List (State × Event)}

/-- The output that releases the chuck. -/
def chuckReleased (s : State) : Bool := pinLevel s.pins ocChuckReleased

/-- **The fail-safe**, in the states of a run: once the transmission is
stopped, the chuck is not released in any later state. -/
structure FailSafe (l : List State) : Prop where
  now : ∀ a ∈ l, a.stopTransmit = true → chuckReleased a = false
  later : l.Pairwise fun a b => a.stopTransmit = true → chuckReleased b = false

/-- A step calls `on_i2c_error`: as the handler of errors, or because the
bus is busy. -/
def callsError (p : State × Event) : Bool :=
  match p.2 with
  | .run handle around =>
    handle = reactI2cError || (handle = reactI2cCommand && around.busy && !p.1.stopTransmit)
  | _ => false

/-- No transfer is in flight, and no reply that is on is queued. -/
def Quiet (s : State) : Prop :=
  s.transfer.locked = false ∧ ∀ arg ∈ waiting s.mail reactI2cRead, arg = 0

/-- A step that stops the transmission does so when all is quiet. -/
def StopsQuiet (p : State × Event) : Prop :=
  callsError p = true → commsTooManyErrors ≤ errorCountAfter p.1 → Quiet p.1

/-- A step does not handle a reply that is on when the transmission is
stopped. -/
def Heeds (p : State × Event) : Prop :=
  p.1.stopTransmit = true → ∀ around, p.2 = .run reactI2cRead around →
    (waiting p.1.mail reactI2cRead).head? = some 0

/-! ## The handlers -/

/-- **Sending** does nothing when stopped, is an error when the bus is
busy, and does not stop the transmission otherwise. -/
theorem onSendI2cCommand_cases (hw : Wired s) (busy : Bool)
    (ht : resultState (onSendI2cCommand s busy) = t) :
    s.stopTransmit = true ∧ t = s ∨
    s.stopTransmit = false ∧ busy = true ∧ Acts ServiceTimer [] (resultState (onI2cError s)) t ∨
    s.stopTransmit = false ∧ busy = false ∧ Keeps ServiceTimer [] s t ∧
      t.stopTransmit = s.stopTransmit := by
  subst ht
  unfold onSendI2cCommand
  split
  · next hstop =>
    cases busy with
    | true =>
      refine .inr (.inl ⟨hstop, rfl, ?_⟩)
      have hwired := (onI2cError_spec hw rfl).1.wired
      rw [if_pos rfl]
      cases herr : onI2cError s with
      | error s₁ => exact .refl (by rw [herr] at hwired; exact hwired)
      | ok s₁ => exact (armTransmit_serves (by rw [herr] at hwired; exact hwired) _).toActs
    | false =>
      refine .inr (.inr ⟨hstop, rfl, ?_⟩)
      obtain ⟨hkeeps, hsame⟩ := i2cMasterSend_keeps (A := ServiceTimer) (W := []) hw s.currentCommand
      have hacts := armTransmit_serves (W := []) hkeeps.wired i2cDelayBetweenTransmit
      rw [if_neg (by simp), bind_ok]
      exact ⟨hkeeps.trans hacts.toActs.toKeeps, hacts.stopTransmit.trans hsame⟩
  · next hstop => exact .inl ⟨by simpa using hstop, rfl⟩

/-- What a handler that calls `on_i2c_error` does. -/
theorem error_stops (hw : Wired s) (ht : Acts ServiceTimer [] (resultState (onI2cError s)) t) :
    t.mail = s.mail ∧ t.transfer = s.transfer ∧
      (commsTooManyErrors ≤ errorCountAfter s ∧ chuckReleased t = false ∧
          (s.stopTransmit = true → t.stopTransmit = true) ∨
        t.stopTransmit = s.stopTransmit ∧ chuckReleased t = chuckReleased s) := by
  obtain ⟨-, hmail, htransfer, hcases⟩ := onI2cError_spec hw rfl
  have hlevel : chuckReleased t = chuckReleased (resultState (onI2cError s)) :=
    ht.pinLevel (by simp)
  refine ⟨ht.mail.trans hmail, ht.transfer.trans htransfer, ?_⟩
  rcases hcases with ⟨hmany, hoff, hstop⟩ | ⟨-, hacts⟩
  · exact .inl ⟨hmany, hlevel.trans hoff, fun h => ht.stopTransmit.trans (hstop h)⟩
  · exact .inr ⟨ht.stopTransmit.trans hacts.stopTransmit, hlevel.trans (hacts.pinLevel (by decide))⟩

/-- **An event** leaves the fail-safe and the chuck alone, unless it
stops the transmission or handles a reply. -/
theorem reacts_stop (ho : Orderly s) (hr : Reacts fuel s e r) :
    (resultState r).stopTransmit = s.stopTransmit ∧
        (chuckReleased (resultState r) = chuckReleased s ∨ ∃ around, e = .run reactI2cRead around) ∨
      callsError (s, e) = true ∧ commsTooManyErrors ≤ errorCountAfter s ∧
        chuckReleased (resultState r) = false ∧
        (s.stopTransmit = true → (resultState r).stopTransmit = true) := by
  cases hr with
  | tick => exact .inl ⟨rfl, .inl rfl⟩
  | twi status _ =>
    obtain ⟨transfer, mail, heq, -⟩ := twiInterrupt_spec s status
    rw [resultState_ok, heq]
    exact .inl ⟨rfl, .inl rfl⟩
  | @run handle arg mail around r hcol hhandles =>
    obtain ⟨h₀, harg⟩ := ho.collect hcol
    -- only the two that meet errors of the bus can stop the transmission
    by_cases hbus : handle ∈ [reactI2cCommand, reactI2cError, reactTimer, reactSample]
    · cases hhandles with
      | i2cCommand =>
        rcases onSendI2cCommand_cases h₀.wired around.busy rfl with
          ⟨-, heq⟩ | ⟨hstop, hbusy, hacts⟩ | ⟨-, -, hkeeps, hsame⟩
        · rw [heq]
          exact .inl ⟨rfl, .inl rfl⟩
        · obtain ⟨-, -, ⟨hmany, hoff, hmono⟩ | ⟨hsame, hlevel⟩⟩ := error_stops h₀.wired hacts
          · refine .inr ⟨?_, hmany, hoff, hmono⟩
            have hgoes : s.stopTransmit = false := hstop
            simp [callsError, hbusy, hgoes]
          · exact .inl ⟨hsame, .inl hlevel⟩
        · exact .inl ⟨hsame, .inl (hkeeps.pinLevel (by simp))⟩
      | i2cError =>
        have hwired := (onI2cError_spec h₀.wired rfl).1.wired
        obtain ⟨-, -, ⟨hmany, hoff, hmono⟩ | ⟨hsame, hlevel⟩⟩ := error_stops h₀.wired (.refl hwired)
        · exact .inr ⟨rfl, hmany, hoff, hmono⟩
        · exact .inl ⟨hsame, .inl hlevel⟩
      | timer _ => exact .inl ⟨rfl, .inl rfl⟩
      | sample => exact .inl ⟨rfl, .inl rfl⟩
      | _ => exact absurd hbus (by decide)
    · have hacts := handles_acts h₀.wired hhandles harg hbus
      refine .inl ⟨hacts.stopTransmit, ?_⟩
      by_cases hread : handle = reactI2cRead
      · exact .inr ⟨around, by rw [hread]⟩
      · refine .inl (hacts.pinLevel ?_)
        simp only [List.mem_cons, List.not_mem_nil, or_false, not_or] at hbus
        unfold touches
        rw [if_neg (show handle ∉ [reactI2cRead, reactI2cError, reactI2cCommand] by
          simp [hread, hbus.1, hbus.2.1])]
        split <;> decide

/-- The handler of replies sets the output as the reply says. -/
theorem reacts_read (ho : Orderly s) (hr : Reacts fuel s (.run reactI2cRead around) r) :
    ∃ arg, (waiting s.mail reactI2cRead).head? = some arg ∧
      chuckReleased (resultState r) = decide (arg ≠ 0) := by
  cases hr with
  | run hcol hhandles =>
    obtain ⟨rest, hw, -⟩ := collect_eq_some hcol
    cases hhandles
    exact ⟨_, by rw [hw]; rfl, (onI2cRead_acts (ho.collect hcol).1.wired _).2⟩

/-- **The step lemma.** Once stopped, always stopped; and the chuck is off
exactly when the step heeds the stop. -/
theorem reacts_failSafe (ho : Orderly s) (hr : Reacts fuel s e r)
    (hsafe : s.stopTransmit = true → chuckReleased s = false) :
    (s.stopTransmit = true → (resultState r).stopTransmit = true) ∧
      (((resultState r).stopTransmit = true → chuckReleased (resultState r) = false) ↔
        Heeds (s, e)) := by
  rcases reacts_stop ho hr with ⟨hsame, hlevel⟩ | ⟨herror, -, hoff, hmono⟩
  · refine ⟨hsame.trans, ?_⟩
    by_cases hread : ∃ around, e = .run reactI2cRead around
    · obtain ⟨around, rfl⟩ := hread
      obtain ⟨arg, hhead, hset⟩ := reacts_read ho hr
      rw [hsame, hset, Heeds]
      dsimp only
      rw [hhead, decide_eq_false_iff_not, not_not, Option.some.injEq]
      exact ⟨fun h hstop _ _ => h hstop, fun h hstop => h hstop around rfl⟩
    · rw [hsame, hlevel.resolve_right hread]
      exact ⟨fun _ _ around he => absurd ⟨around, he⟩ hread, fun _ => hsafe⟩
  · refine ⟨hmono, fun _ _ around he => ?_, fun _ _ => hoff⟩
    subst he
    exact absurd herror (by simp [callsError, reactI2cRead, reactI2cError, reactI2cCommand])

/-- The step lemma of the quiet. -/
theorem reacts_quiet (ho : Orderly s) (hr : Reacts fuel s e r) (hq : Quiet s)
    (hstop : s.stopTransmit = true ∨ callsError (s, e) = true) : Quiet (resultState r) := by
  cases hr with
  | tick =>
    refine ⟨hq.1, ?_⟩
    show ∀ arg ∈ waiting (deposit queueSize s.mail reactTimer 0) reactI2cRead, _
    rw [waiting_deposit, if_neg (by decide)]
    exact hq.2
  | twi _ hlocked => rw [hq.1] at hlocked; cases hlocked
  | @run handle arg mail around r hcol hhandles =>
    obtain ⟨h₀, harg⟩ := ho.collect hcol
    obtain ⟨rest, hw, hmail⟩ := collect_eq_some hcol
    have hq₀ : Quiet { s with mail := mail } := by
      refine ⟨hq.1, fun a ha => hq.2 a ?_⟩
      rw [hmail] at ha
      split at ha
      · next heq => rw [heq, hw]; exact List.mem_cons_of_mem _ ha
      · exact ha
    -- nothing but sending starts a transfer, and it does not send
    have hsame : (resultState r).transfer = s.transfer → waiting (resultState r).mail reactI2cRead =
        waiting mail reactI2cRead → Quiet (resultState r) :=
      fun htransfer hread => ⟨by rw [htransfer]; exact hq.1, by rw [hread]; exact hq₀.2⟩
    by_cases hbus : handle ∈ [reactI2cCommand, reactI2cError, reactTimer, reactSample]
    · cases hhandles with
      | i2cCommand =>
        rcases onSendI2cCommand_cases h₀.wired around.busy rfl with
          ⟨-, heq⟩ | ⟨-, -, hacts⟩ | ⟨hgoes, hbusy, -, -⟩
        · rw [heq]; exact hq₀
        · obtain ⟨hm, ht, -⟩ := error_stops h₀.wired hacts
          exact hsame ht (by rw [hm])
        · -- it sends, which neither is stopped nor calls the error handler
          have hrunning : s.stopTransmit = false := hgoes
          rw [hrunning] at hstop
          simp [callsError, hbusy, reactI2cCommand, reactI2cError] at hstop
      | i2cError =>
        obtain ⟨-, hm, ht, -⟩ := onI2cError_spec h₀.wired rfl
        exact hsame ht (by rw [hm])
      | timer hd => exact hsame rfl (h₀.dispatch_waiting hd (by decide))
      | sample => exact hsame rfl (h₀.sample_waiting _ (by decide))
      | _ => exact absurd hbus (by decide)
    · have hacts := handles_acts h₀.wired hhandles harg hbus
      exact hsame hacts.transfer (by rw [hacts.mail])

/-! ## Runs -/

theorem failSafe_concat {l : List State} {b : State} : FailSafe (l ++ [b]) ↔
    FailSafe l ∧ (b.stopTransmit = true → chuckReleased b = false) ∧
      ∀ a ∈ l, a.stopTransmit = true → chuckReleased b = false := by
  constructor
  · rintro ⟨hnow, hlater⟩
    obtain ⟨hl, -, hb⟩ := List.pairwise_append.mp hlater
    exact ⟨⟨fun a ha => hnow a (by simp [ha]), hl⟩, hnow b (by simp),
      fun a ha => hb a ha b (by simp)⟩
  · rintro ⟨⟨hnow, hlater⟩, hb, hlast⟩
    refine ⟨fun a ha => ?_, List.pairwise_append.mpr ⟨hlater, List.pairwise_singleton _ _, ?_⟩⟩
    · rcases List.mem_append.mp ha with ha | ha
      · exact hnow a ha
      · rw [List.mem_singleton.mp ha]; exact hb
    · intro a ha b' hb'
      rw [List.mem_singleton.mp hb']
      exact hlast a ha

/-- The states of a run, up to the last one. -/
def statesOf (hist : List (State × Event)) (s : State) : List State := hist.map Prod.fst ++ [s]

/-- One more event. -/
theorem failSafe_step (ho : Orderly s) (hr : Reacts fuel s e r)
    (hstopped : ∀ a ∈ statesOf hist s, a.stopTransmit = true → s.stopTransmit = true)
    (hsafe : FailSafe (statesOf hist s) ↔ ∀ p ∈ hist, Heeds p) :
    (∀ a ∈ statesOf hist s ++ [resultState r], a.stopTransmit = true →
        (resultState r).stopTransmit = true) ∧
      (FailSafe (statesOf hist s ++ [resultState r]) ↔ ∀ p ∈ hist ++ [(s, e)], Heeds p) := by
  have hs : s ∈ statesOf hist s := by simp [statesOf]
  refine ⟨fun a ha hstop => ?_, ?_⟩
  · rcases List.mem_append.mp ha with ha | ha
    · -- the step lemma is about states that are safe, but stopping is not
      rcases reacts_stop ho hr with ⟨hsame, -⟩ | ⟨-, -, -, hmono⟩
      · rw [hsame]; exact hstopped a ha hstop
      · exact hmono (hstopped a ha hstop)
    · rwa [List.mem_singleton.mp ha] at hstop
  · rw [failSafe_concat, List.forall_mem_append, List.forall_mem_singleton, hsafe]
    refine and_congr_right fun hheeds => ?_
    have hnow := (hsafe.mpr hheeds).now s hs
    obtain ⟨hmono, hiff⟩ := reacts_failSafe ho hr hnow
    rw [← hiff]
    exact ⟨fun h => h.1, fun h => ⟨h, fun a ha hstop => h (hmono (hstopped a ha hstop))⟩⟩

/-- The run lemma. -/
theorem failSafe_of_run (hr : Run (step fuel) start hist s) :
    (∀ a ∈ statesOf hist s, a.stopTransmit = true → s.stopTransmit = true) ∧
      (FailSafe (statesOf hist s) ↔ ∀ p ∈ hist, Heeds p) := by
  induction hr with
  | nil =>
    have hgoes : start.stopTransmit = false := by decide +kernel
    refine ⟨fun a ha hstop => by rwa [List.mem_singleton.mp ha] at hstop, ?_⟩
    refine iff_of_true ⟨fun a ha hstop => ?_, List.pairwise_singleton _ _⟩ (by simp)
    rw [List.mem_singleton.mp ha, hgoes] at hstop
    cases hstop
  | snoc hrun hs ih =>
    have h := failSafe_step (orderly_of_run hrun) (reacts_of_step hs) ih.1 ih.2
    simpa [statesOf] using h

/-- The run lemma of the quiet: when no step stops the transmission in
the middle of a transfer, none is ever outstanding after it. -/
theorem quiet_of_run (hr : Run (step fuel) start hist s) (hquiet : ∀ p ∈ hist, StopsQuiet p) :
    s.stopTransmit = true → Quiet s := by
  induction hr with
  | nil =>
    intro hstop
    exact absurd hstop (by decide +kernel)
  | @snoc hist s s' e hrun hs ih =>
    intro hstop
    have ho := orderly_of_run hrun
    have hr := reacts_of_step hs
    rcases reacts_stop ho hr with ⟨hsame, -⟩ | ⟨herror, hmany, -⟩
    · have hbefore : s.stopTransmit = true := hsame.symm.trans hstop
      exact reacts_quiet ho hr (ih (fun p hp => hquiet p (by simp [hp])) hbefore) (.inl hbefore)
    · exact reacts_quiet ho hr (hquiet (s, e) (by simp) herror hmany) (.inr herror)

/-- With nothing outstanding, no reply that is on can be handled. -/
theorem Quiet.heeds (ho : Orderly s) (hr : Reacts fuel s e r) (hq : s.stopTransmit = true → Quiet s) :
    Heeds (s, e) := by
  rintro hstop around rfl
  obtain ⟨arg, hhead, -⟩ := reacts_read ho hr
  rw [hhead, (hq hstop).2 arg (List.mem_of_mem_head? hhead)]

/-- **When the fail-safe is permanent.** In every run, and in the state
that one more event leaves also where it stops in an alert, the chuck
stays off from the time that the transmission is stopped exactly when no
reply that is on is handled after that time. This is so when whatever
stops the transmission finds no transfer in flight and no such reply
queued. -/
theorem failSafe_iff_heeds (hr : Run (step fuel) start hist s) (hlast : react fuel s e = some r) :
    (FailSafe (statesOf hist s ++ [resultState r]) ↔ ∀ p ∈ hist ++ [(s, e)], Heeds p) ∧
      ((∀ p ∈ hist ++ [(s, e)], StopsQuiet p) →
        FailSafe (statesOf hist s ++ [resultState r])) := by
  obtain ⟨hstopped, hsafe⟩ := failSafe_of_run hr
  have hiff := (failSafe_step (orderly_of_run hr) (reacts_of_react hlast) hstopped hsafe).2
  refine ⟨hiff, fun hquiet => hiff.mpr fun p hp => ?_⟩
  rcases List.mem_append.mp hp with hp | hp
  · obtain ⟨h₁, h₂, rfl⟩ := List.append_of_mem hp
    obtain ⟨s₁, e₁⟩ := p
    obtain ⟨hr₁, s₂, hs, -⟩ := hr.step_of_mem
    refine Quiet.heeds (orderly_of_run hr₁) (reacts_of_step hs) (quiet_of_run hr₁ fun q hq => ?_)
    exact hquiet q (by simp [hq])
  · rw [List.mem_singleton.mp hp]
    exact Quiet.heeds (orderly_of_run hr) (reacts_of_react hlast)
      (quiet_of_run hr fun q hq => hquiet q (by simp [hq]))

/-! ## A late reply -/

/-- A transmit that fails, and the time until the next one. -/
def failedTransmit : List Block :=
  [.event (.run reactI2cCommand idle), .event (.twi .arbitrationLost),
   .event (.run reactI2cError idle), .wait 99, .event (.run reactTimer idle)]

/-- The grace period is over, and all transmits but one have failed that
it takes to stop. -/
def manyErrors : List Block :=
  (List.replicate 50 [.wait 99, .event (.run reactTimer idle)]).flatten ++
    .event (.run reactCommsGraceOver idle) :: (List.replicate 49 failedTransmit).flatten

/-- A transfer is in flight when the next one finds the bus busy, and then
ends with a reply that is on. -/
def lateReply : List Block :=
  [.event (.run reactI2cCommand idle), .wait 99, .event (.run reactTimer idle),
   .event (.run reactI2cCommand { idle with busy := true }), .event (.twi .writeInterrupt),
   .event (.twi .writeInterrupt),
   .event (.twi (.readInterrupt (opcodesEncodeReply .on opcodesCmdIdle))),
   .event (.run reactI2cRead idle)]

/-- The last transmit fails as the others did. -/
def quietStop : List Block :=
  [.event (.run reactI2cCommand idle), .event (.twi .arbitrationLost)]

theorem manyErrors_lead : ∃ s, runBlocks 32 manyErrors start = some s ∧
    (runBlocks 32 lateReply s).any (fun s => s.stopTransmit && chuckReleased s) = true ∧
    (runBlocks 32 quietStop s).any (fun s =>
      (step 32 s (.run reactI2cError idle)).any State.stopTransmit) = true := by
  have heval : (runBlocks 32 manyErrors start).any (fun s =>
      (runBlocks 32 lateReply s).any (fun s => s.stopTransmit && chuckReleased s) &&
        (runBlocks 32 quietStop s).any fun s =>
          (step 32 s (.run reactI2cError idle)).any State.stopTransmit) = true := by decide +kernel
  obtain ⟨s, hs, hchecks⟩ := (Option.any_eq_true _ _).mp heval
  rw [Bool.and_eq_true] at hchecks
  exact ⟨s, hs, hchecks⟩

/-- When the bus is stopped quietly, the chuck stays off. -/
theorem failSafe_iff_heeds_quietStop : ∃ hist s s', Run (step 32) start hist s ∧
    step 32 s (.run reactI2cError idle) = some s' ∧ s'.stopTransmit = true ∧
    FailSafe (statesOf hist s ++ [s']) := by
  obtain ⟨s₁, h₁, -, hstops⟩ := manyErrors_lead
  obtain ⟨s, hs, hlast⟩ := (Option.any_eq_true _ _).mp hstops
  obtain ⟨s', hs', hstop⟩ := (Option.any_eq_true _ _).mp hlast
  obtain ⟨hist, hr, hevents⟩ := exists_run_of_runBlocks h₁ hs
  obtain ⟨r, hreact, hok⟩ := Option.bind_eq_some_iff.mp hs'
  rw [toOption_eq_some hok] at hreact
  refine ⟨hist, s, s', hr, hs', hstop, (failSafe_iff_heeds hr hreact).1.mpr fun p hp => ?_⟩
  intro _ around hread
  -- no reply is handled in this run
  have hnone : ∀ b ∈ manyErrors ++ quietStop, .run reactI2cRead around ∉ b.events := by
    have hall : ∀ b ∈ manyErrors ++ quietStop, b.runs reactI2cRead = false := by decide +kernel
    exact fun b hb => Block.not_mem_events (hall b hb)
  rcases List.mem_append.mp hp with hp | hp
  · have hmem : p.2 ∈ hist.map Prod.snd := List.mem_map_of_mem hp
    rw [hevents, List.mem_flatMap] at hmem
    obtain ⟨b, hb, he⟩ := hmem
    exact absurd (hread ▸ he) (hnone b hb)
  · rw [List.mem_singleton.mp hp] at hread
    cases hread

/-- **A late reply releases the chuck** after the transmission is stopped. -/
theorem failSafe_fails_lateReply : ∃ hist s, Run (step 32) start hist s ∧
    hist.map Prod.snd = (manyErrors ++ lateReply).flatMap Block.events ∧
    ¬ FailSafe (statesOf hist s) := by
  obtain ⟨s₁, h₁, hreleases, -⟩ := manyErrors_lead
  obtain ⟨s, hs, hreleased⟩ := (Option.any_eq_true _ _).mp hreleases
  rw [Bool.and_eq_true] at hreleased
  obtain ⟨hist, hr, hevents⟩ := exists_run_of_runBlocks h₁ hs
  refine ⟨hist, s, hr, hevents, fun h => ?_⟩
  have hoff := h.now s (by simp [statesOf]) hreleased.1
  rw [hreleased.2] at hoff
  cases hoff

end Controller

end CncPneumatics
