import CncPneumatics.Hub.Progress
/-!
# Fresh valves

A valve that is on was asked for less than five seconds ago: at most one
second in which other messages are counted and ignored, and less than four
until a check finds nothing and turns it off.
-/

namespace CncPneumatics

open Asx

namespace Hub

variable {fuel : ℕ} {s s' : State} {hist : List (State × Event)} {p : State × Event} {e : Event}
  {cmd : Opcode}

/-- The step handled a message with this command. -/
def commands (cmd : Opcode) (p : State × Event) : Bool := handled p = some cmd

/-- When a message with this command was last handled. -/
def commandedAt (cmd : Opcode) (hist : List (State × Event)) : Option ℕ :=
  (lastWhere (commands cmd) hist).map timeOf

theorem commandedAt_concat : commandedAt cmd (hist ++ [p]) =
    if commands cmd p then some (timeOf p) else commandedAt cmd hist := by
  rw [commandedAt, lastWhere_concat]
  cases commands cmd p <;> rfl

/-- A command that turns on a valve is valid, and not the idle command. -/
theorem isValid_of_valveOf (h : valveOf cmd ≠ none) :
    isValid cmd = true ∧ cmd ≠ opcodesCmdIdle := by
  unfold valveOf at h
  split_ifs at h with h₁ h₂ h₃ h₄ h₅
  · subst h₁; decide +kernel
  · subst h₂; decide +kernel
  · subst h₃; decide +kernel
  · subst h₄; decide +kernel
  · subst h₅; decide +kernel
  · exact absurd rfl h

/-- **The current command was given at `q`**, the last time: no command
was processed since, the valid messages after it came within the grace
period, and the checks that found such a message within two seconds more. -/
structure Given (hist : List (State × Event)) (s : State) (q : ℕ) : Prop where
  commanded : commandedAt s.currentCmd hist = some q
  processed_le : ∀ p, processedAt hist = some p → p ≤ q
  messaged_le : ∀ m, messagedAt hist = some m → m ≤ q + noNewCommandGracePeriod
  checked_le : ∀ l, checkedAt hist = some l → 5000 < l → l ≤ q + noNewCommandGracePeriod + 2000

/-- The invariant: a command that turns on a valve was given. -/
def Asked (hist : List (State × Event)) (s : State) : Prop :=
  valveOf s.currentCmd ≠ none → ∃ q, Given hist s q

/-- A step that neither handles a message nor checks. -/
theorem Asked.keep (h : Asked hist s) (h₁ : handled p = none)
    (h₂ : runs reactCheckComms p = false) (hcmd : s'.currentCmd = s.currentCmd) :
    Asked (hist ++ [p]) s' := by
  have hproc : processes p = false := by rw [processes, h₁, h₂]; rfl
  intro hvalve
  rw [hcmd] at hvalve
  obtain ⟨q, h⟩ := h hvalve
  refine ⟨q, ?_, ?_, ?_, ?_⟩
  · rw [commandedAt_concat, commands, h₁, hcmd]
    exact h.commanded
  · rw [processedAt_concat, hproc]; exact h.processed_le
  · rw [messagedAt_concat, isMessage, h₁]; exact h.messaged_le
  · rw [checkedAt_concat, h₂]; exact h.checked_le

/-- The message that gives the current command. -/
theorem given_of_commands (hr : Run (step fuel) start (hist ++ [p]) s)
    (hb : Bounded (hist ++ [p])) (hp : commands s.currentCmd p = true) :
    Given (hist ++ [p]) s (timeOf p) := by
  -- whatever the history remembers is not after its last step
  have hle {P : State × Event → Bool} {t : ℕ}
      (ht : (lastWhere P (hist ++ [p])).map timeOf = some t) : t ≤ timeOf p := by
    obtain ⟨r, hr', rfl⟩ := Option.map_eq_some_iff.mp ht
    rcases List.mem_append.mp (lastWhere_eq_some hr').1 with hmem | hmem
    · have hpair := times_sorted hr hb
      exact (List.pairwise_append.mp hpair).2.2 r hmem p (List.mem_singleton_self p)
    · rw [List.mem_singleton.mp hmem]
  refine ⟨?_, fun t ht => hle ht, fun t ht => (hle ht).trans (Nat.le_add_right _ _),
    fun t ht _ => (hle ht).trans ?_⟩
  · rw [commandedAt_concat, hp]; rfl
  · rw [Nat.add_assoc]; exact Nat.le_add_right _ _

/-- A check that found a message. -/
theorem Given.check {q : ℕ} (h : Given hist s q) (hr : Run (step fuel) start hist s)
    (hb : Bounded hist) {pressure : Bool} (hw : waiting s.mail reactCheckComms ≠ [])
    (hne : s.messageReceivedCounter ≠ 0) (hcmd : s'.currentCmd = s.currentCmd) :
    Given (hist ++ [(s, .run reactCheckComms pressure)]) s' q := by
  have hproc : processes (s, .run reactCheckComms pressure) = false := by
    simp only [processes, hne, decide_false, Bool.and_false, Bool.false_or]
    rfl
  refine ⟨?_, ?_, ?_, ?_⟩
  · rw [commandedAt_concat, hcmd]; exact h.commanded
  · rw [processedAt_concat, hproc]; exact h.processed_le
  · rw [messagedAt_concat]; exact h.messaged_le
  · -- the message came after the check before this one
    rw [checkedAt_concat]
    intro l hl hlate
    obtain rfl : s.timer.counter = l := Option.some.inj hl
    obtain ⟨m, hm, hlm⟩ := (heard_of_run hr hb).heard hne
    obtain ⟨a, _, _, hinv⟩ := inv_of_run hr hb
    have hnow := (hinv.check_queued hw).2
    rw [hinv.refines.counter] at hlate ⊢
    have hmq := h.messaged_le m hm
    cases hl' : checkedAt hist with
    | none =>
      rw [hl'] at hnow
      simp only [nextCheck, Option.elim_none] at hnow
      omega
    | some l' =>
      rw [hl'] at hnow
      simp only [nextCheck, Option.elim_some] at hnow
      have := hlm l' hl'
      omega

/-- A message that is not processed. -/
theorem Given.ignored {q : ℕ} (h : Given hist s q) (hr : Run (step fuel) start hist s)
    (hb : Bounded hist) {pressure : Bool} (hcmd : handled (s, .run reactI2cHandler pressure) = some cmd)
    (hne : s.currentCmd ≠ cmd)
    (hnot : isValid cmd = true → s.readyToAcceptNewCommand = false)
    (hproc : processes (s, .run reactI2cHandler pressure) = false)
    (hcmd' : s'.currentCmd = s.currentCmd) :
    Given (hist ++ [(s, .run reactI2cHandler pressure)]) s' q := by
  refine ⟨?_, ?_, ?_, ?_⟩
  · rw [commandedAt_concat, hcmd', commands, hcmd, if_neg (by simpa using Ne.symm hne)]
    exact h.commanded
  · rw [processedAt_concat, hproc]; exact h.processed_le
  · rw [messagedAt_concat, isMessage, hcmd, Option.any_some]
    intro m hm
    by_cases hv : isValid cmd = true
    · -- it is ignored in the grace period of the command
      rw [if_pos hv] at hm
      obtain rfl : s.timer.counter = m := Option.some.inj hm
      obtain ⟨_, _, _, hinv⟩ := inv_of_run hr hb
      obtain ⟨p, hp, hle⟩ := hinv.processed_of_not_ready (hnot hv)
      have := h.processed_le p hp
      omega
    · rw [if_neg hv] at hm
      exact h.messaged_le m hm
  · rw [checkedAt_concat]; exact h.checked_le

/-- The step lemma. -/
theorem asked_step (hr : Run (step fuel) start hist s) (hb : Bounded (hist ++ [(s, e)]))
    (hstep : step fuel s e = some s') (h : Asked hist s) : Asked (hist ++ [(s, e)]) s' := by
  have hr' := hr.snoc hstep
  cases steps_of_step hstep with
  | tick _ => exact h.keep rfl rfl rfl
  | receive => exact h.keep rfl rfl rfl
  | timer _ _ => exact h.keep rfl rfl rfl
  | sample _ => exact h.keep rfl rfl rfl
  | accept _ => exact h.keep rfl rfl rfl
  | check hcol hs' =>
    intro hvalve
    rcases onCheckComms_cases hs' with ⟨hne, rfl⟩ | ⟨-, _, -, rfl⟩
    · obtain ⟨q, hq⟩ := h hvalve
      obtain ⟨_, hw, -⟩ := collect_eq_some hcol
      exact ⟨q, hq.check hr hb.of_concat (by rw [hw]; simp) hne rfl⟩
    · -- the hub is idle now
      exact absurd (show valveOf opcodesCmdIdle = none by decide +kernel) hvalve
  | traffic hcol hs' =>
    rename_i arg mail pressure
    have hhandled := handled_of_collect pressure hcol
    have hgiven (hc : s'.currentCmd = UInt8.ofNat arg) :
        Asked (hist ++ [(s, .run reactI2cHandler pressure)]) s' := fun _ =>
      ⟨_, given_of_commands hr' hb (by rw [commands, hhandled, hc]; exact decide_eq_true rfl)⟩
    -- it is processed, or ignored: the hub has this command or takes none yet, or it is no command
    rcases protocolHandleTraffic_cases hs' with ⟨-, -, -, hproc⟩ | ⟨hv, hkept, rfl⟩ | ⟨hv, rfl⟩
    · exact hgiven (protocolProcess_currentCmd hproc)
    · by_cases hc : s.currentCmd = UInt8.ofNat arg
      · exact hgiven hc
      · intro hvalve
        obtain ⟨q, hq⟩ := h hvalve
        have hnot : s.readyToAcceptNewCommand = false := hkept.resolve_left hc
        exact ⟨q, hq.ignored hr hb.of_concat hhandled hc (fun _ => hnot)
          (by rw [processes_of_collect _ hcol, hnot, Bool.and_false]) rfl⟩
    · intro hvalve
      obtain ⟨q, hq⟩ := h hvalve
      have hc : s.currentCmd ≠ UInt8.ofNat arg := by
        intro hc
        rw [← hc, (isValid_of_valveOf hvalve).1] at hv
        cases hv
      exact ⟨q, hq.ignored hr hb.of_concat hhandled hc
        (fun hv' => by rw [hv] at hv'; cases hv')
        (by rw [processes_of_collect _ hcol, hv, Bool.false_and, Bool.false_and]) rfl⟩

/-- The run lemma. -/
theorem asked_of_run (hr : Run (step fuel) start hist s) (hb : Bounded hist) : Asked hist s := by
  refine hr.invariant_history (I := fun hist s => Bounded hist → Asked hist s) ?_ ?_ hb
  · intro _ hvalve
    exact absurd (by decide +kernel) hvalve
  · intro hist s e s' hrun ih hstep hb
    exact asked_step hrun hb hstep (ih hb.of_concat)

/-- **A valve that is on was asked for less than five seconds ago.** At
the end of every millisecond from the seventh second on: for each valve
that is on, a message with its command was handled within the last 5000 ms;
and when no valid message was, all valves are off. -/
theorem valves_on_are_fresh (hr : Run (step fuel) start hist s) (hb : Bounded hist)
    (hend : s.mail = []) (ht : 7000 ≤ s.timer.counter) :
    (∀ v ∈ valves, pinLevel s.pins v = true → ∃ p ∈ hist, ∃ cmd,
      handled p = some cmd ∧ valveOf cmd = some v ∧
      s.timer.counter < timeOf p + 5000 ∧ timeOf p ≤ s.timer.counter) ∧
    ((∀ p ∈ hist, ∀ cmd, handled p = some cmd → isValid cmd = true →
      timeOf p + 5000 ≤ s.timer.counter) → ∀ v ∈ valves, pinLevel s.pins v = false) := by
  have hfresh : ∀ v ∈ valves, pinLevel s.pins v = true → ∃ p ∈ hist, ∃ cmd,
      handled p = some cmd ∧ valveOf cmd = some v ∧
      s.timer.counter < timeOf p + 5000 ∧ timeOf p ≤ s.timer.counter := by
    intro v hv hon
    have hvalve : valveOf s.currentCmd = some v := ((agree_of_run hr).shows v hv).mp hon
    obtain ⟨q, hq⟩ := asked_of_run hr hb (by rw [hvalve]; simp)
    obtain ⟨p, hp, rfl⟩ := Option.map_eq_some_iff.mp hq.commanded
    obtain ⟨hmem, hcmd⟩ := lastWhere_eq_some hp
    refine ⟨p, hmem, s.currentCmd, of_decide_eq_true hcmd, hvalve, ?_, timeOf_le hr hb hmem⟩
    -- the last check was within the last two seconds
    obtain ⟨a, S, K, h⟩ := inv_of_run hr hb
    have hempty : ∀ k, waiting s.mail k = [] := fun k => by rw [hend]; rfl
    have hnext := h.check_idle (hempty _)
    have hlt := h.check_lt (hempty _)
    rw [h.refines.counter] at ht ⊢
    rw [hnext] at hlt
    cases hl : checkedAt hist with
    | none =>
      rw [hl] at hlt
      simp only [nextCheck, Option.elim_none] at hlt
      omega
    | some l =>
      rw [hl] at hlt
      simp only [nextCheck, Option.elim_some] at hlt
      have := hq.checked_le l hl (by omega)
      simp only [noNewCommandGracePeriod, timerMilliseconds] at this
      omega
  refine ⟨hfresh, fun hsilent v hv => ?_⟩
  by_contra hon
  obtain ⟨p, hp, cmd, hcmd, hvalve, hlt, -⟩ := hfresh v hv (by simpa using hon)
  have := hsilent p hp cmd hcmd (isValid_of_valveOf (by rw [hvalve]; simp)).1
  omega

/-- The door is pushed after eight seconds and a half without traffic. -/
theorem valves_on_are_fresh_push : ∃ hist s, Run (step 4) start hist s ∧ s.mail = [] ∧
    s.timer.counter = 8500 ∧ pinLevel s.pins ioportDoorPush = true ∧
    ∃ p ∈ hist, ∃ cmd, handled p = some cmd ∧ valveOf cmd = some ioportDoorPush ∧
      s.timer.counter < timeOf p + 5000 ∧ timeOf p ≤ s.timer.counter := by
  obtain ⟨hist, s, hr, hb, hend, hnow, hnone⟩ :=
    exists_quiet_run (show 4 ≤ 4 from le_rfl) (show 8500 < 2 ^ 31 by decide)
  have hready := ready_of_quiet hr hb hnone (by rw [hnow]; decide)
  have hmessages : messagesSince hist ≤ 0 := messagesSince_append_le [] hnone
  have hvalve : valveOf opcodesCmdPushDoor = some ioportDoorPush := by decide +kernel
  -- no valve was asked for, so this command is a new one
  have hnew : s.currentCmd ≠ opcodesCmdPushDoor := by
    intro hcmd
    obtain ⟨q, hq⟩ := asked_of_run hr hb (by rw [hcmd, hvalve]; simp)
    obtain ⟨p, hp, -⟩ := Option.map_eq_some_iff.mp hq.commanded
    obtain ⟨hmem, hgiven⟩ := lastWhere_eq_some hp
    rw [commands, hnone p hmem] at hgiven
    cases hgiven
  obtain ⟨g, s', h, hend', hcmd⟩ := exists_run_of_command le_rfl hr hb (by omega) hend hready
    (isValid_of_valveOf (by rw [hvalve]; simp)).1 hnew
  have hnow' : s'.timer.counter = 8500 := by
    rw [counter_eq_ticks h.run h.bounded, h.ticks_eq, ← counter_eq_ticks hr hb, hnow]
  have hon : pinLevel s'.pins ioportDoorPush = true :=
    ((agree_of_run h.run).shows ioportDoorPush (by decide)).mpr (hcmd ▸ hvalve)
  exact ⟨hist ++ g, s', h.run, hend', hnow', hon,
    (valves_on_are_fresh h.run h.bounded hend' (by omega)).1 ioportDoorPush (by decide) hon⟩

end Hub

end CncPneumatics
