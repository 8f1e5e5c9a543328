import CncPneumatics.Hub.Traffic
/-!
# The grace period

After `_protocol_process` wrote to the valves nothing writes to them, and
nothing makes the hub ready for a new command, until
`NO_NEW_COMMAND_GRACE_PERIOD` has passed. The check that forces idle does
not look at the flag: that it keeps away as well follows from where the
checks stand.
-/

namespace CncPneumatics

open Asx

namespace Hub

variable {fuel : ℕ} {s s' : State} {hist : List (State × Event)} {p q : State × Event} {e : Event}
  {a : TimerAgenda} {sampleAt checkAt : ℕ}

/-- The step writes to the pins. -/
def WritesPins (fuel : ℕ) (p : State × Event) : Prop :=
  ∃ s', step fuel p.1 p.2 = some s' ∧ s'.pins ≠ p.1.pins

/-- The step makes the hub ready for a new command when it was not. -/
def Reenables (fuel : ℕ) (p : State × Event) : Prop :=
  ∃ s', step fuel p.1 p.2 = some s' ∧
    p.1.readyToAcceptNewCommand = false ∧ s'.readyToAcceptNewCommand = true

/-! ## Who does what -/

/-- Only `_protocol_process` writes to the pins. -/
theorem processes_of_writes (hw : WritesPins fuel p) : processes p = true := by
  obtain ⟨s, e⟩ := p
  obtain ⟨s', hstep, hne⟩ := hw
  dsimp only at hstep hne
  cases steps_of_step hstep with
  | tick _ => exact absurd rfl hne
  | receive => exact absurd rfl hne
  | timer _ _ => exact absurd rfl hne
  | sample _ => exact absurd rfl hne
  | accept _ => exact absurd rfl hne
  | check _ hs' =>
    rcases onCheckComms_cases hs' with ⟨-, rfl⟩ | ⟨hz, -⟩
    · exact absurd rfl hne
    · dsimp only at hz
      simp only [processes, hz]
      rfl
  | traffic hcol hs' =>
    rcases protocolHandleTraffic_cases hs' with ⟨hv, hcmd, hr, -⟩ | ⟨-, -, rfl⟩ | ⟨-, rfl⟩
    · rw [processes_of_collect _ hcol]
      dsimp only at hcmd hr
      simp [hv, hcmd, hr]
    · exact absurd rfl hne
    · exact absurd rfl hne

/-- Only `_on_accept_command_again` makes the hub ready. -/
theorem runs_of_reenables (hw : Reenables fuel p) : runs reactAcceptComms p = true := by
  obtain ⟨s, e⟩ := p
  obtain ⟨s', hstep, hnot, hready⟩ := hw
  dsimp only at hstep hnot
  have hsame : s'.readyToAcceptNewCommand ≠ s.readyToAcceptNewCommand := by
    rw [hnot, hready]; exact fun h => by cases h
  cases steps_of_step hstep with
  | tick _ => exact absurd rfl hsame
  | receive => exact absurd rfl hsame
  | timer _ _ => exact absurd rfl hsame
  | sample _ => exact absurd rfl hsame
  | accept _ => rfl
  | check _ hs' =>
    rcases onCheckComms_cases hs' with ⟨-, rfl⟩ | ⟨-, s₁, hproc, rfl⟩
    · exact absurd rfl hsame
    · have := protocolProcess_not_ready hproc
      dsimp only at hready
      rw [this] at hready; cases hready
  | traffic hcol hs' =>
    rcases protocolHandleTraffic_cases hs' with ⟨-, -, -, hproc⟩ | ⟨-, -, rfl⟩ | ⟨-, rfl⟩
    · rw [protocolProcess_not_ready hproc] at hready; cases hready
    · exact absurd rfl hsame
    · exact absurd rfl hsame

/-! ## How far apart -/

/-- Whenever `_protocol_process` is called, its last call is long enough
ago. -/
theorem Inv.grace_of_processes (h : Inv hist s a sampleAt checkAt)
    (hstep : step fuel s e = some s') (hproc : processes (s, e) = true) {t : ℕ}
    (ht : processedAt hist = some t) : t + noNewCommandGracePeriod ≤ a.now := by
  rw [processes, Bool.or_eq_true] at hproc
  rcases hproc with hcheck | hmessage
  · -- the check found no message
    rw [Bool.and_eq_true, decide_eq_true_eq] at hcheck
    obtain ⟨hruns, hz⟩ := hcheck
    have hw : waiting s.mail reactCheckComms ≠ [] := by
      cases steps_of_step hstep with
      | check hcol _ => obtain ⟨_, hw, -⟩ := collect_eq_some hcol; rw [hw]; simp
      | _ => cases hruns
    exact (h.ready_of_silent hw hz).2.2.2 t ht
  · -- the hub was ready
    have hready : s.readyToAcceptNewCommand = true := by
      cases hcmd : handled (s, e) with
      | none => rw [hcmd] at hmessage; cases hmessage
      | some cmd =>
        rw [hcmd, Option.any_some, Bool.and_eq_true] at hmessage
        exact hmessage.2
    exact (h.grace_of_ready hready).2.2.2 t ht

/-- And whenever the hub is made ready. -/
theorem Inv.grace_of_accept (h : Inv hist s a sampleAt checkAt)
    (hstep : step fuel s e = some s') (hruns : runs reactAcceptComms (s, e) = true) {t : ℕ}
    (ht : processedAt hist = some t) : t + noNewCommandGracePeriod ≤ a.now := by
  have hw : waiting s.mail reactAcceptComms ≠ [] := by
    cases steps_of_step hstep with
    | accept hcol => obtain ⟨_, hw, -⟩ := collect_eq_some hcol; rw [hw]; simp
    | _ => cases hruns
  cases h.phase with
  | ready _ _ _ hnil _ => exact absurd hnil hw
  | held _ _ _ _ _ hnil _ _ _ => exact absurd hnil hw
  | due t' ht' _ _ _ _ hnow =>
    rw [ht, Option.some.injEq] at ht'
    omega

/-- The last call is not before any other. -/
theorem exists_processedAt {h₁ h₂ : List (State × Event)}
    (hr : Run (step fuel) start (h₁ ++ p :: h₂) s) (hb : Bounded (h₁ ++ p :: h₂))
    (hproc : processes p = true) :
    ∃ t, processedAt (h₁ ++ p :: h₂) = some t ∧ timeOf p ≤ t := by
  obtain ⟨q, hq, hmem⟩ := lastWhere_append_cons h₁ h₂ hproc
  refine ⟨timeOf q, by rw [processedAt, hq]; rfl, ?_⟩
  rcases hmem with rfl | hmem
  · exact le_rfl
  · have hpair := times_sorted hr hb
    exact (List.pairwise_cons.mp (List.pairwise_append.mp hpair).2.1).1 q hmem

/-- **The valves are not switched faster than the grace period.** After a
step that wrote to the pins, at least `NO_NEW_COMMAND_GRACE_PERIOD` goes
by until the next step that writes to them, and until any step in which
the accept timer makes the hub ready again. -/
theorem valves_switch_after_grace {h₁ h₂ h₃ : List (State × Event)}
    (hr : Run (step fuel) start (h₁ ++ p :: (h₂ ++ q :: h₃)) s)
    (hb : Bounded (h₁ ++ p :: (h₂ ++ q :: h₃))) (hp : WritesPins fuel p) :
    (WritesPins fuel q → timeOf p + noNewCommandGracePeriod ≤ timeOf q) ∧
      (runs reactAcceptComms q = true ∨ Reenables fuel q →
        timeOf p + noNewCommandGracePeriod ≤ timeOf q) := by
  obtain ⟨s₂, e₂⟩ := q
  rw [show h₁ ++ p :: (h₂ ++ (s₂, e₂) :: h₃) = (h₁ ++ p :: h₂) ++ (s₂, e₂) :: h₃ by simp] at hr hb
  obtain ⟨hrun, s₂', hstep, -⟩ := hr.step_of_mem
  have hb' := hb.of_append
  obtain ⟨a, _, _, h⟩ := inv_of_run hrun hb'
  obtain ⟨t, ht, hle⟩ := exists_processedAt hrun hb' (processes_of_writes hp)
  have hnow : timeOf (s₂, e₂) = a.now := h.refines.counter
  rw [hnow]
  refine ⟨fun hq => ?_, fun hq => ?_⟩
  · have := h.grace_of_processes hstep (processes_of_writes hq) ht
    omega
  · have hruns : runs reactAcceptComms (s₂, e₂) = true := hq.elim id runs_of_reenables
    have := h.grace_of_accept hstep hruns ht
    omega

/-- A push of the door, and a pull as soon as the hub is ready for it: both
write to the pins. -/
def pushThenPull : Bool :=
  (step 4 start (.receive opcodesCmdPushDoor)).any fun s₁ =>
    (step 4 s₁ (.run reactI2cHandler false)).any fun s₂ => s₂.pins ≠ s₁.pins &&
      (runEvents (step 4) (quietAfterCommand 1000 ++ [.receive opcodesCmdPullDoor]) s₂).any fun s₃ =>
        (step 4 s₃ (.run reactI2cHandler false)).any fun s₄ => s₄.pins ≠ s₃.pins

theorem valves_switch_after_grace_pushThenPull : ∃ h₁ p h₂ q h₃ s,
    Run (step 4) start (h₁ ++ p :: (h₂ ++ q :: h₃)) s ∧ WritesPins 4 p ∧ WritesPins 4 q ∧
      timeOf p + noNewCommandGracePeriod ≤ timeOf q := by
  have hrun : pushThenPull = true := by decide +kernel
  obtain ⟨s₁, hstep₁, hrun⟩ := (Option.any_eq_true _ _).mp hrun
  obtain ⟨s₂, hstep₂, hrun⟩ := (Option.any_eq_true _ _).mp hrun
  rw [Bool.and_eq_true, decide_eq_true_eq] at hrun
  obtain ⟨hne₁, hrun⟩ := hrun
  obtain ⟨s₃, hes, hrun⟩ := (Option.any_eq_true _ _).mp hrun
  obtain ⟨s₄, hstep₄, hne₂⟩ := (Option.any_eq_true _ _).mp hrun
  obtain ⟨h₂, hquiet, hevents⟩ := exists_run_of_runEvents hes
  have hlength : h₂.length = 2203 := by
    rw [← List.length_map (f := Prod.snd), hevents]
    decide +kernel
  have hp : WritesPins 4 (s₁, .run reactI2cHandler false) := ⟨s₂, hstep₂, hne₁⟩
  have hq : WritesPins 4 (s₃, .run reactI2cHandler false) :=
    ⟨s₄, hstep₄, of_decide_eq_true hne₂⟩
  have hr : Run (step 4) start ([(start, .receive opcodesCmdPushDoor)] ++
      (s₁, .run reactI2cHandler false) :: (h₂ ++ [(s₃, .run reactI2cHandler false)])) s₄ := by
    have h := (((Run.nil.snoc hstep₁).snoc hstep₂).trans hquiet).snoc hstep₄
    simpa using h
  refine ⟨_, _, _, _, [], _, hr, hp, hq, (valves_switch_after_grace hr (.of_length ?_) hp).1 hq⟩
  simp only [List.length_append, List.length_cons, List.length_nil, hlength]
  omega

end Hub

end CncPneumatics
