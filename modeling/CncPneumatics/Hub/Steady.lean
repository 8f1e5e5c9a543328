import CncPneumatics.Hub.Traffic
/-!
# A steady command

The hub does not lock itself out: while it takes no new command, the timer
that makes it ready again is on its way. So a command that keeps coming is
followed once the grace period of the one before it is over, and no check
interrupts it.
-/

namespace CncPneumatics

open Asx

namespace Hub

variable {fuel : ℕ} {s s' : State} {hist : List (State × Event)} {p q : State × Event} {e : Event}
  {a : TimerAgenda} {sampleAt checkAt : ℕ} {c : Opcode} {t₀ : ℕ}

/-! ## The way back -/

/-- An accept timer is pending in the timer service, with a deadline that
is not after the given one. -/
def AcceptTimerBy (s : State) (deadline : ℕ) : Prop :=
  ∃ l, s.timer.Holds l ∧ ∃ f ∈ l, f.reactor = reactAcceptComms ∧ f.count ≤ deadline

/-- A hub that is not ready will be when the grace period ends. -/
theorem Inv.accept_comes (h : Inv hist s a sampleAt checkAt)
    (hnot : s.readyToAcceptNewCommand = false) :
    ∃ t, processedAt hist = some t ∧ s.timer.counter ≤ t + noNewCommandGracePeriod ∧
      (AcceptTimerBy s (t + noNewCommandGracePeriod) ∨ waiting s.mail reactAcceptComms ≠ []) := by
  rw [h.refines.counter]
  cases h.phase with
  | ready hr _ _ _ _ => rw [hnot] at hr; cases hr
  | held t n ht _ hs _ _ hle _ =>
    refine ⟨t, ht, hle, .inl ⟨_, h.refines.holds, ?_⟩⟩
    have hmem : (⟨t + noNewCommandGracePeriod, 0, n, (reactAcceptComms, 0)⟩ : Entry Notice) ∈
        a.timersOf reactAcceptComms := by rw [hs]; exact List.mem_singleton_self _
    exact ⟨_, List.mem_map_of_mem (TimerAgenda.mem_timersOf.mp hmem).1, rfl, le_rfl⟩
  | due t ht _ _ hne _ hnow => exact ⟨t, ht, hnow.le, .inr hne⟩

/-! ## Following a command -/

/-- The hub follows the command `c` since the time `t₀`: it is the current
one, or the hub is ready for it, or no other was processed since then. -/
def Follows (c : Opcode) (t₀ : ℕ) (hist : List (State × Event)) (s : State) : Prop :=
  s.currentCmd = c ∨ s.readyToAcceptNewCommand = true ∨
    ∀ t, processedAt hist = some t → t ≤ t₀

/-- The last valid message is two seconds old. -/
def Lapsed (hist : List (State × Event)) (s : State) : Prop :=
  ∃ m, messagedAt hist = some m ∧ m + 2000 ≤ s.timer.counter

/-- After the steps `before`, every message handled carries the command
`c` and comes less than two seconds after the valid message before it. -/
structure Steady (c : Opcode) (before after : List (State × Event)) : Prop where
  same : ∀ q ∈ after, ∀ cmd, handled q = some cmd → cmd = c
  close : ∀ g q g', after = g ++ q :: g' → (handled q).isSome →
    ∀ m, messagedAt (before ++ g) = some m → timeOf q < m + 2000

theorem Steady.of_concat {before after : List (State × Event)}
    (h : Steady c before (after ++ [p])) : Steady c before after where
  same := fun q hq => h.same q (List.mem_append_left _ hq)
  close := fun g q g' hsplit => h.close g q (g' ++ [p]) (by rw [hsplit]; simp)

/-- A step that neither processes nor touches command and flag. -/
theorem Follows.keep (h : Follows c t₀ hist s) (hp : processes p = false)
    (hcmd : s'.currentCmd = s.currentCmd)
    (hready : s'.readyToAcceptNewCommand = s.readyToAcceptNewCommand) :
    Follows c t₀ (hist ++ [p]) s' := by
  have hproc : processedAt (hist ++ [p]) = processedAt hist := by
    rw [processedAt_concat, hp]; rfl
  unfold Follows
  rw [hcmd, hready, hproc]
  exact h

/-- A message with `c` is processed, or changes nothing. -/
theorem Follows.traffic (h : Follows c t₀ hist s) {arg : ℕ} {mail : Mailroom ℕ}
    {pressure : Bool} (hcol : collect s.mail reactI2cHandler = some (arg, mail))
    (hs' : protocolHandleTraffic { s with mail := mail } arg = .ok s')
    (hc : UInt8.ofNat arg = c) (hvalid : isValid c = true) :
    Follows c t₀ (hist ++ [(s, .run reactI2cHandler pressure)]) s' := by
  subst hc
  rcases protocolHandleTraffic_cases hs' with ⟨-, -, -, hproc⟩ | ⟨-, hkept, rfl⟩ | ⟨hv, -⟩
  · exact .inl (protocolProcess_currentCmd hproc)
  · refine h.keep ?_ rfl rfl
    rw [processes_of_collect _ hcol]
    dsimp only at hkept
    rcases hkept with hkept | hkept <;> simp [hkept]
  · rw [hvalid] at hv; cases hv

/-- **One step of a run under a steady command.** -/
theorem follows_step (hr : Run (step fuel) start hist s) (hb : Bounded (hist ++ [(s, e)]))
    (hstep : step fuel s e = some s') (hvalid : isValid c = true) {m : ℕ}
    (hm : messagedAt hist = some m)
    (hsame : ∀ cmd, handled (s, e) = some cmd → cmd = c ∧ s.timer.counter < m + 2000)
    (h : Follows c t₀ hist s ∨ Lapsed hist s) :
    Follows c t₀ (hist ++ [(s, e)]) s' ∨ Lapsed (hist ++ [(s, e)]) s' := by
  -- a step that handles no message leaves the time of the last one
  have hlapsed (hhand : handled (s, e) = none) (hle : s.timer.counter ≤ s'.timer.counter) :
      Lapsed hist s → Lapsed (hist ++ [(s, e)]) s' := by
    rintro ⟨m', hm', hlate⟩
    refine ⟨m', ?_, hlate.trans hle⟩
    rw [messagedAt_concat, isMessage, hhand]
    exact hm'
  have hle : s.timer.counter ≤ s'.timer.counter :=
    timeOf_le (hr.snoc hstep) hb (List.mem_append_right _ (List.mem_singleton_self _))
  obtain ⟨_, _, _, hinv⟩ := inv_of_run hr hb.of_concat
  cases steps_of_step hstep with
  | tick _ => exact h.imp (fun h => h.keep rfl rfl rfl) (hlapsed rfl hle)
  | receive => exact h.imp (fun h => h.keep rfl rfl rfl) (hlapsed rfl hle)
  | timer _ _ => exact h.imp (fun h => h.keep rfl rfl rfl) (hlapsed rfl hle)
  | sample _ => exact h.imp (fun h => h.keep rfl rfl rfl) (hlapsed rfl hle)
  | accept _ => exact .inl (.inr (.inl rfl))
  | check hcol hs' =>
    rename_i mail pressure
    rcases onCheckComms_cases hs' with ⟨hne, rfl⟩ | ⟨hz, -⟩
    · refine h.imp (fun h => h.keep ?_ rfl rfl) (hlapsed rfl hle)
      dsimp only at hne
      simp only [processes, hne, decide_false, Bool.and_false, Bool.false_or]
      rfl
    · -- the check found no message since the one before it
      refine .inr (hlapsed rfl hle ⟨m, hm, ?_⟩)
      obtain ⟨l, hl, hml⟩ := (heard_of_run hr hb.of_concat).silent hz m hm
      obtain ⟨_, hw, -⟩ := collect_eq_some hcol
      have hnow := (hinv.check_queued (by rw [hw]; simp)).2
      rw [hl] at hnow
      rw [hinv.refines.counter, hnow]
      exact Nat.add_le_add_right hml 2000
  | traffic hcol hs' =>
    obtain ⟨hc, hlt⟩ := hsame _ (handled_of_collect _ hcol)
    rcases h with h | ⟨m', hm', hlate⟩
    · exact .inl (h.traffic hcol hs' hc hvalid)
    · rw [hm, Option.some.injEq] at hm'
      omega

/-- The message with which the command begins. -/
theorem follows_first (hr : Run (step fuel) start hist p.1) (hb : Bounded hist)
    (hstep : step fuel p.1 p.2 = some s') (hp : handled p = some c) (hvalid : isValid c = true) :
    Follows c (timeOf p) (hist ++ [p]) s' := by
  obtain ⟨s, e⟩ := p
  have h : Follows c (timeOf (s, e)) hist s := .inr (.inr fun t ht => remembered_le hr hb ht)
  dsimp only at hstep
  cases steps_of_step hstep with
  | traffic hcol hs' =>
    rw [handled_of_collect _ hcol, Option.some.injEq] at hp
    exact h.traffic hcol hs' hp hvalid
  | _ => cases hp

/-- A valid message is remembered. -/
theorem exists_messagedAt (h₁ g : List (State × Event)) (hp : handled p = some c)
    (hvalid : isValid c = true) : ∃ m, messagedAt (h₁ ++ p :: g) = some m := by
  obtain ⟨q, hq, -⟩ := lastWhere_append_cons h₁ g
    (show isMessage p = true by rw [isMessage, hp]; exact hvalid)
  exact ⟨timeOf q, by rw [messagedAt, hq]; rfl⟩

/-- **A run under a steady command.** -/
theorem follows_of_steady {h₁ g : List (State × Event)} (hp : handled p = some c)
    (hvalid : isValid c = true) (hr : Run (step fuel) start (h₁ ++ p :: g) s)
    (hb : Bounded (h₁ ++ p :: g)) (hsteady : Steady c (h₁ ++ [p]) g) :
    Follows c (timeOf p) (h₁ ++ p :: g) s ∨ Lapsed (h₁ ++ p :: g) s := by
  induction g using List.reverseRecOn generalizing s with
  | nil =>
    obtain ⟨hr', hstep⟩ := Run.of_snoc (s := p.1) (e := p.2) hr
    exact .inl (follows_first hr' hb.of_append hstep hp hvalid)
  | append_singleton g q ih =>
    obtain ⟨s₁, e⟩ := q
    have hassoc : h₁ ++ p :: (g ++ [(s₁, e)]) = (h₁ ++ p :: g) ++ [(s₁, e)] := by simp
    rw [hassoc] at hr hb ⊢
    obtain ⟨hr', hstep⟩ := hr.of_snoc
    obtain ⟨m, hm⟩ := exists_messagedAt h₁ g hp hvalid
    refine follows_step hr' hb hstep hvalid hm (fun cmd hcmd => ?_)
      (ih hr' hb.of_concat hsteady.of_concat)
    exact ⟨hsteady.same _ (by simp) cmd hcmd,
      hsteady.close g (s₁, e) [] rfl (by rw [hcmd]; rfl) m (by simpa using hm)⟩

/-- Once the grace period is over, a message leaves its command the
current one. -/
theorem Follows.settled (h : Follows c t₀ hist s) (hinv : Inv hist s a sampleAt checkAt)
    (hlate : t₀ + noNewCommandGracePeriod < a.now) {arg : ℕ} {mail : Mailroom ℕ}
    (hs' : protocolHandleTraffic { s with mail := mail } arg = .ok s')
    (hc : UInt8.ofNat arg = c) (hvalid : isValid c = true) : s'.currentCmd = c := by
  subst hc
  rcases protocolHandleTraffic_cases hs' with ⟨-, -, -, hproc⟩ | ⟨-, hkept, rfl⟩ | ⟨hv, -⟩
  · exact protocolProcess_currentCmd hproc
  · by_contra hne
    have hnot : s.readyToAcceptNewCommand = false := hkept.resolve_left hne
    obtain ⟨t, ht, hle⟩ := hinv.processed_of_not_ready hnot
    rw [hinv.refines.counter] at hle
    rcases h with h | h | h
    · exact hne h
    · rw [hnot] at h; cases h
    · have := h t ht
      omega
  · rw [hvalid] at hv; cases hv

/-- **The hub never locks itself out of a steady command.** While it is
not ready for a new command, an accept timer is pending or its
notification is queued, and the grace period of the last command is not
over. When from a message with the valid command `c` on every message
carries `c` and none comes two seconds after the one before it, each that
is handled after the grace period of the first leaves `c` the current
command and the valves at its pattern. -/
theorem steady_command_followed (hr : Run (step fuel) start hist s) (hb : Bounded hist) :
    (s.readyToAcceptNewCommand = false → ∃ t, processedAt hist = some t ∧
      s.timer.counter ≤ t + noNewCommandGracePeriod ∧
      (AcceptTimerBy s (t + noNewCommandGracePeriod) ∨ waiting s.mail reactAcceptComms ≠ [])) ∧
    ∀ h₁ p h₂ c, hist = h₁ ++ p :: h₂ → handled p = some c → isValid c = true →
      Steady c (h₁ ++ [p]) h₂ → ∀ q ∈ h₂, (handled q).isSome →
      timeOf p + noNewCommandGracePeriod < timeOf q →
      ∃ s', step fuel q.1 q.2 = some s' ∧ s'.currentCmd = c ∧ ShowsPattern s'.pins c := by
  constructor
  · intro hnot
    obtain ⟨_, _, _, h⟩ := inv_of_run hr hb
    exact h.accept_comes hnot
  · rintro h₁ p h₂ c rfl hp hvalid hsteady q hq hsome hlate
    obtain ⟨g, g', rfl⟩ := List.append_of_mem hq
    obtain ⟨s₁, e⟩ := q
    rw [show h₁ ++ p :: (g ++ (s₁, e) :: g') = (h₁ ++ p :: g) ++ (s₁, e) :: g' by simp] at hr hb
    obtain ⟨hrun, s', hstep, -⟩ := hr.step_of_mem
    have hb' := hb.of_append
    have hsteady' : Steady c (h₁ ++ [p]) g :=
      ⟨fun q hq => hsteady.same q (by simp [hq]),
        fun k q k' hsplit => hsteady.close k q (k' ++ (s₁, e) :: g') (by rw [hsplit]; simp)⟩
    obtain ⟨m, hm⟩ := exists_messagedAt h₁ g hp hvalid
    have hclose : s₁.timer.counter < m + 2000 :=
      hsteady.close g (s₁, e) g' rfl hsome m (by simpa using hm)
    obtain ⟨_, _, _, hinv⟩ := inv_of_run hrun hb'
    have hcmd : s'.currentCmd = c := by
      rcases follows_of_steady hp hvalid hrun hb' hsteady' with h | ⟨m', hm', hle⟩
      · cases steps_of_step hstep with
        | traffic hcol hs' =>
          refine h.settled hinv ?_ hs' (hsteady.same _ hq _ (handled_of_collect _ hcol)) hvalid
          rw [← hinv.refines.counter]
          exact hlate
        | _ => cases hsome
      · rw [hm, Option.some.injEq] at hm'
        omega
    exact ⟨s', hstep, hcmd, hcmd ▸ (agree_of_run (hrun.snoc hstep)).shows⟩

/-- A push of the door, and a pull that comes while the hub is not ready
for it and once more later. -/
def pullTwice : Bool :=
  (runEvents (step 4) [.receive opcodesCmdPushDoor, .run reactI2cHandler false,
    .receive opcodesCmdPullDoor] start).any fun s₁ =>
      handled (s₁, .run reactI2cHandler false) = some opcodesCmdPullDoor &&
        (s₁.timer.counter = 0 && (step 4 s₁ (.run reactI2cHandler false)).any fun s₂ =>
          s₂.currentCmd = opcodesCmdPushDoor &&
            (runEvents (step 4) (quietAfterCommand 1001 ++ [.receive opcodesCmdPullDoor]) s₂).any
              fun s₃ => handled (s₃, .run reactI2cHandler false) = some opcodesCmdPullDoor &&
                (s₃.timer.counter = 1001 && (step 4 s₃ (.run reactI2cHandler false)).isSome))

/-- A history without runs of the traffic handler handles nothing. -/
theorem handled_eq_none (h : ∀ b, p.2 ≠ .run reactI2cHandler b) : handled p = none := by
  obtain ⟨s, e⟩ := p
  cases e with
  | run k b =>
    have hk : k ≠ reactI2cHandler := fun hk => h b (by rw [hk])
    rw [handled, if_neg (by simpa [runs] using hk)]
  | _ => rfl

theorem steady_command_followed_pullTwice : ∃ hist s q s',
    Run (step 4) start hist s ∧ q ∈ hist ∧ handled q = some opcodesCmdPullDoor ∧
      step 4 q.1 q.2 = some s' ∧ s'.currentCmd = opcodesCmdPullDoor ∧
      ShowsPattern s'.pins opcodesCmdPullDoor := by
  have hrun : pullTwice = true := by decide +kernel
  simp only [pullTwice, Option.any_eq_true, Bool.and_eq_true, decide_eq_true_eq] at hrun
  obtain ⟨s₁, hes₁, hp, hzero, s₂, hstep₂, -, s₃, hes₃, hq, htime, hsome⟩ := hrun
  obtain ⟨s₄, hstep₄⟩ := Option.isSome_iff_exists.mp hsome
  obtain ⟨h₁, hr₁, hevents₁⟩ := exists_run_of_runEvents hes₁
  obtain ⟨h₂, hr₂, hevents₂⟩ := exists_run_of_runEvents hes₃
  have hr : Run (step 4) start (h₁ ++ (s₁, .run reactI2cHandler false) ::
      (h₂ ++ [(s₃, .run reactI2cHandler false)])) s₄ := by
    have h := ((hr₁.snoc hstep₂).trans hr₂).snoc hstep₄
    simpa using h
  have hb : Bounded (h₁ ++ (s₁, .run reactI2cHandler false) ::
      (h₂ ++ [(s₃, .run reactI2cHandler false)])) := by
    have hl₁ : h₁.length = 3 := by rw [← List.length_map (f := Prod.snd), hevents₁]; rfl
    have hl₂ : h₂.length = 2205 := by
      rw [← List.length_map (f := Prod.snd), hevents₂]; decide +kernel
    refine .of_length ?_
    simp only [List.length_append, List.length_cons, List.length_nil, hl₁, hl₂]
    omega
  have hquiet : ∀ q ∈ h₂, handled q = none := by
    have hnone : ∀ e ∈ quietAfterCommand 1001 ++ [.receive opcodesCmdPullDoor],
        ∀ b, e ≠ .run reactI2cHandler b := by decide +kernel
    exact fun q hq => handled_eq_none (hnone _ (hevents₂ ▸ List.mem_map_of_mem hq))
  have hsteady : Steady opcodesCmdPullDoor (h₁ ++ [(s₁, .run reactI2cHandler false)])
      (h₂ ++ [(s₃, .run reactI2cHandler false)]) := by
    refine ⟨fun q hmem cmd hcmd => ?_, fun g q g' hsplit _ m _ => ?_⟩
    · rcases List.mem_append.mp hmem with hmem | hmem
      · rw [hquiet q hmem] at hcmd; cases hcmd
      · rw [List.mem_singleton.mp hmem, hq] at hcmd
        exact (Option.some.inj hcmd).symm
    · have hmem : q ∈ h₂ ++ [(s₃, .run reactI2cHandler false)] := by rw [hsplit]; simp
      have hle : timeOf q ≤ 1001 := by
        rcases List.mem_append.mp hmem with hmem | hmem
        · rw [← htime]
          have h := (hr₁.snoc hstep₂).trans hr₂
          rw [List.append_assoc] at h
          refine timeOf_le h ?_ (by simp [hmem])
          rw [← List.cons_append, ← List.append_assoc] at hb
          exact hb.of_append
        · rw [List.mem_singleton.mp hmem]
          exact htime.le
      omega
  have hlate : timeOf (s₁, .run reactI2cHandler false) + noNewCommandGracePeriod <
      timeOf (s₃, .run reactI2cHandler false) := by
    show s₁.timer.counter + noNewCommandGracePeriod < s₃.timer.counter
    rw [hzero, htime]
    decide
  obtain ⟨s', hstep', hcmd, hpins⟩ := (steady_command_followed hr hb).2 h₁ _ _ _ rfl hp
    (by decide +kernel) hsteady (s₃, .run reactI2cHandler false) (by simp) (by rw [hq]; rfl) hlate
  exact ⟨_, _, _, s', hr, by simp, hq, hstep', hcmd, hpins⟩

end Hub

end CncPneumatics
