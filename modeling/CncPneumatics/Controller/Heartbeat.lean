import CncPneumatics.Asx.TimerLedger
import CncPneumatics.Controller.Handlers
import CncPneumatics.Controller.Parts
import CncPneumatics.Controller.Schedule
/-!
# The heartbeat

`react_i2c_command` goes on by itself: each transmit arms the timer of the
next one, and a new command brings it forward. Bringing it forward only
cancels a timer that is still pending. That no notification is queued at
that moment is a matter of priorities: the handlers that bring it forward
are less urgent than the transmit.
-/

namespace CncPneumatics

open Asx

namespace Controller

variable {fuel handle arg n m : ℕ} {s s' s'' : State} {around : Surroundings} {e : Event}
  {p : State × Event} {hist : List (State × Event)} {r : Except State State} {xs : List ℕ}

/-! ## Continuations -/

/-- The timer list is not full. -/
def HasRoom (s : State) : Prop := s.timer.pending.length < timerMaxCallback

instance : DecidablePred HasRoom := fun s =>
  inferInstanceAs (Decidable (s.timer.pending.length < timerMaxCallback))

/-- The timers that are pending for the next transmit. -/
def beats (s : State) : List TimerFuture := timersFor reactI2cCommand s.timer.pending

/-- **How many continuations** are outstanding. -/
def outstandingBeats (s : State) : ℕ := (beats s).length + (waiting s.mail reactI2cCommand).length

/-- The reactor takes the most urgent handler of those it has seen; what
the interrupts have notified since may be more urgent. -/
def Dispatched (p : State × Event) : Prop :=
  match p.2 with
  | .run handle _ => ∀ q ∈ p.1.mail,
      priority q.1 ≤ priority handle ∨ q.1 ∈ [reactTimer, reactI2cRead, reactI2cError]
  | _ => True

instance : DecidablePred Dispatched
  | (_, .run _ _) => by unfold Dispatched; infer_instance
  | (_, .tick) | (_, .twi _) => isTrue trivial

/-- The timers that a step arms: those that are renewed in a dispatch, and
otherwise as many as numbers were given. -/
def stepArms (fuel : ℕ) (p : State × Event) : ℕ :=
  match p.2 with
  | .run handle _ =>
    if handle = reactTimer then
      ((timerDispatch fuel p.1.timer).map fun d => (waiting d.1 reactSample).length).getD 0
    else ((step fuel p.1 p.2).map fun s =>
      (s.timer.currentInstance + 2 ^ 32 - p.1.timer.currentInstance) % 2 ^ 32).getD 0
  | _ => 0

/-- **How many timers were armed** since the start, with those of `main`. -/
def timersArmed (fuel : ℕ) (hist : List (State × Event)) : ℕ :=
  start.timer.currentInstance + 1 + (hist.map (stepArms fuel)).sum

/-! ## The numbers of the others -/

/-- The numbers that others keep. -/
def keptNumbers (s : State) : List ℕ :=
  s.valveTimer :: s.piezzo.timerInstance :: s.outputs.map DigitalOutput.timer

/-- The ledger of the controller. -/
def Ledgered (s : State) : Prop :=
  Ledger reactI2cCommand reactSample s.transmitTimer (keptNumbers s) s.timer

/-- What others do with the timers. -/
def OthersMove (n : ℕ) (s s' : State) : Prop :=
  Others reactI2cCommand reactSample n (keptNumbers s) (keptNumbers s') s.timer s'.timer

section Services

variable {k R : ℕ} {o o' : OutputState} {q q' : SoundState} {reactor : ℕ}

theorem cancelSequence_others (hx : o.out.timer ∈ xs ∨ o.out.timer = 0) :
    Others k R 0 xs xs o.timer (cancelSequence o).timer ∧ (cancelSequence o).out = o.out := by
  unfold cancelSequence
  split
  · exact ⟨Others.cancel hx, rfl⟩
  · exact ⟨Others.refl (fun _ => .inl) _, rfl⟩

theorem parseNext_timer (o : OutputState) : (parseNext o).2.timer = o.timer := by
  unfold parseNext
  split
  · rfl
  · dsimp only
    split
    · rfl
    · split <;> rfl

/-- A step of a sequence keeps the number of the next one. -/
theorem reactorHandler_others (hk : reactor ≠ k) (hR : reactor ≠ R)
    (hnull : reactor ≠ reactorNullHandle)
    (h : digitalOutputReactorHandler reactor arg o = .ok o') :
    Others k R 1 xs (o'.out.timer :: xs) o.timer o'.timer := by
  unfold digitalOutputReactorHandler at h
  dsimp only at h
  rw [← parseNext_timer o]
  split_ifs at h with hnext
  · split at h
    · next inst timer harm =>
      obtain rfl := Except.ok.inj h
      exact Others.arm hk hR hnull harm
    · cases h
  · obtain rfl := Except.ok.inj h
    refine (Others.refl (fun x hx => ?_) _).mono (Nat.zero_le 1) fun _ => .inl
    exact (List.mem_cons.mp hx).symm

theorem outputStart_others (hk : reactor ≠ k) (hR : reactor ≠ R)
    (hnull : reactor ≠ reactorNullHandle) {referenceTime : ℕ} {sequence : List Char} {rep : Bool}
    (hx : o.out.timer ∈ xs ∨ o.out.timer = 0)
    (h : digitalOutputStart reactor arg referenceTime sequence rep o = .ok o') :
    Others k R 1 xs (o'.out.timer :: xs) o.timer o'.timer := by
  unfold digitalOutputStart at h
  have hcancel : Others k R 0 xs xs o.timer (cancelSequence o).timer := (cancelSequence_others hx).1
  have hstep := @reactorHandler_others arg xs k R _ o' reactor hk hR hnull h
  exact (hcancel.trans hstep).mono (by omega) fun _ => .inl

/-- A note keeps the number of its end. -/
theorem playNextNote_others (hk : reactor ≠ k) (hR : reactor ≠ R)
    (hnull : reactor ≠ reactorNullHandle) (hx : q.piezzo.timerInstance ∈ xs)
    (h : playNextNote reactor q = .ok q') :
    Others k R 1 xs (q'.piezzo.timerInstance :: xs) q.timer q'.timer := by
  unfold playNextNote at h
  by_cases hnext : q.piezzo.nextNote ≠ []
  · rw [if_pos hnext] at h
    dsimp only at h
    split at h
    · next inst timer harm =>
      obtain rfl := Except.ok.inj h
      exact Others.arm hk hR hnull harm
    · cases h
  · rw [if_neg hnext] at h
    obtain rfl := Except.ok.inj h
    refine (Others.refl (fun x hx' => .inl ?_) _).mono (Nat.zero_le 1) fun _ => .inl
    rcases List.mem_cons.mp hx' with rfl | hx'
    · dsimp only
      split <;> exact hx
    · exact hx'

theorem piezzoPlay_others (hk : reactor ≠ k) (hR : reactor ≠ R)
    (hnull : reactor ≠ reactorNullHandle) {tempo : ℕ} {music : List Char}
    (hx : q.piezzo.timerInstance ∈ xs) (h : piezzoPlay reactor tempo music q = .ok q') :
    Others k R 1 xs (q'.piezzo.timerInstance :: xs) q.timer q'.timer := by
  unfold piezzoPlay at h
  dsimp only at h
  have hcancel : Others k R 0 xs xs q.timer (if q.piezzo.timerInstance ≠ 0 then
      (timerCancel q.timer q.piezzo.timerInstance).2 else q.timer) := by
    split
    · exact Others.cancel (.inl hx)
    · exact Others.refl (fun _ => .inl) _
  have hplay := @playNextNote_others xs k R _ q' reactor hk hR hnull (by exact hx) h
  exact (hcancel.trans hplay).mono (by omega) fun _ => .inl

theorem startTone_others (hk : reactor ≠ k) (hR : reactor ≠ R)
    (hnull : reactor ≠ reactorNullHandle) {pwmValue duration : ℕ}
    (h : piezzoStartTone reactor pwmValue duration q = .ok q') :
    Others k R 1 xs xs q.timer q'.timer ∧ q'.piezzo.timerInstance = q.piezzo.timerInstance := by
  unfold piezzoStartTone at h
  dsimp only at h
  split at h
  · split at h
    · next inst timer harm =>
      obtain rfl := Except.ok.inj h
      have harmed : Others k R 1 xs (inst :: xs) q.timer timer := Others.arm hk hR hnull harm
      exact ⟨harmed.mono le_rfl fun x hx => .inl (List.mem_cons_of_mem _ hx), rfl⟩
    · cases h
  · obtain rfl := Except.ok.inj h
    exact ⟨(Others.refl (fun _ => .inl) _).mono (Nat.zero_le 1) fun _ => .inl, rfl⟩

end Services

/-- The number that an output keeps. -/
theorem output_mem_keptNumbers (s : State) (handle : ℕ) :
    (s.outputs.getD handle default).timer ∈ keptNumbers s ∨
      (s.outputs.getD handle default).timer = 0 := by
  rw [List.getD_eq_getElem?_getD]
  cases hout : s.outputs[handle]? with
  | none => exact .inr rfl
  | some out =>
    refine .inl (List.mem_cons_of_mem _ (List.mem_cons_of_mem _ ?_))
    exact List.mem_map_of_mem (List.mem_of_getElem? hout)

/-- What an output function leaves others to keep. -/
theorem onOutput_others {f : OutputState → Except OutputState OutputState}
    (hf : ∀ o o', o.out.timer ∈ keptNumbers s ∨ o.out.timer = 0 → f o = .ok o' →
      Others reactI2cCommand reactSample n (keptNumbers s) (o'.out.timer :: keptNumbers s)
        o.timer o'.timer)
    (h : onOutput s handle f = .ok s') : OthersMove n s s' := by
  obtain ⟨o', ho, rfl⟩ := within_eq_ok.mp h
  refine (hf _ o' (output_mem_keptNumbers s handle) ho).mono le_rfl fun x hx => .inl ?_
  simp only [keptNumbers, List.mem_cons] at hx ⊢
  rcases hx with rfl | rfl | hx
  · exact .inr (.inl rfl)
  · exact .inr (.inr (.inl rfl))
  · obtain ⟨out, hout, rfl⟩ := List.mem_map.mp hx
    rcases List.mem_or_eq_of_mem_set hout with hout | rfl
    · exact .inr (.inr (.inr (List.mem_map_of_mem hout)))
    · exact .inl rfl

/-- What a sound leaves others to keep. -/
theorem onSound_others {f : SoundState → Except SoundState SoundState}
    (hf : ∀ q', f ⟨s.timer, s.piezzo⟩ = .ok q' →
      Others reactI2cCommand reactSample n (keptNumbers s)
        (q'.piezzo.timerInstance :: keptNumbers s) s.timer q'.timer)
    (h : onSound s f = .ok s') : OthersMove n s s' := by
  obtain ⟨q', hq, rfl⟩ := onSound_eq_ok h
  refine (hf q' hq).mono le_rfl fun x hx => .inl ?_
  simp only [keptNumbers, List.mem_cons] at hx ⊢
  rcases hx with rfl | rfl | hx
  · exact .inr (.inl rfl)
  · exact .inl rfl
  · exact .inr (.inr (.inr hx))

/-- **A part that is not about the transmit** leaves its timer alone. -/
theorem Part.othersMove {p : Part} (hp : p.concern ∉ [.transmit, .trigger])
    (h : p.run s = .ok s') : OthersMove 1 s s' := by
  -- most parts touch neither the timers nor the numbers that are kept
  have hkept : s'.timer = s.timer → keptNumbers s' = keptNumbers s → OthersMove 1 s s' := by
    intro htimer hkept
    rw [OthersMove, htimer, hkept]
    exact (Others.refl (fun _ => .inl) _).mono (Nat.zero_le 1) fun _ => .inl
  cases p with
  | outputSet handle value =>
    refine onOutput_others (f := fun o => .ok (digitalOutputSet value o)) (fun o o' hx ho => ?_) h
    obtain rfl := Except.ok.inj ho
    -- the output that is set forgets the number of its timer
    obtain ⟨hcancel, hout⟩ :=
      @cancelSequence_others (keptNumbers s) reactI2cCommand reactSample o hx
    refine hcancel.mono (Nat.zero_le 1) fun x hx' => ?_
    rcases List.mem_cons.mp hx' with rfl | hx'
    · show (cancelSequence o).out.timer ∈ _ ∨ (cancelSequence o).out.timer = 0
      rwa [hout]
    · exact .inl hx'
  | outputStart handle referenceTime sequence rep =>
    exact onOutput_others (fun o o' hx ho =>
      outputStart_others (by decide) (by decide) (by decide) hx ho) h
  | outputNext handle =>
    exact onOutput_others (fun o o' hx ho =>
      reactorHandler_others (by decide) (by decide) (by decide) ho) h
  | startTone pwmValue duration =>
    refine onSound_others (fun q' hq => ?_) h
    obtain ⟨hothers, htimer⟩ := @startTone_others (keptNumbers s) reactI2cCommand reactSample _ q' _
      (by decide) (by decide) (by decide) _ _ hq
    refine hothers.mono le_rfl fun x hx => .inl ?_
    rcases List.mem_cons.mp hx with rfl | hx
    · rw [htimer]
      simp [keptNumbers]
    · exact hx
  | stopTone =>
    obtain ⟨q', hq, rfl⟩ := onSound_eq_ok h
    obtain rfl := Except.ok.inj hq
    refine hkept rfl ?_
    simp only [keptNumbers, piezzoStopTone, (stopTone_tune s.piezzo).1]
  | play tempo music =>
    exact onSound_others (fun q' hq =>
      piezzoPlay_others (by decide) (by decide) (by decide) (by simp [keptNumbers]) hq) h
  | nextNote =>
    exact onSound_others (fun q' hq =>
      playNextNote_others (by decide) (by decide) (by decide) (by simp [keptNumbers]) hq) h
  | armTransmit delay => simp at hp
  | trigger => simp at hp
  | armValve delay =>
    have hvalve : valveArmTimer s delay = .ok s' := h
    obtain ⟨inst, timer, harm, rfl⟩ := armTimer_eq_ok hvalve
    refine (Others.arm (by decide) (by decide) (by decide) harm).mono le_rfl fun x hx => .inl ?_
    simp only [keptNumbers, List.mem_cons] at hx ⊢
    rcases hx with rfl | hx
    · exact .inl rfl
    · exact .inr (.inr hx)
  | cancelValve =>
    obtain rfl := Except.ok.inj h
    exact (Others.cancel (.inl (by simp [keptNumbers]))).mono (Nat.zero_le 1) fun _ => .inl
  | setStatuses | setCommand | setDoor | setDoorPin | setErrors | stop | endGrace =>
    obtain rfl := Except.ok.inj h
    exact hkept rfl rfl
  | send =>
    obtain rfl := Except.ok.inj h
    have hsend : (i2cMasterSend s s.currentCommand).timer = s.timer ∧
        keptNumbers (i2cMasterSend s s.currentCommand) = keptNumbers s := by
      unfold i2cMasterSend
      dsimp only
      split <;> exact ⟨rfl, rfl⟩
    exact hkept hsend.1 hsend.2

/-- Parts that are not about the transmit. -/
theorem Made.othersMove {cs : List Concern} (hcs : ∀ c ∈ cs, c ∉ [Concern.transmit, .trigger])
    (h : Made cs n s (.ok s')) : OthersMove n s s' := by
  obtain ⟨ps, hlen, hps, hr⟩ := h
  refine Others.mono (n := ps.length) ?_ hlen fun _ => .inl
  clear hlen
  induction ps generalizing s with
  | nil =>
    obtain rfl := Except.ok.inj hr
    exact Others.refl (fun _ => .inl) _
  | cons p ps ih =>
    rw [runParts] at hr
    obtain ⟨s₁, hp, hr⟩ := bind_eq_ok.mp hr.symm
    have hfirst : OthersMove 1 s s₁ := p.othersMove (hcs _ (hps p (by simp))) hp
    have hrest : OthersMove ps.length s₁ s' := ih (fun q hq => hps q (by simp [hq])) hr.symm
    exact (hfirst.trans hrest).mono (by rw [List.length_cons]; omega) fun _ => .inl

/-! ## What the handlers do -/

/-- The next transmit is due in a millisecond. -/
def BroughtForward (s : State) : Prop :=
  ∃ f, beats s = [f] ∧ f.count = timerGetCountFromNow s.timer 1

/-- **What a handler does** while the numbers do not come round: it leaves
the next transmit and the command alone, or brings the transmit forward. -/
structure Moves (n : ℕ) (s s' : State) : Prop where
  served : Timer.Served (fun _ => True) s.timer s'.timer
  moves : Numbered s.timer → Numbered s'.timer ∧
    ∃ m ≤ n, s'.timer.currentInstance = (s.timer.currentInstance + m) % 2 ^ 32 ∧
      (s.timer.currentInstance + m < timerInvalidInstance → HasRoom s' → Ledgered s →
        (beats s).length ≤ 1 → Ledgered s' ∧ s'.timer.counter = s.timer.counter ∧
          (beats s' = beats s ∧ s'.currentCommand = s.currentCommand ∨ BroughtForward s'))

namespace Moves

theorem of_othersMove (h : OthersMove n s s')
    (hserved : Timer.Served (fun _ => True) s.timer s'.timer)
    (htransmit : s'.transmitTimer = s.transmitTimer)
    (hcommand : s'.currentCommand = s.currentCommand) : Moves n s s' := by
  refine ⟨hserved, fun hn => ?_⟩
  obtain ⟨hn', m, hm, hcurrent, hkeeps⟩ := h hn
  refine ⟨hn', m, hm, hcurrent, fun hlt _ hledger _ => ?_⟩
  obtain ⟨hledger', hbeats, hcounter⟩ := hkeeps hlt _ hledger
  exact ⟨by rw [Ledgered, htransmit]; exact hledger', hcounter, .inl ⟨hbeats, hcommand⟩⟩

/-- Parts that are neither about the transmit nor the command. -/
theorem of_made (cs : List Concern)
    (hcs : ∀ c ∈ cs, c ∉ [Concern.transmit, .trigger, .command]) (h : Made cs n s (.ok s')) :
    Moves n s s' := by
  have hquiet : ∀ c ∈ cs, c ∉ [Concern.transmit, .trigger] := fun c hc hmem =>
    hcs c hc (by simp only [List.mem_cons, List.not_mem_nil, or_false] at hmem ⊢; tauto)
  have hnot : ∀ c ∈ [Concern.transmit, .trigger, .command], c ∉ cs := fun c hc hmem =>
    hcs c hmem hc
  have hframe := h.frame_ok rfl
  exact of_othersMove (h.othersMove hquiet) ((h.served_ok rfl).mono fun _ _ => trivial)
    (hframe.transmitTimer (hnot _ (by simp)) (hnot _ (by simp)))
    (hframe.currentCommand (hnot _ (by simp)))

/-- A part that is neither about the transmit nor the command. -/
theorem of_part {p : Part} (h : p.run s = .ok s')
    (hp : p.concern ∉ [Concern.transmit, .trigger, .command]) : Moves 1 s s' :=
  of_made [p.concern] (by simpa using hp) (h ▸ Made.part p (by simp) s)

theorem mono (h : Moves n s s') (hn : n ≤ m) : Moves m s s' := by
  refine ⟨h.served, fun hnum => ?_⟩
  obtain ⟨hn', k, hk, hrest⟩ := h.moves hnum
  exact ⟨hn', k, hk.trans hn, hrest⟩

theorem refl (s : State) : Moves 0 s s :=
  of_made [] (by simp) (Made.nothing s)

/-- One after the other. There was room for the second if there is room
after it. -/
theorem trans (h : Moves n s s') (h' : Moves m s' s'') : Moves (n + m) s s'' := by
  refine ⟨h.served.trans h'.served, fun hnum => ?_⟩
  obtain ⟨hnum', a, ha, hcurrent, hkeeps⟩ := h.moves hnum
  obtain ⟨hnum'', b, hb, hcurrent', hkeeps'⟩ := h'.moves hnum'
  refine ⟨hnum'', a + b, by omega, by omega, fun hlt hroom hledger hone => ?_⟩
  have hlt₁ : s.timer.currentInstance + a < 2 ^ 32 := by
    unfold timerInvalidInstance at hlt
    omega
  rw [Nat.mod_eq_of_lt hlt₁] at hcurrent
  obtain ⟨hledger', hcounter, hbeats⟩ :=
    hkeeps (by omega) (h'.served.room hnum'.holds hroom) hledger hone
  have hone' : (beats s').length ≤ 1 := by
    rcases hbeats with ⟨hsame, -⟩ | ⟨f, hf, -⟩
    · rwa [hsame]
    · rw [hf, List.length_singleton]
  obtain ⟨hledger'', hcounter', hbeats'⟩ := hkeeps' (by omega) hroom hledger' hone'
  refine ⟨hledger'', hcounter'.trans hcounter, ?_⟩
  rcases hbeats' with ⟨hsame', hcommand'⟩ | hfresh
  · rcases hbeats with ⟨hsame, hcommand⟩ | ⟨f, hf, hcount⟩
    · exact .inl ⟨hsame'.trans hsame, hcommand'.trans hcommand⟩
    · refine .inr ⟨f, hsame'.trans hf, ?_⟩
      rw [hcount, timerGetCountFromNow, timerGetCountFromNow, hcounter']
  · exact .inr hfresh

end Moves

/-- **The trigger** brings the transmit forward, whatever the command. -/
theorem triggerNextTransmit_moves {command : Opcode}
    (h : triggerNextTransmit { s with currentCommand := command } = .ok s') : Moves 1 s s' := by
  unfold triggerNextTransmit at h
  dsimp only at h
  set t := if s.transmitTimer ≠ timerInvalidInstance then
    (timerCancel s.timer s.transmitTimer).2 else s.timer with ht
  have hstate : (if s.transmitTimer ≠ timerInvalidInstance then
      { s with currentCommand := command, timer := (timerCancel s.timer s.transmitTimer).2 }
      else { s with currentCommand := command }) =
        ({ s with currentCommand := command, timer := t } : State) := by
    rw [ht]
    split <;> rfl
  rw [hstate] at h
  obtain ⟨inst, timer, harm, rfl⟩ := armTimer_eq_ok h
  dsimp only at harm
  have hcancel : Timer.Served (fun _ => True) s.timer t := by
    rw [ht]
    split
    · exact Timer.Served.cancel _
    · exact Timer.Served.refl _ _
  refine ⟨hcancel.trans (Timer.Served.arm harm (by decide) fun _ => trivial), fun hnum => ?_⟩
  have hnum₁ : Numbered t ∧ t.currentInstance = s.timer.currentInstance := by
    rw [ht]
    split
    · exact hnum.cancel _
    · exact ⟨hnum, rfl⟩
  obtain ⟨hnum', hcurrent⟩ := hnum₁.1.arm (by decide) harm
  rw [hnum₁.2] at hcurrent
  refine ⟨hnum', 1, le_rfl, hcurrent, fun hlt _ hledger hone => ?_⟩
  -- there was room to cancel, as there was room to arm
  have hroom : HasRoom s := hcancel.room hnum.holds (room_of_timerArm hnum₁.1.holds harm)
  have hvalid : s.transmitTimer ≠ timerInvalidInstance := fun heq => by
    have := hledger.issued.2
    omega
  rw [if_pos hvalid] at ht
  obtain ⟨hledger₁, hnone, hcurrent₁, hcounter₁⟩ := hledger.cancelOwn hroom hone
  rw [← ht] at hledger₁ hnone hcurrent₁ hcounter₁
  obtain ⟨hledger', ⟨f, hf, hcount⟩, -, hcounter'⟩ :=
    hledger₁.armOwn (by decide) (by decide) hnone (by omega) harm
  refine ⟨hledger', hcounter'.trans hcounter₁, .inr ⟨f, hf, ?_⟩⟩
  rw [hcount, timerGetCountFromNow, timerGetCountFromNow, hcounter']
  rfl

/-- A new command is transmitted without delay. -/
theorem refreshOpcode_moves (h : refreshOpcode s = .ok s') : Moves 1 s s' := by
  unfold refreshOpcode at h
  dsimp only at h
  split at h
  · exact triggerNextTransmit_moves h
  · obtain rfl := Except.ok.inj h
    exact (Moves.refl s).mono (Nat.zero_le 1)

theorem onInputChange_moves (h : onInputChange s arg = .ok s') : Moves 2 s s' := by
  obtain ⟨s₁, hrefresh, hled⟩ := bind_eq_ok.mp h
  have hfirst : Moves 1 s s₁ := by
    split at hrefresh
    · have hmoves := refreshOpcode_moves hrefresh
      exact ⟨hmoves.served, hmoves.moves⟩
    · obtain rfl := Except.ok.inj hrefresh
      exact (Moves.refl s).mono (Nat.zero_le 1)
  have hsecond : Moves 1 s₁ s' := by
    split at hled
    · exact Moves.of_part (p := .outputSet _ _) hled (by simp)
    · obtain rfl := Except.ok.inj hled
      exact (Moves.refl s₁).mono (Nat.zero_le 1)
  exact hfirst.trans hsecond

/-- The actions of the door, one case each. -/
theorem doorAct_moves {action : DoorAction} (h : doorAct s action = .ok s') : Moves 4 s s' := by
  have hon : ∀ pin led, moveOn s pin led = .ok s' → Moves 4 s s' := fun pin led h => by
    obtain ⟨s₁, hinput, h⟩ := bind_eq_ok.mp h
    obtain ⟨s₂, hled, harm⟩ := bind_eq_ok.mp h
    exact ((onInputChange_moves hinput).trans
      (Moves.of_part (p := .outputStart _ _ _ _) hled (by simp))).trans
      (Moves.of_part (p := .armValve _) harm (by simp))
  have hoff : ∀ pin led, moveOff s pin led = .ok s' → Moves 4 s s' := fun pin led h => by
    obtain ⟨s₁, hinput, h⟩ := bind_eq_ok.mp h
    obtain ⟨s₂, hled, rfl⟩ := map_eq_ok.mp h
    exact ((onInputChange_moves hinput).trans
      (Moves.of_part (p := .outputSet _ _) hled (by simp))).trans
      (Moves.of_part (p := .cancelValve) rfl (by simp))
  have htimeout : ∀ pin led, moveTimeout s pin led = .ok s' → Moves 4 s s' := fun pin led h => by
    obtain ⟨s₁, hinput, hled⟩ := bind_eq_ok.mp h
    exact ((onInputChange_moves hinput).trans
      (Moves.of_part (p := .outputStart _ _ _ _) hled (by simp))).mono (by omega)
  cases action with
  | none =>
    obtain rfl := Except.ok.inj h
    exact (Moves.refl s).mono (by omega)
  | pushOn | pullOn => exact hon _ _ h
  | pushOff | pullOff => exact hoff _ _ h
  | pushTimeout | pullTimeout => exact htimeout _ _ h
  | doorMoving =>
    have hcancel : Moves 1 s (valveCancelTimer s) :=
      Moves.of_part (p := .cancelValve) rfl (by simp)
    exact (hcancel.trans (Moves.of_part (p := .armValve _) h (by simp))).mono (by omega)

theorem processEvent_moves {event : DoorEvent} (h : processEvent s event = .ok s') :
    Moves 5 s s' := by
  unfold processEvent at h
  split at h
  · obtain ⟨s₁, hact, rfl⟩ := map_eq_ok.mp h
    exact (doorAct_moves hact).trans (Moves.of_part (p := .setDoor _) rfl (by simp))
  · obtain rfl := Except.ok.inj h
    exact (Moves.refl s).mono (by omega)

theorem onDoorSensorChange_moves (h : onDoorSensorChange s arg = .ok s') : Moves 6 s s' := by
  unfold onDoorSensorChange at h
  split at h
  · have hpin : Moves 1 s
        { s with pins := ioportSetPinLevel s.pins ocDoorClosed (argValue arg) } :=
      Moves.of_part (p := .setDoorPin _) rfl (by simp)
    exact (hpin.trans (processEvent_moves h)).mono (by omega)
  · split at h
    · exact (processEvent_moves h).mono (by omega)
    · obtain rfl := Except.ok.inj h
      exact (Moves.refl s).mono (by omega)

/-- The handlers that bring the transmit forward. -/
def forwarders : List ℕ := [reactInputChange, reactDoorSensor, reactDoorCmd, reactCmdTimeout]

theorem handles_moves (h : Handles fuel s arg around handle (.ok s')) (hmem : handle ∈ forwarders) :
    Moves 8 s s' := by
  simp only [forwarders, List.mem_cons, List.not_mem_nil, or_false] at hmem
  generalize hok : (Except.ok s' : Except State State) = r at h
  rcases hmem with rfl | rfl | rfl | rfl
  · cases h
    exact (onInputChange_moves hok.symm).mono (by omega)
  · cases h
    exact (onDoorSensorChange_moves hok.symm).mono (by omega)
  · cases h
    exact (processEvent_moves hok.symm).mono (by omega)
  · cases h
    exact (processEvent_moves hok.symm).mono (by omega)

/-- The other handlers, but that of the transmit itself, have other
concerns. -/
theorem concerns_of_not_forwarder {c : Concern} (hc : c ∈ concerns handle)
    (hne : handle ∉ reactI2cCommand :: forwarders) :
    c ∉ [Concern.transmit, .trigger, .command] := by
  intro hmem
  have hlt : handle < 17 := by
    by_contra hge
    rw [concerns, List.getD_eq_default _ _ (by simpa using hge)] at hc
    cases hc
  have hall : ∀ handle < 17, handle ∉ reactI2cCommand :: forwarders → ∀ c ∈ concerns handle,
      c ∉ [Concern.transmit, .trigger, .command] := by decide
  exact hall handle hlt hne c hc hmem

/-- **The transmit** arms the next one. -/
theorem onSendI2cCommand_beats {busy : Bool} (h : onSendI2cCommand s busy = .ok s')
    (hstop : s.stopTransmit = false) (hnum : Numbered s.timer) :
    Numbered s'.timer ∧
      ∃ m ≤ 8, s'.timer.currentInstance = (s.timer.currentInstance + m) % 2 ^ 32 ∧
        (s.timer.currentInstance + m < timerInvalidInstance → Ledgered s → beats s = [] →
          Ledgered s' ∧ ∃ f, beats s' = [f]) := by
  unfold onSendI2cCommand at h
  rw [if_pos hstop] at h
  obtain ⟨s₁, hsent, harm⟩ := bind_eq_ok.mp h
  have hmade : Made [.errors, .output, .tone, .stop, .bus] 5 s (.ok s₁) := by
    rw [← hsent]
    split
    · exact (onI2cError_made s).mono (by decide) le_rfl
    · exact (Made.part .send (by simp) s).le (by omega)
  obtain ⟨hnum₁, m, hm, hcurrent₁, hkeeps⟩ := hmade.othersMove (by decide) hnum
  obtain ⟨inst, timer, htimer, rfl⟩ := armTimer_eq_ok harm
  obtain ⟨hnum', hcurrent'⟩ := hnum₁.arm (by decide) htimer
  refine ⟨hnum', m + 1, by omega, by rw [hcurrent', hcurrent₁]; omega, fun hlt hledger hnone => ?_⟩
  have hlt₁ : s.timer.currentInstance + m < 2 ^ 32 := by
    unfold timerInvalidInstance at hlt
    omega
  rw [Nat.mod_eq_of_lt hlt₁] at hcurrent₁
  obtain ⟨hledger₁, hbeats₁, -⟩ := hkeeps (by omega) _ hledger
  obtain ⟨hledger', ⟨f, hf, -⟩, -⟩ := hledger₁.armOwn (by decide) (by decide)
    (hbeats₁.trans hnone) (by omega) htimer
  exact ⟨hledger', f, hf⟩

/-- Nothing starts the transmission again. -/
theorem Made.stopped {cs : List Concern} (h : Made cs n s (.ok s')) (hstop : s'.stopTransmit = false) :
    s.stopTransmit = false := by
  have hpart : ∀ (p : Part) (s : State), p.concern ∈ cs →
      s.stopTransmit = true → (resultState (p.run s)).stopTransmit = true := fun p s _ hs => by
    by_cases hp : p.concern = .stop
    · cases p <;> first | rfl | cases hp
    · rw [(p.frame (List.mem_singleton_self _) s).stopTransmit (by simpa using Ne.symm hp)]
      exact hs
  have hmono : s.stopTransmit = true → s'.stopTransmit = true := by
    refine h.relates (R := fun s s' => s.stopTransmit = true → s'.stopTransmit = true)
      (fun _ => id) (fun a b c hab hbc hs => ?_) fun p s hp => hpart p s hp
    exact hbc (hab hs)
  cases hs : s.stopTransmit with
  | false => rfl
  | true => rw [hmono hs] at hstop; cases hstop

/-! ## The invariant -/

/-- **The invariant**: the transmit goes on, once, by a timer or by a
notification. -/
structure Beating (s : State) : Prop where
  ledger : Ledgered s
  numbered : Numbered s.timer
  one : outstandingBeats s ≤ 1
  going : s.stopTransmit = false → outstandingBeats s = 1

namespace Beating

/-- A change that is not about the timers. -/
theorem of_waiting (h : Beating s) (htimer : s'.timer = s.timer)
    (hkept : keptNumbers s' = keptNumbers s) (htransmit : s'.transmitTimer = s.transmitTimer)
    (hwaiting : waiting s'.mail reactI2cCommand = waiting s.mail reactI2cCommand)
    (hstop : s'.stopTransmit = s.stopTransmit) : Beating s' := by
  have hbeats : outstandingBeats s' = outstandingBeats s := by
    rw [outstandingBeats, outstandingBeats, beats, beats, htimer, hwaiting]
  refine ⟨?_, htimer ▸ h.numbered, by rw [hbeats]; exact h.one, ?_⟩
  · rw [Ledgered, htimer, hkept, htransmit]
    exact h.ledger
  · rw [hbeats, hstop]
    exact h.going

/-- A handler that is run. Its own notification is one of those of the
transmit or not. -/
theorem take (h : Beating s) {mail : Mailroom ℕ}
    (hcol : collect s.mail handle = some (arg, mail)) (hne : handle ≠ reactI2cCommand) :
    Beating { s with mail := mail } := by
  obtain ⟨rest, -, hmail⟩ := collect_eq_some hcol
  exact h.of_waiting rfl rfl rfl (by rw [hmail, if_neg hne.symm]) rfl

theorem beats_length_le (h : Beating s) : (beats s).length ≤ 1 := by
  have := h.one
  unfold outstandingBeats at this
  omega

/-- **A handler that is not about the transmit.** -/
theorem others (h : Beating s) (hm : OthersMove n s s')
    (htransmit : s'.transmitTimer = s.transmitTimer)
    (hwaiting : waiting s'.mail reactI2cCommand = waiting s.mail reactI2cCommand)
    (hstop : s'.stopTransmit = false → s.stopTransmit = false) :
    ∃ m ≤ n, s'.timer.currentInstance = (s.timer.currentInstance + m) % 2 ^ 32 ∧
      (s.timer.currentInstance + m < timerInvalidInstance → Beating s') := by
  obtain ⟨hnum', m, hle, hcurrent, hkeeps⟩ := hm h.numbered
  refine ⟨m, hle, hcurrent, fun hlt => ?_⟩
  obtain ⟨hledger', hsame, -⟩ := hkeeps hlt _ h.ledger
  have hout : outstandingBeats s' = outstandingBeats s := by
    rw [outstandingBeats, outstandingBeats, beats, beats, hsame, hwaiting]
  refine ⟨by rw [Ledgered, htransmit]; exact hledger', hnum', by rw [hout]; exact h.one, ?_⟩
  exact fun hs => by rw [hout]; exact h.going (hstop hs)

/-- **A handler that brings the transmit forward**, when no notification of
it is queued. -/
theorem moves (h : Beating s) (hm : Moves n s s') (hroom : HasRoom s')
    (hnone : waiting s.mail reactI2cCommand = []) (hnone' : waiting s'.mail reactI2cCommand = [])
    (hstop : s'.stopTransmit = false → s.stopTransmit = false) :
    ∃ m ≤ n, s'.timer.currentInstance = (s.timer.currentInstance + m) % 2 ^ 32 ∧
      (s.timer.currentInstance + m < timerInvalidInstance →
        Beating s' ∧ (s'.currentCommand ≠ s.currentCommand → BroughtForward s')) := by
  obtain ⟨hnum', m, hle, hcurrent, hkeeps⟩ := hm.moves h.numbered
  refine ⟨m, hle, hcurrent, fun hlt => ?_⟩
  obtain ⟨hledger', -, hbeats⟩ := hkeeps hlt hroom h.ledger h.beats_length_le
  rcases hbeats with ⟨hsame, hcommand⟩ | hforward
  · have hout : outstandingBeats s' = outstandingBeats s := by
      rw [outstandingBeats, outstandingBeats, hsame, hnone, hnone']
    refine ⟨⟨hledger', hnum', by rw [hout]; exact h.one, ?_⟩, fun hne => absurd hcommand hne⟩
    exact fun hs => by rw [hout]; exact h.going (hstop hs)
  · have hout : outstandingBeats s' = 1 := by
      obtain ⟨f, hf, -⟩ := hforward
      rw [outstandingBeats, hf, hnone']
      rfl
    exact ⟨⟨hledger', hnum', hout.le, fun _ => hout⟩, fun _ => hforward⟩

/-- **A dispatch** makes the timer of the transmit a notification. -/
theorem dispatch (h : Beating s) {d : List (ℕ × ℕ) × Timer} (hd : timerDispatch fuel s.timer = some d)
    (hlt : s.timer.currentInstance + (waiting d.1 reactSample).length < timerInvalidInstance) :
    Beating { s with timer := d.2, mail := depositAll queueSize s.mail d.1 } ∧
      d.2.currentInstance = s.timer.currentInstance + (waiting d.1 reactSample).length := by
  obtain ⟨hledger', hcurrent, fired, hsplit, hwait⟩ := h.ledger.dispatch (by decide) hd hlt
  have hout : outstandingBeats { s with timer := d.2, mail := depositAll queueSize s.mail d.1 } =
      outstandingBeats s := by
    have hone := h.one
    unfold outstandingBeats beats at hone ⊢
    dsimp only
    rw [hsplit] at hone ⊢
    rw [waiting_depositAll, hwait]
    rw [List.length_append] at hone ⊢
    match fired with
    | [] => simp only [List.map_nil, List.foldl_nil, List.length_nil, Nat.zero_add]
    | f :: fired =>
      -- the queue is empty, and takes it
      have hnone : waiting s.mail reactI2cCommand = [] := by
        refine List.length_eq_zero_iff.mp ?_
        rw [List.length_cons] at hone
        omega
      have hfired : fired = [] := by
        refine List.length_eq_zero_iff.mp ?_
        rw [List.length_cons] at hone
        omega
      subst hfired
      rw [hnone, List.map_cons, List.map_nil, List.foldl_cons, List.foldl_nil,
        post_of_lt (by decide)]
      simp only [List.length_nil, List.nil_append, List.length_singleton]
      omega
  refine ⟨⟨hledger', ⟨hledger'.holds, ?_⟩, by rw [hout]; exact h.one, fun hs => ?_⟩, hcurrent⟩
  · show d.2.currentInstance < 2 ^ 32
    unfold timerInvalidInstance at hlt
    omega
  · rw [hout]
    exact h.going hs

theorem tick (h : Beating s) :
    Beating (notify { s with timer := timerTick s.timer } reactTimer 0) := by
  have hwait : waiting (deposit queueSize s.mail reactTimer 0) reactI2cCommand =
      waiting s.mail reactI2cCommand := by rw [waiting_deposit, if_neg (by decide)]
  have hout : outstandingBeats (notify { s with timer := timerTick s.timer } reactTimer 0) =
      outstandingBeats s := by
    unfold outstandingBeats beats notify
    dsimp only
    rw [(timerTick_holds h.numbered.holds).pending_eq, hwait]
  refine ⟨h.ledger.tick, ⟨h.ledger.tick.holds, h.numbered.current_lt⟩, ?_, fun hs => ?_⟩
  · rw [hout]
    exact h.one
  · rw [hout]
    exact h.going hs

/-- **Sending** takes the notification of the transmit, and arms its timer
unless the transmission is stopped. -/
theorem send (h : Beating s) {mail : Mailroom ℕ} {busy : Bool}
    (hcol : collect s.mail reactI2cCommand = some (arg, mail))
    (hok : onSendI2cCommand { s with mail := mail } busy = .ok s')
    (hwait : waiting s'.mail reactI2cCommand = waiting mail reactI2cCommand) :
    ∃ m ≤ 8, s'.timer.currentInstance = (s.timer.currentInstance + m) % 2 ^ 32 ∧
      (s.timer.currentInstance + m < timerInvalidInstance → Beating s') := by
  obtain ⟨rest, hrest, hmail⟩ := collect_eq_some hcol
  -- the notification was the one that is outstanding
  have hone := h.one
  rw [outstandingBeats, hrest, List.length_cons] at hone
  have hnone : beats s = [] := List.length_eq_zero_iff.mp (by omega)
  have hleft : waiting s'.mail reactI2cCommand = [] := by
    rw [hwait, hmail, if_pos rfl]
    exact List.length_eq_zero_iff.mp (by omega)
  cases hstopped : s.stopTransmit with
  | false =>
    obtain ⟨hnum', m, hm, hcurrent, hkeeps⟩ :=
      onSendI2cCommand_beats hok (by exact hstopped) h.numbered
    refine ⟨m, hm, hcurrent, fun hlt => ?_⟩
    obtain ⟨hledger', f, hf⟩ := hkeeps hlt h.ledger hnone
    have hout : outstandingBeats s' = 1 := by
      rw [outstandingBeats, hf, hleft]
      rfl
    exact ⟨hledger', hnum', hout.le, fun _ => hout⟩
  | true =>
    rw [onSendI2cCommand, if_neg (by simp [hstopped])] at hok
    obtain rfl := Except.ok.inj hok
    have hout : outstandingBeats { s with mail := mail } = 0 := by
      rw [outstandingBeats, hleft]
      show (beats s).length + _ = _
      rw [hnone]
      rfl
    refine ⟨0, by omega, (Nat.mod_eq_of_lt h.numbered.current_lt).symm,
      fun _ => ⟨h.ledger, h.numbered, by omega, fun hs => ?_⟩⟩
    rw [hstopped] at hs
    cases hs

/-- **A handler that is made of parts**: it sends, it brings the transmit
forward, or it is not about it. -/
theorem handler (h : Beating s) (hp : Dispatched (s, .run handle around)) {mail : Mailroom ℕ}
    (hcol : collect s.mail handle = some (arg, mail))
    (hhandles : Handles fuel { s with mail := mail } arg around handle (.ok s'))
    (hne : handle ∉ [reactTimer, reactSample]) (hroom : HasRoom s') :
    ∃ m ≤ 8, s'.timer.currentInstance = (s.timer.currentInstance + m) % 2 ^ 32 ∧
      (s.timer.currentInstance + m < timerInvalidInstance → Beating s' ∧
        (s'.currentCommand ≠ s.currentCommand →
          BroughtForward s' ∧ waiting s'.mail reactI2cCommand = [])) := by
  have hmade := handles_made hhandles hne
  have hframe := hmade.frame_ok rfl
  have hwait := hframe.waiting reactI2cCommand (by decide)
  by_cases hcommand : handle = reactI2cCommand
  · subst hcommand
    have hsame := hframe.currentCommand (by decide)
    generalize hok : (Except.ok s' : Except State State) = r at hhandles
    cases hhandles
    obtain ⟨m, hm, hcurrent, hkeeps⟩ := h.send hcol hok.symm hwait
    exact ⟨m, hm, hcurrent, fun hlt => ⟨hkeeps hlt, fun hne => absurd hsame hne⟩⟩
  have hb := h.take hcol hcommand
  by_cases hforward : handle ∈ forwarders
  · -- a handler this urgent is only run when the transmit is not queued
    have hnone : waiting s.mail reactI2cCommand = [] := by
      refine waiting_eq_nil_iff.mpr fun q hq hq1 => ?_
      have hdispatched := hp q hq
      rw [hq1] at hdispatched
      exact absurd hdispatched ((by decide : ∀ handle ∈ forwarders,
        ¬ (priority reactI2cCommand ≤ priority handle ∨
          reactI2cCommand ∈ [reactTimer, reactI2cRead, reactI2cError])) handle hforward)
    obtain ⟨rest, -, hmail⟩ := collect_eq_some hcol
    have hnone₁ : waiting mail reactI2cCommand = [] := by
      rw [hmail, if_neg (Ne.symm hcommand), hnone]
    obtain ⟨m, hm, hcurrent, hkeeps⟩ := hb.moves (handles_moves hhandles hforward) hroom hnone₁
      (hwait.trans hnone₁) hmade.stopped
    refine ⟨m, hm, hcurrent, fun hlt => ?_⟩
    obtain ⟨hb', hchanged⟩ := hkeeps hlt
    exact ⟨hb', fun hne => ⟨hchanged hne, hwait.trans hnone₁⟩⟩
  · have hquiet : ∀ c ∈ concerns handle, c ∉ [Concern.transmit, .trigger, .command] :=
      fun c hc => concerns_of_not_forwarder hc (by simp [hcommand, hforward])
    have hnot : ∀ c ∈ [Concern.transmit, .trigger, .command], c ∉ concerns handle :=
      fun c hc hmem => hquiet c hmem hc
    obtain ⟨m, hm, hcurrent, hkeeps⟩ := hb.others
      (hmade.othersMove fun c hc hmem => hquiet c hc (by
        simp only [List.mem_cons, List.not_mem_nil, or_false] at hmem ⊢
        tauto))
      (hframe.transmitTimer (hnot _ (by simp)) (hnot _ (by simp))) hwait hmade.stopped
    exact ⟨m, hm, hcurrent, fun hlt =>
      ⟨hkeeps hlt, fun hne => absurd (hframe.currentCommand (hnot _ (by simp))) hne⟩⟩

end Beating

theorem stepArms_run (hne : handle ≠ reactTimer) (hs : step fuel s (.run handle around) = some s')
    (hcurrent : s'.timer.currentInstance = (s.timer.currentInstance + m) % 2 ^ 32) (hm : m ≤ 8)
    (hlt : s.timer.currentInstance < 2 ^ 32) : stepArms fuel (s, .run handle around) = m := by
  unfold stepArms
  dsimp only
  rw [if_neg hne, hs, Option.map_some, Option.getD_some, hcurrent]
  omega

/-- **The step lemma.** -/
theorem Beating.step (ho : Orderly s) (h : Beating s) (hp : Dispatched (s, e))
    (hs : step fuel s e = some s') (hroom : HasRoom s')
    (hlt : s.timer.currentInstance + stepArms fuel (s, e) < timerInvalidInstance) :
    Beating s' ∧ s'.timer.currentInstance = s.timer.currentInstance + stepArms fuel (s, e) ∧
      (s'.currentCommand ≠ s.currentCommand →
        BroughtForward s' ∧ waiting s'.mail reactI2cCommand = []) := by
  have hreacts := reacts_of_step hs
  generalize hok : (Except.ok s' : Except State State) = r at hreacts
  cases hreacts with
  | tick =>
    obtain rfl := Except.ok.inj hok
    exact ⟨h.tick, rfl, fun hne => absurd rfl hne⟩
  | twi status hlocked =>
    obtain ⟨transfer, mail, heq, hmail⟩ := twiInterrupt_spec s status
    obtain rfl := (Except.ok.inj hok).trans heq
    exact ⟨h.of_waiting rfl rfl rfl (hmail _ (by decide) (by decide)) rfl, rfl,
      fun hne => absurd rfl hne⟩
  | @run handle arg mail around _ hcol hhandles =>
    by_cases htimer : handle = reactTimer
    · subst htimer
      cases hhandles with
      | @timer d hd =>
        obtain rfl := Except.ok.inj hok
        have harms : stepArms fuel (s, .run reactTimer around) =
            (waiting d.1 reactSample).length := by
          unfold stepArms
          dsimp only
          rw [if_pos rfl, hd, Option.map_some, Option.getD_some]
        rw [harms] at hlt ⊢
        obtain ⟨hb, hcurrent⟩ := (h.take hcol (by decide)).dispatch hd hlt
        exact ⟨hb, hcurrent, fun hne => absurd rfl hne⟩
    by_cases hsample : handle = reactSample
    · subst hsample
      have hwait := (ho.collect hcol).1.sample_waiting around.high
        (show reactI2cCommand ∉ inputTable.map Prod.snd by decide)
      cases hhandles
      obtain rfl := Except.ok.inj hok
      have harms : stepArms fuel (s, .run reactSample around) = 0 :=
        stepArms_run (by decide) hs (Nat.mod_eq_of_lt h.numbered.current_lt).symm (by omega)
          h.numbered.current_lt
      exact ⟨(h.take hcol (by decide)).of_waiting rfl rfl rfl hwait rfl, by rw [harms]; rfl,
        fun hne => absurd rfl hne⟩
    -- what is left are the handlers that are made of parts
    subst hok
    obtain ⟨m, hm, hcurrent, hkeeps⟩ :=
      h.handler hp hcol hhandles (by simp [htimer, hsample]) hroom
    rw [stepArms_run htimer hs hcurrent hm h.numbered.current_lt] at hlt ⊢
    obtain ⟨hb, hchanged⟩ := hkeeps hlt
    refine ⟨hb, hcurrent.trans (Nat.mod_eq_of_lt ?_), hchanged⟩
    unfold timerInvalidInstance at hlt
    omega

/-! ## Runs -/

theorem start_beating : Beating start := by
  have hstart : start.timer.pending.all (fun f =>
        (decide (f.rep ≠ 0) == decide (f.reactor = reactSample)) &&
        (decide (f.inst = start.transmitTimer) == decide (f.reactor = reactI2cCommand)) &&
        decide (f.inst ≤ start.timer.currentInstance)) = true ∧
      (keptNumbers start).all (fun x => decide (x ≠ start.transmitTimer) &&
        (decide (x ≤ start.timer.currentInstance) || decide (x = timerInvalidInstance))) = true ∧
      0 < start.transmitTimer ∧ start.transmitTimer ≤ start.timer.currentInstance ∧
      start.timer.currentInstance < 2 ^ 32 ∧ outstandingBeats start = 1 := by decide +kernel
  obtain ⟨htimers, hkept, hpos, hle, hlt, hone⟩ := hstart
  obtain ⟨l, hl, -⟩ := start_orderly.timers
  have hholds : start.timer.Holds start.timer.pending := hl.holds_pending
  refine ⟨⟨hholds, fun f hf => ?_, fun f hf => ?_, fun f hf => ?_, ⟨hpos, hle⟩, fun x hx => ?_⟩,
    ⟨hholds, hlt⟩, hone.le, fun _ => hone⟩
  · have := List.all_eq_true.mp htimers f hf
    simp only [Bool.and_eq_true, beq_iff_eq, decide_eq_decide] at this
    exact this.1.1
  · have := List.all_eq_true.mp htimers f hf
    simp only [Bool.and_eq_true, beq_iff_eq, decide_eq_decide] at this
    exact this.1.2
  · have := List.all_eq_true.mp htimers f hf
    simp only [Bool.and_eq_true, decide_eq_true_iff] at this
    exact this.2
  · simpa using List.all_eq_true.mp hkept x hx

theorem timersArmed_concat : timersArmed fuel (hist ++ [p]) =
    timersArmed fuel hist + stepArms fuel p := by
  simp only [timersArmed, List.map_append, List.map_singleton, List.sum_append, List.sum_singleton]
  omega

/-- The run lemma. -/
theorem beating_of_run (hr : Run (step fuel) start hist s) (hdispatched : ∀ p ∈ hist, Dispatched p)
    (hroom : ∀ p ∈ hist, HasRoom p.1) (hlast : HasRoom s) (harmed : timersArmed fuel hist < 2 ^ 32) :
    Beating s ∧ s.timer.currentInstance + 1 = timersArmed fuel hist ∧
      ∀ p ∈ hist.getLast?, s.currentCommand ≠ p.1.currentCommand →
        BroughtForward s ∧ waiting s.mail reactI2cCommand = [] := by
  induction hr with
  | nil => exact ⟨start_beating, rfl, by simp⟩
  | @snoc hist s s' e hrun hs ih =>
    rw [timersArmed_concat] at harmed ⊢
    obtain ⟨hb, hcurrent, -⟩ := ih (fun p hp => hdispatched p (by simp [hp]))
      (fun p hp => hroom p (by simp [hp])) (hroom (s, e) (by simp)) (by omega)
    obtain ⟨hb', hcurrent', hchanged⟩ := Beating.step (orderly_of_run hrun) hb
      (hdispatched (s, e) (by simp)) hs hlast (by
        unfold timerInvalidInstance
        omega)
    refine ⟨hb', by omega, fun p hp => ?_⟩
    rw [List.getLast?_concat, Option.mem_some] at hp
    subst hp
    exact hchanged

/-- **The heartbeat**: while the transmission goes on there is one
continuation, a timer with the number `transmitTimer` that is pending or a
notification that is queued, and there is never more than one. -/
structure HeartbeatKept (s : State) : Prop where
  one : outstandingBeats s ≤ 1
  going : s.stopTransmit = false → outstandingBeats s = 1
  own : ∀ f ∈ beats s, f.inst = s.transmitTimer

/-- **The heartbeat is neither lost nor duplicated**, as long as the timer
list is never full and less than 2^32 timers are armed. Right after a
handler that changed the command the transmit is due in a millisecond. -/
theorem heartbeat_kept (hr : Run (step fuel) start hist s)
    (hdispatched : ∀ p ∈ hist, Dispatched p) (hroom : ∀ p ∈ hist, HasRoom p.1) (hlast : HasRoom s)
    (harmed : timersArmed fuel hist < 2 ^ 32) :
    HeartbeatKept s ∧ ∀ p ∈ hist.getLast?, s.currentCommand ≠ p.1.currentCommand →
      waiting s.mail reactI2cCommand = [] ∧ ∃ f, beats s = [f] ∧ f.inst = s.transmitTimer ∧
        f.count = timerGetCountFromNow s.timer (timerMilliseconds 1) := by
  obtain ⟨hb, -, hchanged⟩ := beating_of_run hr hdispatched hroom hlast harmed
  have hown : ∀ f ∈ beats s, f.inst = s.transmitTimer := fun f hf =>
    (hb.ledger.own f (mem_timersFor.mp hf).1).mpr (mem_timersFor.mp hf).2
  refine ⟨⟨hb.one, hb.going, hown⟩, fun p hp hne => ?_⟩
  obtain ⟨⟨f, hf, hcount⟩, hnone⟩ := hchanged p hp hne
  exact ⟨hnone, f, hf, hown f (by rw [hf]; simp), hcount⟩

/-- The steps that number their timers one after the other, as the reactor
takes them, in lists that are not full. -/
def beatingStep : State → Event → Option State :=
  guarded (fun p => decide (p.2 = .tick) || (mostUrgent p && decide (HasRoom p.1) &&
    (step 64 p.1 p.2).all fun s =>
      decide (s.timer.currentInstance = p.1.timer.currentInstance + stepArms 64 p))) (step 64)

theorem beatingStep_tick (s : State) : beatingStep s .tick = step 64 s .tick := by
  rw [beatingStep, guarded, if_pos (by simp)]

/-- A run of such steps arms as many timers as there are numbers. -/
theorem run_of_beatingStep (hr : Run beatingStep start hist s) (hroom : HasRoom s) :
    Run (step 64) start hist s ∧ (∀ p ∈ hist, Dispatched p) ∧ (∀ p ∈ hist, HasRoom p.1) ∧
      timersArmed 64 hist = s.timer.currentInstance + 1 := by
  induction hr with
  | nil => exact ⟨.nil, by simp, by simp, rfl⟩
  | @snoc hist s s' e hrun hs ih =>
    unfold beatingStep guarded at hs
    split_ifs at hs with hcheck
    have hlast : Dispatched (s, e) ∧ HasRoom s ∧
        s'.timer.currentInstance = s.timer.currentInstance + stepArms 64 (s, e) := by
      simp only [Bool.or_eq_true, Bool.and_eq_true, decide_eq_true_iff] at hcheck
      rcases hcheck with rfl | ⟨⟨hurgent, hroom₀⟩, hnumbers⟩
      · obtain rfl : notify { s with timer := timerTick s.timer } reactTimer 0 = s' :=
          Option.some.inj hs
        refine ⟨trivial, ?_, rfl⟩
        obtain ⟨l, hl, -⟩ := (orderly_of_run (Run.of_guarded hrun).1).timers
        rw [HasRoom, hl.pending_eq]
        rwa [HasRoom, show (notify _ _ _).timer = timerTick s.timer from rfl,
          (timerTick_holds hl).pending_eq] at hroom
      · refine ⟨?_, hroom₀, ?_⟩
        · cases e with
          | tick => trivial
          | twi status => trivial
          | run handle around =>
            exact fun q hq => .inl (of_decide_eq_true (List.all_eq_true.mp hurgent q hq))
        · rw [hs, Option.all_some, decide_eq_true_iff] at hnumbers
          exact hnumbers
    obtain ⟨hrun', hdispatched, hrooms, harmed⟩ := ih hlast.2.1
    have hconcat : ∀ {P : State × Event → Prop}, (∀ p ∈ hist, P p) → P (s, e) →
        ∀ p ∈ hist ++ [(s, e)], P p := fun hall hp p hmem =>
      (List.mem_append.mp hmem).elim (hall p) fun h => List.mem_singleton.mp h ▸ hp
    refine ⟨hrun'.snoc hs, hconcat hdispatched hlast.1, hconcat hrooms hlast.2.1, ?_⟩
    rw [timersArmed_concat, harmed, hlast.2.2]
    omega

/-- The chuck is opened: its input has been high for one sample less than
it takes to settle. -/
def beforeUnclamp : Option State := stages beatingStep [([inChuckOpen], 4, 7)] start

/-- The time of the next sample. -/
def settlingSample : List Event :=
  List.replicate 5 .tick ++
    [.run reactTimer ⟨[inChuckOpen], false⟩, .run reactSample ⟨[inChuckOpen], false⟩]

/-- A new command is brought forward. -/
theorem heartbeat_kept_unclamp : ∃ hist s s',
    Run (step 64) start (hist ++ [(s, .run reactInputChange idle)]) s' ∧
    s'.currentCommand ≠ s.currentCommand ∧ HeartbeatKept s' ∧
    ∃ f, beats s' = [f] ∧ f.count = timerGetCountFromNow s'.timer 1 := by
  have heval : beforeUnclamp.any (fun s =>
      (runEvents beatingStep settlingSample s).any fun s =>
        (beatingStep s (.run reactInputChange idle)).any fun s' =>
          decide (s'.currentCommand ≠ s.currentCommand) && decide (HasRoom s') &&
            decide (s'.timer.currentInstance < 100)) = true := by decide +kernel
  obtain ⟨s₀, h₀, hsample⟩ := (Option.any_eq_true _ _).mp heval
  obtain ⟨s, h₁, hchange⟩ := (Option.any_eq_true _ _).mp hsample
  obtain ⟨s', hs, hchecks⟩ := (Option.any_eq_true _ _).mp hchange
  simp only [Bool.and_eq_true, decide_eq_true_iff] at hchecks
  obtain ⟨⟨hne, hroom⟩, hlt⟩ := hchecks
  obtain ⟨hist₀, hr₀⟩ := run_of_stages beatingStep_tick h₀
  obtain ⟨hist₁, hr₁, -⟩ := exists_run_of_runEvents h₁
  obtain ⟨hr, hdispatched, hrooms, harmed⟩ := run_of_beatingStep ((hr₀.trans hr₁).snoc hs) hroom
  obtain ⟨hkept, hchanged⟩ := heartbeat_kept hr hdispatched hrooms hroom (by omega)
  obtain ⟨-, f, hf, -, hcount⟩ := hchanged (s, .run reactInputChange idle) (by simp) hne
  exact ⟨_, s, s', hr, hne, hkept, f, hf, hcount⟩

end Controller

end CncPneumatics
