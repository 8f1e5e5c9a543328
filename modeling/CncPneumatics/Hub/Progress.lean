import CncPneumatics.Hub.Traffic
import Mathlib.Algebra.Order.BigOperators.Group.List
/-!
# The hub goes on

No handler of the running hub alerts, whatever it is sent: every queued
handler can be run, and running them leaves the queues empty, so that the
next millisecond can come. A new command is taken when the hub is ready.
-/

namespace CncPneumatics

open Asx

namespace Hub

variable {fuel : ℕ} {s s' : State} {hist : List (State × Event)} {p : State × Event} {e : Event}
  {a : TimerAgenda} {sampleAt checkAt : ℕ} {pressure : Bool}

/-- The handlers that the reactor has something to do for. -/
def handles : List ℕ :=
  [reactTimer, reactSample, reactAcceptComms, reactCheckComms, reactI2cHandler]

/-- The handlers of timers. -/
def timedHandles : List ℕ := [reactSample, reactAcceptComms, reactCheckComms]

/-! ## Every queued handler can be run -/

/-- A dispatch takes at most three turns of its loop. -/
theorem Inv.dueCount_le (h : Inv hist s a sampleAt checkAt) : dueCount a.now a.pending ≤ 3 := by
  have hone : ∀ n ∈ a.pending.map (firingCount a.now), n ≤ 1 := by
    intro n hn
    obtain ⟨e, he, rfl⟩ := List.mem_map.mp hn
    obtain ⟨-, -, -, hnext⟩ := h.deadline he
    unfold firingCount
    split_ifs with hlt hper
    · exact Nat.zero_le _
    · exact le_rfl
    · have := hnext hper
      rw [Nat.div_eq_of_lt (by omega)]
  have hlen : a.pending.length ≤ 3 := h.length_le
  calc dueCount a.now a.pending
      ≤ (a.pending.map (firingCount a.now)).length • 1 := List.sum_le_card_nsmul _ 1 hone
    _ ≤ 3 := by simpa using hlen

/-- What `_protocol_process` returns when it is called. -/
theorem Inv.process_ok (h : Inv hist s a sampleAt checkAt) (hlt : a.now < 2 ^ 31) (s₁ : State)
    (htimer : s₁.timer = s.timer) (hinst : s₁.readyToAcceptTimerInstance = timerInvalidInstance)
    (cmd : Opcode) : ∃ s', protocolProcess s₁ cmd = .ok s' := by
  obtain ⟨_, hproc, -⟩ := protocolProcess_ready (s := s₁) (htimer ▸ h.refines) hlt h.length_lt
    (fun e he => h.inWindow he) (by have := h.issued_lt hlt; omega) hinst cmd
  exact ⟨_, hproc⟩

/-- **No handler alerts.** -/
theorem Inv.enabled (h : Inv hist s a sampleAt checkAt) (hlt : a.now < 2 ^ 31) {k : ℕ}
    (hk : k ∈ handles) (hw : waiting s.mail k ≠ []) (hfuel : 4 ≤ fuel) (pressure : Bool) :
    ∃ s', step fuel s (.run k pressure) = some s' := by
  obtain ⟨arg, rest, hrest⟩ := List.exists_cons_of_ne_nil hw
  obtain ⟨mail, hcol, -⟩ := collect_of_cons hrest
  rw [step, hcol, Option.bind_some]
  simp only [handles, List.mem_cons, List.not_mem_nil, or_false] at hk
  rcases hk with rfl | rfl | rfl | rfl | rfl
  · obtain ⟨t, ht, -⟩ := h.refines.timerDispatch h.length_lt (h.drainable hlt) fuel
      (by have := h.dueCount_le; omega)
    exact ⟨_, by rw [handler, if_pos rfl, onTimer, ht, Option.map_some]⟩
  · exact ⟨_, rfl⟩
  · exact ⟨_, rfl⟩
  · -- the check
    suffices hok : ∃ s', onCheckComms { s with mail := mail } = .ok s' by
      obtain ⟨s', hs'⟩ := hok
      refine ⟨s', ?_⟩
      show (onCheckComms { s with mail := mail }).toOption = some s'
      rw [hs']; rfl
    unfold onCheckComms
    by_cases hz : s.messageReceivedCounter = 0
    · obtain ⟨hi, -⟩ := h.ready_of_silent hw hz
      obtain ⟨s₁, hs₁⟩ := h.process_ok hlt { s with mail := mail } rfl hi opcodesCmdIdle
      exact ⟨_, by simp only [if_pos hz, hs₁]; rfl⟩
    · exact ⟨_, by simp only [if_neg hz]; rfl⟩
  · -- a message
    suffices hok : ∃ s', protocolHandleTraffic { s with mail := mail } arg = .ok s' by
      obtain ⟨s', hs'⟩ := hok
      refine ⟨s', ?_⟩
      show (protocolHandleTraffic { s with mail := mail } arg).toOption = some s'
      rw [hs']; rfl
    unfold protocolHandleTraffic
    dsimp only
    by_cases hvalid : opcodesCheckCmdValid (UInt8.ofNat arg) ≠ opcodesCmdError
    · rw [if_pos hvalid]
      by_cases hnew : s.currentCmd ≠ UInt8.ofNat arg ∧ s.readyToAcceptNewCommand = true
      · rw [if_pos hnew]
        set s₁ : State := { s with
          mail := mail
          messageReceivedCounter := (s.messageReceivedCounter + 1) % 2 ^ 16
          currentCmd := UInt8.ofNat arg } with hs₁
        exact h.process_ok hlt s₁ rfl (h.grace_of_ready hnew.2).1 _
      · rw [if_neg hnew]; exact ⟨_, rfl⟩
    · rw [if_neg hvalid]; exact ⟨_, rfl⟩

/-! ## What it leaves in the queues -/

/-- A handler other than the timer dispatch notifies nobody. -/
theorem Inv.waiting_run (h : Inv hist s a sampleAt checkAt) {k : ℕ} (hk : k ≠ reactTimer)
    (hstep : step fuel s (.run k pressure) = some s') (j : ℕ) :
    waiting s'.mail j = if j = k then [] else waiting s.mail j := by
  cases steps_of_step hstep with
  | timer _ _ => exact absurd rfl hk
  | sample hcol =>
    rename_i arg mail
    have hnone := digitalInputSample_quiet
      (fun pin => pin = ioportPressureReadout && pressure) h.quiet
    show waiting (depositAll queueSize mail (digitalInputSample _ s.inputs).2) j = _
    rw [hnone]
    exact (h.collected hcol).2 j
  | accept hcol => exact (h.collected hcol).2 j
  | check hcol hs' =>
    rw [← (h.collected hcol).2 j]
    rcases onCheckComms_cases hs' with ⟨-, rfl⟩ | ⟨-, s₁, hproc, rfl⟩
    · rfl
    · exact congrArg (waiting · j) (protocolProcess_mail hproc)
  | traffic hcol hs' =>
    rw [← (h.collected hcol).2 j]
    rcases protocolHandleTraffic_cases hs' with ⟨-, -, -, hproc⟩ | ⟨-, -, rfl⟩ | ⟨-, rfl⟩
    · rw [protocolProcess_mail hproc]
    · rfl
    · rfl

/-- The timer dispatch notifies the handlers of timers only. -/
theorem Inv.waiting_timer (h : Inv hist s a sampleAt checkAt) (hlt : a.now < 2 ^ 31)
    (hstep : step fuel s (.run reactTimer pressure) = some s') {j : ℕ} (hj : j ∉ timedHandles) :
    waiting s'.mail j = if j = reactTimer then [] else waiting s.mail j := by
  cases steps_of_step hstep with
  | timer hcol hr =>
    rw [(h.refines.timerDispatch_of_some h.length_lt (h.drainable hlt) hr).1]
    obtain ⟨hfired, -⟩ := TimerAgenda.dispatch_nil (h.others j hj)
    exact (waiting_of_not_fired hfired).trans ((h.collected hcol).2 j)

/-- Nothing is queued for any other handle. -/
theorem waiting_eq_nil_of_run (hr : Run (step fuel) start hist s) (hb : Bounded hist) {k : ℕ}
    (hk : k ∉ handles) : waiting s.mail k = [] := by
  refine hr.invariant_history (I := fun hist s => Bounded hist → waiting s.mail k = []) ?_ ?_ hb
  · intro _; rfl
  · intro hist s e s' hrun ih hstep hb
    have hnil := ih hb.of_concat
    obtain ⟨a, S, K, h⟩ := inv_of_run hrun hb.of_concat
    cases e with
    | tick =>
      cases steps_of_step hstep with
      | tick _ =>
        rw [waiting_deposit, if_neg]
        · exact hnil
        · rintro rfl; exact hk (by decide)
    | receive byte =>
      cases steps_of_step hstep with
      | receive =>
        rw [waiting_deposit, if_neg]
        · exact hnil
        · rintro rfl; exact hk (by decide)
    | run j pressure =>
      by_cases hj : j = reactTimer
      · subst hj
        have hlt : a.now < 2 ^ 31 := by rw [h.now_eq]; exact hb.of_concat.ticks_lt
        rw [h.waiting_timer hlt hstep (fun hmem => hk (by
          revert hmem; simp only [timedHandles, handles, List.mem_cons]; tauto)), hnil, ite_self]
      · rw [h.waiting_run hj hstep, hnil, ite_self]

/-! ## Settling -/

/-- More steps of a bounded run. -/
theorem Bounded.concat (h : Bounded hist) (hticks : ticks (hist ++ [p]) < 2 ^ 31)
    (hmessages : messagesSince (hist ++ [p]) < 2 ^ 16) : Bounded (hist ++ [p]) where
  ticks_lt := hticks
  messages_lt := by
    intro h' hh'
    rcases List.prefix_concat_iff.mp hh' with rfl | hh'
    · exact hmessages
    · exact h.messages_lt h' hh'

/-- A handler step of a bounded run. -/
theorem Bounded.run (h : Bounded hist) (hroom : messagesSince hist + 1 < 2 ^ 16) {k : ℕ} :
    Bounded (hist ++ [(s, .run k pressure)]) := by
  refine h.concat (by rw [ticks_concat]; exact h.ticks_lt) ?_
  rw [messagesSince, countSince_concat]
  rw [messagesSince] at hroom
  split_ifs <;> omega

theorem handled_run {k : ℕ} (hk : k ≠ reactI2cHandler) :
    handled (s, .run k pressure) = none := by
  rw [handled, if_neg (by simpa [runs] using hk)]

/-- Steps that handle no message add none. -/
theorem messagesSince_append_le (hist : List (State × Event)) {g : List (State × Event)}
    (hg : ∀ p ∈ g, handled p = none) :
    messagesSince (hist ++ g) ≤ messagesSince hist := by
  induction g using List.reverseRecOn with
  | nil => simp
  | append_singleton g p ih =>
    rw [← List.append_assoc, messagesSince, countSince_concat, hg p (by simp)]
    split
    · exact Nat.zero_le _
    · exact ih fun p hp => hg p (by simp [hp])

/-- A bounded run that goes on without a tick. -/
structure Instant (fuel : ℕ) (hist g : List (State × Event)) (s : State) : Prop where
  run : Run (step fuel) start (hist ++ g) s
  bounded : Bounded (hist ++ g)
  ticks_eq : ticks (hist ++ g) = ticks hist

theorem Instant.trans {g g' : List (State × Event)} (h : Instant fuel hist g s)
    (h' : Instant fuel (hist ++ g) g' s') : Instant fuel hist (g ++ g') s' where
  run := by rw [← List.append_assoc]; exact h'.run
  bounded := by rw [← List.append_assoc]; exact h'.bounded
  ticks_eq := by rw [← List.append_assoc]; exact h'.ticks_eq.trans h.ticks_eq

/-- One handler is run, where it is queued. -/
theorem settle_one (hfuel : 4 ≤ fuel) {k : ℕ} (hk : k ∈ handles)
    (hr : Run (step fuel) start hist s) (hb : Bounded hist)
    (hroom : messagesSince hist + 1 < 2 ^ 16) :
    ∃ g s', Instant fuel hist g s' ∧
      (k ≠ reactI2cHandler ∨ waiting s.mail k = [] → ∀ p ∈ g, handled p = none) ∧
      ∀ j, (k = reactTimer → j ∉ timedHandles) →
        waiting s'.mail j = if j = k then [] else waiting s.mail j := by
  by_cases hw : waiting s.mail k = []
  · refine ⟨[], s, ⟨by simpa using hr, by simpa using hb, by simp⟩, by simp, fun j _ => ?_⟩
    by_cases hj : j = k
    · rw [if_pos hj, hj, hw]
    · rw [if_neg hj]
  · obtain ⟨a, S, K, h⟩ := inv_of_run hr hb
    have hlt : a.now < 2 ^ 31 := by rw [h.now_eq]; exact hb.ticks_lt
    obtain ⟨s', hstep⟩ := h.enabled hlt hk hw hfuel false
    refine ⟨[(s, .run k false)], s', ⟨hr.snoc hstep, hb.run hroom, ticks_concat⟩, ?_, fun j hj => ?_⟩
    · intro hne p hp
      obtain rfl := List.mem_singleton.mp hp
      exact handled_run (hne.resolve_right hw)
    · by_cases hk0 : k = reactTimer
      · have hj' := hj hk0
        subst hk0
        exact h.waiting_timer hlt hstep hj'
      · exact h.waiting_run hk0 hstep j

/-- The handlers of timers are run, where they are queued. -/
theorem settle_timed (hfuel : 4 ≤ fuel) (ks : List ℕ) (hks : ∀ k ∈ ks, k ∈ timedHandles)
    (hr : Run (step fuel) start hist s) (hb : Bounded hist)
    (hroom : messagesSince hist + 1 < 2 ^ 16) :
    ∃ g s', Instant fuel hist g s' ∧ (∀ p ∈ g, handled p = none) ∧
      ∀ j, waiting s'.mail j = if j ∈ ks then [] else waiting s.mail j := by
  induction ks generalizing hist s with
  | nil => exact ⟨[], s, ⟨by simpa using hr, by simpa using hb, by simp⟩, by simp, by simp⟩
  | cons k ks ih =>
    have hk := hks k (by simp)
    have hne : k ≠ reactTimer := by rintro rfl; exact absurd hk (by decide)
    have hne' : k ≠ reactI2cHandler := by rintro rfl; exact absurd hk (by decide)
    have hmem : k ∈ handles := by
      revert hk; simp only [timedHandles, handles, List.mem_cons]; tauto
    obtain ⟨g, s₁, h, hg, hmail⟩ := settle_one hfuel hmem hr hb hroom
    have hg := hg (.inl hne')
    obtain ⟨g', s', h', hg', hmail'⟩ := ih (fun j hj => hks j (by simp [hj])) h.run h.bounded
      (by have := messagesSince_append_le hist hg; omega)
    refine ⟨g ++ g', s', h.trans h', fun p hp => ?_, fun j => ?_⟩
    · exact (List.mem_append.mp hp).elim (hg p) (hg' p)
    · rw [hmail', hmail j fun hk0 => absurd hk0 hne]
      by_cases hj : j = k <;> simp [hj]

/-- **The hub settles.** From every state it reaches, unless the message
counter is about to wrap, running the queued handlers goes through and
leaves nothing queued; and it handles no message when none is queued. -/
theorem settles (hfuel : 4 ≤ fuel) (hr : Run (step fuel) start hist s) (hb : Bounded hist)
    (hroom : messagesSince hist + 1 < 2 ^ 16) :
    ∃ g s', Instant fuel hist g s' ∧ s'.mail = [] ∧
      (waiting s.mail reactI2cHandler = [] → ∀ p ∈ g, handled p = none) := by
  -- the dispatch first, since it queues the other handlers; then these, and the message
  obtain ⟨g₁, s₁, h₁, hg₁, hmail₁⟩ := settle_one hfuel (k := reactTimer) (by decide) hr hb hroom
  have hg₁ := hg₁ (.inl (by decide))
  have hroom₁ := messagesSince_append_le hist hg₁
  obtain ⟨g₂, s₂, h₂, hg₂, hmail₂⟩ := settle_timed hfuel timedHandles (fun _ hk => hk) h₁.run
    h₁.bounded (by omega)
  have hroom₂ := messagesSince_append_le (hist ++ g₁) hg₂
  obtain ⟨g₃, s₃, h₃, hg₃, hmail₃⟩ := settle_one hfuel (k := reactI2cHandler) (by decide) h₂.run
    h₂.bounded (by omega)
  refine ⟨g₁ ++ (g₂ ++ g₃), s₃, h₁.trans (h₂.trans h₃), ?_, fun hnone p hp => ?_⟩
  · refine eq_nil_of_waiting fun j => ?_
    by_cases hj : j ∈ handles
    · rw [hmail₃ j fun h => absurd h (by decide), hmail₂]
      simp only [handles, List.mem_cons, List.not_mem_nil, or_false] at hj
      rcases hj with rfl | rfl | rfl | rfl | rfl
      · rw [hmail₁ _ fun _ => by decide]; rfl
      · rfl
      · rfl
      · rfl
      · rfl
    · exact waiting_eq_nil_of_run h₃.run h₃.bounded hj
  · rcases List.mem_append.mp hp with hp | hp
    · exact hg₁ p hp
    · rcases List.mem_append.mp hp with hp | hp
      · exact hg₂ p hp
      · refine hg₃ (.inr ?_) p hp
        rw [hmail₂, hmail₁ _ fun _ => by decide]
        exact hnone

/-- Time is the number of ticks. -/
theorem counter_eq_ticks (hr : Run (step fuel) start hist s) (hb : Bounded hist) :
    s.timer.counter = ticks hist := by
  obtain ⟨_, _, _, h⟩ := inv_of_run hr hb
  exact h.refines.counter.trans h.now_eq

/-- **A hub without traffic** reaches the end of every millisecond. -/
theorem exists_quiet_run (hfuel : 4 ≤ fuel) {n : ℕ} (hn : n < 2 ^ 31) :
    ∃ hist s, Run (step fuel) start hist s ∧ Bounded hist ∧ s.mail = [] ∧ s.timer.counter = n ∧
      ∀ p ∈ hist, handled p = none := by
  induction n with
  | zero => exact ⟨[], start, .nil, .of_length (by decide), rfl, rfl, by simp⟩
  | succ n ih =>
    obtain ⟨hist, s, hr, hb, hmail, hnow, hnone⟩ := ih (by omega)
    have hstep : step fuel s .tick = some { s with
        timer := timerTick s.timer, mail := deposit queueSize s.mail reactTimer 0 } :=
      if_pos hmail
    have hticks := counter_eq_ticks hr hb
    have hnone₁ : ∀ p ∈ hist ++ [(s, .tick)], handled p = none := by
      intro p hp
      rcases List.mem_append.mp hp with hp | hp
      · exact hnone p hp
      · obtain rfl := List.mem_singleton.mp hp
        rfl
    have hzero : messagesSince (hist ++ [(s, .tick)]) = 0 :=
      Nat.le_zero.mp (messagesSince_append_le [] hnone₁)
    have htick : ticks (hist ++ [(s, .tick)]) = ticks hist + 1 := ticks_concat
    have hb₁ : Bounded (hist ++ [(s, .tick)]) :=
      hb.concat (by omega) (by omega)
    obtain ⟨g, s', h, hmail', hg⟩ := settles hfuel (hr.snoc hstep) hb₁ (by omega)
    refine ⟨_, s', h.run, h.bounded, hmail', ?_, fun p hp => ?_⟩
    · rw [counter_eq_ticks h.run h.bounded, h.ticks_eq, htick]
      omega
    · refine (List.mem_append.mp hp).elim (hnone₁ p) (hg ?_ p)
      rw [waiting_deposit, if_neg (by decide), hmail]
      rfl

/-! ## A command that is taken -/

/-- The checks come every two seconds, from the fifth second on. -/
theorem checkedAt_mod (hr : Run (step fuel) start hist s) (hb : Bounded hist) {l : ℕ}
    (hl : checkedAt hist = some l) : l % 2000 = 1000 := by
  refine hr.invariant_history
    (I := fun hist _ => Bounded hist → ∀ l, checkedAt hist = some l → l % 2000 = 1000) ?_ ?_ hb l hl
  · intro _ l hl
    cases hl
  · intro hist s e s' hrun ih hstep hb l hl
    rw [checkedAt_concat] at hl
    by_cases hruns : runs reactCheckComms (s, e) = true
    · rw [if_pos hruns, Option.some.injEq] at hl
      obtain ⟨a, S, K, h⟩ := inv_of_run hrun hb.of_concat
      have hw : waiting s.mail reactCheckComms ≠ [] := by
        cases steps_of_step hstep with
        | check hcol _ =>
          obtain ⟨rest, hw, -⟩ := collect_eq_some hcol
          rw [hw]
          simp
        | _ => cases hruns
      have hnow : s.timer.counter = nextCheck (checkedAt hist) :=
        h.refines.counter.trans (h.check_queued hw).2
      rw [← hl, timeOf, hnow]
      cases hlast : checkedAt hist with
      | none => rfl
      | some l' =>
        have := ih hb.of_concat l' hlast
        simp only [nextCheck, Option.elim_some]
        omega
    · rw [if_neg hruns] at hl
      exact ih hb.of_concat l hl

/-- A hub without traffic is ready again a second after each check. -/
theorem ready_of_quiet (hr : Run (step fuel) start hist s) (hb : Bounded hist)
    (hnone : ∀ p ∈ hist, handled p = none) (hlate : 1000 < (s.timer.counter + 1000) % 2000) :
    s.readyToAcceptNewCommand = true := by
  by_contra hnot
  obtain ⟨_, _, _, h⟩ := inv_of_run hr hb
  obtain ⟨t, ht, hle⟩ := h.processed_of_not_ready (by simpa using hnot)
  obtain ⟨p, hp, rfl⟩ := Option.map_eq_some_iff.mp ht
  obtain ⟨hmem, hproc⟩ := lastWhere_eq_some hp
  have hpast := timeOf_le hr hb hmem
  -- what was processed was the idle command of a check
  have hcheck : runs reactCheckComms p = true := by
    rw [processes, hnone p hmem, Option.any_none, Bool.or_false, Bool.and_eq_true] at hproc
    exact hproc.1
  obtain ⟨g₁, g₂, rfl⟩ := List.append_of_mem hmem
  rw [show g₁ ++ p :: g₂ = (g₁ ++ [p]) ++ g₂ by simp] at hr hb
  obtain ⟨s₁, hr₁, -⟩ := hr.of_append
  have hmod := checkedAt_mod (l := timeOf p) hr₁ hb.of_append (by rw [checkedAt_concat, if_pos hcheck])
  simp only [noNewCommandGracePeriod, timerMilliseconds] at hle
  omega

/-- **A new command is taken** by a hub that is ready for one, and has
nothing else to do. -/
theorem exists_run_of_command (hfuel : 4 ≤ fuel) (hr : Run (step fuel) start hist s)
    (hb : Bounded hist) (hroom : messagesSince hist + 1 < 2 ^ 16) (hmail : s.mail = [])
    (hready : s.readyToAcceptNewCommand = true) {cmd : Opcode} (hvalid : isValid cmd = true)
    (hnew : s.currentCmd ≠ cmd) :
    ∃ g s', Instant fuel hist g s' ∧ s'.mail = [] ∧ s'.currentCmd = cmd := by
  set s₁ : State := { s with mail := deposit queueSize s.mail reactI2cHandler cmd.toNat } with hs₁
  have hstep₁ : step fuel s (.receive cmd) = some s₁ := rfl
  have hmessages : messagesSince (hist ++ [(s, .receive cmd)]) ≤ messagesSince hist :=
    messagesSince_append_le hist (by simp [handled, runs])
  have hinstant₁ : Instant fuel hist [(s, .receive cmd)] s₁ :=
    ⟨hr.snoc hstep₁, hb.concat (by rw [ticks_concat]; exact hb.ticks_lt) (by omega), ticks_concat⟩
  have hwait : ∀ j, waiting s₁.mail j = if j = reactI2cHandler then [cmd.toNat] else [] := by
    intro j
    rw [hs₁, waiting_deposit, hmail]
    rfl
  obtain ⟨a, S, K, h⟩ := inv_of_run hinstant₁.run hinstant₁.bounded
  have hlt : a.now < 2 ^ 31 := by rw [h.now_eq]; exact hinstant₁.bounded.ticks_lt
  obtain ⟨s', hstep⟩ := h.enabled hlt (k := reactI2cHandler) (by decide)
    (by rw [hwait, if_pos rfl]; simp) hfuel false
  have hinstant₂ : Instant fuel (hist ++ [(s, .receive cmd)]) [(s₁, .run reactI2cHandler false)] s' :=
    ⟨hinstant₁.run.snoc hstep, hinstant₁.bounded.run (by omega), ticks_concat⟩
  refine ⟨_, s', hinstant₁.trans hinstant₂, ?_, ?_⟩
  · refine eq_nil_of_waiting fun j => ?_
    rw [h.waiting_run (by decide) hstep, hwait]
    split_ifs <;> rfl
  · cases steps_of_step hstep with
    | traffic hcol hs' =>
      rename_i arg mail
      obtain ⟨rest, hw, -⟩ := collect_eq_some hcol
      rw [hwait, if_pos rfl, List.cons.injEq] at hw
      rw [← hw.1] at hs'
      exact protocolHandleTraffic_takes (s := { s₁ with mail := mail }) hready hvalid hnew hs'

end Hub

end CncPneumatics
