import CncPneumatics.Asx.TimerRefines
import CncPneumatics.Common.History
import CncPneumatics.Common.Outcome
import CncPneumatics.Common.Run
import CncPneumatics.Hub.Protocol
/-!
# The clocks of the hub

The invariant of the running hub: where its three timers stand, what is
queued, and how both go with the times of the last command processed and
of the last check. Everything the hub promises about time rests on it.
-/

namespace CncPneumatics

open Asx

namespace Hub

/-! ## What a history says -/

/-- The time of a step, in milliseconds. -/
def timeOf (p : State × Event) : ℕ := p.1.timer.counter

/-- The step ran this handler. -/
def runs (handle : ℕ) (p : State × Event) : Bool :=
  match p.2 with
  | .run h _ => h = handle
  | _ => false

/-- The command in the message that the step handled. -/
def handled (p : State × Event) : Option Opcode :=
  if runs reactI2cHandler p then (waiting p.1.mail reactI2cHandler).head?.map UInt8.ofNat else none

/-- The command is one of those that `opcodes_check_cmd_valid` lets pass. -/
def isValid (cmd : Opcode) : Bool := opcodesCheckCmdValid cmd ≠ opcodesCmdError

/-- The step called `_protocol_process`: a check that found no message, or
a message with a new valid command when the hub was ready for one. -/
def processes (p : State × Event) : Bool :=
  (runs reactCheckComms p && p.1.messageReceivedCounter = 0) ||
    (handled p).any fun cmd =>
      isValid cmd && p.1.currentCmd ≠ cmd && p.1.readyToAcceptNewCommand

/-- When `_protocol_process` was last called. -/
def processedAt (hist : List (State × Event)) : Option ℕ := (lastWhere processes hist).map timeOf

/-- When the communication was last checked. -/
def checkedAt (hist : List (State × Event)) : Option ℕ :=
  (lastWhere (runs reactCheckComms) hist).map timeOf

/-- The number of ticks. -/
def ticks (hist : List (State × Event)) : ℕ := hist.countP fun p => p.2 = .tick

/-- The number of messages handled since the last check. -/
def messagesSince (hist : List (State × Event)) : ℕ :=
  countSince (runs reactCheckComms) (fun p => (handled p).isSome) hist

/-- The run is shorter than `2^31` ms, and there were never as many
messages between two checks as the counter has values. -/
structure Bounded (hist : List (State × Event)) : Prop where
  ticks_lt : ticks hist < 2 ^ 31
  messages_lt : ∀ h, h <+: hist → messagesSince h < 2 ^ 16

variable {fuel n₁ n₂ : ℕ} {s s' : State} {hist : List (State × Event)} {p : State × Event} {e : Event}

theorem processedAt_concat : processedAt (hist ++ [p]) =
    if processes p then some (timeOf p) else processedAt hist := by
  rw [processedAt, lastWhere_concat]
  cases processes p <;> rfl

theorem checkedAt_concat : checkedAt (hist ++ [p]) =
    if runs reactCheckComms p then some (timeOf p) else checkedAt hist := by
  rw [checkedAt, lastWhere_concat]
  cases runs reactCheckComms p <;> rfl

theorem ticks_concat : ticks (hist ++ [p]) = ticks hist + if p.2 = .tick then 1 else 0 := by
  rw [ticks, List.countP_append, List.countP_singleton]
  by_cases h : p.2 = .tick <;> simp [h, ticks]

theorem Bounded.of_concat (h : Bounded (hist ++ [p])) : Bounded hist where
  ticks_lt := by have := h.ticks_lt; rw [ticks_concat] at this; omega
  messages_lt := fun h' hh' => h.messages_lt h' (hh'.trans (List.prefix_append _ _))

/-- A run of few steps is bounded. -/
theorem Bounded.of_length (h : hist.length < 2 ^ 16) : Bounded hist where
  ticks_lt := by
    have : ticks hist ≤ hist.length := List.countP_le_length
    omega
  messages_lt := fun h' hh' => (countSince_le_length.trans hh'.length_le).trans_lt h

/-! ## One step -/

/-- **What a step can be.** -/
inductive Steps (fuel : ℕ) (s : State) : Event → State → Prop
  | tick : s.mail = [] → Steps fuel s .tick { s with
      timer := timerTick s.timer, mail := deposit queueSize s.mail reactTimer 0 }
  | receive {byte : UInt8} : Steps fuel s (.receive byte) { s with
      mail := deposit queueSize s.mail reactI2cHandler byte.toNat }
  | timer {arg : ℕ} {mail : Mailroom ℕ} {r : List (ℕ × ℕ) × Timer} {pressure : Bool} :
      collect s.mail reactTimer = some (arg, mail) → timerDispatch fuel s.timer = some r →
      Steps fuel s (.run reactTimer pressure) { s with
        timer := r.2, mail := depositAll queueSize mail r.1 }
  | sample {arg : ℕ} {mail : Mailroom ℕ} {pressure : Bool} :
      collect s.mail reactSample = some (arg, mail) →
      Steps fuel s (.run reactSample pressure) (onSample { s with mail := mail } pressure)
  | accept {arg : ℕ} {mail : Mailroom ℕ} {pressure : Bool} :
      collect s.mail reactAcceptComms = some (arg, mail) →
      Steps fuel s (.run reactAcceptComms pressure) (onAcceptCommandAgain { s with mail := mail })
  | check {arg : ℕ} {mail : Mailroom ℕ} {pressure : Bool} {s' : State} :
      collect s.mail reactCheckComms = some (arg, mail) →
      onCheckComms { s with mail := mail } = .ok s' →
      Steps fuel s (.run reactCheckComms pressure) s'
  | traffic {arg : ℕ} {mail : Mailroom ℕ} {pressure : Bool} {s' : State} :
      collect s.mail reactI2cHandler = some (arg, mail) →
      protocolHandleTraffic { s with mail := mail } arg = .ok s' →
      Steps fuel s (.run reactI2cHandler pressure) s'

theorem steps_of_step (h : step fuel s e = some s') : Steps fuel s e s' := by
  cases e with
  | tick =>
    unfold step at h
    by_cases hmail : s.mail = []
    · rw [if_pos hmail, Option.some.injEq] at h; subst h; exact .tick hmail
    · rw [if_neg hmail] at h; cases h
  | receive byte =>
    obtain rfl := Option.some.inj h
    exact .receive
  | run handle pressure =>
    rw [step, Option.bind_eq_some_iff] at h
    obtain ⟨⟨arg, mail⟩, hcol, h⟩ := h
    unfold handler at h
    split_ifs at h with h0 h1 h4 h5 h6
    · subst h0
      simp only [onTimer, Option.map_eq_some_iff] at h
      obtain ⟨r, hr, rfl⟩ := h
      exact .timer hcol hr
    · subst h1
      obtain rfl := Option.some.inj h
      exact .sample hcol
    · subst h4
      obtain rfl := Option.some.inj h
      exact .accept hcol
    · subst h5
      exact .check hcol (toOption_eq_some h)
    · subst h6
      exact .traffic hcol (toOption_eq_some h)

/-- The message of a step that handles one. -/
theorem handled_of_collect {arg : ℕ} {mail : Mailroom ℕ} (pressure : Bool)
    (hcol : collect s.mail reactI2cHandler = some (arg, mail)) :
    handled (s, .run reactI2cHandler pressure) = some (UInt8.ofNat arg) := by
  obtain ⟨rest, hw, -⟩ := collect_eq_some hcol
  rw [handled, if_pos (show runs reactI2cHandler (s, .run reactI2cHandler pressure) = true from
    rfl), hw]
  rfl

/-- Such a step processes when the message is valid and new and the hub is
ready. -/
theorem processes_of_collect {arg : ℕ} {mail : Mailroom ℕ} (pressure : Bool)
    (hcol : collect s.mail reactI2cHandler = some (arg, mail)) :
    processes (s, .run reactI2cHandler pressure) = (isValid (UInt8.ofNat arg) &&
      s.currentCmd ≠ UInt8.ofNat arg && s.readyToAcceptNewCommand) := by
  unfold processes
  rw [handled_of_collect pressure hcol]
  rfl

/-! ## The invariant -/

/-- Whether the hub takes a new command, and why, when the last one was
processed at a given time. -/
inductive Phase (processed : Option ℕ) (s : State) (a : TimerAgenda) : Prop
  /-- It does: the last command was processed long enough ago. -/
  | ready : s.readyToAcceptNewCommand = true →
      s.readyToAcceptTimerInstance = timerInvalidInstance → a.timersOf reactAcceptComms = [] →
      waiting s.mail reactAcceptComms = [] →
      (∀ p, processed = some p → p + noNewCommandGracePeriod ≤ a.now) → Phase processed s a
  /-- It does not, and the accept timer is pending. -/
  | held (p n : ℕ) : processed = some p → s.readyToAcceptNewCommand = false →
      a.timersOf reactAcceptComms =
        [⟨p + noNewCommandGracePeriod, 0, n, (reactAcceptComms, 0)⟩] →
      waiting s.mail reactAcceptComms = [] → p ≤ a.now → a.now ≤ p + noNewCommandGracePeriod →
      (waiting s.mail reactTimer = [] → a.now < p + noNewCommandGracePeriod) → Phase processed s a
  /-- It does not, and the accept timer has just expired. -/
  | due (p : ℕ) : processed = some p → s.readyToAcceptNewCommand = false →
      a.timersOf reactAcceptComms = [] → waiting s.mail reactAcceptComms ≠ [] →
      waiting s.mail reactTimer = [] → a.now = p + noNewCommandGracePeriod → Phase processed s a

/-- When a check is due after the last one. -/
def nextCheck (checked : Option ℕ) : ℕ := checked.elim 5000 (· + 2000)

/-- **The invariant of the running hub.** The agenda `a` is that of its
timer service; the sampling timer stands at `sampleAt` and the checking
timer at `checkAt`. -/
structure Inv (hist : List (State × Event)) (s : State) (a : TimerAgenda)
    (sampleAt checkAt : ℕ) : Prop where
  refines : Refines s.timer a
  now_eq : a.now = ticks hist
  others : ∀ k, k ∉ [reactSample, reactAcceptComms, reactCheckComms] → a.timersOf k = []
  quiet : ∀ di ∈ s.inputs, di.handler = reactorNullHandle
  mail_le : ∀ k, (waiting s.mail k).length ≤ 1
  dispatch_first : waiting s.mail reactTimer ≠ [] → waiting s.mail reactCheckComms = []
  sample : ∃ n, a.timersOf reactSample =
    [⟨sampleAt, digitalInputSamplePeriod, n, (reactSample, 0)⟩]
  sample_le : sampleAt ≤ a.now + digitalInputSamplePeriod
  sample_ge : a.now ≤ sampleAt + 1
  sample_lt : waiting s.mail reactTimer = [] → a.now < sampleAt ∨ a.now = 0
  check : ∃ n, a.timersOf reactCheckComms = [⟨checkAt, 2000, n, (reactCheckComms, 0)⟩]
  check_le : checkAt ≤ a.now + 5000
  check_ge : a.now ≤ checkAt
  check_lt : waiting s.mail reactTimer = [] → a.now < checkAt
  check_idle : waiting s.mail reactCheckComms = [] → checkAt = nextCheck (checkedAt hist)
  check_queued : waiting s.mail reactCheckComms ≠ [] →
    checkAt = a.now + 2000 ∧ a.now = nextCheck (checkedAt hist)
  phase : Phase (processedAt hist) s a
  silent : s.messageReceivedCounter = 0 → ∀ p, processedAt hist = some p →
    ∃ l, checkedAt hist = some l ∧ p ≤ l
  counter_le : s.messageReceivedCounter ≤ messagesSince hist
  numbers : a.issued ≤ 2 + sampleAt / digitalInputSamplePeriod + checkAt / 2000 +
    (processedAt hist).elim 0 fun p => p / noNewCommandGracePeriod + 1

variable {a : TimerAgenda} {sampleAt checkAt : ℕ}

namespace Inv

theorem processed_le (h : Inv hist s a sampleAt checkAt) {p : ℕ} (hp : processedAt hist = some p) :
    p ≤ a.now := by
  cases h.phase with
  | ready _ _ _ _ hle => have := hle p hp; omega
  | held q n hq _ _ _ hle _ _ => rw [hp, Option.some.injEq] at hq; omega
  | due q hq _ _ _ _ hnow => rw [hp, Option.some.injEq] at hq; omega

/-- A hub that is not ready is in the grace period of the last command. -/
theorem processed_of_not_ready (h : Inv hist s a sampleAt checkAt)
    (hnot : s.readyToAcceptNewCommand = false) :
    ∃ p, processedAt hist = some p ∧ s.timer.counter ≤ p + noNewCommandGracePeriod := by
  rw [h.refines.counter]
  cases h.phase with
  | ready hr _ _ _ _ => rw [hnot] at hr; cases hr
  | held p _ hp _ _ _ _ hle _ => exact ⟨p, hp, hle⟩
  | due p hp _ _ _ _ hnow => exact ⟨p, hp, hnow.le⟩

/-- A hub that is ready has no timer for it, and the grace period is over. -/
theorem grace_of_ready (h : Inv hist s a sampleAt checkAt)
    (hready : s.readyToAcceptNewCommand = true) :
    s.readyToAcceptTimerInstance = timerInvalidInstance ∧ a.timersOf reactAcceptComms = [] ∧
      waiting s.mail reactAcceptComms = [] ∧
      ∀ p, processedAt hist = some p → p + noNewCommandGracePeriod ≤ a.now := by
  cases h.phase with
  | ready _ hi hnil hw hle => exact ⟨hi, hnil, hw, hle⟩
  | held _ _ _ hr _ _ _ _ _ => rw [hready] at hr; cases hr
  | due _ _ hr _ _ _ _ => rw [hready] at hr; cases hr

/-- Where a pending timer can stand. -/
theorem deadline (h : Inv hist s a sampleAt checkAt) {e : Entry Notice} (he : e ∈ a.pending) :
    e.deadline ≤ a.now + 5000 ∧ a.now ≤ e.deadline + 1 ∧ e.period ≤ 2000 ∧
      (e.period ≠ 0 → a.now < e.deadline + e.period) := by
  have hof := TimerAgenda.mem_timersOf.mpr ⟨he, rfl⟩
  -- only three handlers ever have a timer
  by_cases hk : e.payload.1 ∈ [reactSample, reactAcceptComms, reactCheckComms]
  · simp only [List.mem_cons, List.not_mem_nil, or_false] at hk
    rcases hk with hk | hk | hk <;> rw [hk] at hof
    · obtain ⟨n, hs⟩ := h.sample
      rw [hs, List.mem_singleton] at hof
      have h1 := h.sample_le
      have h2 := h.sample_ge
      subst hof
      simp only [digitalInputSamplePeriod, timerMilliseconds] at h1 ⊢
      omega
    · cases h.phase with
      | ready _ _ hnil _ _ => rw [hnil] at hof; cases hof
      | due _ _ _ hnil _ _ _ => rw [hnil] at hof; cases hof
      | held p n _ _ hs _ h1 h2 _ =>
        rw [hs, List.mem_singleton] at hof
        subst hof
        simp only [noNewCommandGracePeriod, timerMilliseconds] at h2 ⊢
        omega
    · obtain ⟨n, hs⟩ := h.check
      rw [hs, List.mem_singleton] at hof
      have h1 := h.check_le
      have h2 := h.check_ge
      subst hof
      simp only
      omega
  · rw [h.others _ hk] at hof; cases hof

/-- At most three timers are pending. -/
theorem length_le (h : Inv hist s a sampleAt checkAt) : a.pending.length ≤ 3 := by
  have hle := TimerAgenda.length_le_of_timersOf h.others
  obtain ⟨n, hs⟩ := h.sample
  obtain ⟨m, hc⟩ := h.check
  have hacc : (a.timersOf reactAcceptComms).length ≤ 1 := by
    cases h.phase with
    | ready _ _ hnil _ _ => rw [hnil]; exact Nat.zero_le _
    | due _ _ _ hnil _ _ _ => rw [hnil]; exact Nat.zero_le _
    | held p n _ _ hs _ _ _ _ => rw [hs]; exact le_rfl
  simp only [List.map_cons, List.map_nil, List.sum_cons, List.sum_nil, hs, hc,
    List.length_singleton] at hle
  omega

theorem length_lt (h : Inv hist s a sampleAt checkAt) : a.pending.length < timerMaxCallback :=
  h.length_le.trans_lt (by decide)

theorem inWindow (h : Inv hist s a sampleAt checkAt) {e : Entry Notice} (he : e ∈ a.pending) :
    InWindow a.now e.deadline := by
  obtain ⟨h1, h2, -, -⟩ := h.deadline he
  exact ⟨by omega, by omega⟩

theorem drainable (h : Inv hist s a sampleAt checkAt) (hlt : a.now < 2 ^ 31) :
    Drainable a.now (a.now + 2 ^ 31) a.pending where
  now_lt := by omega
  window := le_rfl
  wrap := by omega
  early := fun e he => by have := h.deadline he; omega
  late := fun e he => by have := h.deadline he; omega
  left := by
    intro e he c hc
    have hle := remaining_le hc
    have hd := h.deadline he
    omega

/-- Fewer timers have been armed than there are instances. -/
theorem issued_lt (h : Inv hist s a sampleAt checkAt) (hlt : a.now < 2 ^ 31) :
    a.issued < 2 ^ 32 - 1 := by
  have h1 := h.numbers
  have h2 := h.sample_le
  have h3 := h.check_le
  have h4 : (processedAt hist).elim 0 (fun p => p / noNewCommandGracePeriod + 1) ≤
      a.now / 1000 + 1 := by
    cases hp : processedAt hist with
    | none => exact Nat.zero_le _
    | some p =>
      have hle := h.processed_le hp
      have := Nat.div_le_div_right (c := 1000) hle
      simp only [Option.elim_some, noNewCommandGracePeriod, timerMilliseconds]
      omega
  simp only [digitalInputSamplePeriod, timerMilliseconds] at h1 h2
  omega

end Inv

/-! ## Keeping it -/

/-- A step that neither processes a command nor checks. -/
theorem past_of_quiet (hist : List (State × Event)) (h₁ : processes p = false)
    (h₂ : runs reactCheckComms p = false) :
    processedAt (hist ++ [p]) = processedAt hist ∧ checkedAt (hist ++ [p]) = checkedAt hist ∧
      messagesSince (hist ++ [p]) = messagesSince hist + if (handled p).isSome then 1 else 0 := by
  refine ⟨?_, ?_, ?_⟩
  · rw [processedAt_concat, h₁]; rfl
  · rw [checkedAt_concat, h₂]; rfl
  · rw [messagesSince, countSince_concat, h₂]; rfl

/-- The state `main` sets up, but for its timers. -/
theorem start_eq {t₁ t₂ : Timer}
    (h₁ : timerArm timerInit reactSample 0 digitalInputSamplePeriod 0 = some (n₁, t₁))
    (h₂ : timerArm t₁ reactCheckComms 5000 (timerSeconds 2) 0 = some (n₂, t₂))
    (hcount : t₁.counter = 0) :
    start = ⟨t₂, [], valvesOff [],
      [digitalInput ioportPressureReadout reactorNullHandle (timerMilliseconds 50)],
      opcodesCmdIdle, true, timerInvalidInstance, 0⟩ := by
  have hfrom : timerGetCountFromNow timerInit 0 = 0 := rfl
  have hfrom' : timerGetCountFromNow t₁ (timerSeconds 5) = 5000 := by
    rw [timerGetCountFromNow, hcount]; rfl
  simp only [start, main, boardInit, protocolInit, armTimer, Except.bind, hfrom, h₁, hfrom', h₂,
    List.nil_append]

/-- The hub starts with the sampling timer due at once and the first check
in five seconds. -/
theorem start_inv : ∃ a, Inv [] start a 0 5000 := by
  obtain ⟨t₁, harm₁, hr₁⟩ := timerInit_refines.timerArm (by decide)
    reactSample 0 digitalInputSamplePeriod 0 (by decide) ⟨by decide, by decide⟩
    (by simp [TimerAgenda.start])
  obtain ⟨t₂, harm₂, hr₂⟩ := hr₁.timerArm (by decide)
    reactCheckComms 5000 (timerSeconds 2) 0 (by decide) ⟨by decide, by decide⟩ (by
      intro e he
      rcases mem_insertEntry.mp he with rfl | he
      · exact ⟨by decide, by decide⟩
      · cases he)
  rw [start_eq harm₁ harm₂ hr₁.counter]
  refine ⟨_, hr₂, rfl, ?_, ?_, ?_, ?_, ⟨0, rfl⟩, by decide, by decide, fun _ => .inr rfl,
    ⟨1, rfl⟩, by decide, by decide, fun _ => by decide, fun _ => rfl,
    fun hne => absurd rfl hne, .ready rfl rfl rfl rfl (by simp [processedAt]), fun _ _ hp => ?_,
    le_rfl, by decide⟩
  · intro k hk
    rw [TimerAgenda.timersOf_arm_of_ne, TimerAgenda.timersOf_arm_of_ne]
    · rfl
    · rintro rfl; exact absurd hk (by decide)
    · rintro rfl; exact absurd hk (by decide)
  · intro di hdi
    obtain rfl := List.mem_singleton.mp hdi
    rfl
  · intro k; exact Nat.zero_le _
  · intro hne; exact absurd rfl hne
  · cases hp

/-- A millisecond passes. -/
theorem Inv.tick (h : Inv hist s a sampleAt checkAt) (hmail : s.mail = [])
    (hb : Bounded (hist ++ [(s, .tick)])) :
    Inv (hist ++ [(s, .tick)]) { s with
      timer := timerTick s.timer, mail := deposit queueSize s.mail reactTimer 0 }
      a.tick sampleAt checkAt := by
  obtain ⟨hp, hc, hm⟩ := past_of_quiet hist (show processes (s, .tick) = false from rfl) rfl
  have hticks : ticks (hist ++ [(s, .tick)]) = ticks hist + 1 := ticks_concat
  have hnow : a.now + 1 < 2 ^ 31 := by rw [h.now_eq, ← hticks]; exact hb.ticks_lt
  have hempty : ∀ k, waiting s.mail k = [] := fun k => by rw [hmail]; rfl
  have hmail' : ∀ k, waiting (deposit queueSize s.mail reactTimer 0) k =
      if k = reactTimer then [0] else [] := fun k => by
    rw [waiting_deposit, hempty, hempty]; rfl
  have hlt := h.sample_lt (hempty _)
  have hclt := h.check_lt (hempty _)
  have hcidle := h.check_idle (hempty _)
  -- time only passes with no handler queued: the clock and the dispatch are all that is new
  constructor
  · exact h.refines.timerTick (by omega)
  · rw [hticks, ← h.now_eq]; rfl
  · exact h.others
  · exact h.quiet
  · intro k; rw [hmail']; split <;> simp
  · intro _; rw [hmail']; rfl
  · exact h.sample
  · have := h.sample_le; exact this.trans (Nat.add_le_add_right (Nat.le_succ _) _)
  · show a.now + 1 ≤ sampleAt + 1; omega
  · intro hnil; rw [hmail'] at hnil; cases hnil
  · exact h.check
  · have := h.check_le; exact this.trans (Nat.add_le_add_right (Nat.le_succ _) _)
  · exact hclt
  · intro hnil; rw [hmail'] at hnil; cases hnil
  · intro _; rw [hc]; exact hcidle
  · intro hne; rw [hmail'] at hne; exact absurd rfl hne
  · rw [hp]
    cases h.phase with
    | ready hr hi hnil _ hle =>
      exact .ready hr hi hnil (by rw [hmail']; rfl) fun p hp => (hle p hp).trans (Nat.le_succ _)
    | held p n hpr hr hs _ hle _ hlt =>
      refine .held p n hpr hr hs (by rw [hmail']; rfl) (hle.trans (Nat.le_succ _)) (hlt (hempty _))
        fun hnil => ?_
      rw [hmail'] at hnil; cases hnil
    | due p _ _ _ hne _ _ => exact absurd (hempty _) hne
  · rw [hp, hc]; exact h.silent
  · rw [hm]; have := h.counter_le; exact this.trans (Nat.le_add_right _ _)
  · rw [hp]; exact h.numbers

/-- **A step that touches no timer and no queue of a timed handler**, and
neither processes nor checks, keeps the invariant. -/
theorem Inv.keep (h : Inv hist s a sampleAt checkAt) (h₁ : processes p = false)
    (h₂ : runs reactCheckComms p = false) (h₃ : p.2 ≠ .tick) (htimer : s'.timer = s.timer)
    (hready : s'.readyToAcceptNewCommand = s.readyToAcceptNewCommand)
    (hinst : s'.readyToAcceptTimerInstance = s.readyToAcceptTimerInstance)
    (hquiet : ∀ di ∈ s'.inputs, di.handler = reactorNullHandle)
    (hmail : ∀ k, k ∈ [reactTimer, reactAcceptComms, reactCheckComms] →
      waiting s'.mail k = waiting s.mail k)
    (hmail_le : ∀ k, (waiting s'.mail k).length ≤ 1)
    (hsilent : s'.messageReceivedCounter = 0 → s.messageReceivedCounter = 0)
    (hcounter : s'.messageReceivedCounter ≤ messagesSince (hist ++ [p])) :
    Inv (hist ++ [p]) s' a sampleAt checkAt := by
  obtain ⟨hp, hc, -⟩ := past_of_quiet hist h₁ h₂
  have hticks : ticks (hist ++ [p]) = ticks hist := by rw [ticks_concat, if_neg h₃]; rfl
  have h0 := hmail reactTimer (by simp)
  have h4 := hmail reactAcceptComms (by simp)
  have h5 := hmail reactCheckComms (by simp)
  constructor
  · rw [htimer]; exact h.refines
  · rw [hticks]; exact h.now_eq
  · exact h.others
  · exact hquiet
  · exact hmail_le
  · rw [h0, h5]; exact h.dispatch_first
  · exact h.sample
  · exact h.sample_le
  · exact h.sample_ge
  · rw [h0]; exact h.sample_lt
  · exact h.check
  · exact h.check_le
  · exact h.check_ge
  · rw [h0]; exact h.check_lt
  · rw [h5, hc]; exact h.check_idle
  · rw [h5, hc]; exact h.check_queued
  · rw [hp]
    cases h.phase with
    | ready hr hi hnil h4' hle =>
      exact .ready (hready.trans hr) (hinst.trans hi) hnil (h4.trans h4') hle
    | held p n hpr hr hs h4' hle hle' hlt =>
      exact .held p n hpr (hready.trans hr) hs (h4.trans h4') hle hle' (by rw [h0]; exact hlt)
    | due p hpr hr hnil hne h0' hnow =>
      exact .due p hpr (hready.trans hr) hnil (by rw [h4]; exact hne) (h0.trans h0') hnow
  · rw [hp, hc]; exact fun hz => h.silent (hsilent hz)
  · exact hcounter
  · rw [hp]; exact h.numbers

/-- Messages only add up until the next check. -/
theorem Inv.counter_le_concat (h : Inv hist s a sampleAt checkAt) (h₁ : processes p = false)
    (h₂ : runs reactCheckComms p = false) :
    s.messageReceivedCounter ≤ messagesSince (hist ++ [p]) := by
  rw [(past_of_quiet hist h₁ h₂).2.2]
  exact h.counter_le.trans (Nat.le_add_right _ _)

/-- A byte comes in. -/
theorem Inv.receive (h : Inv hist s a sampleAt checkAt) (byte : UInt8) :
    Inv (hist ++ [(s, .receive byte)]) { s with
      mail := deposit queueSize s.mail reactI2cHandler byte.toNat } a sampleAt checkAt := by
  refine h.keep rfl rfl (by simp) rfl rfl rfl h.quiet (fun k hk => ?_) (fun k => ?_) id
    (h.counter_le_concat rfl rfl)
  · rw [waiting_deposit, if_neg]
    rintro rfl
    exact absurd hk (by decide)
  · rw [waiting_deposit]
    split
    · exact post_length_le (h.mail_le _) Nat.one_pos
    · exact h.mail_le k

/-- What is left in the queues after one was popped. -/
theorem Inv.collected (h : Inv hist s a sampleAt checkAt) {handle arg : ℕ} {mail : Mailroom ℕ}
    (hcol : collect s.mail handle = some (arg, mail)) :
    waiting s.mail handle = [arg] ∧
      ∀ k, waiting mail k = if k = handle then [] else waiting s.mail k := by
  obtain ⟨rest, hw, hk⟩ := collect_eq_some hcol
  have hle := h.mail_le handle
  rw [hw, List.length_cons] at hle
  obtain rfl : rest = [] := List.length_eq_zero_iff.mp (by omega)
  exact ⟨hw, hk⟩

theorem Inv.collected_le (h : Inv hist s a sampleAt checkAt) {handle arg : ℕ} {mail : Mailroom ℕ}
    (hcol : collect s.mail handle = some (arg, mail)) (k : ℕ) : (waiting mail k).length ≤ 1 := by
  rw [(h.collected hcol).2]
  split
  · exact Nat.zero_le _
  · exact h.mail_le k

/-- The pressure is sampled. -/
theorem Inv.onSample (h : Inv hist s a sampleAt checkAt) {arg : ℕ} {mail : Mailroom ℕ}
    (hcol : collect s.mail reactSample = some (arg, mail)) (pressure : Bool) :
    Inv (hist ++ [(s, .run reactSample pressure)]) (onSample { s with mail := mail } pressure)
      a sampleAt checkAt := by
  have hnone := digitalInputSample_quiet (fun pin => pin = ioportPressureReadout && pressure)
    h.quiet
  have hmail : (Hub.onSample { s with mail := mail } pressure).mail = mail := by
    show depositAll queueSize mail (digitalInputSample _ s.inputs).2 = mail
    rw [hnone]
    rfl
  refine h.keep rfl rfl (by simp) rfl rfl rfl ?_ (fun k hk => ?_) (fun k => ?_) id
    (h.counter_le_concat rfl rfl)
  · intro di hdi
    replace hdi : di ∈ (digitalInputSample _ s.inputs).1 := hdi
    rw [digitalInputSample_fst] at hdi
    obtain ⟨di', hdi', rfl⟩ := List.mem_map.mp hdi
    rw [digitalInputIntegrate_handler]
    exact h.quiet di' hdi'
  · rw [hmail, (h.collected hcol).2, if_neg]
    rintro rfl
    exact absurd hk (by decide)
  · rw [hmail]; exact h.collected_le hcol k

/-- The hub takes commands again. -/
theorem Inv.accept (h : Inv hist s a sampleAt checkAt) {arg : ℕ} {mail : Mailroom ℕ}
    (hcol : collect s.mail reactAcceptComms = some (arg, mail)) (pressure : Bool) :
    Inv (hist ++ [(s, .run reactAcceptComms pressure)])
      (onAcceptCommandAgain { s with mail := mail }) a sampleAt checkAt := by
  obtain ⟨hp, hc, hm⟩ := past_of_quiet hist
    (show processes (s, .run reactAcceptComms pressure) = false from rfl) rfl
  have hticks : ticks (hist ++ [(s, .run reactAcceptComms pressure)]) = ticks hist := ticks_concat
  obtain ⟨hw, hmail⟩ := h.collected hcol
  have h0 : waiting mail reactTimer = waiting s.mail reactTimer := hmail _
  have h5 : waiting mail reactCheckComms = waiting s.mail reactCheckComms := hmail _
  constructor
  · exact h.refines
  · rw [hticks]; exact h.now_eq
  · exact h.others
  · exact h.quiet
  · exact h.collected_le hcol
  · simp only [onAcceptCommandAgain]; rw [h0, h5]; exact h.dispatch_first
  · exact h.sample
  · exact h.sample_le
  · exact h.sample_ge
  · simp only [onAcceptCommandAgain]; rw [h0]; exact h.sample_lt
  · exact h.check
  · exact h.check_le
  · exact h.check_ge
  · simp only [onAcceptCommandAgain]; rw [h0]; exact h.check_lt
  · simp only [onAcceptCommandAgain]; rw [h5, hc]; exact h.check_idle
  · simp only [onAcceptCommandAgain]; rw [h5, hc]; exact h.check_queued
  · -- the notification was that of the timer of the last command
    rw [hp]
    have hw4 : waiting mail reactAcceptComms = [] := hmail _
    cases h.phase with
    | ready _ _ _ hnil _ => rw [hnil] at hw; cases hw
    | held _ _ _ _ _ hnil _ _ _ => rw [hnil] at hw; cases hw
    | due p hpr _ hnil _ _ hnow =>
      refine .ready rfl rfl hnil hw4 fun q hq => ?_
      rw [hpr, Option.some.injEq] at hq
      omega
  · rw [hp, hc]; exact h.silent
  · rw [hm]; have := h.counter_le; exact this.trans (Nat.le_add_right _ _)
  · rw [hp]; exact h.numbers

/-- What a dispatch leaves in a queue that was empty. -/
theorem waiting_after_dispatch {mail : Mailroom ℕ} {k : ℕ} (hempty : waiting mail k = [])
    (hone : (a.firedOf k).length ≤ 1) :
    waiting (depositAll queueSize mail (a.dispatch.1.map Entry.payload)) k =
      (a.firedOf k).map fun c => c.2.2.2 := by
  rw [waiting_depositAll, hempty, TimerAgenda.waiting_dispatch]
  rcases hfired : a.firedOf k with _ | ⟨c, _ | ⟨d, l⟩⟩
  · rfl
  · rfl
  · rw [hfired] at hone
    simp only [List.length_cons] at hone
    omega

/-- What a dispatch leaves in a queue that it does not notify. -/
theorem waiting_of_not_fired {mail : Mailroom ℕ} {k : ℕ} (hnone : a.firedOf k = []) :
    waiting (depositAll queueSize mail (a.dispatch.1.map Entry.payload)) k = waiting mail k := by
  rw [waiting_depositAll, TimerAgenda.waiting_dispatch, hnone]
  rfl

/-- The sampling timer in a dispatch. -/
theorem Inv.sample_dispatch (h : Inv hist s a sampleAt checkAt) :
    ∃ sampleAt' n, a.dispatch.2.timersOf reactSample =
        [⟨sampleAt', digitalInputSamplePeriod, n, (reactSample, 0)⟩] ∧
      a.now < sampleAt' ∧ sampleAt' ≤ a.now + digitalInputSamplePeriod ∧
      (a.firedOf reactSample).length ≤ 1 ∧
      sampleAt' / digitalInputSamplePeriod = sampleAt / digitalInputSamplePeriod +
        (a.firedOf reactSample).countP fun c => c.2.1 ≠ 0 := by
  obtain ⟨n, hs⟩ := h.sample
  have h1 := h.sample_le
  have h2 := h.sample_ge
  simp only [digitalInputSamplePeriod, timerMilliseconds] at hs h1 ⊢
  rcases Nat.lt_or_ge a.now sampleAt with hlt | hge
  · obtain ⟨hfired, hleft⟩ := TimerAgenda.dispatch_later hs hlt
    exact ⟨sampleAt, n, hleft, hlt, h1, by rw [hfired]; exact Nat.zero_le _, by rw [hfired]; rfl⟩
  · obtain ⟨hfired, m, hleft⟩ :=
      TimerAgenda.dispatch_renew hs hge (by simp) (by dsimp only; omega)
    refine ⟨sampleAt + 5, m, hleft, by omega, by omega, by rw [hfired]; exact le_rfl, ?_⟩
    rw [hfired, Nat.add_div_right _ (by decide)]
    rfl

/-- The checking timer in a dispatch. -/
theorem Inv.check_dispatch (h : Inv hist s a sampleAt checkAt) :
    ∃ checkAt' n, a.dispatch.2.timersOf reactCheckComms =
        [⟨checkAt', 2000, n, (reactCheckComms, 0)⟩] ∧
      a.now < checkAt' ∧ checkAt' ≤ a.now + 5000 ∧
      (a.firedOf reactCheckComms).length ≤ 1 ∧
      checkAt' / 2000 = checkAt / 2000 + ((a.firedOf reactCheckComms).countP fun c => c.2.1 ≠ 0) ∧
      (a.firedOf reactCheckComms = [] → checkAt' = checkAt) ∧
      (a.firedOf reactCheckComms ≠ [] → checkAt = a.now ∧ checkAt' = a.now + 2000) := by
  obtain ⟨n, hs⟩ := h.check
  have h1 := h.check_le
  have h2 := h.check_ge
  rcases Nat.lt_or_ge a.now checkAt with hlt | hge
  · obtain ⟨hfired, hleft⟩ := TimerAgenda.dispatch_later hs hlt
    exact ⟨checkAt, n, hleft, hlt, h1, by rw [hfired]; exact Nat.zero_le _, by rw [hfired]; rfl,
      fun _ => rfl, fun hne => absurd hfired hne⟩
  · obtain ⟨hfired, m, hleft⟩ :=
      TimerAgenda.dispatch_renew hs hge (by simp) (by dsimp only; omega)
    refine ⟨checkAt + 2000, m, hleft, by omega, by omega, by rw [hfired]; exact le_rfl, ?_,
      fun hnil => ?_, fun _ => ⟨by omega, by omega⟩⟩
    · rw [hfired, Nat.add_div_right _ (by decide)]
      rfl
    · rw [hfired] at hnil; cases hnil

/-- The accept timer in a dispatch: it goes on waiting, or its notification
is queued. -/
theorem Inv.phase_dispatch (h : Inv hist s a sampleAt checkAt) {mail : Mailroom ℕ} {timer : Timer}
    (hwaiting : waiting s.mail reactTimer ≠ [])
    (haccept : waiting mail reactAcceptComms = waiting s.mail reactAcceptComms)
    (h0 : waiting (depositAll queueSize mail (a.dispatch.1.map Entry.payload)) reactTimer = []) :
    Phase (processedAt hist)
        { s with timer := timer, mail := depositAll queueSize mail (a.dispatch.1.map Entry.payload) }
        a.dispatch.2 ∧
      ((a.firedOf reactAcceptComms).countP fun c => c.2.1 ≠ 0) = 0 := by
  cases h.phase with
  | ready hready hi hnil hw4 hle =>
    obtain ⟨hfired, hleft⟩ := TimerAgenda.dispatch_nil hnil
    refine ⟨.ready hready hi hleft ?_ (by rw [TimerAgenda.dispatch_now]; exact hle),
      by rw [hfired]; rfl⟩
    exact (waiting_of_not_fired hfired).trans (haccept.trans hw4)
  | held p n hpr hready hs hw4 hle hle' _ =>
    have hw4' : waiting mail reactAcceptComms = [] := haccept.trans hw4
    rcases Nat.lt_or_ge a.now (p + noNewCommandGracePeriod) with hlt | hge
    · obtain ⟨hfired, hleft⟩ := TimerAgenda.dispatch_later hs hlt
      refine ⟨.held p n hpr hready hleft ((waiting_of_not_fired hfired).trans hw4') ?_ ?_ ?_,
        by rw [hfired]; rfl⟩
      · rw [TimerAgenda.dispatch_now]; exact hle
      · rw [TimerAgenda.dispatch_now]; exact hle'
      · rw [TimerAgenda.dispatch_now]; exact fun _ => hlt
    · obtain ⟨hfired, hleft⟩ := TimerAgenda.dispatch_once hs hge rfl
      refine ⟨.due p hpr hready hleft ?_ h0 ?_, by rw [hfired]; rfl⟩
      · show waiting (depositAll _ _ _) _ ≠ []
        rw [waiting_after_dispatch hw4' (by rw [hfired]; exact le_rfl), hfired]
        simp
      · rw [TimerAgenda.dispatch_now]; exact le_antisymm hle' hge
  | due _ _ _ _ _ hnil _ => exact absurd hnil hwaiting

/-- **The timers are dispatched.** -/
theorem Inv.timer (h : Inv hist s a sampleAt checkAt) {arg : ℕ} {mail : Mailroom ℕ}
    {r : List (ℕ × ℕ) × Timer} {pressure : Bool}
    (hcol : collect s.mail reactTimer = some (arg, mail)) (hr : timerDispatch fuel s.timer = some r)
    (hb : Bounded (hist ++ [(s, .run reactTimer pressure)])) :
    ∃ sampleAt' checkAt', Inv (hist ++ [(s, .run reactTimer pressure)])
      { s with timer := r.2, mail := depositAll queueSize mail r.1 }
      a.dispatch.2 sampleAt' checkAt' := by
  obtain ⟨hp, hc, hm⟩ := past_of_quiet hist
    (show processes (s, .run reactTimer pressure) = false from rfl) rfl
  have hticks : ticks (hist ++ [(s, .run reactTimer pressure)]) = ticks hist := ticks_concat
  have hlt : a.now < 2 ^ 31 := by rw [h.now_eq]; exact hb.of_concat.ticks_lt
  obtain ⟨hr1, hr2⟩ := h.refines.timerDispatch_of_some h.length_lt (h.drainable hlt) hr
  obtain ⟨hw, hmail⟩ := h.collected hcol
  -- no check waits behind a dispatch, so what waits for it afterwards was fired by this one
  have hfirst : waiting s.mail reactCheckComms = [] :=
    h.dispatch_first (by rw [hw]; simp)
  have hw0 : waiting mail reactTimer = [] := hmail _
  have hw5 : waiting mail reactCheckComms = [] := (hmail _).trans hfirst
  -- the timers of the hub, each with what it fires now and when it is due next
  obtain ⟨sampleAt', n, hs, hslt, hsle, hsone, hscount⟩ := h.sample_dispatch
  obtain ⟨checkAt', m, hk, hklt, hkle, hkone, hkcount, hknone, hksome⟩ := h.check_dispatch
  have hothers : ∀ k, k ∉ [reactSample, reactAcceptComms, reactCheckComms] →
      a.firedOf k = [] ∧ a.dispatch.2.timersOf k = [] :=
    fun k hk => TimerAgenda.dispatch_nil (h.others k hk)
  have h0 : waiting (depositAll queueSize mail (a.dispatch.1.map Entry.payload)) reactTimer = [] :=
    (waiting_of_not_fired (hothers _ (by decide)).1).trans hw0
  have h5 := waiting_after_dispatch hw5 hkone
  obtain ⟨hphase, hcount⟩ := h.phase_dispatch (by rw [hw]; simp)
    (show waiting mail reactAcceptComms = _ from hmail _) h0
  have hnum : a.dispatch.2.issued ≤ a.issued +
      ((a.firedOf reactSample).countP fun c => c.2.1 ≠ 0) +
      ((a.firedOf reactCheckComms).countP fun c => c.2.1 ≠ 0) := by
    have hle := TimerAgenda.dispatch_issued_le h.others
    simp only [List.map_cons, List.map_nil, List.sum_cons, List.sum_nil, hcount] at hle
    omega
  refine ⟨sampleAt', checkAt', ?_⟩
  rw [hr1]
  constructor
  · exact hr2
  · rw [hticks, TimerAgenda.dispatch_now]; exact h.now_eq
  · exact fun k hk => (hothers k hk).2
  · exact h.quiet
  · intro k
    dsimp only
    rw [waiting_depositAll]
    exact foldl_post_length_le Nat.one_pos (h.collected_le hcol k)
  · intro hne; exact absurd h0 hne
  · exact ⟨n, hs⟩
  · rw [TimerAgenda.dispatch_now]; exact hsle
  · rw [TimerAgenda.dispatch_now]; omega
  · rw [TimerAgenda.dispatch_now]; exact fun _ => .inl hslt
  · exact ⟨m, hk⟩
  · rw [TimerAgenda.dispatch_now]; exact hkle
  · rw [TimerAgenda.dispatch_now]; omega
  · rw [TimerAgenda.dispatch_now]; exact fun _ => hklt
  · intro hnil
    rw [h5, List.map_eq_nil_iff] at hnil
    rw [hknone hnil, hc]
    exact h.check_idle hfirst
  · intro hne
    rw [h5, ne_eq, List.map_eq_nil_iff] at hne
    obtain ⟨hk1, hk2⟩ := hksome hne
    rw [TimerAgenda.dispatch_now, hc]
    exact ⟨hk2, hk1 ▸ h.check_idle hfirst⟩
  · rw [hp]; exact hphase
  · rw [hp, hc]; exact h.silent
  · rw [hm]; have := h.counter_le; exact this.trans (Nat.le_add_right _ _)
  · rw [hp, hscount, hkcount]
    have := h.numbers
    omega

/-- **Processing a command when the hub is ready**: the accept timer is
armed for the end of the grace period. -/
theorem protocolProcess_ready (hr : Refines s.timer a) (hlt : a.now < 2 ^ 31)
    (hlen : a.pending.length < timerMaxCallback)
    (hwin : ∀ e ∈ a.pending, InWindow a.now e.deadline) (hissued : a.issued < 2 ^ 32)
    (hinst : s.readyToAcceptTimerInstance = timerInvalidInstance) (cmd : Opcode) :
    ∃ timer, protocolProcess s cmd = .ok { s with
        timer := timer, pins := valveOn cmd (valvesOff s.pins), readyToAcceptNewCommand := false,
        readyToAcceptTimerInstance := a.issued } ∧
      Refines timer (a.arm reactAcceptComms (a.now + noNewCommandGracePeriod) 0 0) := by
  have hcount : timerGetCountFromNow s.timer noNewCommandGracePeriod =
      a.now + noNewCommandGracePeriod := by
    rw [timerGetCountFromNow, hr.counter]
    simp only [noNewCommandGracePeriod, timerMilliseconds]
    omega
  obtain ⟨timer, harm, htimer⟩ := hr.timerArm hlen reactAcceptComms
    (a.now + noNewCommandGracePeriod) 0 0 (by decide)
    (by simp only [InWindow, noNewCommandGracePeriod, timerMilliseconds]; omega) hwin
  refine ⟨timer, ?_, htimer⟩
  rw [if_neg (by simp), Nat.mod_eq_of_lt hissued] at harm
  unfold protocolProcess
  dsimp only
  rw [if_neg (by simpa using hinst), hcount, harm]

/-- The invariant after a step that processed a command. -/
theorem Inv.processed (h : Inv hist s a sampleAt checkAt) (mail : Mailroom ℕ)
    (hproc : processes p = true) (htime : timeOf p = a.now) (htick : p.2 ≠ .tick)
    (hready : a.timersOf reactAcceptComms = [] ∧ waiting s.mail reactAcceptComms = [] ∧
      ∀ p, processedAt hist = some p → p + noNewCommandGracePeriod ≤ a.now)
    (hmail : ∀ k, k ∈ [reactTimer, reactAcceptComms] →
      waiting mail k = waiting s.mail k) (hmail_le : ∀ k, (waiting mail k).length ≤ 1)
    (hfirst : waiting mail reactTimer ≠ [] → waiting mail reactCheckComms = [])
    (hidle : waiting mail reactCheckComms = [] →
      checkAt = nextCheck (checkedAt (hist ++ [p])))
    (hqueued : waiting mail reactCheckComms ≠ [] →
      checkAt = a.now + 2000 ∧ a.now = nextCheck (checkedAt (hist ++ [p])))
    (hs' : s'.mail = mail ∧ s'.inputs = s.inputs ∧ s'.readyToAcceptNewCommand = false)
    (htimer : Refines s'.timer (a.arm reactAcceptComms (a.now + noNewCommandGracePeriod) 0 0))
    (hsilent : s'.messageReceivedCounter = 0 → ∃ l, checkedAt (hist ++ [p]) = some l ∧ a.now ≤ l)
    (hcounter : s'.messageReceivedCounter ≤ messagesSince (hist ++ [p])) :
    Inv (hist ++ [p]) s' (a.arm reactAcceptComms (a.now + noNewCommandGracePeriod) 0 0)
      sampleAt checkAt := by
  have hp : processedAt (hist ++ [p]) = some a.now := by
    rw [processedAt_concat, hproc, htime]; rfl
  have hticks : ticks (hist ++ [p]) = ticks hist := by rw [ticks_concat, if_neg htick]; rfl
  obtain ⟨hacc, hw4, hle⟩ := hready
  obtain ⟨hm, hi, hr⟩ := hs'
  have h0 := hmail reactTimer (by simp)
  have h4 := hmail reactAcceptComms (by simp)
  constructor
  · exact htimer
  · rw [hticks]; exact h.now_eq
  · intro k hk
    rw [TimerAgenda.timersOf_arm_of_ne]
    · exact h.others k hk
    · rintro rfl; exact absurd hk (by decide)
  · rw [hi]; exact h.quiet
  · rw [hm]; exact hmail_le
  · rw [hm]; exact hfirst
  · rw [TimerAgenda.timersOf_arm_of_ne (by decide)]; exact h.sample
  · exact h.sample_le
  · exact h.sample_ge
  · rw [hm, h0]; exact h.sample_lt
  · rw [TimerAgenda.timersOf_arm_of_ne (by decide)]; exact h.check
  · exact h.check_le
  · exact h.check_ge
  · rw [hm, h0]; exact h.check_lt
  · rw [hm]; exact hidle
  · rw [hm]; exact hqueued
  · rw [hp]
    refine .held a.now a.issued rfl hr (TimerAgenda.timersOf_arm_self hacc) (by rw [hm, h4, hw4])
      le_rfl (Nat.le_add_right _ _) fun _ => ?_
    exact Nat.lt_add_of_pos_right (by decide)
  · rw [hp]
    intro hz p' hp'
    obtain rfl := Option.some.inj hp'
    exact hsilent hz
  · exact hcounter
  · rw [hp]
    have hnum := h.numbers
    -- commands that are processed lie a grace period apart: each adds one to the quotient
    have hone : (processedAt hist).elim 0 (fun p => p / noNewCommandGracePeriod + 1) + 1 ≤
        a.now / noNewCommandGracePeriod + 1 := by
      cases hpr : processedAt hist with
      | none => exact Nat.le_add_left _ _
      | some p' =>
        have := Nat.div_le_div_right (c := noNewCommandGracePeriod) (hle p' hpr)
        rw [Nat.add_div_right _ (by decide)] at this
        simp only [Option.elim_some]
        omega
    simp only [Option.elim_some]
    show a.issued + 1 ≤ _
    omega

/-- A check that finds nothing finds the hub ready: a whole check period
has passed since the last command was processed. -/
theorem Inv.ready_of_silent (h : Inv hist s a sampleAt checkAt)
    (hw : waiting s.mail reactCheckComms ≠ []) (hz : s.messageReceivedCounter = 0) :
    s.readyToAcceptTimerInstance = timerInvalidInstance ∧ a.timersOf reactAcceptComms = [] ∧
      waiting s.mail reactAcceptComms = [] ∧
      ∀ p, processedAt hist = some p → p + noNewCommandGracePeriod ≤ a.now := by
  -- nothing came since the last check, so the last command is at least as old as that
  have hlong : ∀ p, processedAt hist = some p → p + 2000 ≤ a.now := by
    intro p hp
    obtain ⟨l, hl, hle⟩ := h.silent hz p hp
    have hnow := (h.check_queued hw).2
    rw [hl] at hnow
    simp only [nextCheck, Option.elim_some] at hnow
    omega
  cases h.phase with
  | ready hr hi hnil hw4 hle => exact ⟨hi, hnil, hw4, hle⟩
  | held p _ hp _ _ _ _ hle _ =>
    have := hlong p hp
    simp only [noNewCommandGracePeriod, timerMilliseconds] at hle
    omega
  | due p hp _ _ _ _ hnow =>
    have := hlong p hp
    simp only [noNewCommandGracePeriod, timerMilliseconds] at hnow
    omega

/-- **The communication is checked.** -/
theorem Inv.onCheck (h : Inv hist s a sampleAt checkAt) {arg : ℕ} {mail : Mailroom ℕ}
    {pressure : Bool} (hcol : collect s.mail reactCheckComms = some (arg, mail))
    (hs' : onCheckComms { s with mail := mail } = .ok s')
    (hb : Bounded (hist ++ [(s, .run reactCheckComms pressure)])) :
    ∃ a', Inv (hist ++ [(s, .run reactCheckComms pressure)]) s' a' sampleAt checkAt ∧
      a'.now = a.now := by
  have hlt : a.now < 2 ^ 31 := by rw [h.now_eq]; exact hb.of_concat.ticks_lt
  have hticks : ticks (hist ++ [(s, .run reactCheckComms pressure)]) = ticks hist := ticks_concat
  have htime : timeOf (s, .run reactCheckComms pressure) = a.now := h.refines.counter
  have hchecked : checkedAt (hist ++ [(s, .run reactCheckComms pressure)]) = some a.now := by
    rw [checkedAt_concat, htime]; rfl
  obtain ⟨hw, hmail⟩ := h.collected hcol
  have hw5 : waiting mail reactCheckComms = [] := hmail _
  have h0 : waiting mail reactTimer = waiting s.mail reactTimer := hmail _
  have h4 : waiting mail reactAcceptComms = waiting s.mail reactAcceptComms := hmail _
  obtain ⟨hcheckAt, -⟩ := h.check_queued (by rw [hw]; simp)
  unfold onCheckComms at hs'
  dsimp only at hs'
  -- a count of zero puts the idle command through; otherwise only the count starts again
  by_cases hz : s.messageReceivedCounter = 0
  · obtain ⟨hi, hnil, hw4, hle⟩ := h.ready_of_silent (by rw [hw]; simp) hz
    obtain ⟨timer, hproc, htimer⟩ := protocolProcess_ready (s := { s with mail := mail })
      h.refines hlt h.length_lt (fun e he => h.inWindow he)
      (by have := h.issued_lt hlt; omega) hi opcodesCmdIdle
    rw [if_pos hz, hproc] at hs'
    obtain rfl := Except.ok.inj hs'
    refine ⟨_, h.processed mail ?_ htime (by simp) ⟨hnil, hw4, hle⟩ ?_
      (h.collected_le hcol) (fun _ => hw5) ?_ ?_ ⟨rfl, rfl, rfl⟩ htimer ?_ (Nat.zero_le _), rfl⟩
    · simp only [processes, hz]; rfl
    · intro k hk
      simp only [List.mem_cons, List.not_mem_nil, or_false] at hk
      rcases hk with rfl | rfl
      · exact h0
      · exact h4
    · intro _; rw [hchecked]; exact hcheckAt
    · intro hne; exact absurd hw5 hne
    · intro _; exact ⟨a.now, hchecked, le_rfl⟩
  · rw [if_neg hz] at hs'
    obtain rfl := Except.ok.inj hs'
    have hquiet : processes (s, .run reactCheckComms pressure) = false := by
      simp only [processes, hz, decide_false, Bool.and_false, Bool.false_or]; rfl
    have hp : processedAt (hist ++ [(s, .run reactCheckComms pressure)]) = processedAt hist := by
      rw [processedAt_concat, hquiet]; rfl
    refine ⟨a, ?_, rfl⟩
    constructor
    · exact h.refines
    · rw [hticks]; exact h.now_eq
    · exact h.others
    · exact h.quiet
    · exact h.collected_le hcol
    · intro _; exact hw5
    · exact h.sample
    · exact h.sample_le
    · exact h.sample_ge
    · dsimp only; rw [h0]; exact h.sample_lt
    · exact h.check
    · exact h.check_le
    · exact h.check_ge
    · dsimp only; rw [h0]; exact h.check_lt
    · intro _; rw [hchecked]; exact hcheckAt
    · intro hne; exact absurd hw5 hne
    · rw [hp]
      cases h.phase with
      | ready hr hi hnil h4' hle => exact .ready hr hi hnil (h4.trans h4') hle
      | held p n hpr hr hs h4' hle hle' hlt =>
        exact .held p n hpr hr hs (h4.trans h4') hle hle' (by dsimp only; rw [h0]; exact hlt)
      | due p hpr hr hnil hne h0' hnow =>
        exact .due p hpr hr hnil (by dsimp only; rw [h4]; exact hne) (h0.trans h0') hnow
    · rw [hp]
      intro _ p hp'
      exact ⟨a.now, hchecked, h.processed_le hp'⟩
    · exact Nat.zero_le _
    · rw [hp]; exact h.numbers

/-- **A message is handled.** -/
theorem Inv.traffic (h : Inv hist s a sampleAt checkAt) {arg : ℕ} {mail : Mailroom ℕ}
    {pressure : Bool} (hcol : collect s.mail reactI2cHandler = some (arg, mail))
    (hs' : protocolHandleTraffic { s with mail := mail } arg = .ok s')
    (hb : Bounded (hist ++ [(s, .run reactI2cHandler pressure)])) :
    ∃ a', Inv (hist ++ [(s, .run reactI2cHandler pressure)]) s' a' sampleAt checkAt ∧
      a'.now = a.now := by
  have hlt : a.now < 2 ^ 31 := by rw [h.now_eq]; exact hb.of_concat.ticks_lt
  have htime : timeOf (s, .run reactI2cHandler pressure) = a.now := h.refines.counter
  obtain ⟨hw, hmail⟩ := h.collected hcol
  have hhandled := handled_of_collect pressure hcol
  have hprocesses := processes_of_collect pressure hcol
  -- this message is counted, and the count does not wrap
  have hcount : messagesSince (hist ++ [(s, .run reactI2cHandler pressure)]) =
      messagesSince hist + 1 := by
    rw [messagesSince, countSince_concat, hhandled]; rfl
  have hwrap : (s.messageReceivedCounter + 1) % 2 ^ 16 = s.messageReceivedCounter + 1 := by
    have h1 := h.counter_le
    have h2 := hb.messages_lt _ (List.prefix_refl _)
    rw [hcount] at h2
    exact Nat.mod_eq_of_lt (by omega)
  have hcounter : s.messageReceivedCounter + 1 ≤
      messagesSince (hist ++ [(s, .run reactI2cHandler pressure)]) := by
    rw [hcount]; exact Nat.add_le_add_right h.counter_le 1
  have hmail' : ∀ k, k ≠ reactI2cHandler → waiting mail k = waiting s.mail k :=
    fun k hk => by rw [hmail, if_neg hk]
  unfold protocolHandleTraffic at hs'
  dsimp only at hs'
  rw [hwrap] at hs'
  by_cases hvalid : opcodesCheckCmdValid (UInt8.ofNat arg) ≠ opcodesCmdError
  · rw [if_pos hvalid] at hs'
    have hv : isValid (UInt8.ofNat arg) = true := by simpa [isValid] using hvalid
    by_cases hnew : s.currentCmd ≠ UInt8.ofNat arg ∧ s.readyToAcceptNewCommand = true
    · rw [if_pos hnew] at hs'
      have hready := h.grace_of_ready hnew.2
      set s₁ : State := { s with
        mail := mail
        messageReceivedCounter := s.messageReceivedCounter + 1
        currentCmd := UInt8.ofNat arg } with hs₁
      obtain ⟨timer, hproc, htimer⟩ := protocolProcess_ready (s := s₁)
        h.refines hlt h.length_lt (fun e he => h.inWindow he)
        (by have := h.issued_lt hlt; omega) hready.1 (UInt8.ofNat arg)
      rw [hproc] at hs'
      obtain rfl := Except.ok.inj hs'
      have hc : checkedAt (hist ++ [(s, .run reactI2cHandler pressure)]) = checkedAt hist := by
        rw [checkedAt_concat]; rfl
      have h5 := hmail' reactCheckComms (by decide)
      refine ⟨_, h.processed mail ?_ htime (by simp) hready.2 ?_
        (h.collected_le hcol) ?_ ?_ ?_ ⟨rfl, rfl, rfl⟩ htimer ?_ hcounter, rfl⟩
      · rw [hprocesses, hv, hnew.2]; simpa using hnew.1
      · intro k hk
        refine hmail' k ?_
        rintro rfl
        exact absurd hk (by decide)
      · rw [hmail' reactTimer (by decide), h5]; exact h.dispatch_first
      · rw [h5, hc]; exact h.check_idle
      · rw [h5, hc]; exact h.check_queued
      · intro hz
        exact absurd hz (Nat.succ_ne_zero _)
    · rw [if_neg hnew] at hs'
      obtain rfl := Except.ok.inj hs'
      refine ⟨a, h.keep ?_ rfl (by simp) rfl rfl rfl h.quiet ?_ (h.collected_le hcol) ?_ hcounter,
        rfl⟩
      · rw [hprocesses, hv, Bool.true_and]
        cases hr : s.readyToAcceptNewCommand
        · simp
        · simp only [Bool.and_true, ne_eq, decide_not, Bool.not_eq_false',
            decide_eq_true_eq]
          by_contra hne
          exact hnew ⟨hne, hr⟩
      · intro k hk
        refine hmail' k ?_
        rintro rfl
        exact absurd hk (by decide)
      · intro hz; exact absurd hz (Nat.succ_ne_zero _)
  · rw [if_neg hvalid] at hs'
    obtain rfl := Except.ok.inj hs'
    have hv : isValid (UInt8.ofNat arg) = false := by simpa [isValid] using hvalid
    refine ⟨a, h.keep ?_ rfl (by simp) rfl rfl rfl h.quiet ?_ (h.collected_le hcol) id
      ((Nat.le_succ _).trans hcounter), rfl⟩
    · rw [hprocesses, hv]; rfl
    · intro k hk
      refine hmail' k ?_
      rintro rfl
      exact absurd hk (by decide)

/-! ## Over a run -/

theorem Bounded.of_append {h₁ h₂ : List (State × Event)} (h : Bounded (h₁ ++ h₂)) :
    Bounded h₁ where
  ticks_lt := by
    have := h.ticks_lt
    rw [ticks, List.countP_append] at this
    exact lt_of_le_of_lt (Nat.le_add_right _ _) this
  messages_lt := fun h' hh' => h.messages_lt h' (hh'.trans (List.prefix_append _ _))

/-- The step lemma. -/
theorem inv_step (h : Inv hist s a sampleAt checkAt) (hstep : step fuel s e = some s')
    (hb : Bounded (hist ++ [(s, e)])) :
    ∃ a' sampleAt' checkAt', Inv (hist ++ [(s, e)]) s' a' sampleAt' checkAt' := by
  cases steps_of_step hstep with
  | tick hmail => exact ⟨_, _, _, h.tick hmail hb⟩
  | receive => exact ⟨_, _, _, h.receive _⟩
  | timer hcol hr =>
    obtain ⟨S, K, h'⟩ := h.timer hcol hr hb
    exact ⟨_, S, K, h'⟩
  | sample hcol => exact ⟨_, _, _, h.onSample hcol _⟩
  | accept hcol => exact ⟨_, _, _, h.accept hcol _⟩
  | check hcol hs' =>
    obtain ⟨a', h', -⟩ := h.onCheck hcol hs' hb
    exact ⟨_, _, _, h'⟩
  | traffic hcol hs' =>
    obtain ⟨a', h', -⟩ := h.traffic hcol hs' hb
    exact ⟨_, _, _, h'⟩

/-- **The run lemma.** -/
theorem inv_of_run (hr : Run (step fuel) start hist s) (hb : Bounded hist) :
    ∃ a sampleAt checkAt, Inv hist s a sampleAt checkAt := by
  refine hr.invariant_history
    (I := fun hist s => Bounded hist → ∃ a S K, Inv hist s a S K) ?_ ?_ hb
  · intro _
    obtain ⟨a, h⟩ := start_inv
    exact ⟨a, _, _, h⟩
  · intro hist s e s' _ ih hstep hb
    obtain ⟨a, S, K, h⟩ := ih hb.of_concat
    exact inv_step h hstep hb

/-- Time does not run back. -/
theorem timeOf_le (hr : Run (step fuel) start hist s) (hb : Bounded hist) (hp : p ∈ hist) :
    timeOf p ≤ s.timer.counter := by
  obtain ⟨h₁, h₂, rfl⟩ := List.append_of_mem hp
  obtain ⟨q, e⟩ := p
  obtain ⟨hrun, -⟩ := hr.step_of_mem
  obtain ⟨a, _, _, ha⟩ := inv_of_run hrun hb.of_append
  obtain ⟨b, _, _, hb⟩ := inv_of_run hr hb
  rw [timeOf, ha.refines.counter, hb.refines.counter, ha.now_eq, hb.now_eq]
  simp only [ticks, List.countP_append]
  omega

theorem times_sorted (hr : Run (step fuel) start hist s) (hb : Bounded hist) :
    hist.Pairwise fun p q => timeOf p ≤ timeOf q := by
  refine hr.invariant_history
    (I := fun hist _ => Bounded hist → hist.Pairwise fun p q => timeOf p ≤ timeOf q) ?_ ?_ hb
  · intro _; exact .nil
  · intro hist s e s' hrun ih _ hb
    refine List.pairwise_append.mpr ⟨ih hb.of_concat, List.pairwise_singleton _ _, ?_⟩
    intro p hp q hq
    obtain rfl := List.mem_singleton.mp hq
    exact timeOf_le hrun hb.of_concat hp

end Hub

end CncPneumatics
