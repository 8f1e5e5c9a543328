import CncPneumatics.Asx.DirectServed
import CncPneumatics.Common.History
import Mathlib.Data.List.Count
/-!
# Interrupts that are acknowledged

Each direct pin that is masked has one outstanding step that will unmask
it: a notification of the direct handler, an acknowledgement that is
queued, or the timer of one. The queues of both handlers hold a single
message, and a pin whose message is overwritten stays masked for ever.
-/

namespace CncPneumatics

namespace Asx

variable {c : DirectInputs} {s s' : DirectState} {hist : List (DirectState × DirectEvent)}
  {p : DirectState × DirectEvent} {e : DirectEvent} {pin fuel : ℕ}

/-- **The steps that will unmask pins**, each by its pin. -/
def outstanding (c : DirectInputs) (s : DirectState) : List (Option ℕ) :=
  (waiting s.mail c.reactDirectHandler).map (fun a => some (argPin a)) ++
    ((waiting s.mail c.reactAckIt).map (pinAt c) ++
      (timersFor c.reactAckIt s.timer.pending).map fun f => pinAt c f.arg)

/-- **No pin is left dead**: each direct pin that is masked has an
outstanding step that will unmask it. -/
def NoneDead (c : DirectInputs) (s : DirectState) : Prop :=
  ∀ di ∈ c.firstDirect, masked s di.pin = true → some di.pin ∈ outstanding c s

instance : Decidable (NoneDead c s) := by
  unfold NoneDead
  infer_instance

/-- The level of a pin in the port value that an interrupt read. -/
def ownLevel (pin : ℕ) (p : DirectState × DirectEvent) : Option Bool :=
  match p with
  | (_, .pinChange _ portValue _) => some (portValue.getLsbD (ioportPinToIndex pin))
  | _ => none

/-- The level of a pin in the port value read by the last interrupt that
took it. -/
def readLevel (hist : List (DirectState × DirectEvent)) (pin : ℕ) : Option Bool :=
  (lastWhere (takes pin) hist).bind (ownLevel pin)

/-- The input whose handler a step notifies, and with what. -/
def toldOf (c : DirectInputs) (p : DirectState × DirectEvent) : Option (DirectInput × ℕ) :=
  match p with
  | (s, .run handle) =>
    if handle = c.reactDirectHandler then
      (waiting s.mail handle).head?.bind fun arg =>
        ((c.firstDirect.find? fun di => di.pin = argPin arg).filter fun di =>
          di.handler ≠ reactorNullHandle).map fun di => (di, arg)
    else none
  | _ => none

/-- **Handlers are told the levels of their pins**, as the interrupts read
them. -/
def ToldOwnLevel (c : DirectInputs) (hist : List (DirectState × DirectEvent)) : Prop :=
  ∀ h₁ p h₂, hist = h₁ ++ p :: h₂ → ∀ di arg, toldOf c p = some (di, arg) →
    argPin arg = di.pin ∧ readLevel h₁ di.pin = some (argValue arg)

/-- The acknowledgements that are due. -/
def dueAcks (c : DirectInputs) (t : Timer) : List TimerFuture :=
  (timersFor c.reactAckIt t.pending).filter fun f => f.count ≤ t.counter

/-- A step overwrites no notification: an interrupt has at most one of a
direct pin, counting the one that is queued, and that the last; and at
most one acknowledgement is queued or due where the timers are
dispatched. -/
def KeepsNotices (c : DirectInputs) (p : DirectState × DirectEvent) : Prop :=
  match p with
  | (s, .pinChange portId _ mask) =>
    ∀ pin ∈ ((waiting s.mail c.reactDirectHandler).map argPin ++
      (bitsFrom (takenBits s portId mask) 0 8).map (ioportCreatePin portId)).dropLast,
      ∀ di ∈ c.firstDirect, di.pin ≠ pin
  | (s, .run handle) => handle = c.timerReactorHandle →
      (waiting s.mail c.reactAckIt).length + (dueAcks c s.timer).length ≤ 1
  | _ => True

/-- A port reads as each direct pin that its interrupt takes: all low, or
that pin high. -/
def ReadsOwnLevel (c : DirectInputs) (p : DirectState × DirectEvent) : Prop :=
  match p with
  | (s, .pinChange portId portValue mask) =>
    ∀ di ∈ c.firstDirect, takes di.pin (s, .pinChange portId portValue mask) = true →
      portValue = 0 ∨ portValue.getLsbD (ioportPinToIndex di.pin) = true
  | _ => True

instance : DecidablePred (KeepsNotices c)
  | (_, .pinChange ..) => by unfold KeepsNotices; infer_instance
  | (_, .run _) => by unfold KeepsNotices; infer_instance
  | (_, .tick) | (_, .arm ..) | (_, .cancel _) => isTrue trivial

instance : DecidablePred (ReadsOwnLevel c)
  | (_, .pinChange ..) => by unfold ReadsOwnLevel; infer_instance
  | (_, .run _) | (_, .tick) | (_, .arm ..) | (_, .cancel _) => isTrue trivial

/-! ## One step for each masked pin -/

/-- The steps outstanding for a pin, wherever they are. -/
theorem count_outstanding (pin : ℕ) : (outstanding c s).count (some pin) =
    ((waiting s.mail c.reactDirectHandler).map argPin).count pin +
      (((waiting s.mail c.reactAckIt).map (pinAt c)).count (some pin) +
        ((timersFor c.reactAckIt s.timer.pending).map fun f => pinAt c f.arg).count (some pin)) := by
  have hsome := List.count_map_of_injective ((waiting s.mail c.reactDirectHandler).map argPin) some
    (Option.some_injective ℕ) pin
  rw [List.map_map] at hsome
  rw [outstanding, List.count_append, List.count_append, ← hsome]
  rfl

/-- The last of a list stands for all of it, where none of the others is
of the kind. -/
theorem count_getLast?_toList {α : Type*} [DecidableEq α] {l : List α} {a : α}
    (h : ∀ x ∈ l.dropLast, x ≠ a) : l.getLast?.toList.count a = l.count a := by
  rcases List.eq_nil_or_concat l with rfl | ⟨l, x, rfl⟩
  · rfl
  · rw [List.concat_eq_append, List.dropLast_concat] at h
    rw [List.concat_eq_append, List.getLast?_concat, List.count_append, List.count_eq_zero.mpr fun hmem => h a hmem rfl,
      Nat.zero_add]
    rfl

/-- **Each direct pin has one outstanding step** when it is masked, and
none otherwise. -/
def Accounted (c : DirectInputs) (s : DirectState) : Prop :=
  ∀ di ∈ c.firstDirect, (outstanding c s).count (some di.pin) = (masked s di.pin).toNat

theorem Accounted.noneDead (h : Accounted c s) : NoneDead c s := by
  intro di hdi hmasked
  rw [← List.count_pos_iff, h di hdi, hmasked]
  decide

/-- A list of at most one is its last. -/
theorem getLast?_toList_of_le {l : List ℕ} (h : l.length ≤ 1) : l.getLast?.toList = l := by
  match l, h with
  | [], _ => rfl
  | [_], _ => rfl

/-- The notifications after an interrupt that overwrites none. -/
theorem count_of_interrupt {l ns : List ℕ}
    (hkeeps : ∀ x ∈ (l.map argPin ++ ns.map argPin).dropLast, x ≠ pin) :
    ((l ++ ns).getLast?.toList.map argPin).count pin =
      (l.map argPin).count pin + (ns.map argPin).count pin := by
  rw [← List.count_append, ← List.map_append] at *
  rw [← count_getLast?_toList hkeeps, List.getLast?_map]
  cases (l ++ ns).getLast? <;> rfl

/-- **A step that overwrites no notification** keeps the account. -/
theorem Accounted.step (h : Accounted c s)
    (hkeeps : KeepsNotices c (s, e)) (hch : Changes c s s' e) : Accounted c s' := by
  intro di hdi
  have hdi' := h di hdi
  rw [count_outstanding] at hdi' ⊢
  cases hch with
  | @interrupt portId portValue mask hport hmask hdirect hack htimers =>
    have hcount := @count_pinNotices s portId portValue mask hport di.pin
    rw [hdirect, hack, htimers, hmask, count_of_interrupt, hcount]
    · cases hmasked : masked s di.pin with
      | true =>
        rw [not_takes hmasked] at *
        rw [hmasked] at hdi'
        exact hdi'
      | false =>
        rw [hmasked] at hdi'
        rw [Bool.false_or]
        simp only [Bool.toNat_false] at hdi'
        omega
    · rw [argPin_pinNotices hport]
      exact fun x hx heq => hkeeps x hx di hdi heq.symm
  | @fired fired hmask hdirect hack htimers hdue =>
    have hle : (waiting s.mail c.reactAckIt ++ fired.map TimerFuture.arg).length ≤ 1 := by
      have hfired : fired.length ≤ (dueAcks c s.timer).length := by
        rw [dueAcks, htimers, List.filter_append, List.filter_eq_self.mpr (by simpa using hdue),
          List.length_append]
        omega
      have := hkeeps rfl
      rw [List.length_append, List.length_map]
      omega
    rw [hdirect, hack, getLast?_toList_of_le hle, hmask, List.map_append, List.count_append,
      List.map_map]
    rw [htimers, List.map_append, List.count_append] at hdi'
    show _ + (_ + (fired.map fun f => pinAt c f.arg).count (some di.pin) + _) = _
    omega
  | ignored hnone hmask hdirect hack htimers =>
    rw [hdirect, List.map_cons, List.count_cons_of_ne (hnone di hdi).symm] at hdi'
    rw [hack, htimers, hmask]
    exact hdi'
  | putOff hpin hmask hdirect hack htimers =>
    -- the notification is gone, and a timer has come
    rw [hdirect, List.map_cons, List.count_cons] at hdi'
    rw [hack, hmask, (htimers.map fun f => pinAt c f.arg).count_eq, List.map_cons, List.count_cons,
      hpin]
    simp only [beq_iff_eq, Option.some.injEq] at hdi' ⊢
    omega
  | @atOnce arg hmask hdirect hack htimers =>
    rw [hdirect, List.map_cons, List.count_cons] at hdi'
    rw [hack, htimers, hmask]
    by_cases hpin : di.pin = argPin arg
    · have hle := Bool.toNat_le (masked s di.pin)
      simp only [hpin, beq_self_eq_true, if_true, ne_eq, not_true_eq_false, decide_false,
        Bool.and_false, Bool.toNat_false] at hdi' hle ⊢
      omega
    · simpa [hpin, Ne.symm hpin] using hdi'
  | @acknowledged i hmask hdirect hack htimers =>
    rw [hack, List.map_cons, List.count_cons] at hdi'
    rw [hdirect, htimers, hmask]
    by_cases hpin : pinAt c i = some di.pin
    · have hle := Bool.toNat_le (masked s di.pin)
      simp only [hpin, beq_self_eq_true, if_true, ne_eq, not_true_eq_false, decide_false,
        Bool.and_false, Bool.toNat_false] at hdi' ⊢
      omega
    · simpa [hpin] using hdi'
  | others htakes hmask hdirect hack htimers =>
    rw [hdirect, hack, htimers, hmask]
    exact hdi'

theorem digitalInputInit_accounted (c : DirectInputs) : Accounted c (digitalInputInit c) := by
  intro di hdi
  have hmasked : masked (digitalInputInit c) di.pin = false := by
    have := c.pin_lt di hdi
    have hport : ioportPinToPortId di.pin = 0 ∨ ioportPinToPortId di.pin = 1 := by
      unfold ioportPinToPortId
      omega
    unfold masked digitalInputInit
    rcases hport with hport | hport <;> simp [cell, hport]
  rw [hmasked, count_outstanding, (digitalInputInit_timers c).2 _ c.sample_ne.2.1]
  rfl

/-! ## What the handlers are told -/

/-- **What is queued for the direct handler** says how the last interrupt
that took the pin read it. -/
def QueuedOwnLevel (c : DirectInputs) (hist : List (DirectState × DirectEvent)) (s : DirectState) :
    Prop :=
  ∀ arg ∈ waiting s.mail c.reactDirectHandler, ∀ di ∈ c.firstDirect, di.pin = argPin arg →
    readLevel hist di.pin = some (argValue arg)

theorem readLevel_concat : readLevel (hist ++ [p]) pin =
    if takes pin p then ownLevel pin p else readLevel hist pin := by
  rw [readLevel, lastWhere_concat]
  split <;> rfl

/-- What an interrupt notifies of, it takes. -/
theorem takes_of_mem_pinNotices {portId arg : ℕ} {portValue mask : BitVec 8} (hport : portId < 2)
    (ha : arg ∈ pinNotices portId portValue (takenBits s portId mask)) :
    takes (argPin arg) (s, .pinChange portId portValue mask) = true := by
  have hcount := @count_pinNotices s portId portValue mask hport (argPin arg)
  have hpos := List.count_pos_iff.mpr (List.mem_map_of_mem (f := argPin) ha)
  rw [hcount] at hpos
  cases htakes : takes (argPin arg) (s, .pinChange portId portValue mask) with
  | true => rfl
  | false =>
    rw [htakes] at hpos
    cases hpos

/-- What remains queued, when no interrupt takes a pin. -/
theorem QueuedOwnLevel.mono (h : QueuedOwnLevel c hist s) (htakes : ∀ pin, takes pin (s, e) = false)
    (hsub : ∀ a ∈ waiting s'.mail c.reactDirectHandler, a ∈ waiting s.mail c.reactDirectHandler) :
    QueuedOwnLevel c (hist ++ [(s, e)]) s' := by
  intro arg harg di hdi hpin
  rw [readLevel_concat, htakes, if_neg Bool.false_ne_true]
  exact h arg (hsub arg harg) di hdi hpin

/-- **A step keeps it**, where each port reads as the pins that are taken. -/
theorem QueuedOwnLevel.step (h : QueuedOwnLevel c hist s) (hacc : Accounted c s)
    (hreads : ReadsOwnLevel c (s, e)) (hch : Changes c s s' e) :
    QueuedOwnLevel c (hist ++ [(s, e)]) s' := by
  cases hch with
  | @interrupt portId portValue mask hport hmask hdirect hack htimers =>
    intro arg harg di hdi hpin
    rw [hdirect, Option.mem_toList] at harg
    rw [readLevel_concat]
    rcases List.mem_append.mp (List.mem_of_getLast? harg) with hold | hnew
    · -- the pin of a notification that is queued is masked
      have hmasked : masked s di.pin = true := by
        have hcount := hacc di hdi
        rw [count_outstanding] at hcount
        have hpos : 0 < ((waiting s.mail c.reactDirectHandler).map argPin).count di.pin :=
          List.count_pos_iff.mpr (List.mem_map.mpr ⟨arg, hold, hpin.symm⟩)
        cases hm : masked s di.pin with
        | true => rfl
        | false =>
          rw [hm, Bool.toNat_false] at hcount
          omega
      rw [not_takes hmasked, if_neg Bool.false_ne_true]
      exact h arg hold di hdi hpin
    · have htakes : takes di.pin (s, .pinChange portId portValue mask) = true :=
        hpin ▸ takes_of_mem_pinNotices hport hnew
      rw [htakes, if_pos rfl]
      obtain ⟨i, hi, rfl⟩ := List.mem_map.mp hnew
      have hlt : ioportCreatePin portId i < 256 := by
        have := (mem_bitsFrom.mp hi).1
        unfold ioportCreatePin
        omega
      rw [pinNotice, argValue_pinAndValueAsArg hlt, ownLevel, Option.some.injEq]
      rcases hreads di hdi htakes with hzero | hhigh
      · simp [hzero]
      · rw [hhigh, eq_comm, decide_eq_true_eq]
        rintro rfl
        simp at hhigh
  | fired hmask hdirect hack htimers hdue => exact h.mono (fun _ => rfl) fun a ha => hdirect ▸ ha
  | ignored hnone hmask hdirect hack htimers =>
    exact h.mono (fun _ => rfl) fun a ha => by rw [hdirect]; exact List.mem_cons_of_mem _ ha
  | putOff hpin hmask hdirect hack htimers =>
    exact h.mono (fun _ => rfl) fun a ha => by rw [hdirect]; exact List.mem_cons_of_mem _ ha
  | atOnce hmask hdirect hack htimers =>
    exact h.mono (fun _ => rfl) fun a ha => by rw [hdirect]; exact List.mem_cons_of_mem _ ha
  | acknowledged hmask hdirect hack htimers => exact h.mono (fun _ => rfl) fun a ha => hdirect ▸ ha
  | others htakes hmask hdirect hack htimers => exact h.mono htakes fun a ha => hdirect ▸ ha

/-- The handler told in a step is that of the input whose notification is
first in the queue. -/
theorem toldOf_eq_some {di : DirectInput} {arg : ℕ} (h : toldOf c p = some (di, arg)) :
    di ∈ c.firstDirect ∧ di.pin = argPin arg ∧ arg ∈ waiting p.1.mail c.reactDirectHandler := by
  obtain ⟨s, e⟩ := p
  cases e with
  | run handle =>
    rw [toldOf] at h
    split_ifs at h with hdirect
    rw [Option.bind_eq_some_iff] at h
    obtain ⟨a, hhead, h⟩ := h
    rw [Option.map_eq_some_iff] at h
    obtain ⟨d, hfind, heq⟩ := h
    obtain ⟨rfl, rfl⟩ := Prod.mk.inj heq
    have hfind' := (Option.filter_eq_some_iff.mp hfind).1
    exact ⟨List.mem_of_find?_eq_some hfind', by simpa using List.find?_some hfind',
      hdirect ▸ List.mem_of_mem_head? hhead⟩
  | pinChange _ _ _ | tick | arm _ _ _ _ | cancel _ => cases h

theorem mail_of_directResponsible {arg i : ℕ} {next : DirectInput}
    (h : directResponsible c arg i next s = some s') : s'.mail =
      (if next.handler ≠ reactorNullHandle then directNotify c next.handler arg s else s).mail := by
  unfold directResponsible at h
  generalize (if next.handler ≠ reactorNullHandle then directNotify c next.handler arg s else s) =
    s₁ at h ⊢
  dsimp only at h
  by_cases hfilter : next.filter ≠ 0
  · rw [if_pos hfilter] at h
    obtain ⟨_, -, rfl⟩ := Option.map_eq_some_iff.mp h
    rfl
  · rw [if_neg hfilter] at h
    rw [← Option.some.inj h, clearInterrupt_mail]

/-- **The handler told is notified**, and no other. -/
theorem mail_of_toldOf (hstep : directStep c fuel s (.run c.reactDirectHandler) = some s') :
    ∃ m, (∀ k, k ≠ c.reactDirectHandler → waiting m k = waiting s.mail k) ∧
      s'.mail = match toldOf c (s, .run c.reactDirectHandler) with
        | some (di, arg) => deposit c.queueSize m di.handler arg
        | none => m := by
  rw [directStep, Option.bind_eq_some_iff] at hstep
  obtain ⟨⟨arg, m⟩, hcollect, hstep⟩ := hstep
  obtain ⟨rest, hq, hm⟩ := collect_eq_some hcollect
  rw [directHandle, if_neg c.timer_ne.1.symm, if_pos rfl] at hstep
  refine ⟨m, fun k hk => by rw [hm, if_neg hk], ?_⟩
  rw [toldOf, if_pos rfl, hq]
  rcases digitalInputDirectHandler_cases c arg { s with mail := m } with
    ⟨hfind, heq⟩ | ⟨i, next, hfind, -, heq⟩
  · rw [heq, Option.some.injEq] at hstep
    rw [List.head?_cons, Option.bind_some, hfind, ← hstep]
    rfl
  · rw [heq] at hstep
    rw [mail_of_directResponsible hstep, List.head?_cons, Option.bind_some, hfind]
    by_cases hnull : next.handler ≠ reactorNullHandle
    · rw [if_pos hnull, Option.filter_some, if_pos (by simpa using hnull)]
      rfl
    · rw [if_neg hnull, Option.filter_some, if_neg (by simpa using hnull)]
      rfl

/-! ## Whole runs -/

/-- In a run that overwrites no notification each pin is accounted for. -/
theorem accounted_of_run (hr : Run (directStep c fuel) (digitalInputInit c) hist s)
    (hkeeps : ∀ p ∈ hist, KeepsNotices c p) : Accounted c s := by
  induction hr with
  | nil => exact digitalInputInit_accounted c
  | snoc hr hstep ih =>
    have hch := ((directSound_of_run hr).step hstep).2
    exact (ih fun p hp => hkeeps p (by simp [hp])).step (hkeeps _ (by simp)) hch

/-- And what is queued tells how the pins were read. -/
theorem queuedOwnLevel_of_run (hr : Run (directStep c fuel) (digitalInputInit c) hist s)
    (hall : ∀ p ∈ hist, KeepsNotices c p ∧ ReadsOwnLevel c p) : QueuedOwnLevel c hist s := by
  induction hr with
  | nil => exact fun arg harg => by simp [digitalInputInit] at harg
  | snoc hr hstep ih =>
    have hch := ((directSound_of_run hr).step hstep).2
    have hacc := accounted_of_run hr fun p hp => (hall p (by simp [hp])).1
    exact (ih fun p hp => hall p (by simp [hp])).step hacc (hall _ (by simp)).2 hch

/-- **Interrupts are neither lost nor left dead**, in every run whose
interrupts and dispatches overwrite no notification and whose ports read
as the pins that changed. -/
theorem direct_pins_served (hr : Run (directStep c fuel) (digitalInputInit c) hist s)
    (hall : ∀ p ∈ hist, KeepsNotices c p ∧ ReadsOwnLevel c p) :
    NoneDead c s ∧ ToldOwnLevel c hist := by
  refine ⟨(accounted_of_run hr fun p hp => (hall p hp).1).noneDead, ?_⟩
  rintro h₁ ⟨s₁, e⟩ h₂ rfl di arg htold
  obtain ⟨hdi, hpin, harg⟩ := toldOf_eq_some htold
  have hqueued := queuedOwnLevel_of_run hr.step_of_mem.1 fun p hp => hall p (by simp [hp])
  exact ⟨hpin.symm, hqueued arg harg di hdi hpin⟩

/-! ## Dead pins -/

/-- A pin is dead: it is masked, and nothing will unmask it. -/
def Dead (c : DirectInputs) (s : DirectState) (pin : ℕ) : Prop :=
  masked s pin = true ∧ some pin ∉ outstanding c s

theorem mem_outstanding : some pin ∈ outstanding c s ↔
    (∃ a ∈ waiting s.mail c.reactDirectHandler, argPin a = pin) ∨
      (∃ i ∈ waiting s.mail c.reactAckIt, pinAt c i = some pin) ∨
        ∃ f ∈ timersFor c.reactAckIt s.timer.pending, pinAt c f.arg = some pin := by
  simp [outstanding]

/-- Nothing moves on about a pin for which nothing is outstanding. -/
theorem Dead.of_moves (h : Dead c s pin) (hmasked : masked s' pin = true)
    (hdirect : ∀ a ∈ waiting s'.mail c.reactDirectHandler,
      a ∈ waiting s.mail c.reactDirectHandler ∨ argPin a ≠ pin)
    (hack : ∀ i ∈ waiting s'.mail c.reactAckIt, i ∈ waiting s.mail c.reactAckIt ∨
      ∃ f ∈ timersFor c.reactAckIt s.timer.pending, f.arg = i)
    (htimers : ∀ f ∈ timersFor c.reactAckIt s'.timer.pending,
      f ∈ timersFor c.reactAckIt s.timer.pending ∨ pinAt c f.arg ≠ some pin) : Dead c s' pin := by
  refine ⟨hmasked, fun hmem => h.2 (mem_outstanding.mpr ?_)⟩
  rcases mem_outstanding.mp hmem with ⟨a, ha, hpin⟩ | ⟨i, hi, hpin⟩ | ⟨f, hf, hpin⟩
  · exact .inl ⟨a, (hdirect a ha).resolve_right fun hne => hne hpin, hpin⟩
  · rcases hack i hi with hi | ⟨f, hf, rfl⟩
    · exact .inr (.inl ⟨i, hi, hpin⟩)
    · exact .inr (.inr ⟨f, hf, hpin⟩)
  · exact .inr (.inr ⟨f, (htimers f hf).resolve_right fun hne => hne hpin, hpin⟩)

/-- No step does anything for a dead pin: interrupts do not take it, and
no handler unmasks it. -/
theorem Dead.step (h : Dead c s pin) (hch : Changes c s s' e) : Dead c s' pin := by
  have hnone := h.2
  rw [mem_outstanding] at hnone
  push Not at hnone
  obtain ⟨hnone_direct, hnone_ack, -⟩ := hnone
  cases hch with
  | @interrupt portId portValue mask hport hmask hdirect hack htimers =>
    -- what an interrupt posts is for pins that were not masked
    refine h.of_moves (by rw [hmask, h.1, Bool.true_or]) (fun a ha => ?_)
      (fun i hi => .inl (hack ▸ hi)) fun f hf => .inl (htimers ▸ hf)
    rw [hdirect, Option.mem_toList] at ha
    refine (List.mem_append.mp (List.mem_of_getLast? ha)).imp_right fun hnew hpin => ?_
    have htakes := takes_of_mem_pinNotices hport hnew
    rw [hpin, not_takes h.1] at htakes
    cases htakes
  | @fired fired hmask hdirect hack htimers hdue =>
    refine h.of_moves (by rw [hmask, h.1]) (fun a ha => .inl (hdirect ▸ ha)) (fun i hi => ?_)
      fun f hf => .inl (by rw [htimers]; exact List.mem_append_right _ hf)
    -- an acknowledgement that is new was a timer until now
    rw [hack, Option.mem_toList] at hi
    refine (List.mem_append.mp (List.mem_of_getLast? hi)).imp_right fun hfired => ?_
    obtain ⟨f, hf, rfl⟩ := List.mem_map.mp hfired
    exact ⟨f, by rw [htimers]; exact List.mem_append_left _ hf, rfl⟩
  | ignored _ hmask hdirect hack htimers =>
    exact h.of_moves (by rw [hmask, h.1]) (fun a ha => .inl (by rw [hdirect]; simp [ha]))
      (fun i hi => .inl (hack ▸ hi)) fun f hf => .inl (htimers ▸ hf)
  | @putOff arg f hpin hmask hdirect hack htimers =>
    refine h.of_moves (by rw [hmask, h.1]) (fun a ha => .inl (by rw [hdirect]; simp [ha]))
      (fun i hi => .inl (hack ▸ hi)) fun g hg => ?_
    refine (List.mem_cons.mp (htimers.subset hg)).symm.imp_right fun heq => ?_
    rw [heq, hpin, ne_eq, Option.some.injEq]
    exact hnone_direct arg (by rw [hdirect]; simp)
  | @atOnce arg hmask hdirect hack htimers =>
    have hne := hnone_direct arg (by rw [hdirect]; simp)
    exact h.of_moves (by rw [hmask, h.1, Bool.true_and, decide_eq_true hne.symm])
      (fun a ha => .inl (by rw [hdirect]; simp [ha])) (fun i hi => .inl (hack ▸ hi))
      fun f hf => .inl (htimers ▸ hf)
  | @acknowledged i hmask hdirect hack htimers =>
    have hne := hnone_ack i (by rw [hack]; simp)
    exact h.of_moves (by rw [hmask, h.1, Bool.true_and, decide_eq_true hne])
      (fun a ha => .inl (hdirect ▸ ha)) (fun i hi => .inl (by rw [hack]; simp [hi]))
      fun f hf => .inl (htimers ▸ hf)
  | others _ hmask hdirect hack htimers =>
    exact h.of_moves (by rw [hmask, h.1]) (fun a ha => .inl (hdirect ▸ ha))
      (fun i hi => .inl (hack ▸ hi)) fun f hf => .inl (htimers ▸ hf)

/-- **A dead pin stays dead for ever.** -/
theorem Dead.run (h : Dead c s pin) (hsound : DirectSound c s)
    (hr : Run (directStep c fuel) s hist s') : Dead c s' pin := by
  have hboth : DirectSound c s' ∧ Dead c s' pin :=
    hr.invariant (I := fun s => DirectSound c s ∧ Dead c s pin) ⟨hsound, h⟩
      fun _ _ _ hI hstep => ⟨(hI.1.step hstep).1, hI.2.step (hI.1.step hstep).2⟩
  exact hboth.2

/-- **An interrupt that overwrites a notification leaves its pin dead.** -/
theorem Accounted.dead_of_interrupt (h : Accounted c s) (hsound : DirectSound c s) {portId : ℕ}
    {portValue mask : BitVec 8} (hport : portId < 2)
    (hlost : ¬ KeepsNotices c (s, .pinChange portId portValue mask)) :
    ∃ di ∈ c.firstDirect, Dead c (handlePinChangeIsr c portId portValue mask s) di.pin := by
  unfold KeepsNotices at hlost
  push Not at hlost
  obtain ⟨_, hpin, di, hdi, rfl⟩ := hlost
  obtain ⟨-, htimer, -⟩ := @handlePinChangeIsr_spec c portId portValue mask s
  obtain ⟨hdirect, hack⟩ := @DirectSound.waiting_interrupt c s portId portValue mask hsound
  have hcount := @count_pinNotices s portId portValue mask hport di.pin
  have hdi' := h di hdi
  rw [count_outstanding] at hdi'
  -- the pin is among the messages but not the last of them, and has one only
  rw [← @argPin_pinNotices portId portValue _ hport, ← List.map_append] at hpin
  obtain ⟨msgs, last, hmsgs⟩ : ∃ msgs last, waiting s.mail c.reactDirectHandler ++
      pinNotices portId portValue (takenBits s portId mask) = msgs ++ [last] := by
    rcases List.eq_nil_or_concat (waiting s.mail c.reactDirectHandler ++
      pinNotices portId portValue (takenBits s portId mask)) with hnil | ⟨msgs, last, heq⟩
    · rw [hnil] at hpin
      cases hpin
    · exact ⟨msgs, last, heq.trans (List.concat_eq_append ..)⟩
  have hsum := congrArg (fun l => (l.map argPin).count di.pin) hmsgs
  simp only [List.map_append, List.count_append] at hsum
  rw [hcount] at hsum
  rw [hmsgs, List.map_append, List.map_singleton, List.dropLast_concat,
    ← List.count_pos_iff] at hpin
  rw [hmsgs, List.getLast?_concat] at hdirect
  have hone : (masked s di.pin).toNat +
      (takes di.pin (s, .pinChange portId portValue mask)).toNat ≤ 1 := by
    cases hm : masked s di.pin with
    | true =>
      rw [not_takes hm]
      decide
    | false =>
      have := Bool.toNat_le (takes di.pin (s, .pinChange portId portValue mask))
      rw [Bool.toNat_false]
      omega
  refine ⟨di, hdi, ?_, fun hmem => ?_⟩
  · rw [masked_handlePinChangeIsr hsound.bits hport]
    by_contra hnone
    rw [Bool.not_eq_true, Bool.or_eq_false_iff] at hnone
    rw [hnone.1, Bool.toNat_false] at hdi'
    rw [hnone.2, Bool.toNat_false] at hsum
    omega
  · rw [← List.count_pos_iff, count_outstanding, hdirect, hack, htimer] at hmem
    simp only [Option.toList_some] at hmem
    omega

/-! ## Two inputs -/

/-- Inputs on the first two pins, with handlers of their own. -/
def twoInputs (filter : ℕ) : DirectInputs where
  firstDirect := [⟨0, 4, 1, filter⟩, ⟨1, 5, 1, filter⟩]
  timerReactorHandle := 0
  reactSample := 1
  reactDirectHandler := 2
  reactAckIt := 3
  queueSize := fun _ => 1
  pin_lt := by simp
  timer_ne := by decide
  sample_ne := by decide
  direct_ne := by decide
  ack_ne := by decide
  handler_ne := by simp
  direct_one := rfl
  ack_one := rfl

/-- A pin rises, is told and acknowledged 5 ms later, and falls. -/
def oneAtATime : List DirectEvent :=
  [.pinChange 0 1 1, .run 2] ++ List.replicate 5 .tick ++ [.run 0, .run 3, .pinChange 0 0 1]

/-- The steps that overwrite nothing, and read the levels of the pins. -/
def servedStep : DirectState → DirectEvent → Option DirectState :=
  guarded (fun p => decide (KeepsNotices (twoInputs 5) p) && decide (ReadsOwnLevel (twoInputs 5) p))
    (directStep (twoInputs 5) 8)

theorem direct_pins_served_oneAtATime : ∃ hist s₁ s,
    Run (directStep (twoInputs 5) 8) (digitalInputInit (twoInputs 5)) (hist ++ [(s₁, .run 2)]) s ∧
      NoneDead (twoInputs 5) s ∧ ToldOwnLevel (twoInputs 5) (hist ++ [(s₁, .run 2)]) ∧
      toldOf (twoInputs 5) (s₁, .run 2) = some (⟨0, 4, 1, 5⟩, 0) := by
  have heval : (runEvents servedStep oneAtATime (digitalInputInit (twoInputs 5))).any (fun s₁ =>
      decide (toldOf (twoInputs 5) (s₁, .run 2) = some (⟨0, 4, 1, 5⟩, 0)) &&
      (servedStep s₁ (.run 2)).isSome) = true := by decide +kernel
  obtain ⟨s₁, h₁, hchecks⟩ := (Option.any_eq_true _ _).mp heval
  rw [Bool.and_eq_true, decide_eq_true_iff] at hchecks
  obtain ⟨s, hs⟩ := Option.isSome_iff_exists.mp hchecks.2
  obtain ⟨hist, hr₁, -⟩ := exists_run_of_runEvents h₁
  obtain ⟨hr, hall⟩ := (hr₁.snoc hs).of_guarded
  obtain ⟨hnone, htold⟩ := direct_pins_served hr fun p hp => by
    have hp' := hall p hp
    rwa [Bool.and_eq_true, decide_eq_true_iff, decide_eq_true_iff] at hp'
  exact ⟨hist, s₁, s, hr, hnone, htold, hchecks.1⟩

/-- Two pins interrupt one after the other, and each is told; 5 ms later
both are to be acknowledged. -/
def bothDue : List DirectEvent :=
  [.pinChange 0 1 1, .run 2, .pinChange 0 3 2, .run 2] ++ List.replicate 5 .tick ++ [.run 0]

/-- **Pins that interrupt together**, or that are acknowledged together,
leave one of them dead; **a pin that falls while another is high** is told
to be high. -/
theorem direct_pins_served_fails_together :
    (∃ hist s, Run (directStep (twoInputs 0) 8) (digitalInputInit (twoInputs 0)) hist s ∧
      hist.map Prod.snd = [.pinChange 0 3 3] ∧ ¬ NoneDead (twoInputs 0) s) ∧
    (∃ hist s, Run (directStep (twoInputs 5) 8) (digitalInputInit (twoInputs 5)) hist s ∧
      hist.map Prod.snd = bothDue ∧ ¬ NoneDead (twoInputs 5) s) ∧
    ∃ hist s, Run (directStep (twoInputs 0) 8) (digitalInputInit (twoInputs 0)) hist s ∧
      hist.map Prod.snd = [.pinChange 0 2 1, .run 2] ∧ ¬ ToldOwnLevel (twoInputs 0) hist := by
  refine ⟨?_, ?_, ?_⟩
  · have heval : (runEvents (directStep (twoInputs 0) 8) [.pinChange 0 3 3]
        (digitalInputInit (twoInputs 0))).any (fun s => decide (¬ NoneDead (twoInputs 0) s)) =
        true := by decide +kernel
    obtain ⟨s, hs, hdead⟩ := (Option.any_eq_true _ _).mp heval
    obtain ⟨hist, hr, hevents⟩ := exists_run_of_runEvents hs
    exact ⟨hist, s, hr, hevents, of_decide_eq_true hdead⟩
  · have heval : (runEvents (directStep (twoInputs 5) 8) bothDue
        (digitalInputInit (twoInputs 5))).any (fun s => decide (¬ NoneDead (twoInputs 5) s)) =
        true := by decide +kernel
    obtain ⟨s, hs, hdead⟩ := (Option.any_eq_true _ _).mp heval
    obtain ⟨hist, hr, hevents⟩ := exists_run_of_runEvents hs
    exact ⟨hist, s, hr, hevents, of_decide_eq_true hdead⟩
  · have heval : (directStep (twoInputs 0) 8 (digitalInputInit (twoInputs 0))
        (.pinChange 0 2 1)).any (fun s₁ =>
          decide (toldOf (twoInputs 0) (s₁, .run 2) = some (⟨0, 4, 1, 0⟩, 256)) &&
          (directStep (twoInputs 0) 8 s₁ (.run 2)).isSome) = true := by decide +kernel
    obtain ⟨s₁, h₁, hchecks⟩ := (Option.any_eq_true _ _).mp heval
    rw [Bool.and_eq_true, decide_eq_true_iff] at hchecks
    obtain ⟨s, hs⟩ := Option.isSome_iff_exists.mp hchecks.2
    refine ⟨_, s, (Run.snoc .nil h₁).snoc hs, rfl, fun htold => ?_⟩
    obtain ⟨-, hlevel⟩ := htold [(digitalInputInit (twoInputs 0), .pinChange 0 2 1)] (s₁, .run 2) []
      rfl _ _ hchecks.1
    revert hlevel
    decide +kernel

end Asx

end CncPneumatics
