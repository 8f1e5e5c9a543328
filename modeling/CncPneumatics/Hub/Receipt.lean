import CncPneumatics.Asx.TimerServed
import CncPneumatics.Common.Relay
import CncPneumatics.Hub.Progress
/-!
# What the hub receives

The queue between the two-wire interface and the protocol is a relay:
the hub handles each byte at most once, in the order in which they came,
and nothing that did not come. It rests on the handles of the timers, for
no timer notifies the handler of messages.
-/

namespace CncPneumatics

open Asx

namespace Hub

variable {fuel : ℕ} {s s' : State} {hist : List (State × Event)} {p : State × Event} {e : Event}

/-- The byte that the step received. -/
def received (p : State × Event) : Option UInt8 :=
  match p.2 with
  | .receive byte => some byte
  | _ => none

/-- **Only timers of timed handlers are pending**, and no input notifies. -/
structure Timed (s : State) : Prop where
  timers : ∃ l, s.timer.Holds l ∧ ∀ f ∈ l, f.reactor ∈ timedHandles
  quiet : ∀ di ∈ s.inputs, di.handler = reactorNullHandle

/-- Timers of timed handlers are armed, and any are cancelled. -/
abbrev ServedTimed (t t' : Timer) : Prop := Timer.Served (fun f => f.reactor ∈ timedHandles) t t'

theorem Timed.serve (h : Timed s) (ht : ServedTimed s.timer s'.timer) (hi : s'.inputs = s.inputs) :
    Timed s' := by
  obtain ⟨l, hl, hall⟩ := h.timers
  obtain ⟨l', hl', hmem⟩ := ht.mem hl
  exact ⟨⟨l', hl', fun f hf => (hmem f hf).elim (hall f) id⟩, by rw [hi]; exact h.quiet⟩

theorem protocolProcess_served {cmd : Opcode} (h : protocolProcess s cmd = .ok s') :
    ServedTimed s.timer s'.timer ∧ s'.inputs = s.inputs := by
  unfold protocolProcess at h
  dsimp only at h
  split at h
  · next inst timer harm =>
    obtain rfl := Except.ok.inj h
    have hA : reactAcceptComms ∈ timedHandles := by decide
    have harmed := Timer.Served.arm (A := fun f => f.reactor ∈ timedHandles) harm (by decide)
      fun _ => hA
    split_ifs at harmed ⊢
    · exact ⟨(Timer.Served.cancel _).trans harmed, rfl⟩
    · exact ⟨harmed, rfl⟩
  · cases h

/-- The step lemma. -/
theorem Timed.step (h : Timed s) (hs : Hub.step fuel s e = some s') : Timed s' := by
  cases steps_of_step hs with
  | tick _ =>
    obtain ⟨l, hl, hall⟩ := h.timers
    exact ⟨⟨l, timerTick_holds hl, hall⟩, h.quiet⟩
  | receive => exact ⟨h.timers, h.quiet⟩
  | @timer _ _ r _ _ hr =>
    obtain ⟨l, hl, hall⟩ := h.timers
    obtain ⟨l', hl', -, hd⟩ := timerDispatch_holds hl hr
    exact ⟨⟨l', hl', (ringDrain_forall (fun _ hf _ _ _ => hf) hall hd).2⟩, h.quiet⟩
  | sample _ =>
    refine ⟨h.timers, fun di hdi => ?_⟩
    replace hdi : di ∈ (digitalInputSample _ s.inputs).1 := hdi
    rw [digitalInputSample_fst] at hdi
    obtain ⟨di', hdi', rfl⟩ := List.mem_map.mp hdi
    rw [digitalInputIntegrate_handler]
    exact h.quiet di' hdi'
  | accept _ => exact ⟨h.timers, h.quiet⟩
  | @check _ mail _ _ _ hs' =>
    rcases onCheckComms_cases hs' with ⟨-, rfl⟩ | ⟨-, s₁, hproc, rfl⟩
    · exact ⟨h.timers, h.quiet⟩
    · obtain ⟨ht, hi⟩ := protocolProcess_served hproc
      exact h.serve ht hi
  | @traffic _ mail _ _ _ hs' =>
    rcases protocolHandleTraffic_cases hs' with ⟨-, -, -, hproc⟩ | ⟨-, -, rfl⟩ | ⟨-, rfl⟩
    · obtain ⟨ht, hi⟩ := protocolProcess_served hproc
      exact h.serve ht hi
    · exact ⟨h.timers, h.quiet⟩
    · exact ⟨h.timers, h.quiet⟩

theorem start_timed : Timed start := by
  obtain ⟨a, sampleAt, checkAt, h⟩ := inv_of_run (.nil : Run (step 0) start [] start)
    (Bounded.of_length (by decide))
  refine ⟨⟨_, h.refines.holds, fun f hf => ?_⟩, h.quiet⟩
  obtain ⟨e, he, rfl⟩ := List.mem_map.mp hf
  by_contra hnot
  have hof := TimerAgenda.mem_timersOf.mpr ⟨he, rfl⟩
  rw [h.others e.payload.1 hnot] at hof
  cases hof

theorem timed_of_run (hr : Run (step fuel) start hist s) : Timed s :=
  hr.invariant start_timed fun _ _ _ h hs => h.step hs

/-! ## The queue of messages -/

/-- What waits to be handled. -/
def pendingMessages (s : State) : List Opcode :=
  (waiting s.mail reactI2cHandler).map UInt8.ofNat

/-- A dispatch does not notify the handler of messages. -/
theorem Timed.dispatch_waiting (h : Timed s) {r : List (ℕ × ℕ) × Timer}
    (hr : timerDispatch fuel s.timer = some r) : waiting r.1 reactI2cHandler = [] := by
  obtain ⟨l, hl, hall⟩ := h.timers
  obtain ⟨l', hl', -, hd⟩ := timerDispatch_holds hl hr
  refine waiting_eq_nil_iff.mpr fun n hn heq => ?_
  obtain ⟨f, hf, rfl⟩ := (ringDrain_forall (fun _ hf _ _ _ => hf) hall hd).1 n hn
  have hnot : reactI2cHandler ∉ timedHandles := by decide
  exact hnot (heq ▸ hf)

/-- A handler took its own message. -/
theorem pendingMessages_collect {handle arg : ℕ} {mail : Mailroom ℕ} (hne : reactI2cHandler ≠ handle)
    (hcol : collect s.mail handle = some (arg, mail)) :
    (waiting mail reactI2cHandler).map UInt8.ofNat = pendingMessages s := by
  obtain ⟨_, -, hk⟩ := collect_eq_some hcol
  rw [hk, if_neg hne]
  rfl

/-- **What a step does to the queue**: a byte is posted, the oldest is
handled, or nothing. -/
theorem Timed.pendingMessages_step (h : Timed s) (hs : Hub.step fuel s e = some s') :
    (∃ byte, received (s, e) = some byte ∧ handled (s, e) = none ∧
      pendingMessages s' = post 1 (pendingMessages s) byte) ∨
    (∃ cmd, received (s, e) = none ∧ handled (s, e) = some cmd ∧
      pendingMessages s = cmd :: pendingMessages s') ∨
    (received (s, e) = none ∧ handled (s, e) = none ∧ pendingMessages s' = pendingMessages s) := by
  cases steps_of_step hs with
  | tick hmail =>
    refine .inr (.inr ⟨rfl, rfl, ?_⟩)
    rw [pendingMessages, waiting_deposit, if_neg (by decide)]
    rfl
  | @receive byte =>
    refine .inl ⟨byte, rfl, rfl, ?_⟩
    have hmap : ∀ l : List ℕ, (post 1 l byte.toNat).map UInt8.ofNat =
        post 1 (l.map UInt8.ofNat) byte := by
      intro l
      unfold post
      rw [List.length_map]
      split <;> simp
    rw [pendingMessages, waiting_deposit, if_pos rfl]
    exact hmap _
  | @timer _ mail r _ hcol hr =>
    refine .inr (.inr ⟨rfl, rfl, ?_⟩)
    rw [← pendingMessages_collect (by decide) hcol, pendingMessages, waiting_depositAll,
      h.dispatch_waiting hr]
    rfl
  | @sample _ mail pressure hcol =>
    refine .inr (.inr ⟨rfl, rfl, ?_⟩)
    have hnone := digitalInputSample_quiet
      (fun pin => pin = ioportPressureReadout && pressure) h.quiet
    rw [← pendingMessages_collect (by decide) hcol]
    show (waiting (depositAll queueSize mail (digitalInputSample _ s.inputs).2) _).map _ = _
    rw [hnone]
    rfl
  | accept hcol => exact .inr (.inr ⟨rfl, rfl, pendingMessages_collect (by decide) hcol⟩)
  | check hcol hs' =>
    refine .inr (.inr ⟨rfl, rfl, ?_⟩)
    rw [← pendingMessages_collect (by decide) hcol]
    rcases onCheckComms_cases hs' with ⟨-, rfl⟩ | ⟨-, s₁, hproc, rfl⟩
    · rfl
    · rw [pendingMessages, protocolProcess_mail hproc]
  | @traffic arg mail pressure _ hcol hs' =>
    obtain ⟨rest, hw, hk⟩ := collect_eq_some hcol
    refine .inr (.inl ⟨UInt8.ofNat arg, rfl, handled_of_collect pressure hcol, ?_⟩)
    have hmail : s'.mail = mail := by
      rcases protocolHandleTraffic_cases hs' with ⟨-, -, -, hproc⟩ | ⟨-, -, rfl⟩ | ⟨-, rfl⟩
      · exact protocolProcess_mail hproc
      · rfl
      · rfl
    rw [pendingMessages, pendingMessages, hw, hmail, hk, if_pos rfl, List.map_cons]

/-- **The queue is a relay** of what the hub receives. -/
theorem handled_relayed {h₁ h₂ : List (State × Event)} {s₁ : State}
    (hr₁ : Run (step fuel) start h₁ s₁) (hr₂ : Run (step fuel) s₁ h₂ s) :
    Relayed (pendingMessages s₁ ++ h₂.filterMap received) (pendingMessages s)
      (h₂.filterMap handled) := by
  refine hr₂.invariant_history (I := fun h₂ s => Relayed
    (pendingMessages s₁ ++ h₂.filterMap received) (pendingMessages s) (h₂.filterMap handled)) ?_ ?_
  · rw [List.filterMap_nil, List.append_nil]
    exact .start _
  · intro h₂ s e s' hrun h hs
    rw [filterMap_concat, filterMap_concat, ← List.append_assoc]
    rcases (timed_of_run (hr₁.trans hrun)).pendingMessages_step hs with
      ⟨byte, hrec, hhan, hpend⟩ | ⟨cmd, hrec, hhan, hpend⟩ | ⟨hrec, hhan, hpend⟩
    · rw [hrec, hhan, hpend, Option.toList_some, Option.toList_none, List.append_nil]
      exact h.post 1
    · rw [hrec, hhan, Option.toList_some, Option.toList_none, List.append_nil]
      rw [hpend] at h
      exact h.take
    · rw [hrec, hhan, hpend, Option.toList_none, List.append_nil, List.append_nil]
      exact h

end Hub

end CncPneumatics
