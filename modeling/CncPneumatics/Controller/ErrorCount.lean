import CncPneumatics.Controller.FailSafe
import CncPneumatics.Controller.Parts
/-!
# The count of errors

Errors count for two and good replies take one back. When the count
reaches `COMMS_TOO_MANY_ERRORS` the transmission is stopped for good, but
errors can still come: one that is queued, and one of the transfer that is
in flight. They are too few for the 8 bits of the count to overflow.
-/

namespace CncPneumatics

open Asx

namespace Controller

variable {fuel handle arg : ℕ} {s s' t : State} {around : Surroundings} {r : Except State State}
  {e : Event} {hist : List (State × Event)}

/-- **The errors are contained**, in the states of a run: the count stays
below the limit until the transmission is stopped, has room for one more
error at any time, and once stopped the transmission is not started again,
nor is a transfer in flight that was not before. -/
structure ErrorsContained (l : List State) : Prop where
  below : ∀ a ∈ l, a.stopTransmit = false → a.commsErrorCount < commsTooManyErrors
  room : ∀ a ∈ l, a.commsErrorCount + 2 < 2 ^ 8
  final : l.Pairwise fun a b => a.stopTransmit = true → b.stopTransmit = true
  noTransfer : l.Pairwise fun a b =>
    a.stopTransmit = true → b.transfer.locked = true → a.transfer.locked = true

/-- The errors that can come without another transfer. -/
def outstandingErrors (s : State) : ℕ :=
  (waiting s.mail reactI2cError).length + if s.transfer.locked then 1 else 0

/-- **The invariant**: the errors that are counted and those that can come
are few. -/
structure Counted (s : State) : Prop where
  queue : (waiting s.mail reactI2cError).length ≤ 1
  running : s.stopTransmit = false → s.commsErrorCount < commsTooManyErrors
  stopped : s.stopTransmit = true →
    s.commsErrorCount + 2 * outstandingErrors s ≤ commsTooManyErrors + 5

/-- Stopping is final, and no transfer is started after it. -/
def StaysStopped (s t : State) : Prop :=
  s.stopTransmit = true → t.stopTransmit = true ∧
    (t.transfer.locked = true → s.transfer.locked = true)

namespace Counted

theorem room (h : Counted s) : s.commsErrorCount + 2 < 2 ^ 8 := by
  have hmany : commsTooManyErrors = 100 := rfl
  cases hstop : s.stopTransmit with
  | false => have := h.running hstop; omega
  | true => have := h.stopped hstop; omega

theorem outstanding_le (h : Counted s) : outstandingErrors s ≤ 2 := by
  have := h.queue
  unfold outstandingErrors
  split <;> omega

/-- Counting less, with no more to come. -/
theorem of_le (h : Counted s) (hq : (waiting t.mail reactI2cError).length ≤ 1)
    (hc : t.commsErrorCount ≤ s.commsErrorCount) (hs : t.stopTransmit = s.stopTransmit)
    (ho : outstandingErrors t ≤ outstandingErrors s) : Counted t where
  queue := hq
  running := fun hstop => lt_of_le_of_lt hc (h.running (hs ▸ hstop))
  stopped := fun hstop => by
    have := h.stopped (hs ▸ hstop)
    omega

/-- Counting no more, with the errors to come left alone. -/
theorem of_waiting (h : Counted s) (hm : waiting t.mail reactI2cError = waiting s.mail reactI2cError)
    (ht : t.transfer = s.transfer) (hc : t.commsErrorCount ≤ s.commsErrorCount)
    (hs : t.stopTransmit = s.stopTransmit) : Counted t ∧ StaysStopped s t := by
  refine ⟨h.of_le (hm ▸ h.queue) hc hs ?_, fun hstop => ⟨hs.trans hstop, by rw [ht]; exact id⟩⟩
  rw [outstandingErrors, outstandingErrors, hm, ht]

end Counted

theorem errorCountAfter_le (h : s.commsErrorCount + 2 < 2 ^ 8) :
    errorCountAfter s ≤ s.commsErrorCount + 2 := by
  unfold errorCountAfter
  split <;> omega

/-! ## The handlers -/

/-- **An error** is counted, and stops the transmission when there are too
many. -/
theorem onI2cError_counts (h : onI2cError s = .ok t) :
    t.commsErrorCount = errorCountAfter s ∧
      t.stopTransmit = (s.stopTransmit || decide (commsTooManyErrors ≤ errorCountAfter s)) := by
  unfold onI2cError at h
  dsimp only at h
  split at h
  · next hmany =>
    obtain ⟨s₁, h₁, h⟩ := bind_eq_ok.mp h
    obtain ⟨s₂, h₂, h⟩ := bind_eq_ok.mp h
    obtain ⟨s₃, h₃, rfl⟩ := map_eq_ok.mp h
    -- neither the outputs nor the tone change the count
    have hf₁ := Part.frame_ok (p := .outputSet _ _) h₁
    have hf₂ := Part.frame_ok (p := .outputSet _ _) h₂
    have hf₃ := Part.frame_ok (p := .startTone _ _) h₃
    refine ⟨?_, by simp [hmany]⟩
    calc s₃.commsErrorCount
      _ = s₂.commsErrorCount := hf₃.commsErrorCount (by simp)
      _ = s₁.commsErrorCount := hf₂.commsErrorCount (by simp)
      _ = errorCountAfter s := hf₁.commsErrorCount (by simp)
  · next hfew =>
    have hf := Part.frame_ok (p := .outputStart _ _ _ _) h
    refine ⟨hf.commsErrorCount (by simp), ?_⟩
    rw [hf.stopTransmit (by simp)]
    simp [hfew]

theorem onI2cRead_counts (s : State) (arg : ℕ) :
    (resultState (onI2cRead s arg)).commsErrorCount ≤ s.commsErrorCount := by
  have hset : ∀ s₁, (resultState (outputSet s₁ chuckReleasedOc (arg ≠ 0))).commsErrorCount =
      s₁.commsErrorCount := fun s₁ =>
    ((Part.outputSet _ _).frame (List.mem_singleton_self _) s₁).commsErrorCount (by simp)
  unfold onI2cRead
  dsimp only
  rw [hset]
  split
  · exact Nat.sub_le _ _
  · exact le_rfl

/-- **The interrupt** goes on with the transfer, or ends it with a
notification. -/
theorem twiInterrupt_ends (s : State) (status : MasterStatus) :
    ∃ transfer mail, twiInterrupt s status = { s with transfer := transfer, mail := mail } ∧
      (transfer.locked = s.transfer.locked ∧ mail = s.mail ∨
        transfer.locked = false ∧ ∃ k x, mail = deposit queueSize s.mail k x) := by
  have hlocked : (twimInterruptHandler i2cPackage s.transfer status).2.locked =
      s.transfer.locked := by
    unfold twimInterruptHandler twimWriteHandler twimReadHandler
    split <;> (try split_ifs) <;> rfl
  unfold twiInterrupt i2cOnComplete
  dsimp only
  split
  · split_ifs <;> exact ⟨_, _, rfl, .inr ⟨rfl, _, _, rfl⟩⟩
  · exact ⟨_, _, rfl, .inl ⟨hlocked, rfl⟩⟩

namespace Counted

/-- A notification that ends a transfer takes its place. -/
theorem ends (h : Counted s) (hlocked : s.transfer.locked = true) {transfer : Transfer}
    (hfree : transfer.locked = false) (k x : ℕ) :
    Counted { s with transfer := transfer, mail := deposit queueSize s.mail k x } := by
  have hq := h.queue
  have hpost : (post (queueSize reactI2cError) (waiting s.mail reactI2cError) x).length ≤ 1 :=
    post_length_le (l := waiting s.mail reactI2cError) h.queue (by decide)
  have hlen : (waiting (deposit queueSize s.mail k x) reactI2cError).length ≤ 1 ∧
      (waiting (deposit queueSize s.mail k x) reactI2cError).length ≤
        (waiting s.mail reactI2cError).length + 1 := by
    rw [waiting_deposit]
    split
    · next heq => subst heq; exact ⟨hpost, by omega⟩
    · exact ⟨hq, by omega⟩
  refine h.of_le hlen.1 le_rfl rfl ?_
  rw [outstandingErrors, outstandingErrors, hfree, hlocked]
  simpa using hlen.2

/-- What an error that is counted leaves. -/
theorem error (h : Counted s) (hm : waiting t.mail reactI2cError = waiting s.mail reactI2cError)
    (ht : t.transfer = s.transfer) (hc : t.commsErrorCount = errorCountAfter s)
    (hs : t.stopTransmit = (s.stopTransmit || decide (commsTooManyErrors ≤ errorCountAfter s)))
    (hroom : s.stopTransmit = true →
      s.commsErrorCount + 2 + 2 * outstandingErrors s ≤ commsTooManyErrors + 5) : Counted t := by
  have hle := errorCountAfter_le h.room
  refine ⟨hm ▸ h.queue, fun hstop => ?_, fun hstop => ?_⟩
  · rw [hs, Bool.or_eq_false_iff, decide_eq_false_iff_not] at hstop
    rw [hc]
    exact not_le.mp hstop.2
  · rw [hc, show outstandingErrors t = outstandingErrors s by
      rw [outstandingErrors, outstandingErrors, hm, ht]]
    cases hbefore : s.stopTransmit with
    | true => have := hroom hbefore; omega
    | false =>
      -- it is this error that stops the transmission
      have := h.running hbefore
      have := h.outstanding_le
      omega

/-- What has to do neither with the bus nor with stopping, and counts no
errors. -/
theorem frame {cs : List Concern} (h : Counted s) (hf : Frame cs s t) (hbus : .bus ∉ cs)
    (hstop : .stop ∉ cs) (hc : t.commsErrorCount ≤ s.commsErrorCount) :
    Counted t ∧ StaysStopped s t :=
  h.of_waiting (by rw [hf.mail hbus]) (hf.transfer hbus) hc (hf.stopTransmit hstop)

/-- The state in which a handler is called; that of errors has one error
less to come. -/
theorem collect (h : Counted s) {mail : Mailroom ℕ} (hcol : collect s.mail handle = some (arg, mail)) :
    Counted { s with mail := mail } ∧ (handle = reactI2cError →
      outstandingErrors { s with mail := mail } + 1 ≤ outstandingErrors s) := by
  obtain ⟨rest, hw, hmail⟩ := collect_eq_some hcol
  have hlen : (waiting mail reactI2cError).length +
      (if handle = reactI2cError then 1 else 0) = (waiting s.mail reactI2cError).length := by
    rw [hmail]
    by_cases heq : handle = reactI2cError
    · rw [if_pos heq.symm, if_pos heq, ← heq, hw, List.length_cons]
    · rw [if_neg (Ne.symm heq), if_neg heq, Nat.add_zero]
  have hq := h.queue
  have ho : outstandingErrors { s with mail := mail } + (if handle = reactI2cError then 1 else 0) =
      outstandingErrors s := by
    unfold outstandingErrors
    dsimp only
    omega
  refine ⟨h.of_le (by dsimp only; omega) le_rfl rfl (by omega), fun heq => ?_⟩
  rw [if_pos heq] at ho
  omega

/-- **Sending**, of a step that does not stop. -/
theorem send (h : Counted s) {busy : Bool} (hok : onSendI2cCommand s busy = .ok t) :
    Counted t ∧ StaysStopped s t := by
  unfold onSendI2cCommand at hok
  split at hok
  · next hstop =>
    refine ⟨?_, fun h' => absurd (hstop.symm.trans h') (by simp)⟩
    obtain ⟨s₁, h₁, h₂⟩ := bind_eq_ok.mp hok
    have hc₁ : Counted s₁ := by
      split at h₁
      · have hf := (onI2cError_made s).frame_ok h₁
        obtain ⟨hcount, hstops⟩ := onI2cError_counts h₁
        exact h.error (by rw [hf.mail (by simp)]) (hf.transfer (by simp)) hcount hstops
          fun h' => absurd (hstop.symm.trans h') (by simp)
      · -- it may fail at once, which counts when it is handled
        obtain rfl := Except.ok.inj h₁
        have hf := Part.frame_ok (p := .send) (s := s) rfl
        refine ⟨?_, fun _ => ?_, fun h' => ?_⟩
        · unfold i2cMasterSend
          dsimp only
          split
          · show (waiting (deposit queueSize s.mail reactI2cError _) reactI2cError).length ≤ 1
            rw [waiting_deposit, if_pos rfl]
            exact post_length_le (l := waiting s.mail reactI2cError) h.queue (by decide)
          · exact h.queue
        · rw [hf.commsErrorCount (by simp)]
          exact h.running hstop
        · rw [hf.stopTransmit (by simp), hstop] at h'
          cases h'
    have hf := Part.frame_ok (p := .armTransmit i2cDelayBetweenTransmit) h₂
    exact (hc₁.frame hf (by simp) (by simp) (hf.commsErrorCount (by simp)).le).1
  · obtain rfl := Except.ok.inj hok
    exact ⟨h, fun hstop => ⟨hstop, id⟩⟩

end Counted

/-! ## Any event -/

/-- **The step lemma**, of a step that does not stop. -/
theorem Counted.reacts (ho : Orderly s) (h : Counted s) (hr : Reacts fuel s e (.ok t)) :
    Counted t ∧ StaysStopped s t := by
  cases hr with
  | tick =>
    refine h.of_waiting ?_ rfl le_rfl rfl
    show waiting (deposit queueSize s.mail reactTimer 0) reactI2cError = _
    rw [waiting_deposit, if_neg (by decide)]
  | twi status hlocked =>
    obtain ⟨transfer, mail, heq, ⟨hsame, rfl⟩ | ⟨hfree, k, x, rfl⟩⟩ := twiInterrupt_ends s status
    · rw [heq]
      refine ⟨h.of_le h.queue le_rfl rfl ?_, fun hstop => ⟨hstop, fun _ => hlocked⟩⟩
      rw [outstandingErrors, outstandingErrors, hsame]
    · rw [heq]
      exact ⟨h.ends hlocked hfree k x, fun hstop => ⟨hstop, fun _ => hlocked⟩⟩
  | @run handle arg mail around _ hcol hhandles =>
    obtain ⟨h₀, -⟩ := ho.collect hcol
    obtain ⟨hc, herror⟩ := h.collect hcol
    generalize hok : (Except.ok t : Except State State) = r at hhandles
    -- these send on the bus, count its errors or notify; a frame lemma does for the others
    by_cases hbus : handle ∈ [reactI2cCommand, reactI2cError, reactI2cRead, reactTimer, reactSample]
    · cases hhandles with
      | i2cCommand => exact hc.send hok.symm
      | i2cError =>
        have hf := (onI2cError_made { s with mail := mail }).frame_ok hok.symm
        obtain ⟨hcount, hstop⟩ := onI2cError_counts hok.symm
        refine ⟨hc.error (by rw [hf.mail (by simp)]) (hf.transfer (by simp)) hcount hstop
          fun h' => ?_, fun h' => ⟨?_, ?_⟩⟩
        · have := h.stopped h'
          have := herror rfl
          dsimp only
          omega
        · rw [hstop, show s.stopTransmit = true from h', Bool.true_or]
        · rw [hf.transfer (by simp)]
          exact id
      | i2cRead =>
        have hf := (onI2cRead_made { s with mail := mail } arg).frame_ok hok.symm
        have hcount := onI2cRead_counts { s with mail := mail } arg
        rw [← hok] at hcount
        exact hc.frame hf (by simp) (by simp) hcount
      | timer hd =>
        obtain rfl := Except.ok.inj hok
        exact hc.of_waiting (h₀.dispatch_waiting hd (by decide)) rfl le_rfl rfl
      | sample =>
        obtain rfl := Except.ok.inj hok
        exact hc.of_waiting (h₀.sample_waiting around.high (by decide)) rfl le_rfl rfl
      | _ => exact absurd hbus (by decide)
    · have hcs : .bus ∉ concerns handle ∧ .errors ∉ concerns handle ∧ .stop ∉ concerns handle := by
        cases hhandles with
        | i2cCommand | i2cError | i2cRead | timer _ | sample => exact absurd (by decide) hbus
        | _ => decide
      have hne : handle ∉ [reactTimer, reactSample] := fun hmem => hbus (by simp at hmem ⊢; tauto)
      have hf := (handles_made hhandles hne).frame_ok hok.symm
      exact hc.frame hf hcs.1 hcs.2.2 (hf.commsErrorCount hcs.2.1).le

theorem start_counted : Counted start where
  queue := by decide +kernel
  running := by decide +kernel
  stopped := by decide +kernel

/-- The invariant holds in all the states of a run, and each of them stays
stopped. -/
theorem counted_of_run (hr : Run (step fuel) start hist s) :
    (∀ a ∈ statesOf hist s, Counted a) ∧ (statesOf hist s).Pairwise StaysStopped := by
  induction hr with
  | nil => exact ⟨by simpa [statesOf] using start_counted, List.pairwise_singleton _ _⟩
  | @snoc hist s s' e hrun hs ih =>
    obtain ⟨hcounted, hpair⟩ := ih
    have hlast : s ∈ statesOf hist s := by simp [statesOf]
    obtain ⟨hc', hstays⟩ := (hcounted s hlast).reacts (orderly_of_run hrun) (reacts_of_step hs)
    have hall : statesOf (hist ++ [(s, e)]) s' = statesOf hist s ++ [s'] := by simp [statesOf]
    rw [hall]
    refine ⟨fun a ha => ?_, List.pairwise_append.mpr ⟨hpair, List.pairwise_singleton _ _, ?_⟩⟩
    · rcases List.mem_append.mp ha with ha | ha
      · exact hcounted a ha
      · rw [List.mem_singleton.mp ha]; exact hc'
    · intro a ha b hb
      rw [List.mem_singleton.mp hb]
      -- what held up to the state before holds up to this one
      have hbefore : StaysStopped a s := by
        rcases List.mem_append.mp ha with ha | ha
        · exact (List.pairwise_append.mp hpair).2.2 a ha s (List.mem_singleton_self _)
        · rw [List.mem_singleton.mp ha]; exact fun h => ⟨h, id⟩
      intro hstop
      obtain ⟨hstop₁, hlocked₁⟩ := hbefore hstop
      obtain ⟨hstop₂, hlocked₂⟩ := hstays hstop₁
      exact ⟨hstop₂, fun h => hlocked₁ (hlocked₂ h)⟩

/-- **The errors are contained in every run.** -/
theorem errors_contained (hr : Run (step fuel) start hist s) : ErrorsContained (statesOf hist s) := by
  obtain ⟨hcounted, hpair⟩ := counted_of_run hr
  exact ⟨fun a ha => (hcounted a ha).running, fun a ha => (hcounted a ha).room,
    hpair.imp fun h hstop => (h hstop).1, hpair.imp fun h hstop => (h hstop).2⟩

/-- Also when the last transfer ends after the transmission is stopped. -/
theorem errors_contained_lateReply : ∃ hist s, Run (step 32) start hist s ∧
    s.stopTransmit = true ∧ ErrorsContained (statesOf hist s) := by
  obtain ⟨s₁, h₁, hreleases, -⟩ := manyErrors_lead
  obtain ⟨s, hs, hreleased⟩ := (Option.any_eq_true _ _).mp hreleases
  obtain ⟨hist, hr, -⟩ := exists_run_of_runBlocks h₁ hs
  exact ⟨hist, s, hr, (Bool.and_eq_true_iff.mp hreleased).1, errors_contained hr⟩

end Controller

end CncPneumatics
