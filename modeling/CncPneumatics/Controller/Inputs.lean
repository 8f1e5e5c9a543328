import CncPneumatics.Asx.SharedHandler
import CncPneumatics.Controller.Command
import CncPneumatics.Controller.Handlers
/-!
# What the inputs show

Three inputs share `react_input_change` and the two sensors of the door
share `react_door_sensor`, each with a queue of one notification. The
table of outputs and `OC_DOOR_CLOSED` follow the inputs as long as no
sampling pass overwrites the notification of another input.
-/

namespace CncPneumatics

open Asx

namespace Controller

variable {fuel handle arg : ℕ} {s s' : State} {around : Surroundings} {r : Except State State}
  {e : Event} {W : List ℕ} {hist : List (State × Event)} {f : ℕ → Bool}

/-- The settled value of an input, off where it never settled. -/
def settled (s : State) (pin : ℕ) : Bool := settledOf s.inputs pin

/-- The level of `OC_DOOR_CLOSED`. -/
def doorClosed (s : State) : Bool := pinLevel s.pins ocDoorClosed

/-- **The inputs are shown**: with nothing queued, the table has the real
inputs as they are settled, and the output has the sensor of the closed
door. -/
structure InputsShown (s : State) : Prop where
  table : waiting s.mail reactInputChange = [] →
    ∀ pin ∈ realInputs, statusOf s pin = settled s pin
  door : waiting s.mail reactDoorSensor = [] → doorClosed s = settled s inDoorDown

/-- The notifications of a handler that are outstanding after a sampling
pass: the one queued, and those of its inputs that settle. -/
def outstanding (s : State) (high : List ℕ) (handler : ℕ) : List ℕ :=
  waiting s.mail handler ++ settlings (fun pin => decide (pin ∈ high)) s.inputs handler

/-- A sampling pass loses no notification: of those outstanding, the last
about each real input is the last of all, or says what the table has, and
so for the sensor of the closed door. -/
def KeepsNotices (p : State × Event) : Prop :=
  ∀ around ∈ (match p.2 with
      | .run handle around => if handle = reactSample then some around else none
      | _ => none),
    (∀ pin ∈ realInputs,
      NoticeKept (outstanding p.1 around.high reactInputChange) (statusOf p.1 pin) pin) ∧
    NoticeKept (outstanding p.1 around.high reactDoorSensor) (doorClosed p.1) inDoorDown

instance : DecidablePred KeepsNotices := fun p => by
  unfold KeepsNotices
  infer_instance

/-! ## The table -/

theorem statusOf_congr (h : s'.outputStatuses = s.outputStatuses) (pin : ℕ) :
    statusOf s' pin = statusOf s pin := by
  unfold statusOf
  rw [h]

/-- Writing an entry of the table. -/
theorem statusOf_write (ht : s.outputStatuses = tableWith f) {pin : ℕ} {value : Bool}
    (hpin : pin ∈ tablePins) (hw : s'.outputStatuses = setStatus pin value s.outputStatuses)
    {pin' : ℕ} (hpin' : pin' ∈ tablePins) :
    statusOf s' pin' = if pin = pin' then value else statusOf s pin' := by
  rw [ht, setStatus_tableWith hpin] at hw
  rw [statusOf_tableWith hw hpin', statusOf_tableWith ht hpin', Function.update_apply]
  simp only [eq_comm]

theorem realInputs_subset : realInputs ⊆ tablePins := by decide

/-- An event of the door leaves the entries of the real inputs alone. -/
theorem processEvent_statusOf (hc : Commanded s) {event : DoorEvent}
    (hs : processEvent s event = .ok s') : ∀ pin ∈ realInputs, statusOf s' pin = statusOf s pin := by
  intro pin hpin
  obtain ⟨f, hf, -⟩ := hc.table
  have hwrite : ∀ door ∈ [inDoorUp, inDoorDown], ∀ (value : Bool) (t : State),
      t.outputStatuses = setStatus door value s.outputStatuses →
        statusOf t pin = statusOf s pin := by
    intro door hdoor value t ht
    have hdoor' : door ∈ tablePins := by
      revert hdoor; simp only [tablePins, List.mem_cons]; tauto
    rw [statusOf_write hf hdoor' ht (realInputs_subset hpin), if_neg]
    rintro rfl
    have hfake : ∀ door ∈ [inDoorUp, inDoorDown], door ∉ realInputs := by decide
    exact hfake door hdoor hpin
  unfold processEvent at hs
  split at hs
  · next action next _ =>
    obtain ⟨s₁, hact, rfl⟩ := map_eq_ok.mp hs
    have hw := (doorAct_ok hact).outputStatuses
    show statusOf s₁ pin = _
    cases action with
    | none | doorMoving => exact statusOf_congr hw pin
    | pushOn | pushOff | pushTimeout => exact hwrite inDoorUp (by decide) _ _ hw
    | pullOn | pullOff | pullTimeout => exact hwrite inDoorDown (by decide) _ _ hw
  · rw [Except.ok.inj hs]

/-- A change of a sensor also is an event, but for the pin that it
drives. -/
theorem onDoorSensorChange_ok (hw : Wired s) (hc : Commanded s)
    (hs : onDoorSensorChange s arg = .ok s') :
    (∀ pin ∈ realInputs, statusOf s' pin = statusOf s pin) ∧
      doorClosed s' = if argPin arg = inDoorDown then argValue arg else doorClosed s := by
  have hevent : ∀ (t : State) (event : DoorEvent), Wired t → Commanded t →
      processEvent t event = .ok s' → (∀ pin ∈ realInputs, statusOf s' pin = statusOf t pin) ∧
        doorClosed s' = doorClosed t := by
    intro t event hwt hct hs
    have hacts := processEvent_acts hwt event
    rw [hs] at hacts
    exact ⟨processEvent_statusOf hct hs, hacts.pinLevel (by decide)⟩
  unfold onDoorSensorChange at hs
  split at hs
  · next hdown =>
    set s₁ : State := { s with pins := ioportSetPinLevel s.pins ocDoorClosed (argValue arg) } with hs₁
    obtain ⟨hstatus, hdoor⟩ := hevent s₁ _ hw (hc.same ⟨rfl, rfl, rfl⟩) hs
    refine ⟨fun pin hpin => (hstatus pin hpin).trans (statusOf_congr rfl pin), ?_⟩
    rw [hdoor, if_pos hdown, doorClosed, hs₁, pinLevel_set, if_pos rfl]
  · next hdown =>
    rw [if_neg hdown]
    split at hs
    · exact hevent s _ hw hc hs
    · rw [Except.ok.inj hs]
      exact ⟨fun _ _ => rfl, rfl⟩

/-! ## The invariant -/

theorem Orderly.distinct (h : Orderly s) : Distinct s.inputs where
  nodup := by
    have hpins : s.inputs.map DigitalInput.pin = inputTable.map Prod.fst := by
      rw [← h.inputs, List.map_map]; rfl
    rw [hpins]
    decide
  pin_lt := by
    intro di hdi
    have hmem : (di.pin, di.handler) ∈ inputTable := by
      rw [← h.inputs]; exact List.mem_map_of_mem hdi
    have hlt : ∀ p ∈ inputTable, p.1 < 256 := by decide
    exact hlt _ hmem

/-- **What the handlers of inputs have shown.** -/
structure Following (s : State) : Prop where
  commanded : Commanded s
  table : Tracks s.inputs reactInputChange (statusOf s) realInputs
    (waiting s.mail reactInputChange)
  door : Tracks s.inputs reactDoorSensor (fun _ => doorClosed s) [inDoorDown]
    (waiting s.mail reactDoorSensor)

theorem Following.shown (h : Following s) : InputsShown s where
  table := fun hnone pin hpin => (h.table.shown pin hpin).resolve_right fun heq => by
    rw [hnone] at heq; cases heq
  door := fun hnone => (h.door.shown inDoorDown (by simp)).resolve_right fun heq => by
    rw [hnone] at heq; cases heq

/-- What has nothing to do with the inputs. -/
theorem Following.frame (h : Following s) (hc : Commanded s') (hi : s'.inputs = s.inputs)
    (hmail : ∀ k ∈ [reactInputChange, reactDoorSensor], waiting s'.mail k = waiting s.mail k)
    (hstatus : ∀ pin ∈ realInputs, statusOf s' pin = statusOf s pin)
    (hdoor : doorClosed s' = doorClosed s) : Following s' where
  commanded := hc
  table := by
    rw [hi, hmail _ (by simp)]
    exact h.table.congr hstatus
  door := by
    rw [hi, hmail _ (by simp), hdoor]
    exact h.door

/-- What the handlers see of it that are not about outputs and the door. -/
theorem Following.same (h : Following s) (ht : SameTable s s') (hi : s'.inputs = s.inputs)
    (hmail : ∀ k ∈ [reactInputChange, reactDoorSensor], waiting s'.mail k = waiting s.mail k)
    (hdoor : doorClosed s' = doorClosed s) : Following s' :=
  h.frame (h.commanded.same ht) hi hmail (fun pin _ => statusOf_congr ht.outputStatuses pin) hdoor

/-- The queue of a handler of inputs after a sampling pass. -/
theorem waiting_onSample {k : ℕ} (hsize : queueSize k = 1) (hk : k ≠ reactorNullHandle)
    (hlen : (waiting s.mail k).length ≤ 1) (high : List ℕ) :
    waiting (onSample s high).mail k = (outstanding s high k).getLast?.toList := by
  show waiting (depositAll queueSize s.mail (digitalInputSample _ s.inputs).2) k = _
  rw [waiting_depositAll, waiting_digitalInputSample hk, hsize, foldl_post_one hlen]
  rfl

theorem onSample_inputs (s : State) (high : List ℕ) : (onSample s high).inputs =
    s.inputs.map fun di => digitalInputIntegrate di (decide (di.pin ∈ high)) :=
  digitalInputSample_fst

/-- **A sampling pass** that loses no notification. -/
theorem Following.sample (h : Following s) (ho : Orderly s) {high : List ℕ}
    (htable : ∀ pin ∈ realInputs,
      NoticeKept (outstanding s high reactInputChange) (statusOf s pin) pin)
    (hdoor : NoticeKept (outstanding s high reactDoorSensor) (doorClosed s) inDoorDown) :
    Following (onSample s high) := by
  refine ⟨h.commanded.same ⟨rfl, rfl, rfl⟩, ?_, ?_⟩
  · rw [onSample_inputs, waiting_onSample rfl (by decide) h.table.length_le]
    exact h.table.pass ho.distinct htable
  · rw [onSample_inputs, waiting_onSample rfl (by decide) h.door.length_le]
    have hkept : ∀ pin ∈ [inDoorDown],
        NoticeKept (outstanding s high reactDoorSensor) (doorClosed s) pin := fun pin hpin => by
      rw [List.mem_singleton.mp hpin]; exact hdoor
    exact Tracks.pass ho.distinct h.door hkept

/-- A notification that is handled is about an input of its handler. -/
theorem Orderly.argPin_mem (h : Orderly s) {shown : ℕ → Bool} {pins q : List ℕ}
    (ht : Tracks s.inputs handle shown pins q) (ha : arg ∈ q) :
    (argPin arg, handle) ∈ inputTable := by
  obtain ⟨di, hdi, rfl, heq⟩ := ht.queued arg ha
  rw [heq, argPin_pinAndValueAsArg (h.distinct.pin_lt di hdi), ← h.inputs]
  exact List.mem_map_of_mem hdi

/-- What a handler leaves of the queues, of the inputs and of
`OC_DOOR_CLOSED`. -/
theorem handles_inputs {mail : Mailroom ℕ} {rest : List ℕ}
    (hmail : ∀ k, waiting mail k = if k = handle then rest else waiting s.mail k)
    (hk : Keeps (Arms handle) (touches handle) { s with mail := mail } s') :
    s'.inputs = s.inputs ∧ (handle ≠ reactDoorSensor → doorClosed s' = doorClosed s) ∧
      ∀ k ∈ [reactInputChange, reactDoorSensor],
        waiting s'.mail k = if k = handle then rest else waiting s.mail k := by
  refine ⟨hk.inputs, fun hne => hk.pinLevel ?_, fun k hmem => ?_⟩
  · unfold touches
    rw [if_neg hne]
    split <;> decide
  · rw [← hmail k]
    refine hk.waiting k ?_
    rintro rfl
    exact absurd hmem (by decide)

/-- The notification of a change of an input is handled. -/
theorem Following.inputChange (h : Following s) (ho : Orderly s) {rest : List ℕ}
    (hq : waiting s.mail reactInputChange = arg :: rest) (hc : s'.outputStatuses =
      setStatus (argPin arg) (argValue arg) s.outputStatuses) :
    argPin arg ∈ realInputs ∧
      Tracks s.inputs reactInputChange (statusOf s') realInputs rest := by
  have hpin : argPin arg ∈ realInputs := by
    have hmem := ho.argPin_mem h.table (show arg ∈ _ by rw [hq]; simp)
    have hreal : ∀ p ∈ inputTable, p.2 = reactInputChange → p.1 ∈ realInputs := by decide
    exact hreal _ hmem rfl
  obtain ⟨f, hf, -⟩ := h.commanded.table
  exact ⟨hpin, (h.table.handled ho.distinct hq fun pin hmem =>
    statusOf_write hf (realInputs_subset hpin) hc (realInputs_subset hmem)).2⟩

/-- **A handler is run** that is not that of the timers or of the inputs. -/
theorem Following.run (h : Following s) (ho : Orderly s) {mail : Mailroom ℕ} {rest : List ℕ}
    (hw : Wired s) (hq : waiting s.mail handle = arg :: rest)
    (hmail : ∀ k, waiting mail k = if k = handle then rest else waiting s.mail k)
    (hhandles : Handles fuel { s with mail := mail } arg around handle r) (hr : r = .ok s')
    (hk : Keeps (Arms handle) (touches handle) { s with mail := mail } s')
    (hne : handle ∉ [reactTimer, reactSample]) : Following s' := by
  obtain ⟨hinputs, hdoor, hwaiting⟩ := handles_inputs hmail hk
  have hc₀ : Commanded { s with mail := mail } := h.commanded.same ⟨rfl, rfl, rfl⟩
  -- the handlers that no input notifies leave both queues as they are
  have hqueues (hinput : handle ≠ reactInputChange) (hsensor : handle ≠ reactDoorSensor) :
      ∀ k ∈ [reactInputChange, reactDoorSensor], waiting s'.mail k = waiting s.mail k := by
    intro k hmem
    rw [hwaiting k hmem, if_neg]
    rintro rfl
    simp only [List.mem_cons, List.not_mem_nil, or_false] at hmem
    exact hmem.elim hinput hsensor
  have hevent (event : DoorEvent) (hinput : handle ≠ reactInputChange)
      (hsensor : handle ≠ reactDoorSensor)
      (hs : processEvent { s with mail := mail } event = .ok s') : Following s' :=
    h.frame (hc₀.event hs) hinputs (hqueues hinput hsensor)
      (fun pin hpin => (processEvent_statusOf hc₀ hs pin hpin).trans (statusOf_congr rfl pin))
      (hdoor hsensor)
  have hother (hne : handle ∉ [reactInputChange, reactDoorSensor, reactDoorCmd, reactCmdTimeout]) :
      Following s' := by
    have ht := (handler_table hne hhandles).of_ok hr
    simp only [List.mem_cons, List.not_mem_nil, or_false, not_or] at hne
    exact h.same ⟨ht.1, ht.2, ht.3⟩ hinputs (hqueues hne.1 hne.2.1) (hdoor hne.2.1)
  cases hhandles with
  | timer _ | sample => exact absurd (by decide) hne
  | inputChange =>
    obtain ⟨hpin, htable⟩ := h.inputChange ho hq (onInputChange_ok hr).outputStatuses
    refine ⟨hc₀.input hpin rfl hr, ?_, ?_⟩
    · rw [hinputs, hwaiting _ (by simp), if_pos rfl]
      exact htable
    · rw [hinputs, hwaiting _ (by simp), if_neg (by decide), hdoor (by decide)]
      exact h.door
  | doorSensor =>
    obtain ⟨hstatus, hclosed⟩ := onDoorSensorChange_ok (show Wired { s with mail := mail } from hw) hc₀ hr
    refine ⟨hc₀.sensor hr, ?_, ?_⟩
    · rw [hinputs, hwaiting _ (by simp), if_neg (by decide)]
      exact h.table.congr fun pin hpin => (hstatus pin hpin).trans (statusOf_congr rfl pin)
    · rw [hinputs, hwaiting _ (by simp), if_pos rfl]
      refine (h.door.handled ho.distinct hq fun pin hpin => ?_).2
      rw [List.mem_singleton.mp hpin]
      exact hclosed
  | doorCmd => exact hevent _ (by decide) (by decide) hr
  | cmdTimeout => exact hevent _ (by decide) (by decide) hr
  | _ => exact hother (by decide)

/-- **The step lemma.** -/
theorem Following.reacts (h : Following s) (ho : Orderly s) (hs : step fuel s e = some s')
    (hkeeps : KeepsNotices (s, e)) : Following s' := by
  cases reacts_of_step hs with
  | tick =>
    refine h.same ⟨rfl, rfl, rfl⟩ rfl (fun k hk => ?_) rfl
    show waiting (deposit queueSize s.mail reactTimer 0) k = _
    rw [waiting_deposit, if_neg]
    rintro rfl
    exact absurd hk (by decide)
  | twi status hlocked =>
    obtain ⟨transfer, mail, heq, hmail⟩ := twiInterrupt_spec s status
    rw [heq]
    refine h.same ⟨rfl, rfl, rfl⟩ rfl (fun k hk => hmail k ?_ ?_) rfl
    · rintro rfl; exact absurd hk (by decide)
    · rintro rfl; exact absurd hk (by decide)
  | @run handle arg mail around _ hcol hhandles =>
    obtain ⟨h₀, harg⟩ := ho.collect hcol
    obtain ⟨rest, hq, hmail⟩ := collect_eq_some hcol
    -- the dispatch and the sampling pass only queue; the others are made of parts
    by_cases hne : handle ∈ [reactTimer, reactSample]
    · simp only [List.mem_cons, List.not_mem_nil, or_false] at hne
      have hmail' : handle ∉ [reactInputChange, reactDoorSensor] →
          ∀ k ∈ [reactInputChange, reactDoorSensor], waiting mail k = waiting s.mail k := by
        intro hnot k hk
        rw [hmail k, if_neg]
        rintro rfl
        exact hnot hk
      rcases hne with rfl | rfl
      · cases hhandles with
        | timer hd =>
          refine h.same ⟨rfl, rfl, rfl⟩ rfl (fun k hk => ?_) rfl
          have htimed : ∀ k ∈ [reactInputChange, reactDoorSensor], k ∉ timedHandles := by decide
          exact (h₀.dispatch_waiting hd (htimed k hk)).trans (hmail' (by decide) k hk)
      · cases hhandles
        obtain ⟨htable, hdoor⟩ := hkeeps around rfl
        have hout : ∀ k ∈ [reactInputChange, reactDoorSensor],
            outstanding { s with mail := mail } around.high k = outstanding s around.high k := by
          intro k hk
          unfold outstanding
          rw [hmail' (by decide) k hk]
        have hs₀ : Following { s with mail := mail } :=
          h.same ⟨rfl, rfl, rfl⟩ rfl (hmail' (by decide)) rfl
        refine hs₀.sample h₀ (fun pin hpin => ?_) ?_
        · rw [hout _ (by simp)]
          exact htable pin hpin
        · rw [hout _ (by simp)]
          exact hdoor
    · exact h.run ho h₀.wired hq hmail hhandles rfl (handles_keeps h₀.wired hhandles harg hne) hne

/-- At first nothing is settled, shown or queued. -/
theorem start_following : Following start where
  commanded := start_commanded
  table := ⟨by decide +kernel, by decide +kernel, by decide +kernel, by decide +kernel⟩
  door := ⟨by decide +kernel, by decide +kernel, by decide +kernel, by decide +kernel⟩

/-- The run lemma. -/
theorem following_of_run (hr : Run (step fuel) start hist s)
    (hkeeps : ∀ p ∈ hist, KeepsNotices p) : Following s := by
  induction hr with
  | nil => exact start_following
  | @snoc hist s s' e hrun hs ih =>
    exact (ih fun p hp => hkeeps p (by simp [hp])).reacts (orderly_of_run hrun) hs
      (hkeeps (s, e) (by simp))

/-! ## A notification that is lost -/

/-- Writing an entry leaves those of other pins alone. -/
theorem find?_setStatus {pin pin' : ℕ} (hne : pin ≠ pin') (value : Bool) (l : List OutputStatus) :
    (setStatus pin value l).find? (fun o => o.pin = pin') = l.find? fun o => o.pin = pin' := by
  induction l with
  | nil => rfl
  | cons o l ih =>
    unfold setStatus
    by_cases ho : o.pin = pin
    · rw [if_pos ho, List.find?_cons_of_neg (by simp [ho, hne]),
        List.find?_cons_of_neg (by simp [ho, hne])]
    · rw [if_neg ho, List.find?_cons, List.find?_cons, ih]

/-- `on_input_change` leaves the entries of other pins alone, also where it
stops. -/
theorem onInputChange_statusOf (s : State) {arg pin : ℕ} (hne : argPin arg ≠ pin) :
    statusOf (resultState (onInputChange s arg)) pin = statusOf s pin := by
  have hrefresh : ∀ t, (resultState (refreshOpcode t)).outputStatuses = t.outputStatuses := by
    intro t
    unfold refreshOpcode
    dsimp only
    split
    · exact (triggerNextTransmit_table { t with
        currentCommand := firstOpcode t.outputStatuses }).outputStatuses
    · rfl
  unfold onInputChange
  refine resultState_bind (R := fun a b => statusOf b pin = statusOf a pin)
    (fun _ _ _ h h' => h'.trans h) ?_ fun s₁ _ => ?_
  · split
    · unfold statusOf
      rw [hrefresh]
      dsimp only
      rw [find?_setStatus hne]
    · rfl
  · split
    · exact statusOf_congr (onOutput_table _ _ _).outputStatuses pin
    · rfl

/-- A change of the other sensor leaves the pin of the door alone. -/
theorem onDoorSensorChange_other (hw : Wired s) (hne : argPin arg ≠ inDoorDown) :
    Acts DoorTimer ledPins s (resultState (onDoorSensorChange s arg)) := by
  unfold onDoorSensorChange
  rw [if_neg hne]
  split
  · exact processEvent_acts hw _
  · exact .refl hw

/-- **A lost notification shows**: when its handler has run, nothing is
queued any more, and the input is not shown as it is settled. -/
theorem Following.lost (h : Following s) (ho : Orderly s)
    (hs : step fuel s (.run reactSample around) = some s')
    (hlost : ¬ KeepsNotices (s, .run reactSample around)) :
    ∃ handle ∈ [reactInputChange, reactDoorSensor], ∃ r,
      react fuel s' (.run handle around) = some r ∧ ¬ InputsShown (resultState r) := by
  cases reacts_of_step hs with
  | @run _ _ mail _ _ hcol hhandles =>
    cases hhandles
    have h₀ := (ho.collect hcol).1
    obtain ⟨rest, -, hmail⟩ := collect_eq_some hcol
    set s₀ : State := { s with mail := mail } with hs₀
    have hq : ∀ k, k ≠ reactSample → waiting s₀.mail k = waiting s.mail k := fun k hk => by
      rw [hs₀, hmail k, if_neg hk]
    have hf : Following s₀ := by
      refine h.same ⟨rfl, rfl, rfl⟩ rfl (fun k hk => hq k ?_) rfl
      rintro rfl
      exact absurd hk (by decide)
    have hout : ∀ k, k ≠ reactSample → outstanding s₀ around.high k = outstanding s around.high k :=
      fun k hk => by unfold outstanding; rw [hq k hk]
    have hsome : ¬ ((∀ pin ∈ realInputs, NoticeKept (outstanding s₀ around.high reactInputChange)
        (statusOf s₀ pin) pin) ∧
          NoticeKept (outstanding s₀ around.high reactDoorSensor) (doorClosed s₀) inDoorDown) := by
      rw [hout _ (by decide), hout _ (by decide)]
      intro hkept
      refine hlost fun a ha => ?_
      obtain rfl : around = a := Option.some.inj ha
      exact hkept
    -- the one notification left is that of another input, and running it empties the queue
    rcases not_and_or.mp hsome with htable | hdoor
    · push Not at htable
      obtain ⟨pin, hpin, hnot⟩ := htable
      obtain ⟨di, hdi, rfl, hk⟩ := hf.table.inputs pin hpin
      obtain ⟨b, hb, hne, hshown⟩ := hf.table.lost h₀.distinct hdi hk hnot
      have hqueue := waiting_onSample rfl (by decide) hf.table.length_le around.high
      rw [show (outstanding s₀ around.high reactInputChange).getLast?.toList = [b] from hb] at hqueue
      obtain ⟨m, hcol', hm⟩ := collect_of_cons hqueue
      refine ⟨reactInputChange, by simp, _, by rw [react, hcol']; rfl, fun hs' => hshown ?_⟩
      have hserves := onInputChange_serves (s := { onSample s₀ around.high with mail := m })
        (h₀.onSample around.high).wired b
      have hstatus := onInputChange_statusOf { onSample s₀ around.high with mail := m } hne
      have hsettled := hs'.table (by rw [hserves.mail]; exact (hm _).trans (if_pos rfl)) di.pin hpin
      rw [hstatus, settled, hserves.inputs] at hsettled
      rw [← onSample_inputs]
      exact hsettled
    · obtain ⟨di, hdi, hpin, hk⟩ := hf.door.inputs inDoorDown (by simp)
      obtain ⟨b, hb, hne, hshown⟩ := hf.door.lost h₀.distinct hdi hk (by rw [hpin]; exact hdoor)
      rw [hpin] at hne hshown
      have hqueue := waiting_onSample rfl (by decide) hf.door.length_le around.high
      rw [show (outstanding s₀ around.high reactDoorSensor).getLast?.toList = [b] from hb] at hqueue
      obtain ⟨m, hcol', hm⟩ := collect_of_cons hqueue
      refine ⟨reactDoorSensor, by simp, _, by rw [react, hcol']; rfl, fun hs' => hshown ?_⟩
      have hacts := onDoorSensorChange_other (s := { onSample s₀ around.high with mail := m })
        (h₀.onSample around.high).wired hne
      have hsettled := hs'.door (by rw [hacts.mail]; exact (hm _).trans (if_pos rfl))
      rw [show doorClosed (resultState _) = doorClosed s₀ from hacts.pinLevel (by decide), settled,
        hacts.inputs] at hsettled
      rw [← onSample_inputs]
      exact hsettled

/-- **The inputs are shown** in every state of a run that loses no
notification: what is not queued is in the table, and on the pin of the
door. A sampling pass that loses one leads to a state in which an input
is not shown, as soon as its handler has run. -/
theorem inputs_shown_of_keepsNotices (hr : Run (step fuel) start hist s)
    (hkeeps : ∀ p ∈ hist, KeepsNotices p) :
    InputsShown s ∧ ∀ around s', step fuel s (.run reactSample around) = some s' →
      ¬ KeepsNotices (s, .run reactSample around) →
        ∃ handle ∈ [reactInputChange, reactDoorSensor], ∃ r,
          react fuel s' (.run handle around) = some r ∧ ¬ InputsShown (resultState r) := by
  have h := following_of_run hr hkeeps
  exact ⟨h.shown, fun _ _ hs hlost => h.lost (orderly_of_run hr) hs hlost⟩

/-! ## Two inputs at once -/

/-- Five milliseconds in which the inputs are sampled once. -/
def samplePass (high : List ℕ) : List Event :=
  List.replicate 5 .tick ++ [.run reactTimer ⟨high, false⟩, .run reactSample ⟨high, false⟩]

/-- The pins are high until their inputs settle, and the handler of
changes is run. -/
def settleAndHandle (high : List ℕ) : List Event :=
  (List.replicate 8 (samplePass high)).flatten ++ [.run reactInputChange ⟨high, false⟩]

/-- An input that settles alone is shown. -/
theorem inputs_shown_of_keepsNotices_chuck : ∃ hist s, Run (step 16) start hist s ∧
    hist.map Prod.snd = settleAndHandle [inChuckOpen] ∧ settled s inChuckOpen = true ∧
    InputsShown s := by
  have hrun : (runEvents (guarded (fun p => decide (KeepsNotices p)) (step 16))
      (settleAndHandle [inChuckOpen]) start).any (fun s => settled s inChuckOpen) = true := by
    decide +kernel
  obtain ⟨s, hes, hs⟩ := (Option.any_eq_true _ _).mp hrun
  obtain ⟨hist, hr, hevents⟩ := exists_run_of_runEvents hes
  obtain ⟨hr, hkeeps⟩ := hr.of_guarded
  exact ⟨hist, s, hr, hevents, hs, (inputs_shown_of_keepsNotices hr fun p hp => by
    simpa using hkeeps p hp).1⟩

/-- **Two inputs that settle in one pass**: the change of the first is
lost. -/
theorem chuck_lost_with_spindle : ∃ hist s, Run (step 16) start hist s ∧
    hist.map Prod.snd = settleAndHandle [inChuckOpen, inSpindleAirBlast] ∧ ¬ InputsShown s := by
  have hrun : (runEvents (step 16) (settleAndHandle [inChuckOpen, inSpindleAirBlast]) start).any
      (fun s => decide (waiting s.mail reactInputChange = []) && settled s inChuckOpen &&
        !statusOf s inChuckOpen) = true := by decide +kernel
  obtain ⟨s, hes, hs⟩ := (Option.any_eq_true _ _).mp hrun
  obtain ⟨hist, hr, hevents⟩ := exists_run_of_runEvents hes
  simp only [Bool.and_eq_true, decide_eq_true_eq, Bool.not_eq_true'] at hs
  refine ⟨hist, s, hr, hevents, fun hshown => ?_⟩
  have heq := hshown.table hs.1.1 inChuckOpen (by simp [realInputs])
  rw [hs.1.2, hs.2] at heq
  cases heq

end Controller

end CncPneumatics
