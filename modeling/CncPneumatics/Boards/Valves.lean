import CncPneumatics.Boards.Delivery
import CncPneumatics.Controller.FailSafe
import CncPneumatics.Hub.Freshness
/-!
# The valves

From an open valve of the hub back to the controller that wanted it open:
the command was handled less than five seconds ago, and it was sent when
an input or the door demanded this valve. A controller that stopped its
transmission closes them all.
-/

namespace CncPneumatics

open Asx

namespace Hub

variable {fuel v q sampleAt checkAt : ℕ} {s : State} {hist : List (State × Event)} {a : TimerAgenda}

/-- A command that still opens a valve at the end of a millisecond was
given not long ago: the first check after the start comes late. -/
theorem Given.recent (h : Given hist s q) (hinv : Inv hist s a sampleAt checkAt)
    (hend : s.mail = []) : s.timer.counter < q + 7000 ∧
      (7000 ≤ s.timer.counter → s.timer.counter < q + 5000) := by
  have hempty : ∀ k, waiting s.mail k = [] := fun k => by rw [hend]; rfl
  have hnext := hinv.check_idle (hempty _)
  have hlt := hinv.check_lt (hempty _)
  rw [hinv.refines.counter]
  rw [hnext] at hlt
  cases hl : checkedAt hist with
  | none =>
    rw [hl] at hlt
    simp only [nextCheck, Option.elim_none] at hlt
    omega
  | some l =>
    rw [hl] at hlt
    simp only [nextCheck, Option.elim_some] at hlt
    have hchecked := h.checked_le l hl
    simp only [noNewCommandGracePeriod, timerMilliseconds] at hchecked
    by_cases hlate : 5000 < l
    · have := hchecked hlate
      omega
    · omega

/-- The command of an open valve, in the history. -/
theorem exists_recent_command (hr : Run (step fuel) start hist s) (hb : Bounded hist)
    (hend : s.mail = []) (hv : v ∈ valves) (hon : pinLevel s.pins v = true) :
    valveOf s.currentCmd = some v ∧ ∃ g₁ p g₂, hist = g₁ ++ p :: g₂ ∧
      handled p = some s.currentCmd ∧ s.timer.counter < timeOf p + 7000 ∧
      (7000 ≤ s.timer.counter → s.timer.counter < timeOf p + 5000) := by
  have hvalve : valveOf s.currentCmd = some v := ((agree_of_run hr).shows v hv).mp hon
  obtain ⟨q, hq⟩ := asked_of_run hr hb (by rw [hvalve]; simp)
  obtain ⟨a, S, K, hinv⟩ := inv_of_run hr hb
  obtain ⟨p, hp, rfl⟩ := Option.map_eq_some_iff.mp hq.commanded
  obtain ⟨g₁, g₂, hsplit, hcmd, -⟩ := exists_of_lastWhere hp
  exact ⟨hvalve, g₁, p, g₂, hsplit, of_decide_eq_true hcmd, hq.recent hinv hend⟩

end Hub

namespace Boards

variable {fuel v : ℕ} {s s' s₁ : State} {e : Event} {h h₁ h₂ : List (State × Event)}
  {p : State × Event} {c : Controller.State}

/-! ## What the controller demands -/

/-- **The valve that the controller demands**, if any: an input that is on
goes before the door, and the door demands one while it moves. -/
def demands (c : Controller.State) : Option ℕ :=
  if Controller.statusOf c Controller.inChuckOpen then some Hub.ioportChuckClamp
  else if Controller.statusOf c Controller.inSpindleAirBlast then some Hub.ioportSpindleClean
  else if Controller.statusOf c Controller.inToolsetAirBlast then some Hub.ioportToolSetterAirBlast
  else if c.doorSm = .opening then some Hub.ioportDoorPull
  else if c.doorSm = .closing then some Hub.ioportDoorPush
  else none

/-- **The current command** opens the valve that is demanded. -/
theorem valveOf_currentCommand (hc : Controller.Commanded c) :
    Hub.valveOf c.currentCommand = demands c := by
  obtain ⟨⟨f, hf, hup, hdown⟩, hcommand⟩ := hc
  have hstatus : ∀ pin ∈ Controller.tablePins, Controller.statusOf c pin = f pin :=
    fun pin hpin => Controller.statusOf_tableWith hf hpin
  rw [hcommand, hf, Controller.firstOpcode_tableWith]
  unfold demands
  rw [hstatus Controller.inChuckOpen (by decide), hstatus Controller.inSpindleAirBlast (by decide),
    hstatus Controller.inToolsetAirBlast (by decide)]
  simp only [← hup, ← hdown]
  split_ifs <;> rfl

/-! ## From the valve to the demand -/

/-- The command that the hub handles in the step. -/
def handles (p : State × Event) : Option Opcode :=
  (projectStep State.hub hubPart p).bind Hub.handled

theorem filterMap_handles (h : List (State × Event)) :
    h.filterMap handles = (ofHub h).filterMap Hub.handled := by
  rw [ofHub, project, List.filterMap_filterMap]
  rfl

/-- A step that handles a command sends none. -/
theorem sent_of_handles {cmd : Opcode} (hp : handles p = some cmd) : sent p = none := by
  obtain ⟨q, hq, hhandled⟩ := Option.bind_eq_some_iff.mp hp
  obtain ⟨e, he, rfl⟩ := Option.map_eq_some_iff.mp hq
  obtain ⟨s, ev⟩ := p
  cases ev with
  | controller => cases he
  | _ => rfl

/-- The step of the hub, among those of both boards. -/
theorem exists_handles {g₁ g₂ : List (Hub.State × Hub.Event)} {q : Hub.State × Hub.Event}
    {cmd : Opcode} (hq : ofHub h = g₁ ++ q :: g₂) (hhandled : Hub.handled q = some cmd) :
    ∃ h₁ p h₂, h = h₁ ++ p :: h₂ ∧ p.1.hub = q.1 ∧ handles p = some cmd := by
  obtain ⟨h₁, p, h₂, rfl, hstate, hpart, -, -⟩ := project_eq_append_cons hq
  refine ⟨h₁, p, h₂, rfl, hstate, ?_⟩
  rw [handles, projectStep, hpart, Option.map_some, Option.bind_some, hstate]
  exact hhandled

/-- **A command that is handled was sent before.** -/
theorem exists_sent {cmd : Opcode} (hr : Run (Boards.step fuel) start (h₁ ++ p :: h₂) s)
    (hn : Noticed Hub.isValid (h₁ ++ p :: h₂)) (hp : handles p = some cmd)
    (hvalid : Hub.isValid cmd = true) : ∃ g₁ q g₂, h₁ = g₁ ++ q :: g₂ ∧ sent q = some cmd := by
  rw [show h₁ ++ p :: h₂ = (h₁ ++ [p]) ++ h₂ by simp] at hr hn
  obtain ⟨s₁, hr₁, -⟩ := hr.of_append
  have hsub := handled_sublist_sent hr₁ fun h' hh' => hn h' (hh'.trans (List.prefix_append _ _))
  have hmem : cmd ∈ ((ofHub (h₁ ++ [p])).filterMap Hub.handled).filter Hub.isValid := by
    rw [← filterMap_handles, filterMap_concat, hp]
    exact List.mem_filter.mpr ⟨by simp, hvalid⟩
  have hsent := hsub.subset hmem
  rw [filterMap_concat, sent_of_handles hp, Option.toList_none, List.append_nil] at hsent
  obtain ⟨q, hq, hcmd⟩ := List.mem_filterMap.mp hsent
  obtain ⟨g₁, g₂, rfl⟩ := List.append_of_mem hq
  exact ⟨g₁, q, g₂, rfl, hcmd⟩

/-- What is sent opens the valve that is demanded. -/
theorem demands_of_sent {cmd : Opcode} {g₁ g₂ : List (State × Event)}
    (hr : Run (Boards.step fuel) start (g₁ ++ p :: g₂) s) (hp : sent p = some cmd) :
    Hub.valveOf cmd = demands p.1.controller := by
  obtain ⟨s₁, e⟩ := p
  have hrun := (hr.step_of_mem).1
  unfold sent at hp
  split at hp
  · split_ifs at hp
    obtain rfl := Option.some.inj hp
    exact valveOf_currentCommand (Controller.directed_of_run (run_controller hrun)).commanded
  · cases hp

/-- **An open valve was demanded.** While at most one bit of a byte is
altered at a time: when a valve is open at the end of a millisecond of the
hub, its command was handled less than seven seconds ago, and less than
five from the seventh second on, and before that the controller sent it
at a moment when it demanded this valve. -/
theorem open_valve_was_demanded (hr : Run (Boards.step fuel) start h s)
    (hb : Hub.Bounded (ofHub h)) (hnoise : ∀ h', h' <+: h → flips h' ∈ slight)
    (hend : s.hub.mail = []) (hv : v ∈ Hub.valves) (hon : pinLevel s.hub.pins v = true) :
    ∃ g₁ p g₂ q g₃ cmd, h = (g₁ ++ p :: g₂) ++ q :: g₃ ∧
      sent p = some cmd ∧ demands p.1.controller = some v ∧ handles q = some cmd ∧
      s.hub.timer.counter < q.1.hub.timer.counter + 7000 ∧
      (7000 ≤ s.hub.timer.counter → s.hub.timer.counter < q.1.hub.timer.counter + 5000) := by
  obtain ⟨hvalve, k₁, q', k₂, hsplit, hhandled, hrecent⟩ :=
    Hub.exists_recent_command (run_hub hr) hb hend hv hon
  obtain ⟨h₁, q, h₂, rfl, hstate, hq⟩ := exists_handles hsplit hhandled
  have hvalid := (Hub.isValid_of_valveOf (by rw [hvalve]; simp)).1
  obtain ⟨g₁, p, g₂, rfl, hp⟩ := exists_sent hr (noticed_of_slight hnoise) hq hvalid
  rw [List.append_assoc, List.cons_append] at hr
  have hdemand := demands_of_sent hr hp
  refine ⟨g₁, p, g₂, q, h₂, _, rfl, hp, hdemand.symm.trans hvalve, hq, ?_⟩
  rw [hstate]
  exact hrecent

/-- The switch of the chuck is closed, and the controller notices. -/
def chuckNoticed : List Event :=
  ((List.range 50).flatMap fun k => [.controller .tick, .controller (.run Controller.reactTimer ⟨[], false⟩)] ++
    if k = 0 ∨ (k + 1) % digitalInputSamplePeriod = 0 then
      [.controller (.run Controller.reactSample ⟨[Controller.inChuckOpen], false⟩)]
    else []) ++ [.controller (.run Controller.reactInputChange ⟨[], false⟩)]

/-- The command goes to the queue of the hub. -/
def commandGoes : List Event :=
  [.controller (.run Controller.reactI2cCommand ⟨[], false⟩), .wire, .wire, .wire]

/-- And is handled. -/
def commandHandled : Event := .hub (.run Hub.reactI2cHandler false)

def chuckSwitch : List Event := chuckNoticed ++ commandGoes ++ [commandHandled]

/-- A short run without noise. -/
theorem slight_of_events {es : List Event} (hevents : h.map Prod.snd = es)
    (hquiet : quietEvents es = true) (hlength : es.length < 2 ^ 16) :
    (∀ h', h' <+: h → flips h' ∈ slight) ∧ Hub.Bounded (ofHub h) := by
  subst hevents
  rw [List.length_map] at hlength
  refine ⟨fun h' hh' => ?_, .of_length ((List.length_filterMap_le _ h).trans_lt hlength)⟩
  rw [flips_of_quiet (quiet_of_events hquiet hh')]
  decide

theorem open_valve_was_demanded_chuckSwitch : ∃ h s, Run (step 32) start h s ∧
    pinLevel s.hub.pins Hub.ioportChuckClamp = true ∧
    ∃ g₁ p g₂ q g₃ cmd, h = (g₁ ++ p :: g₂) ++ q :: g₃ ∧
      sent p = some cmd ∧ demands p.1.controller = some Hub.ioportChuckClamp ∧
      handles q = some cmd ∧ s.hub.timer.counter < q.1.hub.timer.counter + 7000 ∧
      (7000 ≤ s.hub.timer.counter → s.hub.timer.counter < q.1.hub.timer.counter + 5000) := by
  have heval : (runEvents (step 32) chuckSwitch start).any (fun s =>
      decide (s.hub.mail = []) && pinLevel s.hub.pins Hub.ioportChuckClamp) = true := by decide +kernel
  obtain ⟨s, hs, hchecks⟩ := (Option.any_eq_true _ _).mp heval
  rw [Bool.and_eq_true, decide_eq_true_eq] at hchecks
  obtain ⟨hend, hon⟩ := hchecks
  obtain ⟨h, hr, hevents⟩ := exists_run_of_runEvents hs
  obtain ⟨hquiet, hb⟩ := slight_of_events hevents (by decide +kernel) (by decide +kernel)
  exact ⟨h, s, hr, hon, open_valve_was_demanded hr hb hquiet hend (by decide) hon⟩

/-! ## A silent controller -/

/-- Once stopped, always stopped. -/
theorem stopped_of_run (hr₁ : Run (Boards.step fuel) start h₁ s₁)
    (hr₂ : Run (Boards.step fuel) s₁ h₂ s) (hstop : s₁.controller.stopTransmit = true) :
    s.controller.stopTransmit = true := by
  refine hr₂.invariant_history (I := fun _ s => s.controller.stopTransmit = true) hstop ?_
  intro h s e s' hrun ih hstep
  have hfull := hr₁.trans hrun
  have hcontroller := (linked_of_run hfull).controller_step hstep
  cases hpart : controllerPart (s, e) with
  | none =>
    rw [hpart] at hcontroller
    rwa [show s'.controller = s.controller from hcontroller]
  | some e' =>
    rw [hpart] at hcontroller
    rcases Controller.reacts_stop (Controller.orderly_of_run (run_controller hfull))
      (Controller.reacts_of_step hcontroller) with ⟨hsame, -⟩ | ⟨-, -, -, hmono⟩
    · exact hsame.trans ih
    · exact hmono ih

/-- And it sends nothing. -/
theorem sent_of_stopped (hr₁ : Run (Boards.step fuel) start h₁ s₁)
    (hr₂ : Run (Boards.step fuel) s₁ h₂ s) (hstop : s₁.controller.stopTransmit = true) :
    h₂.filterMap sent = [] := by
  refine List.filterMap_eq_nil_iff.mpr fun p hp => ?_
  obtain ⟨g₁, g₂, rfl⟩ := List.append_of_mem hp
  obtain ⟨s₂, e⟩ := p
  have hstopped := stopped_of_run hr₁ (hr₂.step_of_mem).1 hstop
  unfold sent
  split
  · next e he =>
    refine if_neg ?_
    cases e with
    | run handle around => simp [Controller.sendsOn, hstopped]
    | _ => exact Bool.false_ne_true
  · rfl

/-- **A silent controller closes the valves**, whatever the noise. When the
transmission is stopped, or nothing is sent any more, and no command is on
its way or queued at that time, then a valve that is open at the end of a
later millisecond of the hub is so for less than seven seconds since then,
and less than five from the seventh second of the hub on. -/
theorem silent_controller_closes_valves (hr₁ : Run (Boards.step fuel) start h₁ s₁)
    (hr₂ : Run (Boards.step fuel) s₁ h₂ s) (hb : Hub.Bounded (ofHub (h₁ ++ h₂)))
    (hsilent : s₁.controller.stopTransmit = true ∨ h₂.filterMap sent = [])
    (hinflight : inflight s₁ = []) (hqueued : Hub.pendingMessages s₁.hub = [])
    (hend : s.hub.mail = []) : ∀ v ∈ Hub.valves, pinLevel s.hub.pins v = true →
      s.hub.timer.counter < s₁.hub.timer.counter + 7000 ∧
      (7000 ≤ s.hub.timer.counter → s.hub.timer.counter < s₁.hub.timer.counter + 5000) := by
  intro v hv hon
  have hparts := ofHub_append h₁ h₂
  obtain ⟨-, g₁, p, g₂, hsplit, hhandled, hrecent, hrecent'⟩ :=
    Hub.exists_recent_command (run_hub (hr₁.trans hr₂)) hb hend hv hon
  rw [hparts] at hb hsplit
  have hp : p ∈ ofHub h₁ ++ ofHub h₂ := by rw [hsplit]; simp
  rcases List.mem_append.mp hp with hp | hp
  · -- it was handled before
    have hold := Hub.timeOf_le (run_hub hr₁) hb.of_append hp
    exact ⟨by omega, fun hlate => by have := hrecent' hlate; omega⟩
  · -- since then there was nothing to handle
    have hnone : h₂.filterMap sent = [] := hsilent.elim (sent_of_stopped hr₁ hr₂) id
    have hmem : s.hub.currentCmd ∈ (ofHub h₂).filterMap Hub.handled :=
      List.mem_filterMap.mpr ⟨p, hp, hhandled⟩
    rw [handled_eq_nil hr₁ hr₂ hinflight hqueued hnone] at hmem
    cases hmem

/-- A millisecond of the hub. -/
def hubMillisecond : List Event :=
  [.hub .tick, .hub (.run Hub.reactTimer false), .hub (.run Hub.reactSample false)]

theorem silent_controller_closes_valves_chuckSwitch : ∃ h₁ h₂ s₁ s, Run (step 32) start h₁ s₁ ∧
    Run (step 32) s₁ h₂ s ∧ h₂.map Prod.snd = hubMillisecond ∧
    ∀ v ∈ Hub.valves, pinLevel s.hub.pins v = true →
      s.hub.timer.counter < s₁.hub.timer.counter + 7000 ∧
      (7000 ≤ s.hub.timer.counter → s.hub.timer.counter < s₁.hub.timer.counter + 5000) := by
  have heval : (runEvents (step 32) chuckSwitch start).any (fun s₁ =>
      decide (inflight s₁ = [] ∧ Hub.pendingMessages s₁.hub = []) &&
        (runEvents (step 32) hubMillisecond s₁).any fun s => decide (s.hub.mail = [])) = true := by
    decide +kernel
  obtain ⟨s₁, hs₁, hchecks⟩ := (Option.any_eq_true _ _).mp heval
  rw [Bool.and_eq_true, decide_eq_true_eq, Option.any_eq_true] at hchecks
  obtain ⟨⟨hinflight, hqueued⟩, s, hs, hend⟩ := hchecks
  obtain ⟨h₁, hr₁, hevents₁⟩ := exists_run_of_runEvents hs₁
  obtain ⟨h₂, hr₂, hevents₂⟩ := exists_run_of_runEvents hs
  have hevents : (h₁ ++ h₂).map Prod.snd = chuckSwitch ++ hubMillisecond := by
    rw [List.map_append, hevents₁, hevents₂]
  obtain ⟨-, hb⟩ := slight_of_events hevents (by decide +kernel) (by decide +kernel)
  have hnone : h₂.filterMap sent = [] := by
    refine List.filterMap_eq_nil_iff.mpr fun p hp => ?_
    have hall : ∀ e ∈ hubMillisecond, ∀ s, sent (s, e) = none := by
      simp [hubMillisecond, sent]
    exact hall p.2 (hevents₂ ▸ List.mem_map_of_mem hp) p.1
  exact ⟨h₁, h₂, s₁, s, hr₁, hr₂, hevents₂, silent_controller_closes_valves hr₁ hr₂ hb
    (.inr hnone) hinflight hqueued (of_decide_eq_true hend)⟩

end Boards

end CncPneumatics
