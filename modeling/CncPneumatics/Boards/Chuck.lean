import CncPneumatics.Boards.Readings
import CncPneumatics.Controller.FailSafe
/-!
# The released chuck

The controller lets its output say that the chuck is released when the hub
has the pressure for it. From the output back to the input of the hub:
the last reading that the controller handled, the reply that told it, and
the command that the reply answered.
-/

namespace CncPneumatics

open Asx

namespace Boards

variable {fuel arg : ℕ} {s s' s₁ : State} {e : Event} {h h₁ h₂ : List (State × Event)}
  {p : State × Event}

/-! ## The queue of readings -/

/-- The readings that wait for `on_i2c_read`. -/
def pendingReads (s : State) : List ℕ := waiting s.controller.mail Controller.reactI2cRead

/-- The reading with which the step calls `on_i2c_read`. -/
def readsArg (p : State × Event) : Option ℕ :=
  match p.2 with
  | .controller (.run handle _) =>
    if handle = Controller.reactI2cRead then (pendingReads p.1).head? else none
  | _ => none

theorem readsArg_run (s : State) (handle : ℕ) (around : Controller.Surroundings) :
    readsArg (s, .controller (.run handle around)) =
      if handle = Controller.reactI2cRead then (pendingReads s).head? else none := rfl

/-- What a reply is to `on_i2c_read`. -/
def readingOf : OpcodesReply → Option ℕ
  | .on => some 1
  | .off => some 0
  | .error => none

/-- The reading that the step posts. -/
def told (p : State × Event) : Option ℕ :=
  match p.2, p.1.line with
  | .wire, .reply data => readingOf (readReply p.1 data)
  | _, _ => none

/-- A turn of the line posts what was told, if anything. -/
theorem Turn.pendingReads (ht : Turn s s') :
    (∃ arg, told (s, .wire) = some arg ∧
        Boards.pendingReads s' = post 1 (Boards.pendingReads s) arg) ∨
      told (s, .wire) = none ∧ Boards.pendingReads s' = Boards.pendingReads s := by
  cases ht with
  | @completes data hline =>
    have hmail : Boards.pendingReads { s with controller := replied s.controller data, line := .refused } =
        waiting (posted s.controller.mail (readReply s data)) Controller.reactI2cRead := by
      rw [← replied_mail]
      rfl
    rw [hmail, told, hline]
    dsimp only
    cases readReply s data with
    | on => exact .inl ⟨1, rfl, by rw [posted, waiting_deposit, if_pos rfl]; rfl⟩
    | off => exact .inl ⟨0, rfl, by rw [posted, waiting_deposit, if_pos rfl]; rfl⟩
    | error => exact .inr ⟨rfl, by rw [posted, waiting_deposit, if_neg (by decide)]; rfl⟩
  | idle hline | addressed _ hline _ _ _ | sends hline _ | restarts hline _ | receives hline _
  | replies hline _ | ends hline _ | stops hline _ =>
    refine .inr ⟨?_, rfl⟩
    rw [told, hline]

/-- **What a step does to the readings**: one is posted, the oldest is
handled, or nothing. -/
theorem Linked.pendingReads_step (hl : Linked s) (ho : Controller.Orderly s.controller)
    (hstep : Boards.step fuel s e = some s') :
    (∃ arg, told (s, e) = some arg ∧ readsArg (s, e) = none ∧
      pendingReads s' = post 1 (pendingReads s) arg) ∨
    (∃ arg, told (s, e) = none ∧ readsArg (s, e) = some arg ∧
      pendingReads s = arg :: pendingReads s') ∨
    (told (s, e) = none ∧ readsArg (s, e) = none ∧ pendingReads s' = pendingReads s) := by
  -- the controller by itself takes a reading, when it runs the handler of replies
  have hown {e : Controller.Event} {c : Controller.State}
      (hc : Controller.step fuel s.controller e = some c) (hne : ∀ st, e ≠ .twi st) :
      (∃ arg, readsArg (s, .controller e) = some arg ∧
        pendingReads s = arg :: waiting c.mail Controller.reactI2cRead) ∨
      (readsArg (s, .controller e) = none ∧
        waiting c.mail Controller.reactI2cRead = pendingReads s) := by
    by_cases hread : ∃ around, e = .run Controller.reactI2cRead around
    · obtain ⟨around, rfl⟩ := hread
      obtain ⟨arg, hw⟩ := Controller.reacts_read_takes (Controller.reacts_of_step hc)
      refine .inl ⟨arg, ?_, hw⟩
      rw [readsArg_run, if_pos rfl, pendingReads, hw]
      rfl
    · have hkeep := Controller.own_read_waiting ho hc hne fun around he => hread ⟨around, he⟩
      refine .inr ⟨?_, hkeep⟩
      cases e with
      | run handle around =>
        exact if_neg fun heq => hread ⟨around, by rw [heq]⟩
      | _ => rfl
  cases hl.steps hstep with
  | own hc hne _ _ | sends hc hne _ _ _ _ =>
    rcases hown hc hne with ⟨arg, hreads, hw⟩ | ⟨hreads, hw⟩
    · exact .inr (.inl ⟨arg, rfl, hreads, hw⟩)
    · exact .inr (.inr ⟨rfl, hreads, hw⟩)
  | hub _ _ | noise _ | slaveFault => exact .inr (.inr ⟨rfl, rfl, rfl⟩)
  | wire hturn =>
    rcases hturn.pendingReads with ⟨arg, htold, hw⟩ | ⟨htold, hw⟩
    · exact .inl ⟨arg, htold, rfl, hw⟩
    · exact .inr (.inr ⟨htold, rfl, hw⟩)
  | @fault lost _ =>
    refine .inr (.inr ⟨rfl, rfl, ?_⟩)
    show waiting (Controller.i2cOnComplete s.controller _).mail _ = _
    have herror : (if lost then StatusCode.errBusy else .errIoError) ≠ .statusOk := by
      cases lost <;> decide
    rw [Controller.i2cOnComplete, if_neg herror]
    show waiting (deposit _ _ Controller.reactI2cError _) _ = _
    rw [waiting_deposit, if_neg (by decide)]
    rfl

/-- The step told a reading. -/
def tells (p : State × Event) : Bool := (told p).isSome

/-- **The reading that waits is the last that was told.** -/
def Newest (h : List (State × Event)) (s : State) : Prop :=
  pendingReads s = [] ∨ ∃ t arg, lastWhere tells h = some t ∧ told t = some arg ∧ pendingReads s = [arg]

theorem newest_of_run (hr : Run (Boards.step fuel) start h s) : Newest h s := by
  refine hr.invariant_history (I := Newest) (.inl (by decide +kernel)) ?_
  intro h s e s' hrun hn hstep
  have hkeep (htold : told (s, e) = none) : lastWhere tells (h ++ [(s, e)]) = lastWhere tells h := by
    rw [lastWhere_concat, tells, htold]
    rfl
  rcases (linked_of_run hrun).pendingReads_step (Controller.orderly_of_run (run_controller hrun))
    hstep with ⟨arg, htold, -, hw⟩ | ⟨arg, htold, -, hw⟩ | ⟨htold, -, hw⟩
  · refine .inr ⟨(s, e), arg, ?_, htold, ?_⟩
    · rw [lastWhere_concat, tells, htold]
      rfl
    · rcases hn with hnil | ⟨t, arg', -, -, hone⟩
      · rw [hw, hnil]; rfl
      · rw [hw, hone]; rfl
  · rcases hn with hnil | ⟨t, arg', -, -, hone⟩
    · rw [hnil] at hw; cases hw
    · rw [hone] at hw
      exact .inl (List.cons.inj hw).2.symm
  · unfold Newest
    rw [hkeep htold, hw]
    exact hn

/-! ## The output -/

/-- A reading says on or off. -/
theorem told_eq_one {t : State × Event} (ht : told t = some arg) (hne : arg ≠ 0) : arg = 1 := by
  unfold told at ht
  split at ht
  · next data _ _ =>
    cases hr : readReply t.1 data with
    | on => rw [hr] at ht; exact (Option.some.inj ht).symm
    | off => rw [hr] at ht; exact absurd (Option.some.inj ht).symm hne
    | error => rw [hr] at ht; cases ht
  · cases ht

/-- **The last reading that was handled is on**, and so was the last that
was told before that. -/
def LastReadOn (h : List (State × Event)) : Prop :=
  ∃ g₁ p g₂ t, h = g₁ ++ p :: g₂ ∧ readsArg p = some 1 ∧ (∀ p' ∈ g₂, readsArg p' = none) ∧
    lastWhere tells g₁ = some t ∧ told t = some 1

theorem LastReadOn.concat (hl : LastReadOn h) (hp : readsArg p = none) : LastReadOn (h ++ [p]) := by
  obtain ⟨g₁, q, g₂, t, rfl, hq, hg₂, hlast, ht⟩ := hl
  refine ⟨g₁, q, g₂ ++ [p], t, by simp, hq, fun p' hp' => ?_, hlast, ht⟩
  rcases List.mem_append.mp hp' with hp' | hp'
  · exact hg₂ p' hp'
  · rw [List.mem_singleton.mp hp']
    exact hp

/-- **The output of the chuck** is on only where the last reading was. -/
theorem lastReadOn_of_run (hr : Run (Boards.step fuel) start h s) :
    Controller.chuckReleased s.controller = true → LastReadOn h := by
  refine hr.invariant_history
    (I := fun h s => Controller.chuckReleased s.controller = true → LastReadOn h) ?_ ?_
  · intro hon
    exact absurd hon (by decide +kernel)
  · intro h s e s' hrun ih hstep hon
    have hl := linked_of_run hrun
    have ho := Controller.orderly_of_run (run_controller hrun)
    have hcontroller := hl.controller_step hstep
    -- whether the step handles a reading
    by_cases hread : ∃ around, controllerPart (s, e) = some (.run Controller.reactI2cRead around)
    · obtain ⟨around, hpart⟩ := hread
      rw [hpart] at hcontroller
      obtain ⟨arg, hhead, hset⟩ := Controller.reacts_read ho (Controller.reacts_of_step hcontroller)
      rw [resultState_ok] at hset
      have hne : arg ≠ 0 := of_decide_eq_true (hset.symm.trans hon)
      have hreads : readsArg (s, e) = some arg := by
        cases e with
        | controller e =>
          obtain rfl := Option.some.inj hpart
          rw [readsArg_run, if_pos rfl]
          exact hhead
        | wire => cases hst : s.line.masterStatus <;> simp [controllerPart, hst] at hpart
        | _ => cases hpart
      rcases newest_of_run hrun with hnil | ⟨t, arg', hlast, ht, hone⟩
      · rw [show waiting s.controller.mail Controller.reactI2cRead = [] from hnil] at hhead
        cases hhead
      · rw [show waiting s.controller.mail Controller.reactI2cRead = [arg'] from hone] at hhead
        obtain rfl := Option.some.inj hhead
        obtain rfl := told_eq_one ht hne
        exact ⟨h, (s, e), [], t, rfl, hreads, by simp, hlast, ht⟩
    · have hnone : readsArg (s, e) = none := by
        unfold readsArg
        split
        · next handle around he =>
          refine if_neg fun heq => hread ⟨around, ?_⟩
          dsimp only at he
          rw [he, heq]
          rfl
        · rfl
      refine LastReadOn.concat (ih ?_) hnone
      cases hpart : controllerPart (s, e) with
      | none =>
        rw [hpart] at hcontroller
        rwa [show s'.controller = s.controller from hcontroller] at hon
      | some e' =>
        rw [hpart] at hcontroller hread
        rcases Controller.reacts_stop ho (Controller.reacts_of_step hcontroller) with
          ⟨-, hsame | ⟨around, rfl⟩⟩ | ⟨-, -, hoff, -⟩
        · rw [resultState_ok] at hsame
          rwa [← hsame]
        · exact absurd ⟨around, rfl⟩ hread
        · rw [resultState_ok, hon] at hoff
          cases hoff

/-- **A released chuck had the pressure.** Unless the noise flips every
bit of an exchange, the output that says so is on only after the
following: the hub received a command while its input was on, the
controller was told so in the same transfer, it was told nothing else
before it handled this, and it handled no reading since. -/
theorem released_chuck_had_pressure (hr : Run (Boards.step fuel) start h s)
    (hnoise : ∀ h', h' <+: h → alteration h' ≠ opcodeInputMasks)
    (hon : Controller.chuckReleased s.controller = true) :
    ∃ f₁ t f₂ p g q, h = (f₁ ++ t :: f₂) ++ p :: g ∧
      readsArg p = some 1 ∧ (∀ p' ∈ g, readsArg p' = none) ∧
      told t = some 1 ∧ (∀ t' ∈ f₂, told t' = none) ∧
      lastWhere moves f₁ = some q ∧ (delivered q).isSome = true ∧ Hub.pressureOn q.1.hub = true := by
  obtain ⟨g₁, p, g, t, rfl, hp, hg, hlast, ht⟩ := lastReadOn_of_run hr hon
  obtain ⟨f₁, f₂, rfl, -, hf₂⟩ := exists_of_lastWhere hlast
  obtain ⟨st, et⟩ := t
  have hrun := (hr.step_of_mem).1
  have hrun' : Run (Boards.step fuel) start f₁ st := (hrun.step_of_mem).1
  unfold told at ht
  dsimp only at ht
  split at ht
  · next data hline =>
    obtain ⟨q, hq, hbrings, hread⟩ := exists_readReply hrun' hline
    refine ⟨f₁, (st, .wire), f₂, p, g, q, rfl, hp, hg, ?_, fun t' ht' => ?_, hq, hbrings, ?_⟩
    · rw [told, hline]
      exact ht
    · simpa [tells] using hf₂ t' ht'
    · have hne := hnoise f₁ (by simp)
      rw [hread, heardReply, if_neg hne] at ht
      -- only a reply that was meant can be on
      cases hpressure : Hub.pressureOn q.1.hub with
      | true => rfl
      | false =>
        have hoff : Hub.pressureMonReply q.1.hub = .off := by
          rw [Hub.pressureMonReply, hpressure]
          rfl
        rw [hoff] at ht
        split_ifs at ht <;> cases ht
  · cases ht

/-- The pressure comes, and the first transfer tells the controller. -/
def pressureComes : List Event :=
  ((List.range 60).flatMap fun k => [.hub .tick, .hub (.run Hub.reactTimer true)] ++
    if k = 0 ∨ (k + 1) % digitalInputSamplePeriod = 0 then [.hub (.run Hub.reactSample true)] else []) ++
  [.controller .tick, .controller (.run Controller.reactTimer ⟨[], false⟩),
   .controller (.run Controller.reactI2cCommand ⟨[], false⟩), .wire, .wire, .wire, .wire, .wire, .wire,
   .wire, .controller (.run Controller.reactI2cRead ⟨[], false⟩)]

theorem released_chuck_had_pressure_comes : ∃ h s, Run (step 16) start h s ∧
    Controller.chuckReleased s.controller = true ∧
    ∃ f₁ t f₂ p g q, h = (f₁ ++ t :: f₂) ++ p :: g ∧
      readsArg p = some 1 ∧ (∀ p' ∈ g, readsArg p' = none) ∧
      told t = some 1 ∧ (∀ t' ∈ f₂, told t' = none) ∧
      lastWhere moves f₁ = some q ∧ (delivered q).isSome = true ∧ Hub.pressureOn q.1.hub = true := by
  have heval : (runEvents (step 16) pressureComes start).any (fun s =>
      Controller.chuckReleased s.controller) = true := by decide +kernel
  obtain ⟨s, hs, hon⟩ := (Option.any_eq_true _ _).mp heval
  obtain ⟨h, hr, hevents⟩ := exists_run_of_runEvents hs
  have hquiet : quietEvents (h.map Prod.snd) = true := by rw [hevents]; decide +kernel
  refine ⟨h, s, hr, hon, released_chuck_had_pressure hr (fun h' hh' => ?_) hon⟩
  have hq := quiet_of_events hquiet hh'
  rw [alteration, flips_of_quiet hq, commandFlips_of_quiet hq]
  decide

end Boards

end CncPneumatics
