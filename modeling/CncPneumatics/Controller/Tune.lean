import CncPneumatics.Asx.Notes
import CncPneumatics.Asx.TimerChain
import CncPneumatics.Common.History
import CncPneumatics.Controller.FailSafe
import CncPneumatics.Controller.Parts
import CncPneumatics.Controller.Schedule
/-!
# The tune

A tune goes on by itself: at the end of each note a timer goes off, whose
handler plays the next one. `piezzo_play` cancels the timer of the tune
that it replaces, but cannot take back an expiry that is already queued:
then the tune goes on twice, and its notes are cut short.
-/

namespace CncPneumatics

open Asx

namespace Controller

variable {fuel handle arg : ℕ} {s t : State} {around : Surroundings} {r : Except State State}
  {e : Event} {hist : List (State × Event)} {p : State × Event}

/-! ## Notes -/

/-- The duration of the next note. -/
def noteDuration (p : Piezzo) : ℕ := (parseNextNote { p with slur := p.slurNext }).duration

/-- The record from which a step plays a note, if it plays one. -/
def noteOf (p : State × Event) : Option Piezzo :=
  match p.2 with
  | .run handle _ =>
    if handle = reactBeep then some (tuneStart 150 ['B', '4'] p.1.piezzo)
    else if handle = reactPiezzo ∧ p.1.piezzo.nextNote ≠ [] then some p.1.piezzo
    else none
  | _ => none

/-- The milliseconds since the last note was played. -/
def ticksSinceNote (hist : List (State × Event)) : ℕ :=
  countSince (fun p => (noteOf p).isSome) (fun p => p.2 = .tick) hist

/-- What is outstanding of the tune: pending timers and queued
notifications. -/
def continuations (s : State) : ℕ :=
  (timersFor reactPiezzo s.timer.pending).length + (waiting s.mail reactPiezzo).length

/-- **The tune is kept**, in a run: there is never more than one
continuation of it, and what follows a note is handled when its duration
has elapsed. -/
structure TuneKept (hist : List (State × Event)) (s : State) : Prop where
  single : ∀ a ∈ statesOf hist s, continuations a ≤ 1
  held : ∀ h₁ p h₂ around, hist = h₁ ++ p :: h₂ → p.2 = .run reactPiezzo around →
    p.1.piezzo.duration ≤ ticksSinceNote h₁

/-- The event runs the handler. -/
def runs (handle : ℕ) : Event → Bool
  | .run k _ => k = handle
  | _ => false

/-- A step that plays a note does so when the counter does not wrap until
its end; one that starts a tune finds no notification of the tune before
queued, and where that has a pending timer, this is the one it cancels. -/
def PlaysAlone (p : State × Event) : Prop :=
  (∀ q ∈ noteOf p, p.1.timer.counter + noteDuration q < 2 ^ 32) ∧
    (runs reactBeep p.2 = true → waiting p.1.mail reactPiezzo = [] ∧
      ∀ f ∈ timersFor reactPiezzo p.1.timer.pending, p.1.piezzo.timerInstance ≠ 0 ∧
        (cancelled p.1.timer p.1.piezzo.timerInstance).any (fun g => g.reactor = reactPiezzo) = true)

instance : DecidablePred PlaysAlone := fun p => by
  unfold PlaysAlone
  infer_instance

theorem ticksSinceNote_concat : ticksSinceNote (hist ++ [p]) =
    if (noteOf p).isSome then 0 else ticksSinceNote hist + if p.2 = .tick then 1 else 0 := by
  rw [ticksSinceNote, countSince_concat]
  simp [ticksSinceNote]

theorem playedNote_duration (p : Piezzo) : (playedNote p).duration = noteDuration p := by
  obtain ⟨period, enabled, heq⟩ := playedNote_eq p
  rw [heq]
  rfl

/-- **Playing a note** when nothing of the tune is left: it is held for its
duration. -/
theorem playNextNote_chain {o o' : SoundState} (hl : o.timer.Holds o.timer.pending)
    (hnone : timersFor reactPiezzo o.timer.pending = []) (hnext : o.piezzo.nextNote ≠ [])
    (hlt : o.timer.counter + noteDuration o.piezzo < 2 ^ 32)
    (hok : playNextNote reactPiezzo o = .ok o') :
    Chain reactPiezzo o'.piezzo.timerInstance o'.piezzo.duration 0 o'.timer [] := by
  obtain ⟨heq, harm⟩ := playNextNote_note hnext hok
  have hduration : o'.piezzo.duration = noteDuration o.piezzo := by
    rw [heq]
    exact playedNote_duration o.piezzo
  rw [playedNote_duration] at harm
  rw [hduration]
  exact Chain.arm hl hnone (by decide) hlt harm

/-- At the end of the tune nothing is armed. -/
theorem playNextNote_over {o o' : SoundState} (hnext : o.piezzo.nextNote = [])
    (hok : playNextNote reactPiezzo o = .ok o') :
    o'.timer = o.timer ∧ o'.piezzo.timerInstance = o.piezzo.timerInstance ∧
      o'.piezzo.duration = o.piezzo.duration := by
  obtain rfl := playNextNote_end hnext hok
  unfold playedOut
  dsimp only
  split <;> exact ⟨rfl, rfl, rfl⟩

/-- A note is only played when there is room for its timer. -/
theorem playNextNote_room {o o' : SoundState} (hl : o.timer.Holds o.timer.pending)
    (hnext : o.piezzo.nextNote ≠ []) (hok : playNextNote reactPiezzo o = .ok o') :
    o.timer.pending.length < timerMaxCallback :=
  room_of_timerArm hl (playNextNote_note hnext hok).2

/-- **Starting a tune** when no notification of the one before is queued,
and the timer it cancels is that of the tune. -/
theorem piezzoPlay_chain {o o' : SoundState} {tempo inst delay since : ℕ} {music : List Char}
    (h : Chain reactPiezzo inst delay since o.timer []) (hmusic : music ≠ [])
    (hown : ∀ f ∈ timersFor reactPiezzo o.timer.pending, o.piezzo.timerInstance ≠ 0 ∧
      (cancelled o.timer o.piezzo.timerInstance).any (fun g => g.reactor = reactPiezzo) = true)
    (hlt : o.timer.counter + noteDuration (tuneStart tempo music o.piezzo) < 2 ^ 32)
    (hok : piezzoPlay reactPiezzo tempo music o = .ok o') :
    Chain reactPiezzo o'.piezzo.timerInstance o'.piezzo.duration 0 o'.timer [] := by
  rw [piezzoPlay_eq] at hok
  set timer := if o.piezzo.timerInstance ≠ 0 then
    (timerCancel o.timer o.piezzo.timerInstance).2 else o.timer with htimer
  have hserved : Timer.Served (fun _ => False) o.timer timer := by
    rw [htimer]
    split
    · exact Timer.Served.cancel _
    · exact Timer.Served.refl _ _
  obtain ⟨hcounter, hl, hsub⟩ := hserved.timersFor_sublist (k := reactPiezzo) (fun _ h => h.elim)
    h.holds
  have hroom : timer.pending.length < timerMaxCallback := playNextNote_room hl hmusic hok
  refine playNextNote_chain hl ?_ hmusic (by rw [hcounter]; exact hlt) hok
  -- what is left of the tune before is cancelled
  rcases List.eq_nil_or_concat (timersFor reactPiezzo o.timer.pending) with hnil | ⟨_, f, heq⟩
  · rw [hnil] at hsub
    exact List.eq_nil_of_sublist_nil hsub
  · have hinst := (hown f (by rw [heq]; simp)).1
    rw [htimer, if_pos hinst]
    exact timersFor_timerCancel h.holds (hserved.room h.holds hroom)
      (by have := h.single; simpa using this) fun f hf => (hown f hf).2

/-! ## Any event -/

/-- Only the tune has timers that go off to its reactor. -/
theorem TimerOf.ne_tune {cs : List Concern} {f : TimerFuture} (hcs : .tune ∉ cs)
    (h : TimerOf cs f) : f.reactor ≠ reactPiezzo := by
  obtain ⟨c, hc, htimed⟩ := h
  intro hf
  have htune : ∀ c : Concern, c.timed = some reactPiezzo → c = .tune := by
    intro c
    cases c <;> decide
  rw [hf] at htimed
  exact hcs (htune c htimed ▸ hc)

/-- **The invariant**: the tune is a chain. -/
def Tuned (hist : List (State × Event)) (s : State) : Prop :=
  Chain reactPiezzo s.piezzo.timerInstance s.piezzo.duration (ticksSinceNote hist) s.timer
    (waiting s.mail reactPiezzo)

namespace Tuned

/-- A step that has nothing to do with the tune. -/
theorem other {A : TimerFuture → Prop} (h : Tuned hist s) (hnone : noteOf (s, e) = none)
    (he : e ≠ .tick) (hs : Timer.Served A s.timer t.timer) (hA : ∀ f, A f → f.reactor ≠ reactPiezzo)
    (hw : waiting t.mail reactPiezzo = waiting s.mail reactPiezzo)
    (hp : t.piezzo.timerInstance = s.piezzo.timerInstance ∧ t.piezzo.duration = s.piezzo.duration) :
    Tuned (hist ++ [(s, e)]) t := by
  unfold Tuned
  rw [ticksSinceNote_concat, if_neg (by simp [hnone]), if_neg he, Nat.add_zero, hw, hp.1, hp.2]
  exact Chain.served h hs hA

/-- A step that plays a note. -/
theorem play (hsome : (noteOf (s, e)).isSome) (hw : waiting t.mail reactPiezzo = [])
    (hchain : Chain reactPiezzo t.piezzo.timerInstance t.piezzo.duration 0 t.timer []) :
    Tuned (hist ++ [(s, e)]) t := by
  unfold Tuned
  rw [ticksSinceNote_concat, if_pos hsome, hw]
  exact hchain

/-- **The step lemma.** -/
theorem step (ho : Orderly s) (h : Tuned hist s) (hp : PlaysAlone (s, e))
    (hr : Reacts fuel s e (.ok t)) : Tuned (hist ++ [(s, e)]) t := by
  cases hr with
  | tick =>
    unfold Tuned
    rw [ticksSinceNote_concat, if_neg (by simp [noteOf]), if_pos rfl]
    show Chain _ _ _ _ (timerTick s.timer) (waiting (deposit queueSize s.mail reactTimer 0) reactPiezzo)
    rw [waiting_deposit, if_neg (by decide)]
    exact h.tick
  | twi status hlocked =>
    obtain ⟨transfer, mail, heq, hmail⟩ := twiInterrupt_spec s status
    rw [heq]
    exact h.other (A := fun _ => False) rfl (by simp) (Timer.Served.refl _ _) (fun _ h => h.elim)
      (hmail _ (by decide) (by decide)) ⟨rfl, rfl⟩
  | @run handle arg mail around _ hcol hhandles =>
    obtain ⟨h₀, -⟩ := ho.collect hcol
    obtain ⟨rest, hw, hmail⟩ := collect_eq_some hcol
    generalize hok : (Except.ok t : Except State State) = r at hhandles
    -- these four play, arm or notify for the tune; a frame lemma does for the others
    by_cases htune : handle ∈ [reactBeep, reactPiezzo, reactTimer, reactSample]
    · cases hhandles with
      | beep =>
        obtain ⟨o', hplay, rfl⟩ := onSound_eq_ok hok.symm
        obtain ⟨hcounter, hbeep⟩ := hp
        obtain ⟨hnone, hown⟩ := hbeep (by simp [runs])
        have hsome : noteOf (s, .run reactBeep around) = some (tuneStart 150 ['B', '4'] s.piezzo) := rfl
        have hchain : Chain reactPiezzo s.piezzo.timerInstance s.piezzo.duration
            (ticksSinceNote hist) s.timer [] := hnone ▸ h
        refine play (by rw [hsome]; rfl) ?_
          (piezzoPlay_chain hchain (by simp) hown (hcounter _ hsome) hplay)
        show waiting mail reactPiezzo = []
        rw [hmail, if_neg (by decide)]
        exact hnone
      | piezzo =>
        obtain ⟨o', hplay, rfl⟩ := onSound_eq_ok hok.symm
        have htaken := h
        rw [Tuned, hw] at htaken
        obtain ⟨hnil, hrest, hchain⟩ := htaken.take
        have hempty : waiting mail reactPiezzo = [] := by rw [hmail, if_pos rfl, hrest]
        by_cases hnext : s.piezzo.nextNote = []
        · obtain ⟨ht, hinst, hduration⟩ := playNextNote_over hnext hplay
          unfold Tuned
          rw [ticksSinceNote_concat, if_neg (by simp [noteOf, hnext, reactBeep, reactPiezzo]), if_neg (by simp)]
          dsimp only
          rw [ht, hinst, hduration, hempty]
          exact hchain
        · have hsome : noteOf (s, .run reactPiezzo around) = some s.piezzo := by
            simp [noteOf, hnext, reactBeep, reactPiezzo]
          exact play (by rw [hsome]; rfl) hempty
            (playNextNote_chain h.holds hnil hnext (hp.1 _ hsome) hplay)
      | timer hd =>
        obtain rfl := Except.ok.inj hok
        unfold Tuned
        rw [ticksSinceNote_concat, if_neg (by simp [noteOf, reactTimer, reactBeep, reactPiezzo]), if_neg (by simp)]
        dsimp only
        rw [waiting_depositAll, hmail, if_neg (by decide)]
        exact h.dispatch hd (by decide)
      | sample =>
        obtain rfl := Except.ok.inj hok
        refine h.other (A := fun _ => False) rfl (by simp) (Timer.Served.refl _ _) (fun _ h => h.elim)
          ?_ ⟨rfl, rfl⟩
        rw [h₀.sample_waiting around.high (by decide), hmail, if_neg (by decide)]
      | _ => exact absurd htune (by decide)
    · have htimed : .tune ∉ concerns handle := by
        cases hhandles with
        | beep | piezzo | timer _ | sample => exact absurd (by decide) htune
        | _ => decide
      have hmade := handles_made hhandles fun hmem => htune (by simp at hmem ⊢; tauto)
      have hframe := hmade.frame_ok hok.symm
      have hserved := hmade.served_ok hok.symm
      simp only [List.mem_cons, List.not_mem_nil, or_false, not_or] at htune
      refine h.other ?_ (by simp) hserved (fun f => TimerOf.ne_tune htimed) ?_ (hframe.tune htimed)
      · simp [noteOf, htune.1, htune.2.1]
      · rw [hframe.waiting _ (by decide)]
        show waiting mail reactPiezzo = _
        rw [hmail, if_neg (Ne.symm htune.2.1)]

end Tuned

theorem start_tuned : Tuned [] start where
  holds := by
    obtain ⟨l, hl, -⟩ := start_orderly.timers
    exact hl.holds_pending
  single := by decide +kernel
  own := by
    have hfirst : start.timer.counter = 0 ∧ ∀ f ∈ timersFor reactPiezzo start.timer.pending,
        f.inst = start.piezzo.timerInstance ∧ f.rep = 0 ∧ f.count < 2 ^ 32 ∧
          f.count = start.piezzo.duration := by decide +kernel
    refine fun f hf => ?_
    obtain ⟨hinst, hrep, hlt, hcount⟩ := hfirst.2 f hf
    exact ⟨hinst, hrep, hlt, 0, by rw [hcount, Nat.zero_add], hfirst.1⟩
  elapsed := by decide +kernel

/-- The run lemma. -/
theorem tuned_of_run (hr : Run (step fuel) start hist s) (hplay : ∀ p ∈ hist, PlaysAlone p) :
    Tuned hist s := by
  induction hr with
  | nil => exact start_tuned
  | snoc hrun hs ih =>
    exact (ih fun p hp => hplay p (by simp [hp])).step (orderly_of_run hrun) (hplay _ (by simp))
      (reacts_of_step hs)

/-- **When a tune is kept**: in every run in which each tune is started
when no notification of the one before is queued, and cancels the timer
that is pending for it, and no note is played as the counter wraps. -/
theorem tune_kept (hr : Run (step fuel) start hist s) (hplay : ∀ p ∈ hist, PlaysAlone p) :
    TuneKept hist s := by
  refine ⟨fun a ha => ?_, fun h₁ p h₂ around heq hrun => ?_⟩
  · rcases List.mem_append.mp ha with ha | ha
    · obtain ⟨⟨a, e⟩, hp, rfl⟩ := List.mem_map.mp ha
      obtain ⟨h₁, h₂, rfl⟩ := List.append_of_mem hp
      exact (tuned_of_run hr.step_of_mem.1 fun p hp => hplay p (by simp [hp])).single
    · rw [List.mem_singleton.mp ha]
      exact (tuned_of_run hr hplay).single
  · subst heq
    obtain ⟨a, e⟩ := p
    obtain ⟨hr₁, s₁, hs, -⟩ := hr.step_of_mem
    obtain rfl : e = .run reactPiezzo around := hrun
    refine (tuned_of_run hr₁ fun p hp => hplay p (by simp [hp])).elapsed ?_
    cases reacts_of_step hs with
    | run hcol _ =>
      obtain ⟨rest, hw, -⟩ := collect_eq_some hcol
      rw [hw]
      simp

/-! ## A beep at the end of a note -/

/-- The steps of a tune that is kept, as the reactor takes them. -/
def tuneStep : State → Event → Option State :=
  guarded (fun p => mostUrgent p && decide (PlaysAlone p)) (step 64)

/-- The input is high for one sample less than it takes to settle, and a
note ends one millisecond after the next sample. -/
def beforeBeep : Option State :=
  stages tuneStep [([], 158, 1), ([inBeep], 120, 1), ([inBeep], 4, 6)] start

/-- The next sample, after which the beep is queued. -/
def lastSample : List Event :=
  List.replicate 5 .tick ++ [.run reactTimer idle, .run reactSample { idle with high := [inBeep] }]

/-- The note ends before the beep is handled. -/
def noteEnds : List Event := [.tick, .run reactTimer idle]

theorem tuneStep_tick (s : State) : tuneStep s .tick = step 64 s .tick := by
  have hplays : PlaysAlone (s, .tick) := ⟨by simp [noteOf], by simp [runs]⟩
  rw [tuneStep, guarded, if_pos (by simp [mostUrgent, hplays])]

theorem beforeBeep_leads : ∃ s, beforeBeep = some s ∧
    (runEvents tuneStep (lastSample ++ [.run reactBeep idle]) s).isSome = true ∧
    (runEvents (guarded mostUrgent (step 64)) (lastSample ++ noteEnds) s).any (fun s₁ =>
      (guarded mostUrgent (step 64) s₁ (.run reactBeep idle)).any fun s₂ =>
        continuations s₂ = 2 && decide (0 < s₂.piezzo.duration) &&
          (guarded mostUrgent (step 64) s₂ (.run reactPiezzo idle)).isSome) = true := by
  have heval : beforeBeep.any (fun s =>
      (runEvents tuneStep (lastSample ++ [.run reactBeep idle]) s).isSome &&
      (runEvents (guarded mostUrgent (step 64)) (lastSample ++ noteEnds) s).any fun s₁ =>
        (guarded mostUrgent (step 64) s₁ (.run reactBeep idle)).any fun s₂ =>
          continuations s₂ = 2 && decide (0 < s₂.piezzo.duration) &&
            (guarded mostUrgent (step 64) s₂ (.run reactPiezzo idle)).isSome) = true := by
    decide +kernel
  obtain ⟨s, hs, hchecks⟩ := (Option.any_eq_true _ _).mp heval
  rw [Bool.and_eq_true] at hchecks
  exact ⟨s, hs, hchecks⟩

/-- A beep in the middle of a note. -/
theorem tune_kept_lastSample : ∃ hist s, Run (step 64) start hist s ∧
    (∃ p ∈ hist, runs reactBeep p.2 = true) ∧ TuneKept hist s := by
  obtain ⟨s₀, h₀, hsome, -⟩ := beforeBeep_leads
  obtain ⟨s, hs⟩ := Option.isSome_iff_exists.mp hsome
  obtain ⟨hist₀, hr₀⟩ := run_of_stages tuneStep_tick h₀
  obtain ⟨hist₁, hr₁, hevents⟩ := exists_run_of_runEvents hs
  obtain ⟨hr, hall⟩ := (hr₀.trans hr₁).of_guarded
  refine ⟨_, s, hr, ?_, tune_kept hr fun p hp => ?_⟩
  · have hmem : .run reactBeep idle ∈ hist₁.map Prod.snd := by rw [hevents]; simp
    obtain ⟨p, hp, heq⟩ := List.mem_map.mp hmem
    exact ⟨p, List.mem_append_right _ hp, by rw [heq]; simp [runs]⟩
  · have := hall p hp
    rw [Bool.and_eq_true, decide_eq_true_iff] at this
    exact this.2

/-- **A beep as a note ends doubles the tune**, and the note of the beep is
cut short. -/
theorem tune_kept_fails_noteEnds : ∃ hist s₁ s₂ s,
    Run (step 64) start (hist ++ [(s₁, .run reactBeep idle), (s₂, .run reactPiezzo idle)]) s ∧
    (∀ p ∈ hist ++ [(s₁, .run reactBeep idle), (s₂, .run reactPiezzo idle)], mostUrgent p = true) ∧
    continuations s₂ = 2 ∧
    ticksSinceNote (hist ++ [(s₁, .run reactBeep idle)]) < s₂.piezzo.duration ∧
    ¬ TuneKept (hist ++ [(s₁, .run reactBeep idle), (s₂, .run reactPiezzo idle)]) s := by
  obtain ⟨s₀, h₀, -, hdoubles⟩ := beforeBeep_leads
  obtain ⟨s₁, h₁, hbeeps⟩ := (Option.any_eq_true _ _).mp hdoubles
  obtain ⟨s₂, h₂, hchecks⟩ := (Option.any_eq_true _ _).mp hbeeps
  rw [Bool.and_eq_true, Bool.and_eq_true, decide_eq_true_iff, decide_eq_true_iff] at hchecks
  obtain ⟨⟨htwo, hlong⟩, hsome⟩ := hchecks
  obtain ⟨s, hs⟩ := Option.isSome_iff_exists.mp hsome
  obtain ⟨hist₀, hr₀⟩ := run_of_stages tuneStep_tick h₀
  obtain ⟨hist, hr, hurgent⟩ := exists_run_of_last_two hr₀ h₁ h₂ hs
  have hsince : ticksSinceNote (hist ++ [(s₁, .run reactBeep idle)]) = 0 := by
    rw [ticksSinceNote_concat, if_pos (by simp [noteOf])]
  refine ⟨hist, s₁, s₂, s, hr, hurgent, htwo, hsince ▸ hlong, fun hkept => ?_⟩
  have := hkept.held (hist ++ [(s₁, .run reactBeep idle)]) (s₂, .run reactPiezzo idle) [] idle
    (by simp) rfl
  rw [hsince] at this
  exact absurd this (Nat.not_le.mpr hlong)

end Controller

end CncPneumatics
