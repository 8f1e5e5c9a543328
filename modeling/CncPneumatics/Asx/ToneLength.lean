import CncPneumatics.Asx.Tones
/-!
# How long a tone lasts

A tone with a duration arms a timer that stops it. The number of this timer
is not kept, and no call cancels it: it goes off whatever plays by then,
and ends a tone that was started after its own.
-/

namespace CncPneumatics

namespace Asx

/-- The tone that plays, with its duration: the last that was started, if it
was not stopped since. -/
def toneOf (hist : List (SoundsState × SoundsEvent)) : Option (ℕ × ℕ) :=
  match (lastWhere (fun p => p.2.isTone) hist).map Prod.snd with
  | some (.startTone pwmValue duration) => some (pwmValue, duration)
  | _ => none

/-- The milliseconds since the last call about a tone. -/
def ticksSinceTone (hist : List (SoundsState × SoundsEvent)) : ℕ :=
  countSince (fun p => p.2.isTone) (fun p => p.2 = .tick) hist

/-- **A tone lasts** as long as it was asked to: it sounds until it is
stopped, and it is not stopped by the reactor before its duration has
elapsed, or at all when it has none. -/
structure TonesLast (hist : List (SoundsState × SoundsEvent)) (s : SoundsState) : Prop where
  sounds : ∀ pwmValue duration, toneOf hist = some (pwmValue, duration) →
    pwmOutput s.sound.piezzo = some pwmValue
  ends : ∀ h₁ a h₂ pwmValue duration, hist = h₁ ++ (a, .toneEnds) :: h₂ →
    toneOf h₁ = some (pwmValue, duration) → duration ≠ 0 ∧ duration ≤ ticksSinceTone h₁

/-- A tone is started when no stop is queued, and each stop timer that is
pending is due after it, as the counter does not wrap until then. -/
def StartsApart (reactToneStop : ℕ) (p : SoundsState × SoundsEvent) : Prop :=
  match p.2 with
  | .startTone _ duration => p.1.stops = [] ∧
      (duration ≠ 0 → p.1.sound.timer.counter + duration < 2 ^ 32) ∧
      ∀ f ∈ timersFor reactToneStop p.1.sound.timer.pending,
        duration ≠ 0 ∧ p.1.sound.timer.counter + duration ≤ f.count
  | _ => True

instance (reactToneStop : ℕ) : DecidablePred (StartsApart reactToneStop)
  | (s, .startTone _ duration) => inferInstanceAs (Decidable (s.stops = [] ∧
      (duration ≠ 0 → s.sound.timer.counter + duration < 2 ^ 32) ∧
      ∀ f ∈ timersFor reactToneStop s.sound.timer.pending,
        duration ≠ 0 ∧ s.sound.timer.counter + duration ≤ f.count))
  | (_, .play _ _) | (_, .note) | (_, .stopTone) | (_, .toneEnds) | (_, .tick) | (_, .dispatch)
  | (_, .arm _ _ _ _) | (_, .cancel _) => isTrue trivial

variable {reactPiezzo reactToneStop fuel counter currentInstance since : ℕ} {s s' : SoundsState}
  {e : SoundsEvent} {hist : List (SoundsState × SoundsEvent)} {p : Piezzo} {x : SoundState}
  {t t' : Timer} {stops : List ℕ} {tone : Option (ℕ × ℕ)}

/-- **The stop timers keep out of a tone**: none that is pending is due, and
no stop is queued, before the duration of the tone has elapsed. -/
structure Apart (reactToneStop : ℕ) (tone : Option (ℕ × ℕ)) (since : ℕ) (t : Timer)
    (stops : List ℕ) : Prop where
  holds : t.Holds t.pending
  once : ∀ f ∈ timersFor reactToneStop t.pending, f.rep = 0
  due : ∀ pwmValue duration, tone = some (pwmValue, duration) →
    ∃ c, t.counter ≤ c + since ∧
      ∀ f ∈ timersFor reactToneStop t.pending, duration ≠ 0 ∧ c + duration ≤ f.count
  queued : ∀ pwmValue duration, tone = some (pwmValue, duration) → stops ≠ [] →
    duration ≠ 0 ∧ duration ≤ since

namespace Apart

/-- What others do with the timers. -/
theorem served {A : TimerFuture → Prop} (h : Apart reactToneStop tone since t stops)
    (hs : Timer.Served A t t') (hA : ∀ f, A f → f.reactor ≠ reactToneStop) :
    Apart reactToneStop tone since t' stops := by
  obtain ⟨hc, hl', hsub⟩ := hs.timersFor_sublist hA h.holds
  refine ⟨hl', fun f hf => h.once f (hsub.subset hf), fun pwm d htone => ?_, h.queued⟩
  obtain ⟨c, hcounter, hdue⟩ := h.due pwm d htone
  exact ⟨c, hc.trans_le hcounter, fun f hf => hdue f (hsub.subset hf)⟩

theorem tick (h : Apart reactToneStop tone since t stops) :
    Apart reactToneStop tone (since + 1) (timerTick t) stops := by
  have hl := timerTick_holds h.holds
  refine ⟨hl.holds_pending, hl.pending_eq ▸ h.once, fun pwm d htone => ?_,
    fun pwm d htone hstops => ?_⟩
  · obtain ⟨c, hcounter, hdue⟩ := h.due pwm d htone
    refine ⟨c, ?_, hl.pending_eq ▸ hdue⟩
    calc (t.counter + 1) % 2 ^ 32 ≤ t.counter + 1 := Nat.mod_le _ _
      _ ≤ c + (since + 1) := Nat.succ_le_succ hcounter
  · obtain ⟨hne, hle⟩ := h.queued pwm d htone hstops
    exact ⟨hne, by omega⟩

/-- A dispatch queues a stop when the duration of the tone has elapsed. -/
theorem dispatch (h : Apart reactToneStop tone since t stops) {r : List (ℕ × ℕ) × Timer}
    (hr : timerDispatch fuel t = some r) :
    Apart reactToneStop tone since r.2 ((waiting r.1 reactToneStop).foldl (post 1) stops) := by
  obtain ⟨hl', hc, fired, hsplit, hcount, hwait⟩ := timersFor_dispatch h.holds h.once hr
  refine ⟨hl', fun f hf => h.once f (by rw [hsplit]; simp [hf]), fun pwm d htone => ?_,
    fun pwm d htone hstops => ?_⟩
  · obtain ⟨c, hcounter, hdue⟩ := h.due pwm d htone
    exact ⟨c, hc.trans_le hcounter, fun f hf => hdue f (by rw [hsplit]; simp [hf])⟩
  · rw [hwait] at hstops
    cases fired with
    | nil => exact h.queued pwm d htone hstops
    | cons f fired =>
      -- the counter has passed the deadline, which is after the duration
      obtain ⟨c, hcounter, hdue⟩ := h.due pwm d htone
      obtain ⟨hne, hle⟩ := hdue f (by rw [hsplit]; simp)
      have hpassed := hcount f (by simp)
      exact ⟨hne, by omega⟩

/-- A tone without a duration is started. -/
theorem endless (h : Apart reactToneStop tone since t []) {pwmValue : ℕ}
    (hnone : timersFor reactToneStop t.pending = []) :
    Apart reactToneStop (some (pwmValue, 0)) 0 t [] := by
  refine ⟨h.holds, h.once, fun _ _ _ => ⟨t.counter, Nat.le_refl _, ?_⟩,
    fun _ _ _ hstops => absurd rfl hstops⟩
  rw [hnone]
  simp

/-- A tone with a duration is started, and its timer armed. -/
theorem armed (h : Apart reactToneStop tone since t []) {pwmValue duration inst : ℕ}
    (hnull : reactToneStop ≠ reactorNullHandle) (hne : duration ≠ 0)
    (hlt : t.counter + duration < 2 ^ 32)
    (hapart : ∀ f ∈ timersFor reactToneStop t.pending, t.counter + duration ≤ f.count)
    (harm : timerArm t reactToneStop (timerGetCountFromNow t duration) 0 0 = some (inst, t')) :
    Apart reactToneStop (some (pwmValue, duration)) 0 t' [] := by
  obtain ⟨hl', hc, hpending⟩ := pending_of_timerArm h.holds hnull harm
  have hcount : timerGetCountFromNow t duration = t.counter + duration := Nat.mod_eq_of_lt hlt
  have hnew : ∀ f ∈ timersFor reactToneStop t'.pending,
      f.rep = 0 ∧ t.counter + duration ≤ f.count := by
    intro f hf
    rw [mem_timersFor, hpending, mem_armInsert] at hf
    rcases hf with ⟨rfl | hf, hreactor⟩
    · exact ⟨rfl, hcount.ge⟩
    · have hf := mem_timersFor.mpr ⟨hf, hreactor⟩
      exact ⟨h.once f hf, hapart f hf⟩
  refine ⟨hl', fun f hf => (hnew f hf).1, ?_, fun _ _ _ hstops => absurd rfl hstops⟩
  intro pwm d htone
  obtain ⟨rfl, rfl⟩ := Prod.mk.inj (Option.some.inj htone)
  exact ⟨t.counter, hc.le, fun f hf => ⟨hne, (hnew f hf).2⟩⟩

/-- No tone plays any more. -/
theorem stop (h : Apart reactToneStop tone since t stops) (stops' : List ℕ) :
    Apart reactToneStop none 0 t stops' :=
  ⟨h.holds, h.once, fun _ _ htone => (nomatch htone), fun _ _ htone => (nomatch htone)⟩

end Apart

/-! ## The sound of a tone -/

/-- A note step leaves the sound of a tone alone. -/
theorem noteStep_tone (htone : p.playingTone = true) :
    (noteStep p).playingTone = true ∧ pwmOutput (noteStep p) = pwmOutput p := by
  unfold noteStep
  split
  · refine ⟨(playedNote_playingTone p).trans htone, ?_⟩
    rw [playedNote_output, htone, if_neg (by simp)]
  · rw [playedOut_eq, htone]
    exact ⟨rfl, rfl⟩

/-- **The invariant**: the tone sounds, and the stop timers keep out of it. -/
structure Toned (reactToneStop : ℕ) (hist : List (SoundsState × SoundsEvent)) (s : SoundsState) :
    Prop where
  sounding : ∀ pwmValue duration, toneOf hist = some (pwmValue, duration) →
    s.sound.piezzo.playingTone = true ∧ pwmOutput s.sound.piezzo = some pwmValue
  apart : Apart reactToneStop (toneOf hist) (ticksSinceTone hist) s.sound.timer s.stops

theorem toneOf_concat : toneOf (hist ++ [(s, e)]) =
    if e.isTone then (match e with | .startTone pwm d => some (pwm, d) | _ => none)
    else toneOf hist := by
  unfold toneOf
  rw [lastWhere_concat]
  cases e <;> rfl

theorem ticksSinceTone_concat : ticksSinceTone (hist ++ [(s, e)]) =
    if e.isTone then 0 else ticksSinceTone hist + if e = .tick then 1 else 0 := by
  rw [ticksSinceTone, countSince_concat]
  simp [ticksSinceTone]

/-- A note step is served with a timer for the tune at most. -/
theorem playNextNote_served {t : Timer} (hnull : reactPiezzo ≠ reactorNullHandle)
    (hok : playNextNote reactPiezzo ⟨t, p⟩ = .ok x) :
    Timer.Served (fun f => f.reactor = reactPiezzo) t x.timer := by
  by_cases hnext : p.nextNote = []
  · rw [playNextNote_end (s := ⟨t, p⟩) hnext hok]
    exact Timer.Served.refl _ _
  · exact Timer.Served.arm (playNextNote_note hnext hok).2 hnull fun _ => rfl

/-- A step that is not about a tone, and leaves the sound alone. -/
theorem Toned.other (h : Toned reactToneStop hist s) (htone : e.isTone = false)
    (hpiezzo : s'.sound.piezzo = s.sound.piezzo)
    (hapart : Apart reactToneStop (toneOf hist) (ticksSinceTone hist + if e = .tick then 1 else 0)
      s'.sound.timer s'.stops) : Toned reactToneStop (hist ++ [(s, e)]) s' := by
  constructor
  · intro pwm d hof
    rw [toneOf_concat, htone, if_neg (by simp)] at hof
    rw [hpiezzo]
    exact h.sounding pwm d hof
  · rw [toneOf_concat, ticksSinceTone_concat, htone, if_neg (by simp), if_neg (by simp)]
    exact hapart

/-- **The step lemma.** -/
theorem Toned.step (hne : reactPiezzo ≠ reactToneStop) (hnull : reactPiezzo ≠ reactorNullHandle)
    (hnull' : reactToneStop ≠ reactorNullHandle) (h : Toned reactToneStop hist s)
    (hapart : StartsApart reactToneStop (s, e))
    (hs : SoundsLead reactPiezzo reactToneStop fuel s e s') :
    Toned reactToneStop (hist ++ [(s, e)]) s' := by
  cases hs with
  | @note _ t p x hsome hserved _ hok =>
    -- a note step changes the tune under the tone, and leaves the tone its output
    have hquiet : e.isTone = false ∧ e ≠ .tick ∧ p.playingTone = s.sound.piezzo.playingTone ∧
        pwmOutput p = pwmOutput s.sound.piezzo := by
      cases e with
      | play | note =>
        obtain rfl := Option.some.inj hsome
        exact ⟨rfl, by simp, rfl, rfl⟩
      | startTone | stopTone | toneEnds | tick | dispatch | arm | cancel => cases hsome
    obtain ⟨htone, htick, hplaying, houtput⟩ := hquiet
    have hx := playNextNote_noteStep hok
    have hall := (hserved.mono fun _ => False.elim).trans (playNextNote_served hnull hok)
    constructor
    · intro pwm d hof
      rw [toneOf_concat, htone, if_neg (by simp)] at hof
      obtain ⟨hplays, hpwm⟩ := h.sounding pwm d hof
      obtain ⟨hplays', hpwm'⟩ := noteStep_tone (hplaying.trans hplays)
      dsimp only
      rw [hx]
      exact ⟨hplays', hpwm'.trans (houtput.trans hpwm)⟩
    · rw [toneOf_concat, ticksSinceTone_concat, htone, if_neg (by simp), if_neg (by simp),
        if_neg htick]
      exact h.apart.served hall fun f hf => hf ▸ hne
  | @startTone pwmValue duration t hnone harm =>
    obtain ⟨hstops, hwrap, hdue⟩ := hapart
    constructor
    · intro pwm d hof
      obtain ⟨rfl, rfl⟩ := Prod.mk.inj (Option.some.inj (toneOf_concat.symm.trans hof))
      exact ⟨rfl, rfl⟩
    · rw [toneOf_concat, ticksSinceTone_concat]
      show Apart reactToneStop (some (pwmValue, duration)) 0 t s.stops
      have hstart := h.apart
      rw [hstops] at hstart ⊢
      -- without a duration no stop is armed, so none may be pending
      by_cases hzero : duration = 0
      · rw [hnone hzero, hzero]
        refine hstart.endless (List.eq_nil_iff_forall_not_mem.mpr fun f hf => ?_)
        exact (hdue f hf).1 hzero
      · obtain ⟨inst, harm⟩ := harm hzero
        exact hstart.armed hnull' hzero (hwrap hzero) (fun f hf => (hdue f hf).2) harm
  | stopTone | toneEnds =>
    refine ⟨fun pwm d hof => ?_, ?_⟩
    · cases toneOf_concat.symm.trans hof
    · rw [toneOf_concat, ticksSinceTone_concat]
      exact h.apart.stop _
  | tick => exact h.other rfl rfl h.apart.tick
  | dispatch hr => exact h.other rfl rfl (h.apart.dispatch hr)
  | @arm other _ _ _ _ _ hother hnone hr =>
    exact h.other rfl rfl
      (h.apart.served (A := fun f => f.reactor = other) (Timer.Served.arm hr hnone fun _ => rfl)
        fun f hf => hf ▸ hother)
  | cancel =>
    exact h.other rfl rfl (h.apart.served (A := fun _ => False) (Timer.Served.cancel _)
      fun _ hf => hf.elim)

theorem soundsInit_toned (counter currentInstance : ℕ) :
    Toned reactToneStop [] (soundsInit counter currentInstance) := by
  have hl : (soundsInit counter currentInstance).sound.timer.Holds [] :=
    timerInit_holds.counters counter currentInstance
  refine ⟨fun _ _ hof => (nomatch hof), hl.holds_pending, ?_, fun _ _ hof => (nomatch hof),
    fun _ _ hof => (nomatch hof)⟩
  simp [hl.pending_eq, timersFor]

/-- The run lemma. -/
theorem toned_of_run (hne : reactPiezzo ≠ reactToneStop) (hnull : reactPiezzo ≠ reactorNullHandle)
    (hnull' : reactToneStop ≠ reactorNullHandle)
    (hr : Run (soundsStep reactPiezzo reactToneStop fuel) (soundsInit counter currentInstance) hist s)
    (hapart : ∀ p ∈ hist, StartsApart reactToneStop p) : Toned reactToneStop hist s := by
  induction hr with
  | nil => exact soundsInit_toned counter currentInstance
  | snoc _ hs ih =>
    exact (ih fun p hp => hapart p (by simp [hp])).step hne hnull hnull' (hapart _ (by simp))
      (lead_of_soundsStep hs)

/-- **When tones last** as long as they were asked to: in every run in which
a tone is started when no stop is queued, no stop timer is pending that is
due before the tone is over, and the counter does not wrap until then. -/
theorem tones_last (hne : reactPiezzo ≠ reactToneStop) (hnull : reactPiezzo ≠ reactorNullHandle)
    (hnull' : reactToneStop ≠ reactorNullHandle)
    (hr : Run (soundsStep reactPiezzo reactToneStop fuel) (soundsInit counter currentInstance) hist s)
    (hapart : ∀ p ∈ hist, StartsApart reactToneStop p) : TonesLast hist s := by
  refine ⟨fun pwm d hof => ((toned_of_run hne hnull hnull' hr hapart).sounding pwm d hof).2, ?_⟩
  rintro h₁ a h₂ pwm d rfl hof
  obtain ⟨hr₁, b, hs, -⟩ := hr.step_of_mem
  have htoned := toned_of_run hne hnull hnull' hr₁ fun p hp => hapart p (by simp [hp])
  refine htoned.apart.queued pwm d hof ?_
  cases lead_of_soundsStep hs with
  | note hsome => cases hsome
  | toneEnds hstops => simp [hstops]

/-- A tone of 2 ms, and after it an endless one. -/
theorem tones_last_apart : ∃ hist s,
    Run (soundsStep 9 10 16) (soundsInit 0 0) hist s ∧
      hist.map Prod.snd = [.startTone 500 2, .tick, .tick, .dispatch, .toneEnds, .startTone 700 0,
        .tick] ∧ TonesLast hist s := by
  have heval : (runEvents (guarded (fun p => decide (StartsApart 10 p)) (soundsStep 9 10 16))
      [.startTone 500 2, .tick, .tick, .dispatch, .toneEnds, .startTone 700 0, .tick]
      (soundsInit 0 0)).isSome = true := by decide +kernel
  obtain ⟨s, hs⟩ := Option.isSome_iff_exists.mp heval
  obtain ⟨hist, hr, hevents⟩ := exists_run_of_runEvents hs
  obtain ⟨hr, hapart⟩ := hr.of_guarded
  exact ⟨hist, s, hr, hevents, tones_last (by decide) (by decide) (by decide) hr
    fun p hp => of_decide_eq_true (hapart p hp)⟩

/-- **The timer of an earlier tone** ends the later one, which has no end of
its own. -/
theorem tones_last_fails_earlier : ∃ hist s,
    Run (soundsStep 9 10 16) (soundsInit 0 0) hist s ∧
      hist.map Prod.snd = [.startTone 500 2, .tick, .stopTone, .startTone 700 0, .tick, .dispatch,
        .toneEnds] ∧ pwmOutput s.sound.piezzo = none ∧ ¬ TonesLast hist s := by
  have heval : (runEvents (soundsStep 9 10 16)
      [.startTone 500 2, .tick, .stopTone, .startTone 700 0, .tick, .dispatch]
      (soundsInit 0 0)).any (fun s => (soundsStep 9 10 16 s .toneEnds).any fun s' =>
        decide (pwmOutput s'.sound.piezzo = none)) = true := by decide +kernel
  obtain ⟨s, hs, heval⟩ := (Option.any_eq_true _ _).mp heval
  obtain ⟨s', hs', hsilent⟩ := (Option.any_eq_true _ _).mp heval
  obtain ⟨hist, hr, hevents⟩ := exists_run_of_runEvents hs
  refine ⟨_, s', hr.snoc hs', by rw [List.map_append, hevents]; rfl, of_decide_eq_true hsilent,
    fun h => ?_⟩
  have hof : toneOf hist = some (700, 0) := by
    unfold toneOf
    rw [← lastWhere_map, hevents]
    rfl
  exact (h.ends hist s [] 700 0 rfl hof).1 rfl

end Asx

end CncPneumatics
