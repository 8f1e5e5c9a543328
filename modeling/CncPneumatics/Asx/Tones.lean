import CncPneumatics.Asx.Sounds
/-!
# Tones over a tune

A tone takes the output over, and gives it back when it is stopped: to the
period that `_play_next_note` has left for it. A stop takes this value away,
so that the second stop within a note silences the tune.
-/

namespace CncPneumatics

namespace Asx

/-! ## The tune alone -/

/-- The output: the period of the compare, if it is enabled. -/
def pwmOutput (p : Piezzo) : Option ℕ := if p.compareEnabled then some p.comparePeriod else none

/-- The output for a period, which is none for 0. -/
def outputFor (period : ℕ) : Option ℕ := if period ≠ 0 then some period else none

/-- `_play_next_note`, but for the timer. -/
def noteStep (p : Piezzo) : Piezzo := if p.nextNote ≠ [] then playedNote p else playedOut p

/-- What an event does to a tune over which no tone is ever played. -/
def tuneStep (p : Piezzo) : SoundsEvent → Piezzo
  | .play tempo music => noteStep (tuneStart tempo music p)
  | .note => noteStep p
  | _ => p

/-- **The tune alone**: the record after the note steps of a history. -/
def tuneAlone (hist : List (SoundsState × SoundsEvent)) : Piezzo :=
  hist.foldl (fun p q => tuneStep p q.2) piezzoInit

/-- **Stopping gives the tune back**: after `piezzo_stop_tone` the output is
that of the tune alone. -/
def GivesTuneBack (reactPiezzo reactToneStop fuel : ℕ)
    (hist : List (SoundsState × SoundsEvent)) : Prop :=
  ∀ h₁ s h₂ s', hist = h₁ ++ (s, .stopTone) :: h₂ →
    soundsStep reactPiezzo reactToneStop fuel s .stopTone = some s' →
      pwmOutput s'.sound.piezzo = pwmOutput (tuneAlone h₁)

/-- No tone was stopped since the last note step. -/
def NotYetStopped (hist : List (SoundsState × SoundsEvent)) : Prop :=
  (lastWhere (fun p => p.2.isNote || p.2.isStop) hist).all (fun p => p.2.isNote) = true

/-- No note sounds: the last note step found the tune over, or played a
rest. -/
def TuneSilent (hist : List (SoundsState × SoundsEvent)) (s : SoundsState) : Prop :=
  (lastWhere (fun p => p.2.isNote) hist).all
    (fun p => (noteFrom p.1 p.2).all fun q => q.nextNote = []) = true ∨
  s.sound.piezzo.lastTcValue = 0

instance : DecidablePred NotYetStopped := fun hist => by
  unfold NotYetStopped
  infer_instance

variable {reactPiezzo reactToneStop fuel : ℕ} {s s' : SoundsState} {e : SoundsEvent}
  {hist : List (SoundsState × SoundsEvent)} {p q a : Piezzo} {x : SoundState} {cs : List Char}
  {counter currentInstance tempo : ℕ} {music : List Char}

/-! ## What the parser leaves alone -/

/-- The record with what the parser neither reads nor writes from another. -/
def Piezzo.besides (p q : Piezzo) : Piezzo :=
  { p with
    slur := q.slur
    timerInstance := q.timerInstance
    playingTone := q.playingTone
    playingToneRecoveryValue := q.playingToneRecoveryValue
    lastTcValue := q.lastTcValue
    comparePeriod := q.comparePeriod
    compareEnabled := q.compareEnabled }

theorem parseSpace_besides (p q : Piezzo) (cs : List Char) :
    parseSpace (p.besides q) cs = (parseSpace p cs).besides q := by
  cases cs <;> rfl

theorem parseDuration_besides (p q : Piezzo) (cs : List Char) :
    parseDuration (p.besides q) cs = (parseDuration p cs).besides q := by
  cases cs with
  | nil => rfl
  | cons c cs =>
    simp only [parseDuration]
    split
    · exact parseSpace_besides { p with duration := _ } q cs
    · exact parseSpace_besides p q (c :: cs)

theorem parseOctaveShift_besides (row index : ℕ) (p q : Piezzo) (cs : List Char) :
    parseOctaveShift row index (p.besides q) cs =
      (parseOctaveShift row index p cs).besides q := by
  induction cs generalizing p with
  | nil => rfl
  | cons c cs ih =>
    simp only [parseOctaveShift]
    split
    · exact ih { p with octaveShift := _ }
    · split
      · exact ih { p with octaveShift := _ }
      · exact parseDuration_besides { p with refDuration := _ } q (c :: cs)

theorem parseAlteration_besides (index : ℕ) (p q : Piezzo) (cs : List Char) :
    parseAlteration index (p.besides q) cs = (parseAlteration index p cs).besides q := by
  cases cs with
  | nil => rfl
  | cons c cs =>
    simp only [parseAlteration]
    split
    · exact parseOctaveShift_besides 0 index p q cs
    · split
      · exact parseOctaveShift_besides 2 index p q cs
      · exact parseOctaveShift_besides 1 index p q (c :: cs)

theorem parseNote_besides (p q : Piezzo) (cs : List Char) :
    parseNote (p.besides q) cs = (parseNote p cs).besides q := by
  induction cs generalizing p with
  | nil => rfl
  | cons c cs ih =>
    simp only [parseNote]
    split
    · exact parseAlteration_besides _ p q cs
    · split
      · exact parseDuration_besides { p with refDuration := 0 } q cs
      · exact ih p

/-- **The parser leaves the sound alone**, and does not depend on it. -/
theorem parseNextNote_besides : parseNextNote (p.besides q) = (parseNextNote p).besides q :=
  parseNote_besides p q p.nextNote

theorem parseNextNote_self (p : Piezzo) : parseNextNote p = (parseNextNote p).besides p :=
  parseNextNote_besides (p := p) (q := p)

/-! ## Note steps -/

/-- The record of a tune alone: the output is that of the value kept for
it, which is the period of the note before where the next may be slurred. -/
structure Alone (a : Piezzo) : Prop where
  noTone : a.playingTone = false
  output : pwmOutput a = outputFor a.playingToneRecoveryValue
  slurred : a.nextNote ≠ [] → a.slurNext = true → a.playingToneRecoveryValue = a.lastTcValue

theorem Alone.tuneStart (h : Alone a) : Alone (tuneStart tempo music a) :=
  ⟨h.noTone, h.output, fun _ hslur => by cases hslur⟩

/-- What `_play_next_note` does to the record. -/
theorem playNextNote_noteStep {t : Timer} (hok : playNextNote reactPiezzo ⟨t, p⟩ = .ok x) :
    x.piezzo = { noteStep p with timerInstance := x.piezzo.timerInstance } := by
  unfold noteStep
  by_cases hnext : p.nextNote = []
  · rw [if_neg (by simpa using hnext), playNextNote_end (s := ⟨t, p⟩) hnext hok]
  · rw [if_pos hnext]
    exact (playNextNote_note hnext hok).1

/-- The value for the recovery after a note step. -/
theorem noteStep_recovery (a : Piezzo) : (noteStep a).playingToneRecoveryValue =
    if a.nextNote = [] then 0 else (noteStep a).lastTcValue := by
  unfold noteStep
  by_cases hnext : a.nextNote = []
  · rw [if_neg (by simpa using hnext), if_pos hnext, playedOut_eq]
  · obtain ⟨period, enabled, heq⟩ := playedNote_eq a
    rw [if_pos hnext, if_neg hnext, heq]

theorem soundNote_output (p : Piezzo) (newTcValue : ℕ) : pwmOutput (soundNote p newTcValue) =
    if (p.lastTcValue ≠ newTcValue ∨ p.slur = false) ∧ p.playingTone = false then
      outputFor newTcValue
    else pwmOutput p := by
  unfold soundNote outputFor
  split
  · split <;> rfl
  · rfl

/-- A note that is played: the output changes, unless it is slurred from the
same period or a tone is playing. -/
theorem playedNote_output (p : Piezzo) : pwmOutput (playedNote p) =
    if (p.lastTcValue ≠ (playedNote p).lastTcValue ∨ p.slurNext = false) ∧ p.playingTone = false then
      outputFor (playedNote p).lastTcValue
    else pwmOutput p := by
  have hread := parseNextNote_self { p with slur := p.slurNext }
  unfold playedNote
  dsimp only
  rw [hread]
  generalize parseNextNote { p with slur := p.slurNext } = read
  exact soundNote_output _ _

theorem playedNote_playingTone (p : Piezzo) : (playedNote p).playingTone = p.playingTone := by
  obtain ⟨period, enabled, heq⟩ := playedNote_eq p
  rw [heq, parseNextNote_self]
  rfl

/-- **A note step of the tune alone.** -/
theorem Alone.noteStep (h : Alone a) : Alone (noteStep a) := by
  have hrecovery := noteStep_recovery a
  unfold Asx.noteStep at hrecovery ⊢
  by_cases hnext : a.nextNote = []
  · rw [if_neg (by simpa using hnext), playedOut_eq, h.noTone]
    exact ⟨rfl, rfl, fun hne => absurd hnext hne⟩
  · rw [if_pos hnext, if_neg hnext] at hrecovery
    rw [if_pos hnext]
    refine ⟨(playedNote_playingTone a).trans h.noTone, ?_, fun _ _ => hrecovery⟩
    rw [playedNote_output, hrecovery]
    split
    · rfl
    · next hsame =>
      -- the note is slurred from one of the same period
      rw [h.noTone] at hsame
      simp only [and_true, not_or, not_not, Bool.not_eq_false] at hsame
      rw [h.output, h.slurred hnext hsame.2, hsame.1]

/-! ## With tones over it -/

/-- The same tune in both: what is read of it, and its last period and slur. -/
structure SameTune (a p : Piezzo) : Prop where
  parsed : p = a.besides p
  lastTcValue : p.lastTcValue = a.lastTcValue
  slur : p.slur = a.slur

namespace SameTune

theorem nextNote (h : SameTune a p) : p.nextNote = a.nextNote := by
  rw [h.parsed]
  rfl

theorem tuneStart (h : SameTune a p) (tempo : ℕ) (music : List Char) :
    SameTune (tuneStart tempo music a) (tuneStart tempo music p) := by
  refine ⟨?_, h.lastTcValue, h.slur⟩
  have hparsed := congrArg (Asx.tuneStart tempo music) h.parsed
  exact hparsed

/-- A note step reads the same note. -/
theorem noteStep (h : SameTune a p) : SameTune (noteStep a) (noteStep p) := by
  unfold Asx.noteStep
  rw [h.nextNote]
  split
  · have hread : parseNextNote { p with slur := p.slurNext } =
        (parseNextNote { a with slur := a.slurNext }).besides { p with slur := p.slurNext } := by
      have hparsed : { p with slur := p.slurNext } =
          ({ a with slur := a.slurNext } : Piezzo).besides { p with slur := p.slurNext } := by
        have hsame := congrArg (fun q : Piezzo => { q with slur := p.slurNext }) h.parsed
        exact hsame
      exact (congrArg parseNextNote hparsed).trans parseNextNote_besides
    have hslur : p.slurNext = a.slurNext := by
      rw [h.parsed]
      rfl
    obtain ⟨period, enabled, heq⟩ := playedNote_eq p
    obtain ⟨period', enabled', heq'⟩ := playedNote_eq a
    rw [heq, heq', hread, parseNextNote_self { a with slur := a.slurNext }]
    exact ⟨rfl, rfl, hslur⟩
  · rw [playedOut_eq, playedOut_eq]
    refine ⟨?_, h.lastTcValue, h.slur⟩
    have hparsed := congrArg (fun q : Piezzo => { q with
      playingToneRecoveryValue := 0
      compareEnabled := p.playingTone && p.compareEnabled }) h.parsed
    exact hparsed

end SameTune

/-- **The invariant**: the tune goes on under the tones as it does alone,
and the value for the recovery is that of the tune alone until it is taken. -/
structure Beside (hist : List (SoundsState × SoundsEvent)) (s : SoundsState) : Prop where
  alone : Alone (tuneAlone hist)
  same : SameTune (tuneAlone hist) s.sound.piezzo
  recovery : s.sound.piezzo.playingToneRecoveryValue =
    if NotYetStopped hist then (tuneAlone hist).playingToneRecoveryValue else 0
  silent : TuneSilent hist s ↔ (tuneAlone hist).playingToneRecoveryValue = 0

theorem tuneAlone_concat : tuneAlone (hist ++ [(s, e)]) = tuneStep (tuneAlone hist) e :=
  List.foldl_concat ..

theorem notYetStopped_concat : NotYetStopped (hist ++ [(s, e)]) ↔
    if e.isNote || e.isStop then e.isNote = true else NotYetStopped hist := by
  unfold NotYetStopped
  rw [lastWhere_concat]
  split <;> rfl

theorem tuneSilent_concat : TuneSilent (hist ++ [(s, e)]) s' ↔
    if e.isNote then (noteFrom s e).all (fun q => q.nextNote = []) = true ∨
      s'.sound.piezzo.lastTcValue = 0 else TuneSilent hist s' := by
  unfold TuneSilent
  rw [lastWhere_concat]
  split <;> rfl

namespace Beside

/-- A note step, of the tune and of the tune alone. -/
theorem note {t : Timer} (h : Alone a) (hsame : SameTune a p) (hsome : noteFrom s e = some p)
    (halone : tuneStep (tuneAlone hist) e = noteStep a)
    (hok : playNextNote reactPiezzo ⟨t, p⟩ = .ok x) :
    Beside (hist ++ [(s, e)]) { s with sound := x } := by
  have hx := playNextNote_noteStep hok
  have hsame' := hsame.noteStep
  have hnote : e.isNote = true := by
    cases e with
    | play | note => rfl
    | startTone | stopTone | toneEnds | tick | dispatch | arm | cancel => cases hsome
  -- the two tunes differ in the tone that may be playing over one of them only
  have hrecovery := noteStep_recovery a
  have hrecovery' := noteStep_recovery p
  rw [hsame.nextNote, hsame'.lastTcValue, ← hrecovery] at hrecovery'
  refine ⟨?_, ?_, ?_, ?_⟩
  · rw [tuneAlone_concat, halone]
    exact h.noteStep
  · rw [tuneAlone_concat, halone]
    dsimp only
    rw [hx]
    exact ⟨congrArg (fun q : Piezzo => { q with timerInstance := x.piezzo.timerInstance })
      hsame'.parsed, hsame'.lastTcValue, hsame'.slur⟩
  · rw [if_pos (notYetStopped_concat.mpr (by simp [hnote])), tuneAlone_concat, halone]
    dsimp only
    rw [hx]
    exact hrecovery'
  · rw [tuneSilent_concat, if_pos hnote, tuneAlone_concat, halone, hrecovery, hsome]
    dsimp only
    rw [hx]
    show decide (p.nextNote = []) = true ∨ (noteStep p).lastTcValue = 0 ↔ _
    rw [decide_eq_true_iff, hsame.nextNote, hsame'.lastTcValue]
    by_cases hnext : a.nextNote = []
    · simp [hnext]
    · simp [hnext]

/-- A step that is not one of the tune. -/
theorem other (h : Beside hist s) (hnote : e.isNote = false)
    (hparsed : s'.sound.piezzo = s.sound.piezzo.besides s'.sound.piezzo)
    (hlast : s'.sound.piezzo.lastTcValue = s.sound.piezzo.lastTcValue)
    (hslur : s'.sound.piezzo.slur = s.sound.piezzo.slur)
    (hrecovery : s'.sound.piezzo.playingToneRecoveryValue =
      if e.isStop then 0 else s.sound.piezzo.playingToneRecoveryValue) :
    Beside (hist ++ [(s, e)]) s' := by
  have halone : tuneAlone (hist ++ [(s, e)]) = tuneAlone hist := by
    rw [tuneAlone_concat]
    cases e with
    | play | note => cases hnote
    | startTone | stopTone | toneEnds | tick | dispatch | arm | cancel => rfl
  refine ⟨halone ▸ h.alone, ?_, ?_, ?_⟩
  · rw [halone]
    refine ⟨?_, hlast.trans h.same.lastTcValue, hslur.trans h.same.slur⟩
    rw [hparsed, h.same.parsed]
    rfl
  · rw [hrecovery, halone, h.recovery]
    simp only [notYetStopped_concat, hnote, Bool.false_or]
    cases e.isStop <;> simp
  · rw [tuneSilent_concat, hnote, halone, ← h.silent, if_neg (by simp)]
    unfold TuneSilent
    rw [hlast]

/-- **The step lemma.** -/
theorem step (h : Beside hist s) (hs : SoundsLead reactPiezzo reactToneStop fuel s e s') :
    Beside (hist ++ [(s, e)]) s' := by
  cases hs with
  | note hsome _ _ hok =>
    cases e with
    | play tempo music =>
      obtain rfl := Option.some.inj hsome
      exact note h.alone.tuneStart (h.same.tuneStart tempo music) rfl rfl hok
    | note =>
      obtain rfl := Option.some.inj hsome
      exact note h.alone h.same rfl rfl hok
    | startTone | stopTone | toneEnds | tick | dispatch | arm | cancel => cases hsome
  | startTone => exact h.other rfl rfl rfl rfl rfl
  | stopTone | toneEnds =>
    refine h.other rfl ?_ ?_ ?_ ?_ <;> rw [piezzoStopTone, stopTone_eq] <;> rfl
  | tick | dispatch | arm | cancel => exact h.other rfl rfl rfl rfl rfl

end Beside

theorem soundsInit_beside (counter currentInstance : ℕ) :
    Beside [] (soundsInit counter currentInstance) where
  alone := ⟨rfl, rfl, fun hne => absurd rfl hne⟩
  same := ⟨rfl, rfl, rfl⟩
  recovery := rfl
  silent := iff_of_true (Or.inl rfl) rfl

/-- The run lemma. -/
theorem beside_of_run (hr : Run (soundsStep reactPiezzo reactToneStop fuel)
    (soundsInit counter currentInstance) hist s) : Beside hist s := by
  induction hr with
  | nil => exact soundsInit_beside counter currentInstance
  | snoc _ hs ih => exact ih.step (lead_of_soundsStep hs)

/-- The number of the timer is nothing to a note step. -/
theorem noteStep_timerInstance (a : Piezzo) (inst : ℕ) :
    noteStep { a with timerInstance := inst } = { noteStep a with timerInstance := inst } := by
  unfold noteStep
  split
  · have hread : parseNextNote { a with timerInstance := inst, slur := a.slurNext } =
        { parseNextNote { a with slur := a.slurNext } with timerInstance := inst } := by
      rw [parseNextNote_self { a with slur := a.slurNext }]
      exact parseNextNote_besides (p := { a with slur := a.slurNext })
        (q := { a with timerInstance := inst, slur := a.slurNext })
    unfold playedNote
    dsimp only
    rw [hread]
    unfold soundNote setTimerComparePeriod stopTimerCompare getCmpValue
    dsimp only
    split
    · split <;> rfl
    · rfl
  · rw [playedOut_eq, playedOut_eq]

/-- **The tune alone** is what the code plays in a run without tones. -/
theorem tuneAlone_of_run (hr : Run (soundsStep reactPiezzo reactToneStop fuel)
    (soundsInit counter currentInstance) hist s) (htune : ∀ p ∈ hist, p.2.isTone = false) :
    s.sound.piezzo = { tuneAlone hist with timerInstance := s.sound.piezzo.timerInstance } := by
  induction hr with
  | nil => rfl
  | @snoc hist s s' e _ hs ih =>
    have hsame := ih fun p hp => htune p (by simp [hp])
    have htone := htune (s, e) (by simp)
    rw [tuneAlone_concat]
    cases lead_of_soundsStep hs with
    | note hsome _ _ hok =>
      have hx := playNextNote_noteStep hok
      cases e with
      | play tempo music =>
        obtain rfl := Option.some.inj hsome
        have hstart : tuneStart tempo music s.sound.piezzo =
            { tuneStart tempo music (tuneAlone hist) with
              timerInstance := s.sound.piezzo.timerInstance } := congrArg (tuneStart tempo music) hsame
        rw [hstart, noteStep_timerInstance] at hx
        exact hx
      | note =>
        obtain rfl := Option.some.inj hsome
        rw [hsame, noteStep_timerInstance] at hx
        exact hx
      | startTone | stopTone | toneEnds | tick | dispatch | arm | cancel => cases hsome
    | startTone | stopTone | toneEnds => cases htone
    | tick | dispatch | arm | cancel => exact hsame

theorem outputFor_eq_iff {period : ℕ} : outputFor 0 = outputFor period ↔ period = 0 := by
  unfold outputFor
  by_cases h : period = 0
  · simp [h]
  · simp [h]

theorem stopTone_output (p : Piezzo) :
    pwmOutput (stopTone p) = outputFor p.playingToneRecoveryValue := by
  rw [stopTone_eq]
  unfold pwmOutput outputFor
  by_cases h : p.playingToneRecoveryValue = 0
  · simp [h]
  · simp [h]

/-- A stop gives the output for the value that is left. -/
theorem Beside.stop (h : Beside hist s) :
    pwmOutput (stopTone s.sound.piezzo) = pwmOutput (tuneAlone hist) ↔
      NotYetStopped hist ∨ TuneSilent hist s := by
  rw [stopTone_output, h.alone.output, h.recovery, h.silent]
  by_cases hfirst : NotYetStopped hist
  · simp [hfirst]
  · rw [if_neg hfirst, outputFor_eq_iff, or_iff_right hfirst]

/-- **When stopping a tone gives the tune back**: if and only if every stop
is the first since the last note step, or no note sounds. -/
theorem gives_tune_back_iff (hr : Run (soundsStep reactPiezzo reactToneStop fuel)
    (soundsInit counter currentInstance) hist s) :
    GivesTuneBack reactPiezzo reactToneStop fuel hist ↔
      ∀ h₁ s h₂, hist = h₁ ++ (s, .stopTone) :: h₂ → NotYetStopped h₁ ∨ TuneSilent h₁ s := by
  constructor
  · rintro h h₁ s h₂ rfl
    exact (beside_of_run hr.step_of_mem.1).stop.mp (h h₁ s h₂ _ rfl rfl)
  · rintro h h₁ s h₂ s' rfl hs
    obtain rfl := Option.some.inj hs
    exact (beside_of_run hr.step_of_mem.1).stop.mpr (h h₁ s h₂ rfl)

theorem tuneAlone_eq (hist : List (SoundsState × SoundsEvent)) :
    tuneAlone hist = (hist.map Prod.snd).foldl tuneStep piezzoInit := List.foldl_map.symm

theorem notYetStopped_map (hist : List (SoundsState × SoundsEvent)) : NotYetStopped hist ↔
    (lastWhere (fun e => e.isNote || e.isStop) (hist.map Prod.snd)).all SoundsEvent.isNote = true := by
  rw [lastWhere_map, Option.all_map]
  rfl

/-- Tones over a tune: one over a note that ends within it, one over a slur
to the same note. -/
theorem gives_tune_back_slur : ∃ hist s,
    Run (soundsStep 9 10 16) (soundsInit 0 0) hist s ∧
      hist.map Prod.snd = [.play 120 ['A', '4', '~', 'A', '4'], .startTone 500 0, .stopTone,
        .startTone 700 0, .note, .stopTone] ∧
      GivesTuneBack 9 10 16 hist := by
  have heval : (runEvents (soundsStep 9 10 16) [.play 120 ['A', '4', '~', 'A', '4'],
      .startTone 500 0, .stopTone, .startTone 700 0, .note, .stopTone]
      (soundsInit 0 0)).isSome = true := by decide +kernel
  obtain ⟨s, hs⟩ := Option.isSome_iff_exists.mp heval
  obtain ⟨hist, hr, hevents⟩ := exists_run_of_runEvents hs
  refine ⟨hist, s, hr, hevents, (gives_tune_back_iff hr).mpr fun h₁ s₁ h₂ hsplit => Or.inl ?_⟩
  -- every stop follows a note step
  have hall : ∀ i < 6, ((hist.map Prod.snd)[i]? = some .stopTone → (lastWhere
      (fun e => e.isNote || e.isStop) ((hist.map Prod.snd).take i)).all SoundsEvent.isNote = true) := by
    rw [hevents]
    decide
  have hlen := congrArg List.length hevents
  rw [hsplit] at hall hlen
  rw [List.map_append, List.map_cons] at hall hlen
  have hfirst := hall h₁.length (by simp at hlen; omega)
  rw [List.getElem?_append_right (by simp), List.take_left' (by simp)] at hfirst
  exact (notYetStopped_map h₁).mpr (hfirst (by simp))

/-- **The second stop** within a note silences the tune. -/
theorem gives_tune_back_fails_second : ∃ hist s,
    Run (soundsStep 9 10 16) (soundsInit 0 0) hist s ∧
      hist.map Prod.snd = [.play 120 ['A', '2'], .stopTone, .stopTone] ∧
      ¬ GivesTuneBack 9 10 16 hist := by
  have heval : (runEvents (soundsStep 9 10 16) [.play 120 ['A', '2'], .stopTone]
      (soundsInit 0 0)).any (fun s => (soundsStep 9 10 16 s .stopTone).any fun s' =>
        decide (pwmOutput s'.sound.piezzo ≠ pwmOutput
          ([.play 120 ['A', '2'], .stopTone].foldl tuneStep piezzoInit))) = true := by
    decide +kernel
  obtain ⟨s, hs, heval⟩ := (Option.any_eq_true _ _).mp heval
  obtain ⟨s', hs', hne⟩ := (Option.any_eq_true _ _).mp heval
  obtain ⟨hist, hr, hevents⟩ := exists_run_of_runEvents hs
  refine ⟨_, s', hr.snoc hs', by rw [List.map_append, hevents]; rfl, fun h => ?_⟩
  have hback := h hist s [] s' rfl hs'
  rw [tuneAlone_eq, hevents] at hback
  exact of_decide_eq_true hne hback

end Asx

end CncPneumatics
