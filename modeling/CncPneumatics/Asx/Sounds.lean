import CncPneumatics.Asx.Notes
import CncPneumatics.Asx.TimerChain
import CncPneumatics.Common.History
import CncPneumatics.Common.Outcome
import CncPneumatics.Common.Run
/-!
# The sounds together

The notes of a tune and the tones over it, as they are played in any order
with what else uses the timers; and that a tune is played as it is written
if its last letter is looked up.
-/

namespace CncPneumatics

namespace Asx

/-! ## The system -/

/-- The piezzo with the timers, and the queue of `react_tone_stop`. -/
structure SoundsState where
  sound : SoundState
  stops : List ℕ

/-- What the application does, and the interrupts and the reactor. -/
inductive SoundsEvent where
  | play (tempo : ℕ) (music : List Char)
  /-- `_play_next_note` is run. -/
  | note
  | startTone (pwmValue duration : ℕ)
  | stopTone
  /-- `_stop_tone` is run, as it was queued. -/
  | toneEnds
  | tick
  /-- `timer_dispatch` is run. -/
  | dispatch
  /-- Another user arms a timer. -/
  | arm (reactor count rep arg : ℕ)
  /-- Another user cancels one. -/
  | cancel (inst : ℕ)
deriving DecidableEq

/-- What a function of the service does. -/
def onSounds (s : SoundsState) (r : Except SoundState SoundState) : Option SoundsState :=
  r.toOption.map fun x => { s with sound := x }

/-- One step that does not stop. -/
def soundsStep (reactPiezzo reactToneStop fuel : ℕ) (s : SoundsState) :
    SoundsEvent → Option SoundsState
  | .play tempo music => onSounds s (piezzoPlay reactPiezzo tempo music s.sound)
  | .note => onSounds s (playNextNote reactPiezzo s.sound)
  | .startTone pwmValue duration =>
    onSounds s (piezzoStartTone reactToneStop pwmValue duration s.sound)
  | .stopTone => some { s with sound := piezzoStopTone s.sound }
  | .toneEnds =>
    match s.stops with
    | [] => none
    | _ :: stops => some ⟨piezzoStopTone s.sound, stops⟩
  | .tick => some { s with sound := { s.sound with timer := timerTick s.sound.timer } }
  | .dispatch => (timerDispatch fuel s.sound.timer).map fun r =>
      ⟨{ s.sound with timer := r.2 }, (waiting r.1 reactToneStop).foldl (post 1) s.stops⟩
  | .arm other count rep arg =>
    if other ≠ reactPiezzo ∧ other ≠ reactToneStop ∧ other ≠ reactorNullHandle then
      (timerArm s.sound.timer other count rep arg).map fun r =>
        { s with sound := { s.sound with timer := r.2 } }
    else none
  | .cancel inst =>
    some { s with sound := { s.sound with timer := (timerCancel s.sound.timer inst).2 } }

/-- The piezzo when it is initialised, with the counters of the timer
service at any value. -/
def soundsInit (counter currentInstance : ℕ) : SoundsState where
  sound := ⟨{ timerInit with counter := counter, currentInstance := currentInstance }, piezzoInit⟩
  stops := []

namespace SoundsEvent

def isPlay : SoundsEvent → Bool
  | .play _ _ => true
  | _ => false

/-- A note step is taken. -/
def isNote : SoundsEvent → Bool
  | .play _ _ | .note => true
  | _ => false

/-- `_stop_tone` is run. -/
def isStop : SoundsEvent → Bool
  | .stopTone | .toneEnds => true
  | _ => false

/-- A tone is started or stopped. -/
def isTone : SoundsEvent → Bool
  | .startTone _ _ | .stopTone | .toneEnds => true
  | _ => false

end SoundsEvent

/-- The record from which a note step plays. -/
def noteFrom (s : SoundsState) : SoundsEvent → Option Piezzo
  | .play tempo music => some (tuneStart tempo music s.sound.piezzo)
  | .note => some s.sound.piezzo
  | _ => none

variable {reactPiezzo reactToneStop fuel : ℕ} {s s' s₀ s₁ : SoundsState} {e : SoundsEvent}
  {hist : List (SoundsState × SoundsEvent)} {r : Except SoundState SoundState}

theorem onSounds_eq_some (h : onSounds s r = some s') : ∃ x, r = .ok x ∧ s' = { s with sound := x } := by
  obtain ⟨x, hx, rfl⟩ := Option.map_eq_some_iff.mp h
  exact ⟨x, toOption_eq_some hx, rfl⟩

/-- **What an event leads to.** -/
inductive SoundsLead (reactPiezzo reactToneStop fuel : ℕ) (s : SoundsState) :
    SoundsEvent → SoundsState → Prop
  | note {e : SoundsEvent} {t : Timer} {p : Piezzo} {x : SoundState} : noteFrom s e = some p →
      Timer.Served (fun _ => False) s.sound.timer t → (e = .note → t = s.sound.timer) →
      playNextNote reactPiezzo ⟨t, p⟩ = .ok x →
      SoundsLead reactPiezzo reactToneStop fuel s e { s with sound := x }
  | startTone {pwmValue duration : ℕ} {t : Timer} :
      (duration = 0 → t = s.sound.timer) →
      (duration ≠ 0 → ∃ inst, timerArm s.sound.timer reactToneStop
        (timerGetCountFromNow s.sound.timer duration) 0 0 = some (inst, t)) →
      SoundsLead reactPiezzo reactToneStop fuel s (.startTone pwmValue duration)
        { s with sound :=
          ⟨t, { setTimerComparePeriod s.sound.piezzo pwmValue with playingTone := true }⟩ }
  | stopTone : SoundsLead reactPiezzo reactToneStop fuel s .stopTone
      { s with sound := piezzoStopTone s.sound }
  | toneEnds {x : ℕ} {stops : List ℕ} : s.stops = x :: stops →
      SoundsLead reactPiezzo reactToneStop fuel s .toneEnds ⟨piezzoStopTone s.sound, stops⟩
  | tick : SoundsLead reactPiezzo reactToneStop fuel s .tick
      { s with sound := { s.sound with timer := timerTick s.sound.timer } }
  | dispatch {r : List (ℕ × ℕ) × Timer} : timerDispatch fuel s.sound.timer = some r →
      SoundsLead reactPiezzo reactToneStop fuel s .dispatch
        ⟨{ s.sound with timer := r.2 }, (waiting r.1 reactToneStop).foldl (post 1) s.stops⟩
  | arm {other count rep arg : ℕ} {r : ℕ × Timer} : other ≠ reactPiezzo → other ≠ reactToneStop →
      other ≠ reactorNullHandle → timerArm s.sound.timer other count rep arg = some r →
      SoundsLead reactPiezzo reactToneStop fuel s (.arm other count rep arg)
        { s with sound := { s.sound with timer := r.2 } }
  | cancel {inst : ℕ} : SoundsLead reactPiezzo reactToneStop fuel s (.cancel inst)
      { s with sound := { s.sound with timer := (timerCancel s.sound.timer inst).2 } }

theorem lead_of_soundsStep (h : soundsStep reactPiezzo reactToneStop fuel s e = some s') :
    SoundsLead reactPiezzo reactToneStop fuel s e s' := by
  cases e with
  | play tempo music =>
    obtain ⟨x, hx, rfl⟩ := onSounds_eq_some h
    rw [piezzoPlay_eq] at hx
    refine .note rfl ?_ (fun he => by cases he) hx
    split
    · exact Timer.Served.cancel _
    · exact Timer.Served.refl _ _
  | note =>
    obtain ⟨x, hx, rfl⟩ := onSounds_eq_some h
    exact .note rfl (Timer.Served.refl _ _) (fun _ => rfl) hx
  | startTone pwmValue duration =>
    obtain ⟨x, hx, rfl⟩ := onSounds_eq_some h
    unfold piezzoStartTone at hx
    -- with no duration nothing is armed, and nobody stops the tone
    by_cases hduration : duration = 0
    · rw [if_neg (by simpa using hduration)] at hx
      obtain rfl := Except.ok.inj hx
      exact .startTone (fun _ => rfl) fun hne => absurd hduration hne
    · rw [if_pos hduration] at hx
      split at hx
      · next inst timer harm =>
        obtain rfl := Except.ok.inj hx
        exact .startTone (fun h0 => absurd h0 hduration) fun _ => ⟨inst, harm⟩
      · cases hx
  | stopTone =>
    obtain rfl := Option.some.inj h
    exact .stopTone
  | toneEnds =>
    simp only [soundsStep] at h
    cases hstops : s.stops with
    | nil =>
      rw [hstops] at h
      cases h
    | cons x stops =>
      rw [hstops] at h
      obtain rfl := Option.some.inj h
      exact .toneEnds hstops
  | tick =>
    obtain rfl := Option.some.inj h
    exact .tick
  | dispatch =>
    obtain ⟨r, hr, rfl⟩ := Option.map_eq_some_iff.mp h
    exact .dispatch hr
  | arm other count rep arg =>
    simp only [soundsStep] at h
    split_ifs at h with hother
    obtain ⟨r, hr, rfl⟩ := Option.map_eq_some_iff.mp h
    exact .arm hother.1 hother.2.1 hother.2.2 hr
  | cancel inst =>
    obtain rfl := Option.some.inj h
    exact .cancel

/-- Stopping a tone gives the output back to the value kept for it. -/
theorem stopTone_eq (p : Piezzo) : stopTone p = { p with
    playingTone := false
    playingToneRecoveryValue := 0
    comparePeriod :=
      if p.playingToneRecoveryValue ≠ 0 then p.playingToneRecoveryValue else p.comparePeriod
    compareEnabled := decide (p.playingToneRecoveryValue ≠ 0) } := by
  unfold stopTone
  by_cases h : p.playingToneRecoveryValue = 0
  · simp [h, stopTimerCompare]
  · simp [h, setTimerComparePeriod]

/-! ## Playing what is written -/

/-- The number of note steps. -/
def noteSteps (hist : List (SoundsState × SoundsEvent)) : ℕ := hist.countP fun p => p.2.isNote

/-- What a note step gives: the note that is written, and a timer for its
end; or the end of the tune, with no further timer. -/
def NoteGiven (reactPiezzo : ℕ) (s s' : SoundsState) : Option WrittenNote → Prop
  | some w => s'.sound.piezzo.lastTcValue = w.period ∧ s'.sound.piezzo.duration = w.duration ∧
      s'.sound.piezzo.slur = w.slur ∧
      ∃ t, Timer.Served (fun _ => False) s.sound.timer t ∧
        timerArm t reactPiezzo (timerGetCountFromNow t w.duration) 0 0 =
          some (s'.sound.piezzo.timerInstance, s'.sound.timer)
  | none => s'.sound.timer = s.sound.timer ∧
      (s'.sound.piezzo.playingTone = false → s'.sound.piezzo.compareEnabled = false)

/-- **The tune is played as it is written**, from the step that starts it
on: each note step gives the next note, and then the end. -/
structure PlaysAsWritten (reactPiezzo reactToneStop fuel : ℕ) (ws : List WrittenNote)
    (s₀ s₁ : SoundsState) (hist : List (SoundsState × SoundsEvent)) : Prop where
  first : NoteGiven reactPiezzo s₀ s₁ ws[0]?
  further : ∀ h₁ a h₂ b, hist = h₁ ++ (a, .note) :: h₂ →
    soundsStep reactPiezzo reactToneStop fuel a .note = some b →
      NoteGiven reactPiezzo a b ws[noteSteps h₁ + 1]?

/-- What is written of a tune at a tempo. -/
def writtenTune (tempo : ℕ) (first : Note) (others : List (Bool × Note)) : List WrittenNote :=
  let full := tempoFullNotePeriod / tempo % 2 ^ 16
  writtenNotes full 2 (full >>> 2) ((false, first) :: others)

/-- **The reading of a tune** after `k` notes: what is ahead is the rest of
what is written, and it ends with a letter that is looked up if the whole
tune does. -/
def Reading (ref : ℕ) (notes : List (Bool × Note)) (ws : List WrittenNote) (k : ℕ) (p : Piezzo) :
    Prop :=
  ∃ full octave before ref' rest, rest = notes.drop k ∧
    ws.drop k = writtenNotes full octave before rest ∧
    (rest ≠ [] → (LastLookedUp 2 ref notes ↔ LastLookedUp octave ref' rest)) ∧
    Ahead full octave before ref' rest p

variable {ref k tempo : ℕ} {notes : List (Bool × Note)} {ws : List WrittenNote} {p p' : Piezzo}
  {first : Note} {others : List (Bool × Note)} {full octave before : ℕ}

/-- The record when a tune is started. -/
theorem tuneStart_reading (tempo : ℕ) (first : Note) (others : List (Bool × Note)) (p : Piezzo) :
    Reading p.refDuration ((false, first) :: others) (writtenTune tempo first others) 0
      (tuneStart tempo (musicText first others) p) :=
  ⟨_, _, _, _, _, rfl, rfl, fun _ => Iff.rfl, tuneStart_ahead tempo first others p⟩

/-- What is ahead is in the fields that a tune alone changes. -/
theorem Ahead.congr (h : Ahead full octave before ref notes p) (hnext : p'.nextNote = p.nextNote)
    (hslur : p'.slurNext = p.slurNext) (hoctave : p'.octaveShift = p.octaveShift)
    (hduration : p'.duration = p.duration) (hfull : p'.tempoFullPeriod = p.tempoFullPeriod)
    (href : p'.refDuration = p.refDuration) : Ahead full octave before ref notes p' := by
  cases notes with
  | nil => exact hnext.trans h
  | cons n notes =>
    obtain ⟨h₁, h₂, h₃, h₄, h₅, h₆⟩ := h
    exact ⟨hnext.trans h₁, hslur.trans h₂, hoctave.trans h₃, hduration.trans h₄, hfull.trans h₅,
      href.trans h₆⟩

/-- **The step lemma for a note step**: it gives the next note, where this
is not the last or is looked up, and the reading goes on. -/
theorem Reading.note {t : Timer} {x : SoundState} (h : Reading ref notes ws k p)
    (hserved : Timer.Served (fun _ => False) s.sound.timer t)
    (hend : p.nextNote = [] → t = s.sound.timer)
    (hok : playNextNote reactPiezzo ⟨t, p⟩ = .ok x) :
    (NoteGiven reactPiezzo s { s with sound := x } ws[k]? ↔
      (k + 1 = notes.length → LastLookedUp 2 ref notes)) ∧
      Reading ref notes ws (k + 1) x.piezzo := by
  obtain ⟨full, octave, before, ref', rest, hrest, hws, hlast, hahead⟩ := h
  have hget : ws[k]? = (writtenNotes full octave before rest).head? := by
    rw [← hws, List.head?_drop]
  have hlen : rest.length = notes.length - k := by rw [hrest, List.length_drop]
  cases rest with
  | nil =>
    -- the tune is over
    have hover : x = ⟨t, playedOut p⟩ := playNextNote_end (s := ⟨t, p⟩) hahead hok
    rw [playedOut_eq] at hover
    rw [hget, hover]
    rw [List.length_nil] at hlen
    refine ⟨iff_of_true ⟨hend hahead, fun htone => ?_⟩ fun hk => by omega,
      full, octave, before, ref', [], ?_, ?_, by simp, hahead⟩
    · show (p.playingTone && p.compareEnabled) = false
      rw [show p.playingTone = false from htone, Bool.false_and]
    · rw [← List.drop_drop, ← hrest, List.drop_nil]
    · rw [← List.drop_drop, hws]
      rfl
  | cons m rest =>
    obtain ⟨slur, n⟩ := m
    have hnext : p.nextNote ≠ [] := by
      rw [hahead.1]
      exact List.append_ne_nil_of_left_ne_nil n.text_ne_nil _
    obtain ⟨heq, harm⟩ := playNextNote_note hnext hok
    obtain ⟨hduration, hslur, hperiod, hahead'⟩ := hahead.playedNote
    rw [List.length_cons] at hlen
    have hk : notes.drop (k + 1) = rest := by
      rw [← List.drop_drop, ← hrest]
      rfl
    have hgiven : NoteGiven reactPiezzo s { s with sound := x } ws[k]? ↔
        (if n.cutShort (furtherText rest) then ref' else n.pitch.entry) >>> n.pitch.octave octave =
          n.period octave := by
      rw [hget]
      show (x.piezzo.lastTcValue = _ ∧ x.piezzo.duration = _ ∧ x.piezzo.slur = _ ∧ _) ↔ _
      rw [heq]
      dsimp only
      rw [hperiod, hduration, hslur]
      refine ⟨fun h => h.1, fun h => ⟨h, rfl, rfl, t, hserved, ?_⟩⟩
      rw [hduration] at harm
      exact harm
    refine ⟨hgiven.trans ?_, full, n.pitch.octave octave, n.duration full before, n.pitch.entry,
      rest, hk.symm, ?_, fun hne => ?_, ?_⟩
    · cases rest with
      | nil =>
        rw [List.length_nil] at hlen
        rw [hlast (by simp), LastLookedUp, furtherText, List.flatMap_nil]
        cases n.cutShort [] with
        | false => exact iff_of_true rfl fun _ => Or.inl rfl
        | true =>
          refine ⟨fun h _ => Or.inr h, fun h => (h (by omega)).resolve_left (by simp)⟩
      | cons m rest =>
        have hcut : n.cutShort (furtherText (m :: rest)) = false := by
          unfold Note.cutShort
          cases n.pitch with
          | rest => rfl
          | letter => exact Bool.and_false _
        rw [List.length_cons] at hlen
        rw [hcut]
        exact iff_of_true rfl fun hk => by omega
    · rw [← List.drop_drop, hws]
      rfl
    · cases rest with
      | nil => exact absurd rfl hne
      | cons m rest => exact hlast (by simp)
    · rw [heq]
      exact hahead'.congr rfl rfl rfl rfl rfl rfl

/-- No other step changes what is ahead. -/
theorem Reading.other (h : Reading ref notes ws k s.sound.piezzo) (hnone : noteFrom s e = none)
    (hs : SoundsLead reactPiezzo reactToneStop fuel s e s') :
    Reading ref notes ws k s'.sound.piezzo := by
  obtain ⟨full, octave, before, ref', rest, hrest, hws, hlast, hahead⟩ := h
  refine ⟨full, octave, before, ref', rest, hrest, hws, hlast, ?_⟩
  cases hs with
  | note hsome => cases hnone.symm.trans hsome
  | startTone => exact hahead.congr rfl rfl rfl rfl rfl rfl
  | stopTone | toneEnds =>
    rw [piezzoStopTone, stopTone_eq]
    exact hahead.congr rfl rfl rfl rfl rfl rfl
  | tick | dispatch | arm | cancel => exact hahead

/-- The run lemma. -/
theorem reading_of_run (hr : Run (soundsStep reactPiezzo reactToneStop fuel) s₁ hist s)
    (hplay : ∀ p ∈ hist, p.2.isPlay = false) (h₁ : Reading ref notes ws k s₁.sound.piezzo) :
    Reading ref notes ws (k + noteSteps hist) s.sound.piezzo := by
  induction hr with
  | nil => exact h₁
  | @snoc hist s s' e _ hs ih =>
    have hread := ih fun p hp => hplay p (by simp [hp])
    have hlead := lead_of_soundsStep hs
    have hcount : noteSteps (hist ++ [(s, e)]) = noteSteps hist + if e.isNote then 1 else 0 := by
      rw [noteSteps, List.countP_append, List.countP_singleton, noteSteps]
    rw [hcount]
    by_cases he : e = .note
    · subst he
      cases hlead with
      | note hsome hserved hsame hok =>
        obtain rfl := Option.some.inj hsome
        exact (hread.note (s := s) hserved (fun _ => hsame rfl) hok).2
    · have hnone : e.isNote = false ∧ noteFrom s e = none := by
        cases e with
        | play tempo music => cases hplay (s, .play tempo music) (by simp)
        | note => exact absurd rfl he
        | _ => exact ⟨rfl, rfl⟩
      rw [hnone.1, if_neg (by simp), Nat.add_zero]
      exact hread.other hnone.2 hlead

/-- The step that starts a tune gives its first note. -/
theorem Reading.of_play
    (hs : soundsStep reactPiezzo reactToneStop fuel s₀ (.play tempo (musicText first others)) =
      some s₁) :
    let notes := (false, first) :: others
    let ws := writtenTune tempo first others
    (NoteGiven reactPiezzo s₀ s₁ ws[0]? ↔
      (1 = notes.length → LastLookedUp 2 s₀.sound.piezzo.refDuration notes)) ∧
      Reading s₀.sound.piezzo.refDuration notes ws 1 s₁.sound.piezzo := by
  cases lead_of_soundsStep hs with
  | note hsome hserved _ hok =>
    obtain rfl := Option.some.inj hsome
    have hnext : musicText first others ≠ [] :=
      List.append_ne_nil_of_left_ne_nil first.text_ne_nil _
    exact (tuneStart_reading tempo first others s₀.sound.piezzo).note (s := s₀) hserved
      (fun hnil => absurd hnil hnext) hok

/-- A further note step of the run gives the note of its place. -/
theorem Reading.of_run (hr : Run (soundsStep reactPiezzo reactToneStop fuel) s₁ hist s)
    (hplay : ∀ p ∈ hist, p.2.isPlay = false) (h₁ : Reading ref notes ws 1 s₁.sound.piezzo)
    {hist₁ hist₂ : List (SoundsState × SoundsEvent)} {a b : SoundsState}
    (hsplit : hist = hist₁ ++ (a, .note) :: hist₂)
    (hs : soundsStep reactPiezzo reactToneStop fuel a .note = some b) :
    NoteGiven reactPiezzo a b ws[noteSteps hist₁ + 1]? ↔
      (noteSteps hist₁ + 2 = notes.length → LastLookedUp 2 ref notes) := by
  subst hsplit
  have hread := reading_of_run hr.step_of_mem.1 (fun p hp => hplay p (by simp [hp])) h₁
  rw [Nat.add_comm] at hread
  cases lead_of_soundsStep hs with
  | note hsome hserved hsame hok =>
    obtain rfl := Option.some.inj hsome
    exact (hread.note (s := a) hserved (fun _ => hsame rfl) hok).1

/-- **When a tune is played as it is written**: if and only if its last
note, once it is played, is looked up. -/
theorem plays_as_written_iff
    (hs : soundsStep reactPiezzo reactToneStop fuel s₀ (.play tempo (musicText first others)) =
      some s₁)
    (hr : Run (soundsStep reactPiezzo reactToneStop fuel) s₁ hist s)
    (hplay : ∀ p ∈ hist, p.2.isPlay = false) :
    PlaysAsWritten reactPiezzo reactToneStop fuel (writtenTune tempo first others) s₀ s₁ hist ↔
      (others.length ≤ noteSteps hist →
        LastLookedUp 2 s₀.sound.piezzo.refDuration ((false, first) :: others)) := by
  obtain ⟨hfirst, hread⟩ := Reading.of_play hs
  have hlen : ((false, first) :: others).length = others.length + 1 := rfl
  constructor
  · intro h hreached
    rcases Nat.eq_zero_or_pos others.length with hone | hmore
    · exact hfirst.mp h.first (by rw [hlen, hone])
    · -- the note step that plays the last note
      have hlast : others.length - 1 < hist.countP fun p => p.2.isNote := by
        unfold noteSteps at hreached
        omega
      obtain ⟨h₁, ⟨a, e⟩, h₂, rfl, he, hk⟩ := exists_split_of_lt_countP hlast
      have hnote : e = .note := by
        cases e with
        | note => rfl
        | play tempo music => cases hplay (a, .play tempo music) (by simp)
        | _ => cases he
      subst hnote
      obtain ⟨-, b, hb, -⟩ := hr.step_of_mem
      refine (Reading.of_run hr hplay hread rfl hb).mp (h.further h₁ a h₂ b rfl hb) ?_
      rw [noteSteps, hk, hlen]
      omega
  · intro h
    -- a note step is the last one only when as many have been played as the tune has further notes
    refine ⟨hfirst.mpr fun hone => h (by omega), fun h₁ a h₂ b hsplit hb => ?_⟩
    refine (Reading.of_run hr hplay hread hsplit hb).mpr fun hlast => h ?_
    have hcount : noteSteps h₁ + 1 ≤ noteSteps hist := by
      rw [hsplit, noteSteps, noteSteps, List.countP_append, List.countP_cons_of_pos (by rfl)]
      omega
    omega

theorem noteSteps_eq (hist : List (SoundsState × SoundsEvent)) :
    noteSteps hist = (hist.map Prod.snd).countP SoundsEvent.isNote := by
  rw [List.countP_map]
  rfl

/-- The tune `Cb,2~R E4`, with a tone over its rest. -/
theorem plays_as_written_rest :
    let others : List (Bool × Note) := [(true, ⟨.rest, none⟩), (false, ⟨.letter 4 .plain [], some 4⟩)]
    let first : Note := ⟨.letter 2 .flat [.down], some 2⟩
    ∃ s₁ hist s,
      soundsStep 9 10 16 (soundsInit 0 0) (.play 120 (musicText first others)) = some s₁ ∧
        Run (soundsStep 9 10 16) s₁ hist s ∧
        hist.map Prod.snd = [.startTone 100 0, .note, .tick, .stopTone, .note, .note] ∧
        musicText first others = ['C', 'b', ',', '2', '~', 'R', ' ', 'E', '4'] ∧
        writtenTune 120 first others = [⟨10124, 500, false⟩, ⟨0, 500, true⟩, ⟨7584, 125, false⟩] ∧
        PlaysAsWritten 9 10 16 (writtenTune 120 first others) (soundsInit 0 0) s₁ hist := by
  intro others first
  have heval : ((soundsStep 9 10 16 (soundsInit 0 0) (.play 120 (musicText first others))).bind
      (runEvents (soundsStep 9 10 16) [.startTone 100 0, .note, .tick, .stopTone, .note, .note])).isSome =
        true := by decide +kernel
  obtain ⟨s, hs⟩ := Option.isSome_iff_exists.mp heval
  obtain ⟨s₁, hs₁, hs⟩ := Option.bind_eq_some_iff.mp hs
  obtain ⟨hist, hr, hevents⟩ := exists_run_of_runEvents hs
  have hplay : ∀ p ∈ hist, p.2.isPlay = false := by
    have hall : ∀ e ∈ hist.map Prod.snd, e.isPlay = false := by
      rw [hevents]
      decide
    exact fun p hp => hall p.2 (List.mem_map_of_mem hp)
  exact ⟨s₁, hist, s, hs₁, hr, hevents, by decide, by decide,
    (plays_as_written_iff hs₁ hr hplay).mpr fun _ => Or.inl rfl⟩

/-- **The last letter** of `A B C` is not looked up: its step gives the note
before it again. -/
theorem plays_as_written_fails_lastLetter :
    let others : List (Bool × Note) :=
      [(false, ⟨.letter 1 .plain [], none⟩), (false, ⟨.letter 2 .plain [], none⟩)]
    let first : Note := ⟨.letter 0 .plain [], none⟩
    ∃ s₁ hist s,
      soundsStep 9 10 16 (soundsInit 0 0) (.play 120 (musicText first others)) = some s₁ ∧
        Run (soundsStep 9 10 16) s₁ hist s ∧ hist.map Prod.snd = [.note, .note] ∧
        musicText first others = ['A', ' ', 'B', ' ', 'C'] ∧
        ¬ PlaysAsWritten 9 10 16 (writtenTune 120 first others) (soundsInit 0 0) s₁ hist := by
  intro others first
  have heval : ((soundsStep 9 10 16 (soundsInit 0 0) (.play 120 (musicText first others))).bind
      (runEvents (soundsStep 9 10 16) [.note])).any (fun a =>
        (soundsStep 9 10 16 a .note).any fun b => b.sound.piezzo.lastTcValue = 10124 >>> 2) =
          true := by decide +kernel
  obtain ⟨a, ha, hb⟩ := (Option.any_eq_true _ _).mp heval
  obtain ⟨b, hb, hperiod⟩ := (Option.any_eq_true _ _).mp hb
  obtain ⟨s₁, hs₁, ha⟩ := Option.bind_eq_some_iff.mp ha
  obtain ⟨hist, hr, hevents⟩ := exists_run_of_runEvents ha
  refine ⟨s₁, _, b, hs₁, hr.snoc hb, by rw [List.map_append, hevents]; rfl, by decide, fun h => ?_⟩
  have hgiven := h.further hist a [] b rfl hb
  rw [noteSteps_eq, hevents] at hgiven
  have hwritten : b.sound.piezzo.lastTcValue = 19111 >>> 2 := hgiven.1
  rw [of_decide_eq_true hperiod] at hwritten
  exact absurd hwritten (by decide)

end Asx

end CncPneumatics
