import CncPneumatics.Asx.NoteParser
import CncPneumatics.Asx.Sounds
/-!
# The end of a tune

Whatever string a tune is played from, every note step reads it safely and
takes at least one character of it, so that the tune ends after no more
note steps than the string has characters.
-/

namespace CncPneumatics

namespace Asx

/-- `piezzo_stop`. -/
def piezzoStop (s : SoundState) : SoundState where
  timer := if s.piezzo.timerInstance ≠ 0 then (timerCancel s.timer s.piezzo.timerInstance).2
    else s.timer
  piezzo := stopTimerCompare s.piezzo

/-- What happens to the sounds, and `piezzo_stop`. -/
inductive PiezzoEvent where
  | sounds (e : SoundsEvent)
  | stop
deriving DecidableEq

def piezzoStep (reactPiezzo reactToneStop fuel : ℕ) (s : SoundsState) : PiezzoEvent → Option SoundsState
  | .sounds e => soundsStep reactPiezzo reactToneStop fuel s e
  | .stop => some { s with sound := piezzoStop s.sound }

namespace PiezzoEvent

def isPlay : PiezzoEvent → Bool
  | .sounds e => e.isPlay
  | .stop => false

/-- A note step is taken. -/
def isNote : PiezzoEvent → Bool
  | .sounds e => e.isNote
  | .stop => false

/-- The record from which a note step plays. -/
def noteFrom (s : SoundsState) : PiezzoEvent → Option Piezzo
  | .sounds e => Asx.noteFrom s e
  | .stop => none

end PiezzoEvent

/-- The note step finds the text not over, and calls `_parse_next_note`. -/
def parses (p : SoundsState × PiezzoEvent) : Bool :=
  (p.2.noteFrom p.1).any fun p => p.nextNote ≠ []

/-- **The records from which the note steps of a tune play**: the first from
the call of `piezzo_play` on, the others after whatever else happened. -/
inductive NoteStepFrom (reactPiezzo reactToneStop fuel : ℕ) (text : CString) (tempo : ℕ)
    (s₀ : SoundsState) : Piezzo → Prop
  | first : NoteStepFrom reactPiezzo reactToneStop fuel text tempo s₀
      (tuneStart tempo text.chars s₀.sound.piezzo)
  | further {s₁ s : SoundsState} {hist : List (SoundsState × PiezzoEvent)} :
      piezzoStep reactPiezzo reactToneStop fuel s₀ (.sounds (.play tempo text.chars)) = some s₁ →
      Run (piezzoStep reactPiezzo reactToneStop fuel) s₁ hist s →
      (∀ p ∈ hist, p.2.isPlay = false) →
      NoteStepFrom reactPiezzo reactToneStop fuel text tempo s₀ s.sound.piezzo

/-- **The record is at an offset of the text**, after so many note steps of
which so many have parsed a note: each has taken a character, and as long
as the text is not over all of them have parsed. -/
structure AtText (text : CString) (parsed steps : ℕ) (p : Piezzo) (start : ℕ) : Prop where
  pointer : p.nextNote = text.left start
  le : start ≤ text.chars.length
  octave : p.octaveShift < 5
  taken : parsed ≤ start
  steps_le : p.nextNote ≠ [] → steps ≤ start

variable {reactPiezzo reactToneStop fuel tempo parsed steps start : ℕ} {text : CString}
  {p p' : Piezzo} {s s' s₀ s₁ : SoundsState} {e : PiezzoEvent}
  {hist : List (SoundsState × PiezzoEvent)}

theorem tuneStart_atText (tempo : ℕ) (text : CString) (p : Piezzo) :
    AtText text 0 0 (tuneStart tempo text.chars p) 0 :=
  ⟨rfl, Nat.zero_le _, (by decide : 2 < 5), le_rfl, fun _ => le_rfl⟩

namespace AtText

/-- Where the text is not over, the parser reads it safely. -/
theorem parsesSafely (h : AtText text parsed steps p start) (hne : p.nextNote ≠ []) :
    ∃ stop, ParsesSafely text { p with slur := p.slurNext } start stop :=
  exists_parsesSafely h.pointer (h.pointer ▸ hne) h.octave

/-- What else is in the record does not matter. -/
theorem congr (h : AtText text parsed steps p start) (hnext : p'.nextNote = p.nextNote)
    (hoctave : p'.octaveShift = p.octaveShift) : AtText text parsed steps p' start where
  pointer := hnext.trans h.pointer
  le := h.le
  octave := by rw [hoctave]; exact h.octave
  taken := h.taken
  steps_le := fun hne => h.steps_le (hnext ▸ hne)

/-- **A note step takes a character**, unless the text is over. -/
theorem note {t : Timer} {x : SoundState} (h : AtText text parsed steps p start)
    (hok : playNextNote reactPiezzo ⟨t, p⟩ = .ok x) :
    ∃ stop, AtText text (parsed + if p.nextNote ≠ [] then 1 else 0) (steps + 1) x.piezzo stop := by
  by_cases hover : p.nextNote = []
  · obtain rfl := playNextNote_end (s := ⟨t, p⟩) hover hok
    rw [if_neg (by simpa using hover)]
    dsimp only
    rw [playedOut_eq]
    exact ⟨start, h.pointer, h.le, h.octave, h.taken, fun hne => absurd hover hne⟩
  · obtain ⟨stop, hsafe⟩ := h.parsesSafely hover
    obtain ⟨heq, -⟩ := playNextNote_note (s := ⟨t, p⟩) hover hok
    obtain ⟨period, enabled, hplayed⟩ := playedNote_eq p
    obtain ⟨hnext, hoctave⟩ := hsafe.after
    have htaken := h.taken
    have hsteps := h.steps_le hover
    have hprogress := hsafe.progress
    rw [if_pos hover, heq, hplayed]
    exact ⟨stop, hnext, hsafe.stop_le, hoctave, by omega, fun _ => by omega⟩

/-- **The step lemma**: whatever happens but another call of `piezzo_play`
leaves the record at the text. -/
theorem step (h : AtText text parsed steps s.sound.piezzo start) (hplay : e.isPlay = false)
    (hs : piezzoStep reactPiezzo reactToneStop fuel s e = some s') :
    ∃ stop, AtText text (parsed + if parses (s, e) then 1 else 0)
      (steps + if e.isNote then 1 else 0) s'.sound.piezzo stop := by
  cases e with
  | stop =>
    obtain rfl := Option.some.inj hs
    exact ⟨start, h.congr rfl rfl⟩
  | sounds e =>
    cases lead_of_soundsStep hs with
    | note hsome hserved hsame hok =>
      cases e with
      | play tempo music => cases hplay
      | note =>
        obtain rfl := Option.some.inj hsome
        have hnote := h.note hok
        simpa [parses, PiezzoEvent.noteFrom, PiezzoEvent.isNote, SoundsEvent.isNote, noteFrom] using hnote
      | _ => cases hsome
    | stopTone | toneEnds =>
      rw [piezzoStopTone, stopTone_eq]
      exact ⟨start, h.congr rfl rfl⟩
    | startTone | tick | dispatch | arm | cancel => exact ⟨start, h.congr rfl rfl⟩

/-- The run lemma. -/
theorem run (hr : Run (piezzoStep reactPiezzo reactToneStop fuel) s₁ hist s)
    (hplay : ∀ p ∈ hist, p.2.isPlay = false) (h₁ : AtText text parsed steps s₁.sound.piezzo start) :
    ∃ stop, AtText text (parsed + hist.countP parses)
      (steps + hist.countP fun p => p.2.isNote) s.sound.piezzo stop := by
  induction hr with
  | nil => exact ⟨start, h₁⟩
  | @snoc hist s s' e _ hs ih =>
    obtain ⟨stop, hat⟩ := ih fun p hp => hplay p (by simp [hp])
    have hnext := hat.step (hplay (s, e) (by simp)) hs
    rw [List.countP_append, List.countP_singleton, List.countP_append, List.countP_singleton,
      ← Nat.add_assoc, ← Nat.add_assoc]
    exact hnext

end AtText

/-- The first note step of a tune leaves the record at the text. -/
theorem atText_of_play
    (hs : piezzoStep reactPiezzo reactToneStop fuel s₀ (.sounds (.play tempo text.chars)) = some s₁) :
    ∃ stop, AtText text (if text.chars ≠ [] then 1 else 0) 1 s₁.sound.piezzo stop := by
  rw [piezzoStep] at hs
  cases lead_of_soundsStep hs with
  | note hsome hserved hsame hok =>
    obtain rfl := Option.some.inj hsome
    have hnote := (tuneStart_atText tempo text s₀.sound.piezzo).note hok
    rwa [Nat.zero_add] at hnote

/-- Every note step of a tune finds the record at the text. -/
theorem NoteStepFrom.atText
    (h : NoteStepFrom reactPiezzo reactToneStop fuel text tempo s₀ p) :
    ∃ parsed steps start, AtText text parsed steps p start := by
  cases h with
  | first => exact ⟨_, _, _, tuneStart_atText tempo text _⟩
  | further hs hr hplay =>
    obtain ⟨start, h₁⟩ := atText_of_play hs
    exact ⟨_, _, AtText.run hr hplay h₁⟩

/-- **A note step reads the text safely**: where it looks whether the text
is over the pointer is in the string or at the terminator, and where the
text is not over the call of the parser is safe. -/
structure NoteStepSafe (text : CString) (p : Piezzo) : Prop where
  octave : p.octaveShift < 5
  call : ∃ start ≤ text.chars.length, p.nextNote = text.left start ∧
    (p.nextNote ≠ [] → ∃ stop, ParsesSafely text { p with slur := p.slurNext } start stop)

/-- **The note parser is safe and makes progress on any text**: every note
step of every tune reads it safely, no more of them call the parser than
the string has characters, and after so many note steps the tune is over. -/
theorem note_parser_safe (reactPiezzo reactToneStop fuel : ℕ) (text : CString) (tempo : ℕ)
    (s₀ : SoundsState) :
    (∀ p, NoteStepFrom reactPiezzo reactToneStop fuel text tempo s₀ p → NoteStepSafe text p) ∧
      ∀ s₁ hist s,
        piezzoStep reactPiezzo reactToneStop fuel s₀ (.sounds (.play tempo text.chars)) = some s₁ →
        Run (piezzoStep reactPiezzo reactToneStop fuel) s₁ hist s →
        (∀ p ∈ hist, p.2.isPlay = false) →
        let tune := (s₀, .sounds (.play tempo text.chars)) :: hist
        tune.countP parses ≤ text.chars.length ∧
          (text.chars.length ≤ tune.countP (fun p => p.2.isNote) → s.sound.piezzo.nextNote = []) := by
  constructor
  · intro p hp
    obtain ⟨parsed, steps, start, hat⟩ := hp.atText
    exact ⟨hat.octave, start, hat.le, hat.pointer, fun hne => hat.parsesSafely hne⟩
  · intro s₁ hist s hs hr hplay
    obtain ⟨start, h₁⟩ := atText_of_play hs
    obtain ⟨stop, hat⟩ := AtText.run hr hplay h₁
    have hfirst : parses (s₀, .sounds (.play tempo text.chars)) = decide (text.chars ≠ []) := rfl
    have hle := hat.le
    have htaken := hat.taken
    dsimp only
    rw [List.countP_cons, List.countP_cons, hfirst]
    simp only [decide_eq_true_eq]
    refine ⟨by omega, fun hsteps => ?_⟩
    -- a text that is not over has lost a character to every note step
    by_contra hne
    have hall := hat.steps_le hne
    have hlt := CString.lt_of_left_ne_nil (hat.pointer ▸ hne)
    rw [if_pos (show PiezzoEvent.isNote (.sounds (.play tempo text.chars)) = true from rfl)] at hsteps
    omega

/-- A tune from it is over after five note steps. -/
theorem note_parser_safe_notATune :
    ∃ s₁ hist s,
      piezzoStep 9 10 16 (soundsInit 0 0) (.sounds (.play 120 notATune.chars)) = some s₁ ∧
        Run (piezzoStep 9 10 16) s₁ hist s ∧
        hist.map Prod.snd = [.sounds .note, .sounds (.startTone 100 0), .stop, .sounds .note,
          .sounds .note, .sounds .tick, .sounds .note] ∧
        NoteStepSafe notATune s₁.sound.piezzo ∧ s.sound.piezzo.nextNote = [] := by
  have heval : ((piezzoStep 9 10 16 (soundsInit 0 0) (.sounds (.play 120 notATune.chars))).bind
      (runEvents (piezzoStep 9 10 16) [.sounds .note, .sounds (.startTone 100 0), .stop,
        .sounds .note, .sounds .note, .sounds .tick, .sounds .note])).isSome = true := by
    decide +kernel
  obtain ⟨s, hs⟩ := Option.isSome_iff_exists.mp heval
  obtain ⟨s₁, hs₁, hs⟩ := Option.bind_eq_some_iff.mp hs
  obtain ⟨hist, hr, hevents⟩ := exists_run_of_runEvents hs
  have hplay : ∀ p ∈ hist, p.2.isPlay = false := by
    have hall : ∀ e ∈ hist.map Prod.snd, e.isPlay = false := by
      rw [hevents]
      decide
    exact fun p hp => hall p.2 (List.mem_map_of_mem hp)
  have hsteps : hist.countP (fun p => p.2.isNote) = 4 := by
    have hcount : (hist.map Prod.snd).countP PiezzoEvent.isNote = 4 := by
      rw [hevents]
      decide
    rwa [List.countP_map] at hcount
  obtain ⟨hsafe, hends⟩ := note_parser_safe 9 10 16 notATune 120 (soundsInit 0 0)
  refine ⟨s₁, hist, s, hs₁, hr, hevents, hsafe _ (.further hs₁ .nil (by simp)),
    (hends s₁ hist s hs₁ hr hplay).2 ?_⟩
  rw [List.countP_cons, hsteps]
  decide

end Asx

end CncPneumatics
