import CncPneumatics.Asx.Timer
/-!
# The piezzo

`piezzo.c`: a tune is a text of notes, played one at a time with a timer
for the end of each; a tone sounds over it. Of the peripheral the model
keeps the compare period and whether the output is enabled.
-/

namespace CncPneumatics

namespace Asx

/-- The static variables of the service. -/
structure Piezzo where
  octaveShift : ℕ
  /-- `tempo_full_period`, 16 bits wide. -/
  tempoFullPeriod : ℕ
  slur : Bool
  slurNext : Bool
  refDuration : ℕ
  duration : ℕ
  /-- `next_note`, as what is left of the text. -/
  nextNote : List Char
  timerInstance : ℕ
  playingTone : Bool
  playingToneRecoveryValue : ℕ
  lastTcValue : ℕ
  /-- `CMP0`. -/
  comparePeriod : ℕ
  /-- `CMP2EN`. -/
  compareEnabled : Bool
deriving DecidableEq

/-- `piezzo_init`, on static variables that are zero at first. -/
def piezzoInit : Piezzo where
  octaveShift := 0
  tempoFullPeriod := 0
  slur := false
  slurNext := false
  refDuration := 0
  duration := 0
  nextNote := []
  timerInstance := 0
  playingTone := false
  playingToneRecoveryValue := 0
  lastTcValue := 0
  comparePeriod := 0
  compareEnabled := false

/-- `_note_to_pwm`: flats, regular notes and sharps from C to B. -/
def noteToPwm : List (List ℕ) :=
  [[20248, 18039, 16071, 15169, 13514, 12039, 10726],
   [19111, 17026, 15169, 14317, 12755, 11364, 10124],
   [18039, 16071, 14317, 13514, 12039, 10726, 9556]]

/-- `PIEZZO_FREQ_TO_PWM`. -/
def piezzoFreqToPwm (f : ℕ) : ℕ := 10000000 / f

/-- `TEMPO_FULL_NOTE_PERIOD`. -/
def tempoFullNotePeriod : ℕ := 240000

/-- `_get_cmp_value`. -/
def getCmpValue (p : Piezzo) : ℕ := p.refDuration >>> p.octaveShift

/-- `_set_timer_compare_period`. -/
def setTimerComparePeriod (p : Piezzo) (newTcValue : ℕ) : Piezzo :=
  { p with comparePeriod := newTcValue, compareEnabled := true }

/-- `_stop_timer_compare`. -/
def stopTimerCompare (p : Piezzo) : Piezzo := { p with compareEnabled := false }

/-! ## Notes

The states of `_parse_next_note`, the last one first: each reads one
character of the text and goes on to the next state, or leaves it to it.
The loop stops wherever the text ends. -/

/-- `state_space`. -/
def parseSpace (p : Piezzo) : List Char → Piezzo
  | [] => { p with nextNote := [] }
  | c :: cs => { p with slurNext := c = '~', nextNote := cs }

/-- `state_duration`. -/
def parseDuration (p : Piezzo) : List Char → Piezzo
  | [] => { p with nextNote := [] }
  | c :: cs =>
    if c.isDigit then
      parseSpace { p with duration := p.tempoFullPeriod >>> (c.toNat - '0'.toNat) } cs
    else parseSpace p (c :: cs)

/-- `state_octave_shift`. -/
def parseOctaveShift (altIndex noteIndex : ℕ) (p : Piezzo) : List Char → Piezzo
  | [] => { p with nextNote := [] }
  | c :: cs =>
    if c = ',' then
      parseOctaveShift altIndex noteIndex { p with octaveShift := p.octaveShift - 1 } cs
    else if c = Char.ofNat 39 then
      parseOctaveShift altIndex noteIndex { p with octaveShift := (p.octaveShift + 1) % 5 } cs
    else
      parseDuration { p with refDuration := (noteToPwm.getD altIndex []).getD noteIndex 0 } (c :: cs)

/-- `state_alteration`. -/
def parseAlteration (noteIndex : ℕ) (p : Piezzo) : List Char → Piezzo
  | [] => { p with nextNote := [] }
  | c :: cs =>
    if c = 'b' then parseOctaveShift 0 noteIndex p cs
    else if c = 'd' then parseOctaveShift 2 noteIndex p cs
    else parseOctaveShift 1 noteIndex p (c :: cs)

/-- `state_note`. -/
def parseNote (p : Piezzo) : List Char → Piezzo
  | [] => { p with nextNote := [] }
  | c :: cs =>
    if 'A' ≤ c ∧ c ≤ 'G' then parseAlteration ((c.toNat - 'A'.toNat + 5) % 7) p cs
    else if c = 'R' then parseDuration { p with refDuration := 0 } cs
    else parseNote p cs

/-- `_parse_next_note`. -/
def parseNextNote (p : Piezzo) : Piezzo := parseNote p p.nextNote

/-! ## Playing -/

/-- What the functions read and write. -/
structure SoundState where
  timer : Timer
  piezzo : Piezzo

/-- The change of the output in `_play_next_note`. -/
def soundNote (p : Piezzo) (newTcValue : ℕ) : Piezzo :=
  if (p.lastTcValue ≠ newTcValue ∨ p.slur = false) ∧ p.playingTone = false then
    if newTcValue ≠ 0 then setTimerComparePeriod p newTcValue else stopTimerCompare p
  else p

/-- `_play_next_note`. -/
def playNextNote (reactPiezzo : ℕ) (s : SoundState) : Except SoundState SoundState :=
  if s.piezzo.nextNote ≠ [] then
    let p := parseNextNote { s.piezzo with slur := s.piezzo.slurNext }
    let newTcValue := getCmpValue p
    let p := soundNote { p with playingToneRecoveryValue := newTcValue } newTcValue
    let p := { p with lastTcValue := newTcValue }
    match timerArm s.timer reactPiezzo (timerGetCountFromNow s.timer p.duration) 0 0 with
    | some (inst, timer) => .ok ⟨timer, { p with timerInstance := inst }⟩
    | none => .error ⟨s.timer, p⟩
  else
    let p := { s.piezzo with playingToneRecoveryValue := 0 }
    .ok ⟨s.timer, if p.playingTone = false then stopTimerCompare p else p⟩

/-- `_stop_tone`. -/
def stopTone (p : Piezzo) : Piezzo :=
  let p := { p with playingTone := false }
  let p := if p.playingToneRecoveryValue ≠ 0 then
      setTimerComparePeriod p p.playingToneRecoveryValue
    else stopTimerCompare p
  { p with playingToneRecoveryValue := 0 }

/-- `piezzo_play`. -/
def piezzoPlay (reactPiezzo tempo : ℕ) (music : List Char) (s : SoundState) :
    Except SoundState SoundState :=
  let tempoFullPeriod := tempoFullNotePeriod / tempo % 2 ^ 16
  let p : Piezzo := { s.piezzo with
    nextNote := music
    octaveShift := 2
    tempoFullPeriod := tempoFullPeriod
    duration := tempoFullPeriod >>> 2
    slurNext := false }
  let timer := if p.timerInstance ≠ 0 then (timerCancel s.timer p.timerInstance).2 else s.timer
  playNextNote reactPiezzo ⟨timer, p⟩

/-- `piezzo_start_tone`. -/
def piezzoStartTone (reactToneStop pwmValue duration : ℕ) (s : SoundState) :
    Except SoundState SoundState :=
  let p := setTimerComparePeriod s.piezzo pwmValue
  if duration ≠ 0 then
    match timerArm s.timer reactToneStop (timerGetCountFromNow s.timer duration) 0 0 with
    | some (_, timer) => .ok ⟨timer, { p with playingTone := true }⟩
    | none => .error ⟨s.timer, p⟩
  else .ok ⟨s.timer, { p with playingTone := true }⟩

/-- `piezzo_stop_tone`. -/
def piezzoStopTone (s : SoundState) : SoundState := { s with piezzo := stopTone s.piezzo }

end Asx

end CncPneumatics
