import CncPneumatics.Asx.Piezzo
/-!
# The notes of a tune

What a music string says, and how `_parse_next_note` reads it. A letter is
only looked up at the character after it, so the last letter of a string,
when no digit follows it, is not looked up at all: what is played is the
note before it, in the new octave.
-/

namespace CncPneumatics

namespace Asx

/-! ## What is written -/

/-- The letters after the name of a note that the parser knows. -/
inductive Alteration where
  | flat
  | plain
  | sharp
deriving DecidableEq

namespace Alteration

def text : Alteration → List Char
  | .flat => ['b']
  | .plain => []
  | .sharp => ['d']

/-- The row of `_note_to_pwm`. -/
def row : Alteration → ℕ
  | .flat => 0
  | .plain => 1
  | .sharp => 2

end Alteration

/-- The marks that change the octave, for this note and those after it. -/
inductive OctaveMark where
  | down
  | up
deriving DecidableEq

namespace OctaveMark

def char : OctaveMark → Char
  | .down => ','
  | .up => Char.ofNat 39

def shift (octave : ℕ) : OctaveMark → ℕ
  | .down => octave - 1
  | .up => (octave + 1) % 5

end OctaveMark

/-- A rest, or a letter from A to G. -/
inductive Pitch where
  | rest
  | letter (name : Fin 7) (alteration : Alteration) (marks : List OctaveMark)
deriving DecidableEq

def letterChar (name : Fin 7) : Char := Char.ofNat ('A'.toNat + name)

namespace Pitch

def text : Pitch → List Char
  | .rest => ['R']
  | .letter name alteration marks =>
    letterChar name :: (alteration.text ++ marks.map OctaveMark.char)

/-- The octave after the note. -/
def octave (o : ℕ) : Pitch → ℕ
  | .rest => o
  | .letter _ _ marks => marks.foldl OctaveMark.shift o

/-- The period in the lowest octave. The columns of the table are from C
to B. -/
def entry : Pitch → ℕ
  | .rest => 0
  | .letter name alteration _ => (noteToPwm.getD alteration.row []).getD ((name + 5) % 7) 0

end Pitch

/-- A note, with the digit for its duration. -/
structure Note where
  pitch : Pitch
  digit : Option (Fin 10)
deriving DecidableEq

def durationChar (d : Fin 10) : Char := Char.ofNat ('0'.toNat + d)

namespace Note

def digitText (n : Note) : List Char := (n.digit.map durationChar).toList

def text (n : Note) : List Char := n.pitch.text ++ n.digitText

/-- How long the note is, after one of this duration. -/
def duration (full before : ℕ) (n : Note) : ℕ := (n.digit.map fun d => full >>> d.val).getD before

/-- The period of the note, in the octave in force before it. -/
def period (octave : ℕ) (n : Note) : ℕ := n.pitch.entry >>> n.pitch.octave octave

end Note

def separator (slur : Bool) : Char := if slur then '~' else ' '

/-- The text of notes after the first, each after its separator. -/
def furtherText (notes : List (Bool × Note)) : List Char :=
  notes.flatMap fun n => separator n.1 :: n.2.text

/-- A music string: a note, and further notes. -/
def musicText (first : Note) (others : List (Bool × Note)) : List Char :=
  first.text ++ furtherText others

/-- What is written of a note. -/
structure WrittenNote where
  period : ℕ
  duration : ℕ
  slur : Bool
deriving DecidableEq

/-- **What is written**, from an octave and a duration on, for notes each
with the slur of the separator before it. -/
def writtenNotes (full : ℕ) : ℕ → ℕ → List (Bool × Note) → List WrittenNote
  | _, _, [] => []
  | octave, before, (slur, n) :: notes =>
    ⟨n.period octave, n.duration full before, slur⟩ ::
      writtenNotes full (n.pitch.octave octave) (n.duration full before) notes

/-! ## How it is read -/

/-- The letter of the note is never looked up: the text ends with it. -/
def Note.cutShort (n : Note) (rest : List Char) : Bool :=
  match n.pitch with
  | .rest => false
  | .letter _ _ _ => n.digit.isNone && rest.isEmpty

/-- The record when the note is read, but not the separator after it. -/
def readNote (n : Note) (rest : List Char) (p : Piezzo) : Piezzo :=
  { p with
    octaveShift := n.pitch.octave p.octaveShift
    refDuration := if n.cutShort rest then p.refDuration else n.pitch.entry
    duration := n.duration p.tempoFullPeriod p.duration }

/-- Nothing, or text that starts with a separator. -/
def Separated (cs : List Char) : Prop := ∀ c ∈ cs.head?, c = ' ' ∨ c = '~'

variable {p p' : Piezzo} {reactPiezzo tempo full octave before ref : ℕ} {slur : Bool}
  {s s' : SoundState} {cs rest : List Char} {n : Note} {notes : List (Bool × Note)}

theorem letterChar_spec (name : Fin 7) : ('A' ≤ letterChar name ∧ letterChar name ≤ 'G') ∧
    (letterChar name).toNat - 'A'.toNat = name.val := by
  revert name
  decide

theorem durationChar_spec (d : Fin 10) : (durationChar d).isDigit = true ∧
    (durationChar d).toNat - '0'.toNat = d.val ∧ durationChar d ≠ 'b' ∧ durationChar d ≠ 'd' ∧
      durationChar d ≠ ',' ∧ durationChar d ≠ Char.ofNat 39 := by
  revert d
  decide

theorem OctaveMark.char_ne (m : OctaveMark) : m.char ≠ 'b' ∧ m.char ≠ 'd' := by
  cases m <;> decide

theorem furtherText_separated (notes : List (Bool × Note)) : Separated (furtherText notes) := by
  intro c hc
  cases notes with
  | nil => cases hc
  | cons m notes =>
    obtain rfl : separator m.1 = c := Option.some.inj hc
    unfold separator
    cases m.1 <;> simp

/-- What comes after the letters and the marks of a note is none of these. -/
theorem afterMarks_head (hrest : Separated rest) {c : Char}
    (hc : c ∈ (n.digitText ++ rest).head?) :
    c ≠ 'b' ∧ c ≠ 'd' ∧ c ≠ ',' ∧ c ≠ Char.ofNat 39 := by
  unfold Note.digitText at hc
  cases hdigit : n.digit with
  | none =>
    rw [hdigit] at hc
    rcases hrest c hc with rfl | rfl <;> decide
  | some d =>
    rw [hdigit] at hc
    obtain rfl : durationChar d = c := Option.some.inj hc
    exact (durationChar_spec d).2.2

/-- `state_duration` reads the digit, if there is one. -/
theorem parseDuration_eq (hrest : Separated rest) : parseDuration p (n.digitText ++ rest) =
    parseSpace { p with duration := n.duration p.tempoFullPeriod p.duration } rest := by
  unfold Note.digitText Note.duration
  cases n.digit with
  | none =>
    cases rest with
    | nil => rfl
    | cons c rest =>
      have hdigit : c.isDigit = false := by
        rcases hrest c rfl with rfl | rfl <;> decide
      exact if_neg (by simp [hdigit])
  | some d =>
    obtain ⟨hdigit, hvalue, -⟩ := durationChar_spec d
    show parseDuration p (durationChar d :: rest) = _
    rw [parseDuration, if_pos hdigit, hvalue]
    rfl

/-- `state_octave_shift` reads the marks, and looks the letter up at the
character after them. -/
theorem parseOctaveShift_eq (row index : ℕ) (marks : List OctaveMark)
    (hcs : ∀ c ∈ cs.head?, c ≠ ',' ∧ c ≠ Char.ofNat 39) :
    parseOctaveShift row index p (marks.map OctaveMark.char ++ cs) =
      let p' := { p with octaveShift := marks.foldl OctaveMark.shift p.octaveShift }
      if cs = [] then { p' with nextNote := [] }
      else parseDuration { p' with refDuration := (noteToPwm.getD row []).getD index 0 } cs := by
  induction marks generalizing p with
  | nil =>
    cases cs with
    | nil => rfl
    | cons c cs =>
      obtain ⟨hdown, hup⟩ := hcs c rfl
      rw [List.map_nil, List.nil_append, parseOctaveShift, if_neg hdown, if_neg hup]
      rfl
  | cons m marks ih =>
    rw [List.map_cons, List.cons_append, List.foldl_cons]
    cases m with
    | down => exact ih
    | up => exact ih

/-- `state_alteration` reads the letter after the name, if there is one. -/
theorem parseAlteration_eq (index : ℕ) (a : Alteration)
    (hcs : ∀ c ∈ cs.head?, c ≠ 'b' ∧ c ≠ 'd') :
    parseAlteration index p (a.text ++ cs) = parseOctaveShift a.row index p cs := by
  cases a with
  | flat => rfl
  | plain =>
    cases cs with
    | nil => rfl
    | cons c cs =>
      obtain ⟨hflat, hsharp⟩ := hcs c rfl
      rw [Alteration.text, List.nil_append, parseAlteration, if_neg hflat, if_neg hsharp]
      rfl
  | sharp => rfl

/-- **`_parse_next_note` reads a note**, and then the separator. -/
theorem parseNote_eq (hrest : Separated rest) :
    parseNote p (n.text ++ rest) = parseSpace (readNote n rest p) rest := by
  have hhead := fun c => afterMarks_head (n := n) (c := c) hrest
  unfold Note.text readNote
  rw [List.append_assoc]
  cases hpitch : n.pitch with
  | rest =>
    have hread := parseDuration_eq (p := { p with refDuration := 0 }) (n := n) hrest
    rw [Note.cutShort, hpitch]
    exact hread
  | letter name a marks =>
    obtain ⟨hletter, hname⟩ := letterChar_spec name
    -- after the letter and its alteration comes a mark, a digit or what separates notes
    have hmarks : ∀ c ∈ (marks.map OctaveMark.char ++ (n.digitText ++ rest)).head?,
        c ≠ 'b' ∧ c ≠ 'd' := by
      intro c hc
      cases marks with
      | nil => exact ⟨(hhead c hc).1, (hhead c hc).2.1⟩
      | cons m marks =>
        obtain rfl : m.char = c := Option.some.inj hc
        exact m.char_ne
    rw [Pitch.text, List.cons_append, List.append_assoc, parseNote, if_pos hletter, hname,
      parseAlteration_eq _ a hmarks,
      parseOctaveShift_eq _ _ marks fun c hc => (hhead c hc).2.2]
    dsimp only
    by_cases hend : n.digitText ++ rest = []
    · obtain ⟨hdigit, rfl⟩ := List.append_eq_nil_iff.mp hend
      have hnone : n.digit = none := by
        cases hd : n.digit with
        | none => rfl
        | some d => simp [Note.digitText, hd] at hdigit
      rw [if_pos hend, Note.cutShort, hpitch, Note.duration, hnone]
      rfl
    · have hcut : n.cutShort rest = false := by
        rw [Note.cutShort, hpitch]
        cases hd : n.digit with
        | none =>
          rw [Note.digitText, hd] at hend
          cases rest with
          | nil => exact absurd rfl hend
          | cons c rest => rfl
        | some d => rfl
      rw [if_neg hend, parseDuration_eq hrest, hcut]
      rfl

/-- `state_space` at the text of further notes. -/
theorem parseSpace_nil : parseSpace p (furtherText []) = { p with nextNote := [] } := rfl

theorem parseSpace_cons : parseSpace p (furtherText ((slur, n) :: notes)) =
    { p with slurNext := slur, nextNote := n.text ++ furtherText notes } := by
  cases slur <;> rfl

theorem Note.text_ne_nil (n : Note) : n.text ≠ [] := by
  unfold Note.text
  cases n.pitch <;> simp [Pitch.text]

/-! ## Playing a note -/

/-- The record when a note is played, but for the number of its timer. -/
def playedNote (p : Piezzo) : Piezzo :=
  let p := parseNextNote { p with slur := p.slurNext }
  let newTcValue := getCmpValue p
  { soundNote { p with playingToneRecoveryValue := newTcValue } newTcValue with
    lastTcValue := newTcValue }

/-- The record when there was no note to play. -/
def playedOut (p : Piezzo) : Piezzo :=
  let p := { p with playingToneRecoveryValue := 0 }
  if p.playingTone = false then stopTimerCompare p else p

theorem playedOut_eq (p : Piezzo) : playedOut p = { p with
    playingToneRecoveryValue := 0
    compareEnabled := p.playingTone && p.compareEnabled } := by
  unfold playedOut stopTimerCompare
  cases p.playingTone <;> rfl

/-- **A note step** plays a note, and arms a timer for its end. -/
theorem playNextNote_note (hnext : s.piezzo.nextNote ≠ [])
    (hok : playNextNote reactPiezzo s = .ok s') :
    s'.piezzo = { playedNote s.piezzo with timerInstance := s'.piezzo.timerInstance } ∧
      timerArm s.timer reactPiezzo
        (timerGetCountFromNow s.timer (playedNote s.piezzo).duration) 0 0 =
        some (s'.piezzo.timerInstance, s'.timer) := by
  unfold playNextNote at hok
  rw [if_pos hnext] at hok
  dsimp only at hok
  split at hok
  · next inst timer harm =>
    obtain rfl := Except.ok.inj hok
    exact ⟨rfl, harm⟩
  · cases hok

/-- At the end of the tune nothing is armed. -/
theorem playNextNote_end (hnext : s.piezzo.nextNote = [])
    (hok : playNextNote reactPiezzo s = .ok s') : s' = ⟨s.timer, playedOut s.piezzo⟩ := by
  unfold playNextNote at hok
  rw [if_neg (by simpa using hnext)] at hok
  exact (Except.ok.inj hok).symm

/-- Of the record only the output changes. -/
theorem soundNote_eq (p : Piezzo) (newTcValue : ℕ) : ∃ period enabled,
    soundNote p newTcValue = { p with comparePeriod := period, compareEnabled := enabled } := by
  unfold soundNote
  split
  · split
    · exact ⟨_, _, rfl⟩
    · exact ⟨_, _, rfl⟩
  · exact ⟨p.comparePeriod, p.compareEnabled, rfl⟩

/-- What is read of a note is kept when it is played. -/
theorem playedNote_eq (p : Piezzo) : ∃ period enabled,
    let read := parseNextNote { p with slur := p.slurNext }
    playedNote p = { read with
      playingToneRecoveryValue := getCmpValue read
      comparePeriod := period
      compareEnabled := enabled
      lastTcValue := getCmpValue read } := by
  obtain ⟨period, enabled, heq⟩ := soundNote_eq
    { parseNextNote { p with slur := p.slurNext } with
      playingToneRecoveryValue := getCmpValue (parseNextNote { p with slur := p.slurNext }) }
    (getCmpValue (parseNextNote { p with slur := p.slurNext }))
  refine ⟨period, enabled, ?_⟩
  unfold playedNote
  dsimp only
  rw [heq]

/-! ## Playing what is written -/

/-- **What is ahead**: the text of these notes is left, and the record
holds the octave, the duration and the letter of the note before. -/
def Ahead (full octave before ref : ℕ) : List (Bool × Note) → Piezzo → Prop
  | [], p => p.nextNote = []
  | (slur, n) :: notes, p =>
    p.nextNote = n.text ++ furtherText notes ∧ p.slurNext = slur ∧ p.octaveShift = octave ∧
      p.duration = before ∧ p.tempoFullPeriod = full ∧ p.refDuration = ref

/-- The last note is a rest or has a digit, or its letter has the period of
the one looked up before it, `ref` before the first. -/
def LastLookedUp : ℕ → ℕ → List (Bool × Note) → Prop
  | _, _, [] => True
  | octave, ref, [(_, n)] =>
    n.cutShort [] = false ∨ ref >>> n.pitch.octave octave = n.period octave
  | octave, _, (_, n) :: m :: notes =>
    LastLookedUp (n.pitch.octave octave) n.pitch.entry (m :: notes)

/-- **The step lemma**: the note ahead is played, and then the rest is
ahead. -/
theorem Ahead.playedNote (h : Ahead full octave before ref ((slur, n) :: notes) p) :
    (playedNote p).duration = n.duration full before ∧ (playedNote p).slur = slur ∧
      (playedNote p).lastTcValue =
        (if n.cutShort (furtherText notes) then ref else n.pitch.entry) >>>
          n.pitch.octave octave ∧
      Ahead full (n.pitch.octave octave) (n.duration full before) n.pitch.entry notes
        (playedNote p) := by
  obtain ⟨hnext, rfl, rfl, rfl, rfl, rfl⟩ := h
  obtain ⟨period, enabled, heq⟩ := playedNote_eq p
  have hread : parseNextNote { p with slur := p.slurNext } =
      parseSpace (readNote n (furtherText notes) { p with slur := p.slurNext })
        (furtherText notes) := by
    rw [parseNextNote, hnext]
    exact parseNote_eq (furtherText_separated notes)
  rw [heq, hread]
  cases notes with
  | nil =>
    rw [parseSpace_nil]
    exact ⟨rfl, rfl, rfl, rfl⟩
  | cons m notes =>
    obtain ⟨slur', n'⟩ := m
    have hcut : n.cutShort (furtherText ((slur', n') :: notes)) = false := by
      unfold Note.cutShort
      cases n.pitch with
      | rest => rfl
      | letter => exact Bool.and_false _
    rw [parseSpace_cons]
    unfold readNote
    rw [hcut]
    exact ⟨rfl, rfl, rfl, rfl, rfl, rfl, rfl, rfl, rfl⟩

/-- The record with which `piezzo_play` starts a tune. -/
def tuneStart (tempo : ℕ) (music : List Char) (p : Piezzo) : Piezzo :=
  let tempoFullPeriod := tempoFullNotePeriod / tempo % 2 ^ 16
  { p with
    nextNote := music
    octaveShift := 2
    tempoFullPeriod := tempoFullPeriod
    duration := tempoFullPeriod >>> 2
    slurNext := false }

theorem piezzoPlay_eq (reactor tempo : ℕ) (music : List Char) (o : SoundState) :
    piezzoPlay reactor tempo music o = playNextNote reactor
      ⟨if o.piezzo.timerInstance ≠ 0 then (timerCancel o.timer o.piezzo.timerInstance).2 else o.timer,
        tuneStart tempo music o.piezzo⟩ := rfl

/-- At the start of a tune all of it is ahead. -/
theorem tuneStart_ahead (tempo : ℕ) (first : Note) (others : List (Bool × Note)) (p : Piezzo) :
    Ahead (tempoFullNotePeriod / tempo % 2 ^ 16) 2 ((tempoFullNotePeriod / tempo % 2 ^ 16) >>> 2)
      p.refDuration ((false, first) :: others) (tuneStart tempo (musicText first others) p) :=
  ⟨rfl, rfl, rfl, rfl, rfl, rfl⟩

end Asx

end CncPneumatics
