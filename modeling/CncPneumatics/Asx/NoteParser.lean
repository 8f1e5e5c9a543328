import CncPneumatics.Asx.Notes
import CncPneumatics.Common.Loop
/-!
# The loop of the note parser

`_parse_next_note` as it stands: a loop over the characters of a string in
memory, with a state, two indices into the table of periods, and a pointer
that goes forward in every turn, after a step back in some. The loop stays
within the string and its terminator and comes to its end, and what it has
read then is what the functions of its states say (`parseNextNote`).
-/

namespace CncPneumatics

namespace Asx

/-! ## Strings in memory -/

/-- The terminator of a string. -/
def nul : Char := Char.ofNat 0

/-- A string as it lies in memory: its characters, then the terminator. -/
structure CString where
  chars : List Char
  noNul : ∀ c ∈ chars, c ≠ nul

namespace CString

/-- The character at an offset; `none` outside the string and its
terminator. -/
def read (text : CString) (i : ℤ) : Option Char :=
  if i < 0 then none else (text.chars ++ [nul])[i.toNat]?

/-- What is left of the string from an offset on. -/
def left (text : CString) (i : ℤ) : List Char := text.chars.drop i.toNat

variable {text : CString} {i : ℤ} {c : Char} {cs : List Char}

theorem lt_of_left_ne_nil (h : text.left i ≠ []) : i < text.chars.length := by
  by_contra hge
  exact h (List.drop_of_length_le (by omega))

/-- Where nothing is left the terminator is read. -/
theorem read_of_left_nil (hpos : 0 ≤ i) (hle : i ≤ text.chars.length) (h : text.left i = []) :
    text.read i = some nul ∧ i = text.chars.length := by
  have hlen : i.toNat = text.chars.length := by
    have := List.drop_eq_nil_iff.mp h
    omega
  refine ⟨?_, by omega⟩
  rw [read, if_neg (by omega), hlen, List.getElem?_append_right le_rfl, Nat.sub_self]
  rfl

/-- **Where something is left** its first character is read, and it is not
the terminator. -/
theorem read_of_left_cons (hpos : 0 ≤ i) (h : text.left i = c :: cs) :
    text.read i = some c ∧ c ≠ nul ∧ i < text.chars.length ∧ text.left (i + 1) = cs := by
  have hlen : i < text.chars.length := lt_of_left_ne_nil (by rw [h]; exact List.cons_ne_nil _ _)
  have hlt : i.toNat < text.chars.length := by omega
  have hcons := List.drop_eq_getElem_cons hlt
  rw [← left, h, List.cons.injEq] at hcons
  refine ⟨?_, ?_, hlen, ?_⟩
  · rw [read, if_neg (by omega), List.getElem?_append_left hlt, List.getElem?_eq_getElem hlt,
      hcons.1]
  · rw [hcons.1]
    exact text.noNul _ (List.getElem_mem hlt)
  · rw [left, show (i + 1).toNat = i.toNat + 1 by omega, hcons.2]

end CString

/-! ## The loop -/

/-- `note_parsing_state_t`. -/
inductive NoteParsingState where
  | note
  | alteration
  | octaveShift
  | duration
  | space
  | done
deriving DecidableEq

/-- The variables of the loop. -/
structure NoteParser where
  state : NoteParsingState
  noteIndex : ℕ
  altIndex : ℕ
  /-- The record, but for `next_note`. -/
  piezzo : Piezzo
  /-- `piezzo.next_note`, as an offset into the string. -/
  nextNote : ℤ

namespace NoteParser

/-- `--piezzo.next_note` -/
def back (s : NoteParser) : NoteParser := { s with nextNote := s.nextNote - 1 }

/-- `++piezzo.next_note` -/
def advance (s : NoteParser) : NoteParser := { s with nextNote := s.nextNote + 1 }

end NoteParser

/-- The switch in `_parse_next_note`, for a character. -/
def parseChar (c : Char) (s : NoteParser) : NoteParser :=
  match s.state with
  | .note =>
    if 'A' ≤ c ∧ c ≤ 'G' then
      { s with noteIndex := (c.toNat - 'A'.toNat + 5) % 7, state := .alteration }
    else if c = 'R' then
      { s with piezzo := { s.piezzo with refDuration := 0 }, state := .duration }
    else s
  | .alteration =>
    let s := if c = 'b' then { s with altIndex := 0 }
      else if c = 'd' then { s with altIndex := 2 }
      -- any other character is left to the next state
      else { s with altIndex := 1 }.back
    { s with state := .octaveShift }
  | .octaveShift =>
    if c = ',' then
      if s.piezzo.octaveShift ≠ 0 then
        { s with piezzo := { s.piezzo with octaveShift := s.piezzo.octaveShift - 1 } }
      else s
    else if c = Char.ofNat 39 then
      { s with piezzo := { s.piezzo with octaveShift := (s.piezzo.octaveShift + 1) % 2 ^ 8 % 5 } }
    else
      { s.back with
        piezzo := { s.piezzo with
          refDuration := (noteToPwm.getD s.altIndex []).getD s.noteIndex 0 }
        state := .duration }
  | .duration =>
    let s := if c.isDigit then
        { s with piezzo := { s.piezzo with
          duration := s.piezzo.tempoFullPeriod >>> (c.toNat - '0'.toNat) } }
      else s.back
    { s with state := .space }
  | .space => { s with piezzo := { s.piezzo with slurNext := c = '~' }, state := .done }
  | .done => s

/-- A turn of the loop; `none` where it reads outside the string. -/
def parserTurn (text : CString) (s : NoteParser) : Option (Turn NoteParser) :=
  if s.state = .done then some .leave
  else (text.read s.nextNote).map fun c =>
    if c = nul then .leave else .next (parseChar c s).advance

/-- The variables when `_parse_next_note` is called with `next_note` at an
offset. -/
def parserStart (p : Piezzo) (start : ℤ) : NoteParser where
  state := .note
  noteIndex := 0
  altIndex := 0
  piezzo := p
  nextNote := start

/-! ## What a turn does -/

namespace NoteParsingState

/-- Where a state stands: the loop never goes back to an earlier one. -/
def rank : NoteParsingState → ℕ
  | .note => 0
  | .alteration => 1
  | .octaveShift => 2
  | .duration => 3
  | .space => 4
  | .done => 5

theorem rank_le (s : NoteParsingState) : s.rank ≤ 5 := by
  cases s <;> decide

end NoteParsingState

namespace NoteParser

/-- What the states from this one on read of a text. -/
def reads (s : NoteParser) (cs : List Char) : Piezzo :=
  match s.state with
  | .note => parseNote s.piezzo cs
  | .alteration => parseAlteration s.noteIndex s.piezzo cs
  | .octaveShift => parseOctaveShift s.altIndex s.noteIndex s.piezzo cs
  | .duration => parseDuration s.piezzo cs
  | .space => parseSpace s.piezzo cs
  | .done => { s.piezzo with nextNote := cs }

/-- The indices into the table of periods, and the octave. -/
structure InRange (s : NoteParser) : Prop where
  noteIndex : s.noteIndex < 7
  altIndex : s.altIndex < 3
  octaveShift : s.piezzo.octaveShift < 5

/-- **What a turn does** at a character, with others after it: it goes on to
the next character, or leaves the character to a later state; and what is
read in the end stays the same. -/
inductive Moves (s : NoteParser) (c : Char) (cs : List Char) (s' : NoteParser) : Prop
  | goes : s'.nextNote = s.nextNote + 1 → s.state.rank ≤ s'.state.rank →
      s'.reads cs = s.reads (c :: cs) → Moves s c cs s'
  | stays : s'.nextNote = s.nextNote → s.state ≠ .note → s.state.rank < s'.state.rank →
      s'.reads (c :: cs) = s.reads (c :: cs) → Moves s c cs s'

variable {s s' : NoteParser} {c : Char} {cs : List Char} {noteIndex altIndex : ℕ} {p : Piezzo}
  {next : ℤ}

/-- A turn in `state_note` goes on, whatever it reads. -/
theorem moves_note (h : InRange ⟨.note, noteIndex, altIndex, p, next⟩) :
    let s : NoteParser := ⟨.note, noteIndex, altIndex, p, next⟩
    s.Moves c cs (parseChar c s).advance ∧ (parseChar c s).advance.InRange := by
  obtain ⟨hnote, halt, hoctave⟩ := h
  simp only [parseChar]
  by_cases hletter : 'A' ≤ c ∧ c ≤ 'G'
  · rw [if_pos hletter]
    refine ⟨.goes rfl (Nat.zero_le _) ?_, Nat.mod_lt _ (by decide), halt, hoctave⟩
    simp only [reads, advance, parseNote, if_pos hletter]
  · rw [if_neg hletter]
    by_cases hrest : c = 'R'
    · rw [if_pos hrest]
      refine ⟨.goes rfl (Nat.zero_le _) ?_, hnote, halt, hoctave⟩
      simp only [reads, advance, parseNote, if_neg hletter, if_pos hrest]
    · rw [if_neg hrest]
      refine ⟨.goes rfl le_rfl ?_, hnote, halt, hoctave⟩
      simp only [reads, advance, parseNote, if_neg hletter, if_neg hrest]

/-- In `state_alteration` it goes on at a letter it knows. -/
theorem moves_alteration (h : InRange ⟨.alteration, noteIndex, altIndex, p, next⟩) :
    let s : NoteParser := ⟨.alteration, noteIndex, altIndex, p, next⟩
    s.Moves c cs (parseChar c s).advance ∧ (parseChar c s).advance.InRange := by
  obtain ⟨hnote, -, hoctave⟩ := h
  simp only [parseChar]
  by_cases hflat : c = 'b'
  · rw [if_pos hflat]
    refine ⟨.goes rfl (Nat.le_succ 1) ?_, hnote, Nat.zero_lt_succ 2, hoctave⟩
    simp only [reads, advance, parseAlteration, if_pos hflat]
  · rw [if_neg hflat]
    by_cases hsharp : c = 'd'
    · rw [if_pos hsharp]
      refine ⟨.goes rfl (Nat.le_succ 1) ?_, hnote, Nat.lt_succ_self 2, hoctave⟩
      simp only [reads, advance, parseAlteration, if_neg hflat, if_pos hsharp]
    · rw [if_neg hsharp]
      have hback : next - 1 + 1 = next := by omega
      refine ⟨.stays hback (by simp) (Nat.lt_succ_self 1) ?_, hnote, Nat.one_lt_succ_succ 1, hoctave⟩
      simp only [reads, advance, back, parseAlteration, if_neg hflat, if_neg hsharp]

/-- In `state_octave_shift` it goes on at a mark, and the octave stays
within its five values. -/
theorem moves_octaveShift (h : InRange ⟨.octaveShift, noteIndex, altIndex, p, next⟩) :
    let s : NoteParser := ⟨.octaveShift, noteIndex, altIndex, p, next⟩
    s.Moves c cs (parseChar c s).advance ∧ (parseChar c s).advance.InRange := by
  obtain ⟨hnote, halt, hoctave⟩ := h
  dsimp only at hoctave
  simp only [parseChar]
  by_cases hdown : c = ','
  · rw [if_pos hdown]
    -- in the lowest octave a mark down changes nothing
    by_cases hzero : p.octaveShift = 0
    · have hsame : { p with octaveShift := p.octaveShift - 1 } = p := by
        rw [show p.octaveShift - 1 = p.octaveShift by omega]
      rw [if_neg (by simpa using hzero)]
      refine ⟨.goes rfl le_rfl ?_, hnote, halt, hoctave⟩
      simp only [reads, advance, parseOctaveShift, if_pos hdown, hsame]
    · rw [if_pos hzero]
      refine ⟨.goes rfl le_rfl ?_, hnote, halt, ?_⟩
      · simp only [reads, advance, parseOctaveShift, if_pos hdown]
      · simp only [advance]
        omega
  · rw [if_neg hdown]
    by_cases hup : c = Char.ofNat 39
    · have hwrap : (p.octaveShift + 1) % 2 ^ 8 = p.octaveShift + 1 := Nat.mod_eq_of_lt (by omega)
      rw [if_pos hup]
      refine ⟨.goes rfl le_rfl ?_, hnote, halt, Nat.mod_lt _ (by decide)⟩
      simp only [reads, advance, parseOctaveShift, if_neg hdown, if_pos hup, hwrap]
    · have hback : next - 1 + 1 = next := by omega
      rw [if_neg hup]
      refine ⟨.stays hback (by simp) (Nat.lt_succ_self 2) ?_, hnote, halt, hoctave⟩
      simp only [reads, advance, back, parseOctaveShift, if_neg hdown, if_neg hup]

/-- In `state_duration` it goes on at a digit. -/
theorem moves_duration (h : InRange ⟨.duration, noteIndex, altIndex, p, next⟩) :
    let s : NoteParser := ⟨.duration, noteIndex, altIndex, p, next⟩
    s.Moves c cs (parseChar c s).advance ∧ (parseChar c s).advance.InRange := by
  obtain ⟨hnote, halt, hoctave⟩ := h
  simp only [parseChar]
  by_cases hdigit : c.isDigit = true
  · rw [if_pos hdigit]
    refine ⟨.goes rfl (Nat.le_succ 3) ?_, hnote, halt, hoctave⟩
    simp only [reads, advance, parseDuration, if_pos hdigit]
  · have hback : next - 1 + 1 = next := by omega
    rw [if_neg hdigit]
    refine ⟨.stays hback (by simp) (Nat.lt_succ_self 3) ?_, hnote, halt, hoctave⟩
    simp only [reads, advance, back, parseDuration, if_neg hdigit]

/-- **The step lemma**, one case for each state. -/
theorem moves_parseChar (h : s.InRange) (hstate : s.state ≠ .done) :
    s.Moves c cs (parseChar c s).advance ∧ (parseChar c s).advance.InRange := by
  obtain ⟨state, noteIndex, altIndex, p, next⟩ := s
  cases state with
  | note => exact moves_note h
  | alteration => exact moves_alteration h
  | octaveShift => exact moves_octaveShift h
  | duration => exact moves_duration h
  | space => exact ⟨.goes rfl (Nat.le_succ 4) rfl, h.noteIndex, h.altIndex, h.octaveShift⟩
  | done => exact absurd rfl hstate

end NoteParser

/-! ## The whole loop -/

variable {text : CString} {start : ℕ} {p : Piezzo} {s : NoteParser}

/-- **The loop is within bounds**: its pointer is in the string or at the
terminator, and beyond where it started once a note was found; and its
indices are in range. -/
structure NoteParser.InBounds (text : CString) (start : ℕ) (s : NoteParser) : Prop where
  started : s.nextNote = start ∧ s.state = .note ∨ start < s.nextNote
  le : s.nextNote ≤ text.chars.length
  inRange : s.InRange

theorem NoteParser.InBounds.nonneg (h : s.InBounds text start) : 0 ≤ s.nextNote := by
  rcases h.started with ⟨heq, -⟩ | hlt
  · omega
  · omega

/-- How much is left to do: the characters left, and the states. -/
def NoteParser.toDo (text : CString) (s : NoteParser) : ℕ :=
  (text.left s.nextNote).length + (5 - s.state.rank)

/-- **The loop makes progress** in every turn, and goes on to read the same. -/
theorem parserTurn_progresses (text : CString) (start : ℕ) (r : Piezzo) :
    Progresses (parserTurn text)
      (fun s => s.InBounds text start ∧ s.reads (text.left s.nextNote) = r)
      (NoteParser.toDo text) := by
  rintro s ⟨hbounds, hreads⟩
  have hpos := hbounds.nonneg
  obtain ⟨hstarted, hle, hrange⟩ := hbounds
  unfold parserTurn
  by_cases hdone : s.state = .done
  · exact .inl (if_pos hdone)
  · rw [if_neg hdone]
    cases hleft : text.left s.nextNote with
    | nil =>
      -- the text is over, wherever it is
      rw [(CString.read_of_left_nil hpos hle hleft).1]
      exact .inl rfl
    | cons c cs =>
      obtain ⟨hread, hnul, hlt, hnext⟩ := CString.read_of_left_cons hpos hleft
      obtain ⟨hmoves, hrange'⟩ : s.Moves c cs (parseChar c s).advance ∧ _ :=
        NoteParser.moves_parseChar hrange hdone
      rw [hleft] at hreads
      refine .inr ⟨(parseChar c s).advance, ?_, ?_⟩
      · rw [hread, Option.map_some, if_neg hnul]
      · generalize (parseChar c s).advance = s' at *
        have hrank := s.state.rank_le
        have hrank' := s'.state.rank_le
        unfold NoteParser.toDo
        rw [hleft, List.length_cons]
        cases hmoves with
        | goes hnext' hle' hsame =>
          have hleft' : text.left s'.nextNote = cs := by rw [hnext', hnext]
          rw [hleft']
          refine ⟨⟨⟨.inr (by omega), by omega, hrange'⟩, ?_⟩, by omega⟩
          rw [hleft', hsame, hreads]
        | stays hnext' hnote hlt' hsame =>
          have hstart : (start : ℤ) < s.nextNote := hstarted.resolve_left fun h => hnote h.2
          have hleft' : text.left s'.nextNote = c :: cs := by rw [hnext', hleft]
          rw [hleft', List.length_cons]
          refine ⟨⟨⟨.inr (by omega), by omega, hrange'⟩, ?_⟩, by omega⟩
          rw [hleft', hsame, hreads]

/-- The loop is left when it is done or the text is over. -/
theorem NoteParser.done_or_over (h : s.InBounds text start)
    (hleave : parserTurn text s = some .leave) :
    s.state = .done ∨ text.left s.nextNote = [] := by
  by_cases hdone : s.state = .done
  · exact .inl hdone
  · refine .inr ?_
    by_contra hne
    obtain ⟨c, cs, hleft⟩ := List.exists_cons_of_ne_nil hne
    obtain ⟨hread, hnul, -, -⟩ := CString.read_of_left_cons h.nonneg hleft
    rw [parserTurn, if_neg hdone, hread, Option.map_some, if_neg hnul] at hleave
    cases hleave

/-- Then all there is to read is read. -/
theorem NoteParser.reads_of_leave (h : s.InBounds text start)
    (hleave : parserTurn text s = some .leave) :
    s.reads (text.left s.nextNote) = { s.piezzo with nextNote := text.left s.nextNote } := by
  unfold NoteParser.reads
  rcases done_or_over h hleave with hdone | hover
  · rw [hdone]
  · rw [hover]
    cases s.state <;> rfl

/-- **A call of `_parse_next_note` on the text is safe**, with the pointer
in the record at an offset that is not the terminator's: the loop stays
within bounds, and it is left, with the pointer beyond where it was and
not past the terminator, after it has read what `parseNextNote` says. -/
structure ParsesSafely (text : CString) (p : Piezzo) (start stop : ℕ) : Prop where
  pointer : p.nextNote = text.left start
  inBounds : ∀ s, Visits (parserTurn text) (parserStart p start) s → s.InBounds text start
  ends : ∃ s, Visits (parserTurn text) (parserStart p start) s ∧
    (∀ fuel, text.chars.length + 5 < fuel →
      loop (parserTurn text) fuel (parserStart p start) = some s) ∧
    s.nextNote = stop ∧ { s.piezzo with nextNote := text.left stop } = parseNextNote p
  progress : start < stop
  stop_le : stop ≤ text.chars.length

/-- **Every call is safe.** -/
theorem exists_parsesSafely (hnext : p.nextNote = text.left start)
    (hne : text.left start ≠ []) (hoctave : p.octaveShift < 5) :
    ∃ stop, ParsesSafely text p start stop := by
  have hlt := CString.lt_of_left_ne_nil hne
  have hstart : (parserStart p start).InBounds text start ∧
      (parserStart p start).reads (text.left (parserStart p start).nextNote) = parseNextNote p :=
    ⟨⟨.inl ⟨rfl, rfl⟩, by simp only [parserStart]; omega, Nat.zero_lt_succ 6, Nat.zero_lt_succ 2,
      hoctave⟩, by rw [parseNextNote, hnext]; rfl⟩
  have hprogress := parserTurn_progresses text start (parseNextNote p)
  obtain ⟨s, hvisits, ⟨hbounds, hreads⟩, hleave, hloop⟩ := hprogress.loop_eq hstart
  have hstop : (start : ℤ) < s.nextNote := by
    rcases hbounds.started with ⟨heq, hnote⟩ | hlt
    · -- it is not left at once: the first character is not the terminator
      rcases NoteParser.done_or_over hbounds hleave with hdone | hover
      · rw [hnote] at hdone
        cases hdone
      · rw [heq] at hover
        exact absurd hover hne
    · exact hlt
  obtain ⟨stop, hstop'⟩ := Int.eq_ofNat_of_zero_le (by omega : 0 ≤ s.nextNote)
  have hle := hbounds.le
  refine ⟨stop, hnext, fun s hs => (hprogress.visits hstart hs).1, ⟨s, hvisits,
    fun fuel hfuel => ?_, hstop', ?_⟩, by omega, by omega⟩
  · refine hloop fuel (lt_of_le_of_lt ?_ hfuel)
    -- what there is to do at first: no more than the text, and the five states
    have hlen : (text.left start).length ≤ text.chars.length := by
      rw [CString.left, List.length_drop]
      omega
    exact Nat.add_le_add hlen (Nat.sub_le _ _)
  · rw [← hstop', ← hreads, NoteParser.reads_of_leave hbounds hleave]

/-- A string that is not a tune: its text is `xC~b'`. -/
def notATune : CString where
  chars := ['x', 'C', '~', 'b', Char.ofNat 39]
  noNul := by
    simp only [List.forall_mem_cons, List.not_mem_nil, false_implies, implies_true, and_true]
    decide

example : ((loop (parserTurn notATune) 11 (parserStart piezzoInit 0)).map fun s =>
    (s.nextNote, s.piezzo.refDuration, s.piezzo.slurNext)) = some (3, 19111, true) := by decide

/-- What is left after a call, and the octave. -/
theorem ParsesSafely.after {stop : ℕ} (h : ParsesSafely text p start stop) :
    (parseNextNote p).nextNote = text.left stop ∧ (parseNextNote p).octaveShift < 5 := by
  obtain ⟨s, hvisits, -, -, hparsed⟩ := h.ends
  rw [← hparsed]
  exact ⟨rfl, (h.inBounds s hvisits).inRange.octaveShift⟩

end Asx

end CncPneumatics
