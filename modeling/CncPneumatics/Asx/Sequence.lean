import CncPneumatics.Asx.DigitalOutput
import CncPneumatics.Common.Outcome
import CncPneumatics.Common.Run
/-!
# Playing a sequence

A sequence is read one step at a time. What a step reads depends on the
text alone, and what it commands on the record of the output: the level of
the pin, and the delay after which the next step is due. Whether a
sequence comes to an end, and on what it depends, is a matter of the steps
only.
-/

namespace CncPneumatics

namespace Asx

variable {s s' : OutputState} {o o' : DigitalOutput} {reactor arg n m : ℕ} {text : List Char}

/-! ## What a step reads -/

/-- The level that a character commands. -/
def levelOf (c : Char) : Option Bool :=
  if c = '+' then some true else if c = '-' then some false else none

/-- The digit at the front, as a duration, and what is left; nothing at the
end of the text. -/
def readDuration : List Char → Option (Option ℕ × List Char)
  | [] => none
  | d :: ds => some (if d.isDigit then (some (d.toNat - '0'.toNat), ds) else (none, d :: ds))

/-- **What a step reads**: a level, if there is one, and then a duration;
nothing where the text is over. -/
def readStep (text : List Char) : Option Bool × Option (Option ℕ × List Char) :=
  match text.dropWhile (· = ' ') with
  | [] => (none, none)
  | c :: cs => (levelOf c, readDuration (if (levelOf c).isSome then cs else c :: cs))

/-- The text is over for this step. -/
def atEnd (o : DigitalOutput) : Bool := (readStep o.next).2.isNone

/-- The record after a step, with the number of the timer left alone. -/
def advance (o : DigitalOutput) : DigitalOutput :=
  match (readStep o.next).2 with
  | none => { o with next := o.sequence }
  | some (shift, rest) =>
    { o with currentDurationShift := shift.getD o.currentDurationShift, next := rest }

/-- What a step commands: the level that it writes to the pin, and the
delay for which it arms a timer. -/
structure Command where
  level : Option Bool
  delay : Option ℕ
deriving DecidableEq

def command (o : DigitalOutput) : Command where
  level := (readStep o.next).1
  delay := if atEnd o && !o.rep then none
    else some (o.referencePeriodMs >>> (advance o).currentDurationShift)

/-- What a step writes to the pins. -/
def Command.writes (c : Command) (pin : ℕ) : PinWrites := (c.level.map fun v => (pin, v)).toList

/-- **A command is carried out**: its level is written to the pin, and a
timer is armed with its delay, if there is one. -/
def Command.CarriedOut (c : Command) (reactor arg : ℕ) (s s' : OutputState) : Prop :=
  s'.pins = c.writes s.out.pin ++ s.pins ∧
    match c.delay with
    | some d => timerArm s.timer reactor (timerGetCountFromNow s.timer d) 0 arg =
        some (s'.out.timer, s'.timer)
    | none => s'.timer = s.timer ∧ s'.out.timer = 0

/-- **`_parse_next` reads a step**, and writes the level. -/
theorem parseNext_eq (s : OutputState) : parseNext s = (!atEnd s.out,
    { s with pins := (command s.out).writes s.out.pin ++ s.pins, out := advance s.out }) := by
  unfold parseNext atEnd advance command Command.writes readStep
  cases htext : s.out.next.dropWhile (· = ' ') with
  | nil => rfl
  | cons c cs =>
    have hlevel : (levelOf c).isSome = true ↔ c = '+' ∨ c = '-' := by
      unfold levelOf
      split_ifs <;> simp_all
    have hpins : (if c = '+' then ioportSetPinLevel s.pins s.out.pin true
        else if c = '-' then ioportSetPinLevel s.pins s.out.pin false else s.pins) =
          ((levelOf c).map fun v => (s.out.pin, v)).toList ++ s.pins := by
      unfold levelOf
      split_ifs <;> rfl
    dsimp only
    rw [hpins, if_congr hlevel rfl rfl]
    cases (if c = '+' ∨ c = '-' then cs else c :: cs) with
    | nil => rfl
    | cons d ds =>
      by_cases hd : d.isDigit = true
      · simp [readDuration, hd]
      · simp [readDuration, hd]

theorem advance_rep (o : DigitalOutput) : (advance o).rep = o.rep ∧
    (advance o).referencePeriodMs = o.referencePeriodMs ∧ (advance o).sequence = o.sequence ∧
    (advance o).pin = o.pin := by
  unfold advance
  split <;> exact ⟨rfl, rfl, rfl, rfl⟩

/-- **A step of the reactor** carries out what is commanded, and advances
the record. -/
theorem reactorHandler_command (h : digitalOutputReactorHandler reactor arg s = .ok s') :
    (command s.out).CarriedOut reactor arg s s' ∧
      s'.out = { advance s.out with timer := s'.out.timer } := by
  unfold Command.CarriedOut
  obtain ⟨hrep, hreference, -⟩ := advance_rep s.out
  unfold digitalOutputReactorHandler at h
  rw [parseNext_eq] at h
  dsimp only at h
  by_cases hend : (atEnd s.out && !s.out.rep) = true
  · have hdelay : (command s.out).delay = none := if_pos hend
    simp only [Bool.and_eq_true, Bool.not_eq_true'] at hend
    rw [if_neg (by simp [hend.1, hrep, hend.2])] at h
    obtain rfl := Except.ok.inj h
    rw [hdelay]
    exact ⟨⟨rfl, rfl, rfl⟩, rfl⟩
  · have hdelay : (command s.out).delay =
        some (s.out.referencePeriodMs >>> (advance s.out).currentDurationShift) := if_neg hend
    have harms : (!atEnd s.out) = true ∨ (advance s.out).rep = true := by
      rw [hrep]
      revert hend
      cases atEnd s.out <;> cases s.out.rep <;> simp
    rw [if_pos harms] at h
    split at h
    · next inst timer harm =>
      obtain rfl := Except.ok.inj h
      rw [hdelay, ← hreference]
      exact ⟨⟨rfl, harm⟩, rfl⟩
    · cases h

/-! ## Steps

The steps of an output, whatever happens to the timers between them. -/

/-- The record with which a sequence is started. -/
def begun (o : DigitalOutput) (referenceTime : ℕ) (sequence : List Char) (rep : Bool) :
    DigitalOutput :=
  { o with
    sequence := sequence
    next := sequence
    rep := rep
    referencePeriodMs := referenceTime % 2 ^ 16 }

theorem advance_timer (o : DigitalOutput) (inst : ℕ) :
    advance { o with timer := inst } = { advance o with timer := inst } := by
  unfold advance
  dsimp only
  split <;> rfl

/-- What is commanded does not depend on the timer. -/
theorem command_timer (o : DigitalOutput) (inst : ℕ) : command { o with timer := inst } = command o := by
  unfold command
  rw [advance_timer]
  rfl

/-- **The k-th step** of an output from this record on. -/
def nthCommand (o : DigitalOutput) (k : ℕ) : Command := command (advance^[k] o)

theorem advance_iterate_timer (o : DigitalOutput) (inst k : ℕ) :
    advance^[k] { o with timer := inst } = { advance^[k] o with timer := inst } := by
  induction k with
  | zero => rfl
  | succ k ih => rw [Function.iterate_succ_apply', ih, advance_timer, Function.iterate_succ_apply']

/-- What an output can be made to do, and what others do between. -/
inductive OutputEvent where
  | start (referenceTime : ℕ) (sequence : List Char) (rep : Bool)
  | set (value : Bool)
  | toggle
  | step
  /-- Time passes, timers expire, are armed and cancelled, and other pins
  are written. -/
  | others (timer : Timer) (pins : PinWrites)

/-- What an event leads to, where it does not stop. -/
def outputStep (reactor arg : ℕ) (s : OutputState) : OutputEvent → Option OutputState
  | .start referenceTime sequence rep =>
    (digitalOutputStart reactor arg referenceTime sequence rep s).toOption
  | .set value => some (digitalOutputSet value s)
  | .toggle => some (digitalOutputToggle s)
  | .step => (digitalOutputReactorHandler reactor arg s).toOption
  | .others timer pins => some { s with timer := timer, pins := pins }

variable {hist : List (OutputState × OutputEvent)}

/-- The steps that are taken in a history. -/
def stepsIn (hist : List (OutputState × OutputEvent)) : ℕ :=
  hist.countP fun p => match p.2 with
    | .step => true
    | _ => false

/-- A history after a start: steps, and what others do. -/
def Plays (hist : List (OutputState × OutputEvent)) : Prop :=
  ∀ p ∈ hist, match p.2 with
    | .step | .others _ _ => True
    | _ => False

/-- **The record while a sequence plays** is that of as many steps as were
taken. -/
theorem out_of_plays (hr : Run (outputStep reactor arg) s hist s') (hplays : Plays hist) :
    ∃ inst, s'.out = { advance^[stepsIn hist] s.out with timer := inst } := by
  induction hr with
  | nil => exact ⟨s.out.timer, rfl⟩
  | @snoc hist s₁ s₂ e _ hs ih =>
    obtain ⟨inst, hout⟩ := ih fun p hp => hplays p (by simp [hp])
    have hcount : stepsIn (hist ++ [(s₁, e)]) = stepsIn hist + stepsIn [(s₁, e)] :=
      List.countP_append
    rw [hcount]
    cases e with
    | step =>
      obtain ⟨-, hadvance⟩ := reactorHandler_command (toOption_eq_some hs)
      refine ⟨s₂.out.timer, ?_⟩
      rw [hadvance, hout, advance_timer, show stepsIn [(s₁, .step)] = 1 from rfl,
        Function.iterate_succ_apply']
    | others timer pins =>
      obtain rfl := Option.some.inj hs
      exact ⟨inst, hout⟩
    | start | set | toggle => exact (hplays _ (List.mem_append_right _ (List.mem_singleton_self _))).elim

theorem cancelSequence_out (s : OutputState) : (cancelSequence s).out = s.out := by
  unfold cancelSequence
  split <;> rfl

/-- **A sequence that was started** takes its first step at once, and then
one step each time. -/
theorem out_of_started {referenceTime : ℕ} {sequence : List Char} {rep : Bool} {s₁ : OutputState}
    (hstart : digitalOutputStart reactor arg referenceTime sequence rep s = .ok s₁)
    (hr : Run (outputStep reactor arg) s₁ hist s') (hplays : Plays hist) :
    ∃ inst, s'.out =
      { advance^[stepsIn hist + 1] (begun s.out referenceTime sequence rep) with timer := inst } := by
  obtain ⟨-, hfirst⟩ := reactorHandler_command hstart
  rw [cancelSequence_out] at hfirst
  obtain ⟨inst, hout⟩ := out_of_plays hr hplays
  refine ⟨inst, ?_⟩
  rw [hout, hfirst, advance_iterate_timer, Function.iterate_succ_apply]
  rfl

/-- **The steps of a sequence that was started** carry out its commands
one after the other: the start the first, and the handler the next one
each time, whatever others do between. -/
theorem carriedOut_of_started {referenceTime : ℕ} {sequence : List Char} {rep : Bool}
    {s₁ : OutputState}
    (hstart : digitalOutputStart reactor arg referenceTime sequence rep s = .ok s₁) :
    (nthCommand (begun s.out referenceTime sequence rep) 0).CarriedOut reactor arg
        { cancelSequence s with out := begun s.out referenceTime sequence rep } s₁ ∧
      ∀ hist s' s'', Run (outputStep reactor arg) s₁ hist s' → Plays hist →
        digitalOutputReactorHandler reactor arg s' = .ok s'' →
        (nthCommand (begun s.out referenceTime sequence rep) (stepsIn hist + 1)).CarriedOut
          reactor arg s' s'' := by
  constructor
  · unfold digitalOutputStart at hstart
    dsimp only at hstart
    rw [cancelSequence_out] at hstart
    exact (reactorHandler_command hstart).1
  · intro hist s' s'' hr hplays hstep
    obtain ⟨inst, hout⟩ := out_of_started hstart hr hplays
    have hcommand := (reactorHandler_command hstep).1
    rw [hout, command_timer] at hcommand
    exact hcommand

/-! ## The end of a sequence -/

/-- A character that no step can read past. -/
def Unread (c : Char) : Prop := c ≠ ' ' ∧ levelOf c = none ∧ c.isDigit = false

/-- What is left after a step is further along the text, but for a
character that is not read. -/
theorem readStep_suffix {shift : Option ℕ} {rest : List Char}
    (h : (readStep text).2 = some (shift, rest)) :
    rest <:+ text ∧ (rest.length < text.length ∨ ∃ c cs, text = c :: cs ∧ Unread c) := by
  have hspaces : text.dropWhile (· = ' ') <:+ text := List.dropWhile_suffix _
  unfold readStep at h
  cases htext : text.dropWhile (· = ' ') with
  | nil => rw [htext] at h; cases h
  | cons c cs =>
    rw [htext] at h hspaces
    dsimp only at h
    have hc : c ≠ ' ' := by
      have := List.head_dropWhile_not (fun c => decide (c = ' ')) (by rw [htext]; simp)
      simpa [htext] using this
    -- the characters from the duration on
    set l := if (levelOf c).isSome then cs else c :: cs with hl
    have hsuffix : l <:+ c :: cs := by
      rw [hl]
      split
      · exact List.suffix_cons _ _
      · exact List.suffix_refl _
    cases hld : l with
    | nil => rw [hld] at h; cases h
    | cons d ds =>
      rw [hld] at h hsuffix
      simp only [readDuration, Option.some.injEq] at h
      by_cases hd : d.isDigit = true
      · rw [if_pos hd] at h
        obtain ⟨-, rfl⟩ := Prod.mk.inj h
        have hlt : ds <:+ text := (List.suffix_cons d ds).trans (hsuffix.trans hspaces)
        have hlen := (hsuffix.trans hspaces).length_le
        rw [List.length_cons] at hlen
        exact ⟨hlt, .inl hlen⟩
      · rw [if_neg hd] at h
        obtain ⟨-, rfl⟩ := Prod.mk.inj h
        refine ⟨hsuffix.trans hspaces, ?_⟩
        by_cases hlevel : (levelOf c).isSome = true
        · rw [if_pos hlevel] at hl
          have hlen := hspaces.length_le
          rw [← hl, hld, List.length_cons] at hlen
          exact .inl hlen
        · rw [if_neg hlevel, hld, List.cons.injEq] at hl
          obtain ⟨rfl, rfl⟩ := hl
          rcases hspaces.length_le.lt_or_eq with hlen | hlen
          · exact .inl hlen
          · refine .inr ⟨d, ds, (hspaces.eq_of_length hlen).symm, hc, ?_, by simpa using hd⟩
            simpa using hlevel

/-- A character that is not read stays in the text. -/
theorem readStep_unread {c : Char} (hc : Unread c) (hmem : c ∈ text) :
    ∃ shift rest, (readStep text).2 = some (shift, rest) ∧ c ∈ rest := by
  have hdrop : c ∈ text.dropWhile (· = ' ') := by
    rcases List.mem_append.mp (List.takeWhile_append_dropWhile (p := (· = ' ')) (l := text) ▸ hmem)
      with htake | hdrop
    · have := List.all_eq_true.mp (List.all_takeWhile (p := (· = ' ')) (l := text)) c htake
      exact absurd (by simpa using this) hc.1
    · exact hdrop
  unfold readStep
  cases htext : text.dropWhile (· = ' ') with
  | nil => rw [htext] at hdrop; cases hdrop
  | cons d ds =>
    rw [htext] at hdrop
    dsimp only
    -- the level takes one character at most, and not this one
    have hleft : c ∈ if (levelOf d).isSome then ds else d :: ds := by
      split
      · next hlevel =>
        refine (List.mem_cons.mp hdrop).resolve_left fun h => ?_
        rw [← h, hc.2.1] at hlevel
        cases hlevel
      · exact hdrop
    cases hl : (if (levelOf d).isSome then ds else d :: ds) with
    | nil => rw [hl] at hleft; cases hleft
    | cons e es =>
      rw [hl] at hleft
      rw [readDuration]
      by_cases he : e.isDigit = true
      · rw [if_pos he]
        refine ⟨_, es, rfl, (List.mem_cons.mp hleft).resolve_left fun h => ?_⟩
        rw [← h, hc.2.2] at he
        cases he
      · rw [if_neg he]
        exact ⟨_, _, rfl, hleft⟩

/-- A step gets further in the text. -/
def GetsFurther (o : DigitalOutput) : Prop :=
  (advance o).next <:+ o.next ∧ (advance o).next.length < o.next.length

/-- **A sequence comes to an end**: each step up to the last gets further
in the text and the last one arms no timer, after at most as many steps as
there are characters. -/
structure ComesToEnd (o : DigitalOutput) : Prop where
  further : ∀ k, (∀ j < k, atEnd (advance^[j] o) = false) →
    atEnd (advance^[k] o) = true ∨ GetsFurther (advance^[k] o)
  ends : ∃ k ≤ o.next.length, (nthCommand o k).delay = none ∧
    ∀ j < k, (nthCommand o j).delay ≠ none

theorem advance_next (h : atEnd o = false) :
    ∃ shift, (readStep o.next).2 = some (shift, (advance o).next) := by
  unfold atEnd at h
  unfold advance
  cases hread : (readStep o.next).2 with
  | none => rw [hread] at h; cases h
  | some r => exact ⟨r.1, rfl⟩

theorem getsFurther_of_read (hread : ∀ c ∈ o.next, ¬ Unread c) (h : atEnd o = false) :
    GetsFurther o := by
  obtain ⟨shift, hnext⟩ := advance_next h
  obtain ⟨hsuffix, hlt | ⟨c, cs, htext, hc⟩⟩ := readStep_suffix hnext
  · exact ⟨hsuffix, hlt⟩
  · exact absurd hc (hread c (by rw [htext]; simp))

/-- Every step gets further where all is read. -/
theorem read_of_before_end (hread : ∀ c ∈ o.next, ¬ Unread c) {k : ℕ}
    (hk : ∀ j < k, atEnd (advance^[j] o) = false) : ∀ c ∈ (advance^[k] o).next, ¬ Unread c := by
  induction k with
  | zero => exact hread
  | succ k ih =>
    have hkeep := ih fun j hj => hk j (by omega)
    rw [Function.iterate_succ_apply']
    exact fun c hc => hkeep c ((getsFurther_of_read hkeep (hk k (by omega))).1.subset hc)

theorem exists_end (hread : ∀ c ∈ o.next, ¬ Unread c) :
    ∃ k ≤ o.next.length, atEnd (advance^[k] o) = true ∧ ∀ j < k, atEnd (advance^[j] o) = false := by
  induction hlen : o.next.length using Nat.strong_induction_on generalizing o with
  | _ n ih =>
    subst hlen
    cases hend : atEnd o with
    | true => exact ⟨0, Nat.zero_le _, hend, fun j hj => absurd hj (Nat.not_lt_zero j)⟩
    | false =>
      obtain ⟨hsuffix, hlt⟩ := getsFurther_of_read hread hend
      obtain ⟨k, hk, hkend, hbefore⟩ := ih _ hlt (o := advance o)
        (fun c hc => hread c (hsuffix.subset hc)) rfl
      refine ⟨k + 1, by omega, hkend, fun j hj => ?_⟩
      cases j with
      | zero => exact hend
      | succ j => exact hbefore j (by omega)

/-- A character that is not read is reached, and then no step gets
further. -/
theorem exists_stuck {c : Char} (hc : Unread c) (hmem : c ∈ o.next) :
    ∃ k, (∀ j < k, atEnd (advance^[j] o) = false) ∧ atEnd (advance^[k] o) = false ∧
      ¬ GetsFurther (advance^[k] o) := by
  induction hlen : o.next.length using Nat.strong_induction_on generalizing o with
  | _ n ih =>
    subst hlen
    obtain ⟨shift, rest, hread, hrest⟩ := readStep_unread hc hmem
    have hend : atEnd o = false := by
      unfold atEnd
      rw [hread]
      rfl
    have hnext : (advance o).next = rest := by
      unfold advance
      rw [hread]
    by_cases hfurther : GetsFurther o
    · obtain ⟨k, hbefore, hkend, hstuck⟩ := ih _ hfurther.2 (o := advance o)
        (by rw [hnext]; exact hrest) rfl
      refine ⟨k + 1, fun j hj => ?_, hkend, hstuck⟩
      cases j with
      | zero => exact hend
      | succ j => exact hbefore j (by omega)
    · exact ⟨0, fun j hj => absurd hj (Nat.not_lt_zero j), hend, hfurther⟩

theorem advance_iterate_rep (o : DigitalOutput) (k : ℕ) : (advance^[k] o).rep = o.rep := by
  induction k with
  | zero => rfl
  | succ k ih => rw [Function.iterate_succ_apply', (advance_rep _).1, ih]

/-- A sequence that does not repeat comes to an end when all its characters
are read. -/
theorem comesToEnd_iff_read (hrep : o.rep = false) :
    ComesToEnd o ↔ ∀ c ∈ o.next, ¬ Unread c := by
  have hdelay : ∀ k, (nthCommand o k).delay = none ↔ atEnd (advance^[k] o) = true := fun k => by
    unfold nthCommand command
    dsimp only
    rw [advance_iterate_rep, hrep]
    simp
  constructor
  · intro h c hmem hc
    obtain ⟨k, hbefore, hend, hstuck⟩ := exists_stuck hc hmem
    rcases h.further k hbefore with hend' | hfurther
    · rw [hend] at hend'
      cases hend'
    · exact hstuck hfurther
  · refine fun hread => ⟨fun k hk => ?_, ?_⟩
    · cases hend : atEnd (advance^[k] o) with
      | true => exact .inl rfl
      | false => exact .inr (getsFurther_of_read (read_of_before_end hread hk) hend)
    · obtain ⟨k, hk, hend, hbefore⟩ := exists_end hread
      refine ⟨k, hk, (hdelay k).mpr hend, fun j hj hnone => ?_⟩
      have hrunning := hbefore j hj
      rw [(hdelay j).mp hnone] at hrunning
      cases hrunning

/-- The characters of a sequence, as they are documented. -/
def sequenceAlphabet : List Char :=
  [' ', '+', '-', 'X', '0', '1', '2', '3', '4', '5', '6', '7', '8']

/-- **A sequence that is not repeated comes to an end** when it has no
toggle, and otherwise never does. -/
theorem sequence_ends_iff (o : DigitalOutput) (referenceTime : ℕ) {sequence : List Char}
    (halphabet : ∀ c ∈ sequence, c ∈ sequenceAlphabet) :
    ComesToEnd (begun o referenceTime sequence false) ↔ 'X' ∉ sequence := by
  have hunread : ∀ c ∈ sequenceAlphabet, Unread c ↔ c = 'X' := by
    simp only [sequenceAlphabet, List.forall_mem_cons, List.not_mem_nil, false_implies,
      implies_true, Unread]
    decide
  rw [comesToEnd_iff_read rfl]
  constructor
  · exact fun h hX => h 'X' hX ((hunread 'X' (by decide)).mpr rfl)
  · intro hX c hc hun
    rw [(hunread c (halphabet c hc)).mp hun] at hc
    exact hX hc

/-- A blink comes to an end. -/
theorem sequence_ends_iff_blink :
    ComesToEnd (begun (digitalOutput 3) 1000 ['+', '1', ' ', '-', '+'] false) :=
  (sequence_ends_iff (digitalOutput 3) 1000
    (List.forall_mem_iff_getElem.mpr (by decide))).mpr (by decide)

/-- **A toggle is not read**: an output that is to switch on and toggle
after a quarter of a second arms its timer for ever. -/
theorem sequence_ends_fails_toggle :
    (∀ c ∈ ['+', '2', 'X', '2'], c ∈ sequenceAlphabet) ∧
      ¬ ComesToEnd (begun (digitalOutput 3) 1000 ['+', '2', 'X', '2'] false) := by
  refine ⟨List.forall_mem_iff_getElem.mpr (by decide), fun h => ?_⟩
  rcases h.further 1 (by decide) with hend | ⟨-, hlt⟩
  · exact absurd hend (by decide)
  · exact absurd hlt (by decide)

/-! ## What a sequence depends on -/

variable {o₁ o₂ : DigitalOutput} {referenceTime : ℕ} {sequence : List Char} {rep : Bool}

/-- The first step arms a timer, and reads no duration for it. -/
def KeepsDuration (sequence : List Char) (rep : Bool) : Prop :=
  match (readStep sequence).2 with
  | none => rep = true
  | some (shift, _) => shift = none

instance (sequence : List Char) (rep : Bool) : Decidable (KeepsDuration sequence rep) := by
  unfold KeepsDuration
  split <;> infer_instance

/-- Two records that play the same from here on. -/
structure Alike (o₁ o₂ : DigitalOutput) : Prop where
  next : o₁.next = o₂.next
  sequence : o₁.sequence = o₂.sequence
  rep : o₁.rep = o₂.rep
  reference : o₁.referencePeriodMs = o₂.referencePeriodMs
  delay : o₁.referencePeriodMs >>> o₁.currentDurationShift =
    o₂.referencePeriodMs >>> o₂.currentDurationShift

theorem Alike.advance (h : Alike o₁ o₂) : Alike (advance o₁) (advance o₂) := by
  obtain ⟨hnext, hsequence, hrep, hreference, hdelay⟩ := h
  unfold Asx.advance
  rw [hnext]
  cases (readStep o₂.next).2 with
  | none => exact ⟨hsequence, hsequence, hrep, hreference, hdelay⟩
  | some r =>
    obtain ⟨shift, rest⟩ := r
    refine ⟨rfl, hsequence, hrep, hreference, ?_⟩
    cases shift with
    | none => exact hdelay
    | some d =>
      dsimp only [Option.getD_some]
      rw [hreference]

theorem Alike.command (h : Alike o₁ o₂) : command o₁ = command o₂ := by
  have hdelay := h.advance.delay
  rw [(advance_rep o₁).2.1, (advance_rep o₂).2.1] at hdelay
  unfold Asx.command atEnd
  rw [h.next, h.rep, hdelay]

theorem Alike.nthCommand (h : Alike o₁ o₂) (k : ℕ) : nthCommand o₁ k = nthCommand o₂ k := by
  have hk : Alike (Asx.advance^[k] o₁) (Asx.advance^[k] o₂) := by
    induction k with
    | zero => exact h
    | succ k ih =>
      rw [Function.iterate_succ_apply', Function.iterate_succ_apply']
      exact ih.advance
  exact hk.command

/-- The first step arms its timer with the duration that was left. -/
theorem KeepsDuration.delay (h : KeepsDuration sequence rep) (o : DigitalOutput)
    (referenceTime : ℕ) : (nthCommand (begun o referenceTime sequence rep) 0).delay =
      some ((referenceTime % 2 ^ 16) >>> o.currentDurationShift) := by
  unfold KeepsDuration at h
  show (command (begun o referenceTime sequence rep)).delay = _
  unfold command atEnd advance begun
  dsimp only
  cases hread : (readStep sequence).2 with
  | none =>
    rw [hread] at h
    dsimp only at h
    rw [h]
    rfl
  | some r =>
    rw [hread] at h
    obtain ⟨shift, rest⟩ := r
    dsimp only at h
    rw [h]
    rfl

/-- A text that is over at its first step is over at every step. -/
theorem nthCommand_of_over (hread : (readStep sequence).2 = none) (o : DigitalOutput)
    (referenceTime k : ℕ) :
    nthCommand (begun o referenceTime sequence false) k = ⟨(readStep sequence).1, none⟩ := by
  have hfixed : advance (begun o referenceTime sequence false) =
      begun o referenceTime sequence false := by
    unfold advance begun
    dsimp only
    rw [hread]
  unfold nthCommand
  rw [Function.iterate_fixed hfixed]
  unfold command atEnd begun
  dsimp only
  rw [hread]
  rfl

/-- A first step that reads a duration. -/
theorem advance_begun {d : ℕ} {rest : List Char} (hread : (readStep sequence).2 = some (some d, rest))
    (o : DigitalOutput) (referenceTime : ℕ) : advance (begun o referenceTime sequence rep) =
      { begun o referenceTime sequence rep with currentDurationShift := d, next := rest } := by
  unfold advance begun
  dsimp only
  rw [hread]
  rfl

/-- **When a sequence does not depend on the one before**: its first step
reads a duration or arms no timer, or the durations that were left make for
the same delay. -/
theorem same_commands_iff (o₁ o₂ : DigitalOutput) (referenceTime : ℕ) (sequence : List Char)
    (rep : Bool) :
    (∀ k, nthCommand (begun o₁ referenceTime sequence rep) k =
        nthCommand (begun o₂ referenceTime sequence rep) k) ↔
      (KeepsDuration sequence rep → (referenceTime % 2 ^ 16) >>> o₁.currentDurationShift =
        (referenceTime % 2 ^ 16) >>> o₂.currentDurationShift) := by
  constructor
  · intro hsame hkeeps
    have hzero := congrArg Command.delay (hsame 0)
    rw [hkeeps.delay, hkeeps.delay] at hzero
    exact Option.some.inj hzero
  · intro hdelay k
    by_cases hkeeps : KeepsDuration sequence rep
    · have halike : Alike (begun o₁ referenceTime sequence rep) (begun o₂ referenceTime sequence rep) :=
        ⟨rfl, rfl, rfl, rfl, hdelay hkeeps⟩
      exact halike.nthCommand k
    unfold KeepsDuration at hkeeps
    cases hread : (readStep sequence).2 with
    | none =>
      rw [hread] at hkeeps
      obtain rfl : rep = false := by simpa using hkeeps
      rw [nthCommand_of_over hread, nthCommand_of_over hread]
    | some r =>
      obtain ⟨shift, rest⟩ := r
      rw [hread] at hkeeps
      obtain ⟨d, rfl⟩ : ∃ d, shift = some d := Option.ne_none_iff_exists'.mp hkeeps
      -- after the first step the two have the same duration
      have halike : Alike (advance (begun o₁ referenceTime sequence rep))
          (advance (begun o₂ referenceTime sequence rep)) := by
        rw [advance_begun hread, advance_begun hread]
        exact ⟨rfl, rfl, rfl, rfl, rfl⟩
      cases k with
      | zero =>
        show command (begun o₁ referenceTime sequence rep) =
          command (begun o₂ referenceTime sequence rep)
        unfold command
        rw [advance_begun hread, advance_begun hread]
        rfl
      | succ k => exact halike.nthCommand k

/-- An output that was not used yet. -/
def unused (pin : ℕ) : OutputState := ⟨timerInit, [], digitalOutput pin⟩

/-- **A duration is left behind**: an output that was blinking fast keeps
blinking so when it is told to blink once a second. -/
theorem same_commands_fail_leftDuration : ∃ hist₁ hist₂ s₁ s₂,
    Run (outputStep 11 0) (unused 16) hist₁ s₁ ∧ Run (outputStep 11 0) (unused 16) hist₂ s₂ ∧
      nthCommand (begun s₁.out 1000 ['+', '-'] true) 0 ≠
        nthCommand (begun s₂.out 1000 ['+', '-'] true) 0 := by
  have heval : (runEvents (outputStep 11 0) [.start 1000 ['+', '4', '-'] true, .set false]
      (unused 16)).any (fun s =>
        decide (nthCommand (begun s.out 1000 ['+', '-'] true) 0 ≠
          nthCommand (begun (unused 16).out 1000 ['+', '-'] true) 0)) = true := by decide +kernel
  obtain ⟨s₁, h₁, hne⟩ := (Option.any_eq_true _ _).mp heval
  obtain ⟨hist, hr, -⟩ := exists_run_of_runEvents h₁
  exact ⟨hist, [], s₁, unused 16, hr, .nil, of_decide_eq_true hne⟩

end Asx

end CncPneumatics
