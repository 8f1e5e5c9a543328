import CncPneumatics.Asx.Sequence
import Mathlib.Algebra.BigOperators.Group.List.Basic
/-!
# The period of a sequence

A sequence that repeats is played from its text over and over. A pass over
the text takes one step for each duration that is written and for each
level without one; where the text ends with a duration, the end takes a
step of its own, which holds the last level once more.
-/

namespace CncPneumatics

namespace Asx

/-! ## What is written -/

/-- An item of a sequence: a level, with the spaces before it and the
durations after it. -/
structure SequenceItem where
  spaces : ℕ
  level : Bool
  digits : List (Fin 9)

def digitOf (d : Fin 9) : Char := Char.ofNat ('0'.toNat + d)

namespace SequenceItem

def sign (it : SequenceItem) : Char := if it.level then '+' else '-'

/-- The characters of an item. -/
def text (it : SequenceItem) : List Char :=
  List.replicate it.spaces ' ' ++ it.sign :: it.digits.map digitOf

/-- The duration in force after an item. -/
def shift (c : ℕ) (it : SequenceItem) : ℕ := (it.digits.getLast?.map Fin.val).getD c

/-- How long an item is held: the sum of its durations, or the duration in
force when it has none. -/
def hold (ref c : ℕ) (it : SequenceItem) : ℕ :=
  if it.digits = [] then ref >>> c else (it.digits.map fun d => ref >>> d.val).sum

/-- The steps of an item. -/
def steps (ref c : ℕ) (it : SequenceItem) : List (Bool × ℕ) :=
  if it.digits = [] then [(it.level, ref >>> c)]
  else it.digits.map fun d => (it.level, ref >>> d.val)

end SequenceItem

/-- The text of a sequence. -/
def sequenceText (its : List SequenceItem) : List Char := its.flatMap SequenceItem.text

/-- The duration in force after a pass. -/
def shiftAfter (c : ℕ) (its : List SequenceItem) : ℕ := its.foldl SequenceItem.shift c

/-- **What is written**: the levels with the times for which they are to be
held, from the duration in force on. -/
def writtenHolds (ref : ℕ) : ℕ → List SequenceItem → List (Bool × ℕ)
  | _, [] => []
  | c, it :: its => (it.level, it.hold ref c) :: writtenHolds ref (it.shift c) its

/-! ## What is played -/

/-- The levels of the pin and the delays armed by so many steps, with the
level that the pin had before. -/
def played : ℕ → Bool → DigitalOutput → List (Bool × ℕ)
  | 0, _, _ => []
  | n + 1, v, o =>
    let v := (command o).level.getD v
    (v, (command o).delay.getD 0) :: played n v (advance o)

/-- **Held as written**: for each of the holds a number of steps with its
level that take its time. -/
def HeldAs : List (Bool × ℕ) → List (Bool × ℕ) → Prop
  | [], l => l = []
  | w :: ws, l => ∃ block rest, l = block ++ rest ∧ block ≠ [] ∧ (∀ e ∈ block, e.1 = w.1) ∧
      (block.map Prod.snd).sum = w.2 ∧ HeldAs ws rest

/-- **The period is as written**: every `period` steps the text is over, and
from the second repetition on the steps repeat, and hold the levels of the
items for the times that are written. -/
structure PeriodAsWritten (ref period : ℕ) (o : DigitalOutput) (its : List SequenceItem) : Prop where
  pos : 0 < period
  ends : ∀ k < period, (atEnd (advance^[k] o) = true ↔ k + 1 = period)
  repeats : ∀ k, period ≤ k → nthCommand o (k + period) = nthCommand o k
  held : ∀ k v, 1 ≤ k → HeldAs (writtenHolds ref (shiftAfter o.currentDurationShift its) its)
    (played period v (advance^[k * period] o))

/-- The text ends with a level, and not with a duration of any length. -/
def EndsBare (ref : ℕ) (its : List SequenceItem) : Prop :=
  ∀ it ∈ its.getLast?, ∀ d ∈ it.digits.getLast?, ref >>> d.val = 0

variable {o o' o'' : DigitalOutput} {it : SequenceItem} {its : List SequenceItem} {n m c ref : ℕ}
  {v v' v'' : Bool} {l l' : List (Bool × ℕ)} {rest : List Char}

/-! ## Legs of a pass -/

/-- So many steps, none of which finds the text over. -/
structure Leg (n : ℕ) (v : Bool) (o : DigitalOutput) (l : List (Bool × ℕ)) (v' : Bool)
    (o' : DigitalOutput) : Prop where
  going : ∀ k < n, atEnd (advance^[k] o) = false
  arrives : advance^[n] o = o'
  played : ∀ m, played (n + m) v o = l ++ played m v' o'

namespace Leg

theorem refl (v : Bool) (o : DigitalOutput) : Leg 0 v o [] v o :=
  ⟨fun k hk => absurd hk (Nat.not_lt_zero k), rfl, fun m => by rw [Nat.zero_add]; rfl⟩

theorem step (hgoing : atEnd o = false) :
    Leg 1 v o [((command o).level.getD v, (command o).delay.getD 0)] ((command o).level.getD v)
      (advance o) := by
  refine ⟨fun k hk => ?_, rfl, fun m => by rw [Nat.add_comm]; rfl⟩
  obtain rfl : k = 0 := by omega
  exact hgoing

theorem trans (h : Leg n v o l v' o') (h' : Leg m v' o' l' v'' o'') :
    Leg (n + m) v o (l ++ l') v'' o'' := by
  refine ⟨fun k hk => ?_, ?_, fun m' => ?_⟩
  · rcases Nat.lt_or_ge k n with hlt | hge
    · exact h.going k hlt
    · obtain ⟨j, rfl⟩ := Nat.exists_eq_add_of_le hge
      rw [Nat.add_comm, Function.iterate_add_apply, h.arrives]
      exact h'.going j (by omega)
  · rw [Nat.add_comm, Function.iterate_add_apply, h.arrives, h'.arrives]
  · rw [Nat.add_assoc, h.played, h'.played, List.append_assoc]

end Leg

/-! ## Reading items -/

theorem digitOf_isDigit (d : Fin 9) : (digitOf d).isDigit = true ∧
    (digitOf d).toNat - '0'.toNat = d.val ∧ levelOf (digitOf d) = none ∧ digitOf d ≠ ' ' := by
  revert d
  decide

theorem sign_level (it : SequenceItem) :
    levelOf it.sign = some it.level ∧ it.sign ≠ ' ' ∧ it.sign.isDigit = false := by
  unfold SequenceItem.sign
  cases it.level <;> decide

/-- A duration on its own. -/
theorem readStep_digit (d : Fin 9) (rest : List Char) :
    readStep (digitOf d :: rest) = (none, some (some d.val, rest)) := by
  obtain ⟨hdigit, hvalue, hlevel, hspace⟩ := digitOf_isDigit d
  rw [readStep, List.dropWhile_cons_of_neg (by simpa using hspace)]
  dsimp only
  rw [hlevel, if_neg (by simp), readDuration, if_pos hdigit, hvalue]

/-- A level, with what comes after it. -/
theorem readStep_sign (it : SequenceItem) (rest : List Char) :
    readStep (List.replicate it.spaces ' ' ++ it.sign :: rest) =
      (some it.level, readDuration rest) := by
  obtain ⟨hlevel, hspace, -⟩ := sign_level it
  have hdrop : (List.replicate it.spaces ' ' ++ it.sign :: rest).dropWhile (· = ' ') =
      it.sign :: rest := by
    rw [List.dropWhile_append_of_pos (by simp)]
    exact List.dropWhile_cons_of_neg (by simpa using hspace)
  rw [readStep, hdrop]
  dsimp only
  rw [hlevel, if_pos (by simp)]

/-- The text of an item starts with a space or a level. -/
theorem readDuration_sequenceText (it : SequenceItem) (its : List SequenceItem) :
    readDuration (sequenceText (it :: its)) = some (none, sequenceText (it :: its)) := by
  have hcons : ∃ c cs, sequenceText (it :: its) = c :: cs ∧ c.isDigit = false := by
    rw [sequenceText, List.flatMap_cons, SequenceItem.text]
    cases it.spaces with
    | zero => exact ⟨_, _, rfl, (sign_level it).2.2⟩
    | succ k => exact ⟨_, _, rfl, rfl⟩
  obtain ⟨c, cs, htext, hdigit⟩ := hcons
  rw [htext, readDuration, hdigit]
  rfl

/-! ## Playing items -/

/-- A step that does not find the text over. -/
theorem step_leg {level : Option Bool} {shift : Option ℕ} (v : Bool) (hrep : o.rep = true)
    (hread : readStep o.next = (level, some (shift, rest))) :
    Leg 1 v o [(level.getD v, o.referencePeriodMs >>> shift.getD o.currentDurationShift)]
      (level.getD v)
      { o with currentDurationShift := shift.getD o.currentDurationShift, next := rest } := by
  have hend : atEnd o = false := by
    unfold atEnd
    rw [hread]
    rfl
  have hadvance : advance o =
      { o with currentDurationShift := shift.getD o.currentDurationShift, next := rest } := by
    unfold advance
    rw [hread]
  have hcommand : command o =
      ⟨level, some (o.referencePeriodMs >>> shift.getD o.currentDurationShift)⟩ := by
    unfold command
    rw [hadvance, hend, hread, hrep]
    rfl
  have hleg := Leg.step (v := v) hend
  rw [hcommand, hadvance] at hleg
  exact hleg

/-- The durations after the first. -/
theorem digits_leg (ds : List (Fin 9)) (v : Bool) (hrep : o.rep = true)
    (hnext : o.next = ds.map digitOf ++ rest) :
    Leg ds.length v o (ds.map fun d => (v, o.referencePeriodMs >>> d.val)) v
      { o with
        currentDurationShift := (ds.getLast?.map Fin.val).getD o.currentDurationShift
        next := rest } := by
  induction ds generalizing o with
  | nil =>
    obtain rfl : o.next = rest := hnext
    exact Leg.refl v o
  | cons d ds ih =>
    have hread : readStep o.next = (none, some (some d.val, ds.map digitOf ++ rest)) := by
      rw [hnext]
      exact readStep_digit d _
    have hfirst := step_leg v hrep hread
    have hrest := ih (o := { o with currentDurationShift := d.val, next := ds.map digitOf ++ rest })
      hrep rfl
    have hlast : (((d :: ds).getLast?).map Fin.val).getD o.currentDurationShift =
        (ds.getLast?.map Fin.val).getD d.val := by
      cases ds with
      | nil => rfl
      | cons e es => simp [List.getLast?_cons]
    rw [hlast, List.length_cons, Nat.add_comm]
    exact hfirst.trans hrest

/-- An item with durations. -/
theorem item_leg (v : Bool) (hrep : o.rep = true) (hdigits : it.digits ≠ [])
    (hnext : o.next = it.text ++ rest) :
    Leg it.digits.length v o (it.steps o.referencePeriodMs o.currentDurationShift) it.level
      { o with currentDurationShift := it.shift o.currentDurationShift, next := rest } := by
  obtain ⟨d, ds, hds⟩ := List.exists_cons_of_ne_nil hdigits
  have hread : readStep o.next = (some it.level, some (some d.val, ds.map digitOf ++ rest)) := by
    obtain ⟨hdigit, hvalue, -⟩ := digitOf_isDigit d
    rw [hnext, SequenceItem.text, hds, List.append_assoc, List.cons_append, readStep_sign,
      List.map_cons, List.cons_append, readDuration, if_pos hdigit, hvalue]
  have hfirst := step_leg v hrep hread
  have hrest := digits_leg (o := { o with
    currentDurationShift := d.val
    next := ds.map digitOf ++ rest }) ds it.level hrep rfl
  have hsteps : it.steps o.referencePeriodMs o.currentDurationShift =
      (it.level, o.referencePeriodMs >>> d.val) ::
        ds.map fun d => (it.level, o.referencePeriodMs >>> d.val) := by
    rw [SequenceItem.steps, if_neg hdigits, hds, List.map_cons]
  have hshift : it.shift o.currentDurationShift = (ds.getLast?.map Fin.val).getD d.val := by
    rw [SequenceItem.shift, hds]
    cases ds with
    | nil => rfl
    | cons e es => simp [List.getLast?_cons]
  rw [hsteps, hshift, hds, List.length_cons, Nat.add_comm]
  exact hfirst.trans hrest

/-- The steps before the last in a pass. -/
def passSteps : List SequenceItem → ℕ
  | [] => 0
  | [it] => it.digits.length
  | it :: it' :: its => max 1 it.digits.length + passSteps (it' :: its)

/-- What a pass plays. After a duration, the end holds the last level once
more. -/
def passPlayed (ref : ℕ) : ℕ → List SequenceItem → List (Bool × ℕ)
  | _, [] => []
  | c, [it] => it.steps ref c ++ it.digits.getLast?.toList.map fun d => (it.level, ref >>> d.val)
  | c, it :: it' :: its => it.steps ref c ++ passPlayed ref (it.shift c) (it' :: its)

/-- **A pass**, up to its last step, which finds the text over. -/
theorem pass_leg (v : Bool) (hne : its ≠ []) (hrep : o.rep = true)
    (hnext : o.next = sequenceText its) : ∃ l v' o', Leg (passSteps its) v o l v' o' ∧
      atEnd o' = true ∧
      advance o' = { o with
        currentDurationShift := shiftAfter o.currentDurationShift its, next := o.sequence } ∧
      l ++ [((command o').level.getD v', (command o').delay.getD 0)] =
        passPlayed o.referencePeriodMs o.currentDurationShift its := by
  induction its generalizing o v with
  | nil => exact absurd rfl hne
  | cons it its ih =>
    rw [sequenceText, List.flatMap_cons] at hnext
    cases its with
    | nil =>
      rw [List.flatMap_nil] at hnext
      -- the last item: after digits the end of the text takes a step of its own
      by_cases hdigits : it.digits = []
      · -- the level itself finds the text over
        have hread : readStep o.next = (some it.level, none) := by
          rw [hnext, SequenceItem.text, hdigits, List.map_nil, List.append_nil, readStep_sign]
          rfl
        have hend : atEnd o = true := by
          unfold atEnd
          rw [hread]
          rfl
        have hadvance : advance o = { o with next := o.sequence } := by
          unfold advance
          rw [hread]
        refine ⟨[], v, o, ?_, hend, ?_, ?_⟩
        · rw [passSteps, hdigits]
          exact Leg.refl v o
        · rw [hadvance]
          simp [shiftAfter, SequenceItem.shift, hdigits]
        · unfold command
          rw [hadvance, hread, hrep]
          simp [passPlayed, SequenceItem.steps, hdigits]
      · have hleg := item_leg v hrep hdigits hnext
        refine ⟨_, _, _, hleg, rfl, rfl, ?_⟩
        have hlast : it.digits.getLast?.toList.map (fun d => (it.level, o.referencePeriodMs >>> d.val)) =
            [(it.level, o.referencePeriodMs >>> it.shift o.currentDurationShift)] := by
          rw [SequenceItem.shift, List.getLast?_eq_some_getLast hdigits]
          rfl
        rw [passPlayed, hlast]
        unfold command
        dsimp only
        rw [hrep]
        rfl
    | cons it' its =>
      have hsum : shiftAfter o.currentDurationShift (it :: it' :: its) =
          shiftAfter (it.shift o.currentDurationShift) (it' :: its) := rfl
      -- an item without digits still takes one step, with the duration in force before it
      have hfirst : Leg (max 1 it.digits.length) v o
          (it.steps o.referencePeriodMs o.currentDurationShift) it.level
          { o with
            currentDurationShift := it.shift o.currentDurationShift
            next := sequenceText (it' :: its) } := by
        by_cases hdigits : it.digits = []
        · have hread : readStep o.next =
              (some it.level, some (none, sequenceText (it' :: its))) := by
            rw [hnext, SequenceItem.text, hdigits, List.map_nil, List.append_assoc,
              List.singleton_append, readStep_sign]
            exact congrArg _ (readDuration_sequenceText it' its)
          have hleg := step_leg v hrep hread
          rw [hdigits, SequenceItem.steps, if_pos hdigits, SequenceItem.shift, hdigits]
          exact hleg
        · have hlen : max 1 it.digits.length = it.digits.length :=
            Nat.max_eq_right (List.length_pos_iff.mpr hdigits)
          rw [hlen]
          exact item_leg v hrep hdigits hnext
      obtain ⟨l, v', o', hleg, hend, hadvance, hplayed⟩ := ih it.level (by simp) (o := { o with
        currentDurationShift := it.shift o.currentDurationShift
        next := sequenceText (it' :: its) }) hrep rfl
      refine ⟨_, v', o', hfirst.trans hleg, hend, hadvance, ?_⟩
      rw [List.append_assoc, hplayed]
      rfl

/-! ## Whole passes -/

/-- After a pass the same duration is in force, whatever was before. -/
theorem shiftAfter_shiftAfter (c : ℕ) (its : List SequenceItem) :
    shiftAfter (shiftAfter c its) its = shiftAfter c its := by
  have hconst : (∀ c, shiftAfter c its = c) ∨ ∃ d, ∀ c, shiftAfter c its = d := by
    induction its with
    | nil => exact .inl fun c => rfl
    | cons it its ih =>
      rcases ih with hid | ⟨d, hd⟩
      · cases hlast : it.digits.getLast? with
        | none => exact .inl fun c => (hid _).trans (by simp [SequenceItem.shift, hlast])
        | some d => exact .inr ⟨d.val, fun c => (hid _).trans (by simp [SequenceItem.shift, hlast])⟩
      · exact .inr ⟨d, fun c => hd _⟩
  rcases hconst with hid | ⟨d, hd⟩
  · rw [hid]
  · rw [hd, hd]

/-- **A whole pass** comes back to the text, with the last duration that
was read. -/
theorem pass (hne : its ≠ []) (hrep : o.rep = true) (hnext : o.next = sequenceText its) :
    (∀ k < passSteps its + 1, (atEnd (advance^[k] o) = true ↔ k + 1 = passSteps its + 1)) ∧
      advance^[passSteps its + 1] o = { o with
        currentDurationShift := shiftAfter o.currentDurationShift its, next := o.sequence } ∧
      ∀ v, played (passSteps its + 1) v o =
        passPlayed o.referencePeriodMs o.currentDurationShift its := by
  obtain ⟨_, _, o', hleg, hend, hadvance, -⟩ := pass_leg false hne hrep hnext
  refine ⟨fun k hk => ?_, ?_, fun v => ?_⟩
  · rcases Nat.lt_or_ge k (passSteps its) with hlt | hge
    · rw [hleg.going k hlt]
      simp only [Bool.false_eq_true, false_iff]
      omega
    · obtain rfl : k = passSteps its := by omega
      rw [hleg.arrives, hend]
      simp
  · rw [Function.iterate_succ_apply', hleg.arrives, hadvance]
  · obtain ⟨l, v', o', hleg, -, -, hplayed⟩ := pass_leg v hne hrep hnext
    rw [hleg.played, ← hplayed]
    rfl

/-- The times of what is held as written are those that are written. -/
theorem HeldAs.sum_eq {ws : List (Bool × ℕ)} (h : HeldAs ws l) :
    (l.map Prod.snd).sum = (ws.map Prod.snd).sum := by
  induction ws generalizing l with
  | nil =>
    obtain rfl : l = [] := h
    rfl
  | cons w ws ih =>
    obtain ⟨block, rest, rfl, -, -, hsum, hrest⟩ := h
    rw [List.map_append, List.sum_append, hsum, ih hrest, List.map_cons, List.sum_cons]

theorem steps_held (ref c : ℕ) (it : SequenceItem) : it.steps ref c ≠ [] ∧
    (∀ e ∈ it.steps ref c, e.1 = it.level) ∧
    ((it.steps ref c).map Prod.snd).sum = it.hold ref c := by
  unfold SequenceItem.steps SequenceItem.hold
  by_cases hdigits : it.digits = []
  · simp [hdigits]
  · rw [if_neg hdigits, if_neg hdigits]
    refine ⟨by simpa using hdigits, by simp, ?_⟩
    rw [List.map_map]
    rfl

/-- The last step of a pass is held beyond what is written. -/
theorem passPlayed_sum (hne : its ≠ []) (ref c : ℕ) : ((passPlayed ref c its).map Prod.snd).sum =
    ((writtenHolds ref c its).map Prod.snd).sum +
      ((its.getLast?.bind fun it => it.digits.getLast?).elim 0 fun d => ref >>> d.val) := by
  induction its generalizing c with
  | nil => exact absurd rfl hne
  | cons it its ih =>
    rw [writtenHolds, List.map_cons, List.sum_cons]
    cases its with
    | nil =>
      rw [passPlayed, List.map_append, List.sum_append, (steps_held ref c it).2.2]
      cases hd : it.digits.getLast? <;> simp [writtenHolds, hd]
    | cons it' its =>
      rw [passPlayed, List.map_append, List.sum_append, (steps_held ref c it).2.2,
        ih (by simp), List.getLast?_cons_cons]
      omega

/-- **A pass holds what is written** when the end holds nothing more. -/
theorem heldAs_iff_endsBare (hne : its ≠ []) (ref c : ℕ) :
    HeldAs (writtenHolds ref c its) (passPlayed ref c its) ↔ EndsBare ref its := by
  constructor
  · intro h it hit d hd
    have hsum := h.sum_eq
    rw [passPlayed_sum hne, Option.mem_def.mp hit, Option.bind_some, Option.mem_def.mp hd] at hsum
    simp only [Option.elim_some] at hsum
    omega
  · intro hbare
    induction its generalizing c with
    | nil => exact absurd rfl hne
    | cons it its ih =>
      obtain ⟨hsteps, hlevel, hsum⟩ := steps_held ref c it
      cases its with
      | nil =>
        refine ⟨_, [], (List.append_nil _).symm, by simp [passPlayed, hsteps], ?_, ?_, rfl⟩
        · intro e he
          rcases List.mem_append.mp he with he | he
          · exact hlevel e he
          · obtain ⟨d, -, rfl⟩ := List.mem_map.mp he
            rfl
        · rw [passPlayed, List.map_append, List.sum_append, hsum]
          cases hd : it.digits.getLast? with
          | none => simp
          | some d => simp [hbare it (by simp) d hd]
      | cons it' its =>
        exact ⟨_, _, rfl, hsteps, hlevel, hsum,
          ih (by simp) _ fun last hlast => hbare last (by rwa [List.getLast?_cons_cons])⟩

/-- **When the period of a repeating sequence is as written**: the text
does not end with a duration, or with one that is too short for the
reference time. -/
theorem period_as_written_iff (o : DigitalOutput) (hne : its ≠ []) (href : ref < 2 ^ 16) :
    (∃ period, PeriodAsWritten ref period (begun o ref (sequenceText its) true) its) ↔
      EndsBare ref its := by
  obtain ⟨hover, hfirst, -⟩ := pass (o := begun o ref (sequenceText its) true) hne rfl rfl
  set period := passSteps its + 1 with hperiod
  set b := begun o ref (sequenceText its) true with hb
  -- the record from the second pass on
  set b' : DigitalOutput := { b with
    currentDurationShift := shiftAfter b.currentDurationShift its } with hb'
  have hfirst : advance^[period] b = b' := hfirst
  obtain ⟨-, hagain, hplayed⟩ := pass (o := b') hne rfl rfl
  rw [show b'.currentDurationShift = shiftAfter b.currentDurationShift its from rfl,
    shiftAfter_shiftAfter, ← hperiod] at hagain
  have hagain : advance^[period] b' = b' := hagain
  have hlater : ∀ k, 1 ≤ k → advance^[k * period] b = b' := by
    intro k hk
    induction k with
    | zero => omega
    | succ k ih =>
      rw [Nat.succ_mul, Nat.add_comm, Function.iterate_add_apply]
      rcases Nat.eq_zero_or_pos k with rfl | hpos
      · rw [Nat.zero_mul]
        exact hfirst
      · rw [ih hpos, hagain]
  have hheld : ∀ v, played period v b' =
      passPlayed ref (shiftAfter b.currentDurationShift its) its := fun v => by
    rw [hplayed v, show b'.referencePeriodMs = ref from Nat.mod_eq_of_lt href]
  constructor
  · rintro ⟨period', hpos, hover', -, hheld'⟩
    have heq : period' = period := by
      rcases lt_trichotomy period' period with hlt | heq | hlt
      · have := (hover' (period' - 1) (by omega)).mpr (by omega)
        have := (hover (period' - 1) (by omega)).mp this
        omega
      · exact heq
      · have := (hover (period - 1) (by omega)).mpr (by omega)
        have := (hover' (period - 1) (by omega)).mp this
        omega
    subst heq
    have hsecond := hheld' 1 false le_rfl
    rw [hlater 1 le_rfl, hheld] at hsecond
    exact (heldAs_iff_endsBare hne _ _).mp hsecond
  · refine fun hbare => ⟨period, by omega, hover, fun k hk => ?_, fun k v hk => ?_⟩
    · obtain ⟨j, rfl⟩ := Nat.exists_eq_add_of_le hk
      have hj : advance^[period + j] b = advance^[j] b' := by
        rw [Nat.add_comm, Function.iterate_add_apply, hfirst]
      have hj' : advance^[period + j + period] b = advance^[j] b' := by
        rw [show period + j + period = j + period + period by omega, Function.iterate_add_apply,
          hfirst, Function.iterate_add_apply, hagain]
      unfold nthCommand
      rw [hj, hj']
    · rw [hlater k hk, hheld]
      exact (heldAs_iff_endsBare hne _ _).mpr hbare

/-- The diode of a door that opens is on and off for half a second each. -/
theorem period_as_written_door : ∃ period, PeriodAsWritten 1000 period
    (begun (digitalOutput 17) 1000 ['+', '1', '-'] true) [⟨0, true, [1]⟩, ⟨0, false, []⟩] :=
  (@period_as_written_iff [⟨0, true, [1]⟩, ⟨0, false, []⟩] _ (digitalOutput 17) (by simp)
    (by decide)).mpr (by simp [EndsBare])

/-- **A text that ends with a duration**: the dark of a blink that is on and
off for a quarter of a second each lasts twice as long. -/
theorem period_as_written_fails_lastDuration : ¬ ∃ period, PeriodAsWritten 1000 period
    (begun (digitalOutput 17) 1000 ['+', '2', '-', '2'] true)
    [⟨0, true, [2]⟩, ⟨0, false, [2]⟩] := by
  rintro ⟨period, hpos, hover, -, hheld⟩
  -- the third step is the first that finds the text over
  have hperiod : period = 3 := by
    rcases lt_trichotomy period 3 with hlt | heq | hlt
    · rcases (by omega : period = 1 ∨ period = 2) with rfl | rfl
      · exact absurd ((hover 0 (by decide)).mpr rfl) (by decide)
      · exact absurd ((hover 1 (by decide)).mpr rfl) (by decide)
    · exact heq
    · have := (hover 2 (by omega)).mp (by decide)
      omega
  subst hperiod
  have hsum := (hheld 1 false le_rfl).sum_eq
  exact absurd hsum (by decide)

end Asx

end CncPneumatics
