import CncPneumatics.Asx.Debounce
/-!
# Filter times

The threshold of a sampled input is its filter time in samples, in 8 bits.
A filter time of less than a sample, or of a multiple of 256 samples, gives
the threshold 0, which the integrator never reaches by counting up; one of
more samples gives a threshold that is reached too soon.
-/

namespace CncPneumatics

namespace Asx

/-- The value of the input at a place of the list, after passes over all of
them. -/
def valueAfter (dis : List DigitalInput) (i : ℕ) (levels : List (ℕ → Bool)) : Bool :=
  (answers samplePass levels dis).2[i]?.any digitalInputValue

/-- **The filter works**: the input is reported on after one more than so
many high samples, by its value and to its handler, and is not on at any
time when fewer of them are followed by low ones. -/
structure FilterWorks (dis : List DigitalInput) (i : ℕ) (di : DigitalInput) (samples : ℕ) : Prop where
  on : ∀ levels, levels.length = samples + 1 → (∀ level ∈ levels, level di.pin = true) →
    valueAfter dis i levels = true ∧ (di.handler ≠ reactorNullHandle →
      (di.handler, pinAndValueAsArg di.pin true) ∈ (answers samplePass levels dis).1.flatten)
  notYet : ∀ highs lows, highs.length < samples → (∀ level ∈ highs, level di.pin = true) →
    (∀ level ∈ lows, level di.pin = false) → valueAfter dis i (highs ++ lows) = false

/-- An input as `digital_input` makes it, settled where it is not on. -/
def settledOff (pin handler filterValue : ℕ) (state : DiInputState) : DigitalInput :=
  { digitalInput pin handler filterValue with input := state }

variable {di : DigitalInput} {dis : List DigitalInput} {levels : List (ℕ → Bool)}
  {level : ℕ → Bool} {pin handler filterValue : ℕ} {state : DiInputState} {x : ℕ × ℕ}

/-! ## The input among the others -/

/-- Each input is sampled on its own. -/
theorem answers_samplePass_snd (levels : List (ℕ → Bool)) (dis : List DigitalInput) :
    (answers samplePass levels dis).2 = dis.map fun di => sampled di levels := by
  induction levels generalizing dis with
  | nil => exact (List.map_id dis).symm
  | cons level levels ih =>
    rw [answers, ih, samplePass, digitalInputSample_fst, List.map_map]
    rfl

theorem valueAfter_eq (before after : List DigitalInput) :
    valueAfter (before ++ di :: after) before.length levels =
      digitalInputValue (sampled di levels) := by
  unfold valueAfter
  rw [answers_samplePass_snd, List.map_append, List.map_cons,
    List.getElem?_append_right (by simp)]
  simp

/-- What an input notifies is notified by the pass. -/
theorem mem_answers_samplePass (hdi : di ∈ dis)
    (hx : sampleNotice level (sampled di levels) = some x) (levels' : List (ℕ → Bool)) :
    x ∈ (answers samplePass (levels ++ level :: levels') dis).1.flatten := by
  rw [answers_append, answers, List.flatten_append, List.flatten_cons, samplePass,
    digitalInputSample_snd, answers_samplePass_snd]
  refine List.mem_append_right _ (List.mem_append_left _ (List.mem_filterMap.mpr ⟨_, ?_, hx⟩))
  exact List.mem_map_of_mem hdi

/-! ## Counting -/

/-- **High samples from the bottom** count up to the threshold, and turn the
input on there. -/
theorem sampled_highs (h₀ : di.integrator = 0) (hhigh : ∀ level ∈ levels, level di.pin = true) :
    (sampled di levels).integrator = min di.integratorThreshold levels.length ∧
      (sampled di levels).input =
        if 0 < di.integratorThreshold ∧ di.integratorThreshold ≤ levels.length then .on
        else di.input := by
  induction levels using List.reverseRecOn with
  | nil =>
    rw [List.length_nil, Nat.min_zero, if_neg (by omega)]
    exact ⟨h₀, rfl⟩
  | append_singleton levels level ih =>
    obtain ⟨hint, hinput⟩ := ih fun l hl => hhigh l (List.mem_append_left _ hl)
    have hT : (sampled di levels).integratorThreshold = di.integratorThreshold :=
      sampled_integratorThreshold
    rw [sampled_concat, hhigh level (by simp), List.length_append, List.length_singleton]
    generalize sampled di levels = mid at hint hinput hT
    rcases Nat.lt_trichotomy (levels.length + 1) di.integratorThreshold with hlt | htop | hrest
    · rw [(integrate_high_lt (by omega)).1, if_neg (by omega)]
      rw [if_neg (by omega)] at hinput
      exact ⟨by dsimp only; omega, hinput⟩
    · rw [(integrate_high_top (by omega)).1, if_pos (by omega)]
      exact ⟨by dsimp only; omega, rfl⟩
    · rw [(integrate_high_rest (by omega)).1, hinput]
      refine ⟨by omega, ?_⟩
      -- the threshold was reached before, or is 0
      by_cases hzero : di.integratorThreshold = 0
      · rw [if_neg (by omega), if_neg (by omega)]
      · rw [if_pos (by omega), if_pos (by omega)]

/-- Low samples do not turn an input on. -/
theorem sampled_lows (hoff : digitalInputValue di = false)
    (hlow : ∀ level ∈ levels, level di.pin = false) :
    digitalInputValue (sampled di levels) = false := by
  induction levels using List.reverseRecOn with
  | nil => exact hoff
  | append_singleton levels level ih =>
    have hbefore := ih fun l hl => hlow l (List.mem_append_left _ hl)
    rw [sampled_concat, hlow level (by simp)]
    generalize sampled di levels = mid at hbefore
    rcases Nat.lt_trichotomy mid.integrator 1 with hrest | hbottom | hlt
    · rw [(integrate_low_rest (by omega)).1]
      exact hbefore
    · rw [(integrate_low_bottom hbottom).1]
      rfl
    · rw [(integrate_low_lt hlt).1]
      exact hbefore

/-! ## The threshold -/

/-- The input is on as soon as the high samples reach a threshold, and only
if there is one. -/
theorem settledOff_highs (hstate : state ≠ .on) (hhigh : ∀ level ∈ levels, level pin = true) :
    digitalInputValue (sampled (settledOff pin handler filterValue state) levels) = true ↔
      0 < filterValue / digitalInputSamplePeriod % 256 ∧
        filterValue / digitalInputSamplePeriod % 256 ≤ levels.length := by
  obtain ⟨-, hinput⟩ := @sampled_highs (settledOff pin handler filterValue state) levels rfl hhigh
  rw [digitalInputValue, hinput, decide_eq_true_iff]
  show (if 0 < filterValue / digitalInputSamplePeriod % 256 ∧
    filterValue / digitalInputSamplePeriod % 256 ≤ levels.length then .on else state) =
      DiInputState.on ↔ _
  split
  · next h => exact iff_of_true rfl h
  · next h => exact iff_of_false hstate h

/-- The sample that reaches the threshold is notified. -/
theorem settledOff_notice (hstate : state ≠ .on) (hhandler : handler ≠ reactorNullHandle)
    (hT : levels.length + 1 = filterValue / digitalInputSamplePeriod % 256)
    (hhigh : ∀ l ∈ levels ++ [level], l pin = true) :
    sampleNotice level (sampled (settledOff pin handler filterValue state) levels) =
      some (handler, pinAndValueAsArg pin true) := by
  set di := settledOff pin handler filterValue state with hdi
  have hpin : (sampled di levels).pin = pin := sampled_pin
  have hvalue : digitalInputValue (sampled di levels) = false := by
    rw [← Bool.not_eq_true, hdi,
      settledOff_highs hstate fun l hl => hhigh l (List.mem_append_left _ hl)]
    omega
  have hvalue' : digitalInputValue (digitalInputIntegrate (sampled di levels) (level pin)) = true := by
    have hon : digitalInputValue (sampled di (levels ++ [level])) = true := by
      rw [hdi, settledOff_highs hstate hhigh, List.length_append, List.length_singleton]
      omega
    rw [sampled_concat] at hon
    exact hon
  have hchanged : (digitalInputIntegrate (sampled di levels) (level pin)).input ≠
      (sampled di levels).input := by
    unfold digitalInputValue at hvalue hvalue'
    rw [of_decide_eq_true hvalue']
    exact Ne.symm (of_decide_eq_false hvalue)
  have hhandler' : (sampled di levels).handler = handler := sampled_handler
  rw [sampleNotice, hpin, hhandler', if_pos ⟨hchanged, hhandler⟩, hvalue']

/-- **When a filter works**: if and only if its time is at least a sample,
and less than 256. The input may be anywhere among the others. -/
theorem filter_works_iff (hstate : state ≠ .on) (before after : List DigitalInput) :
    FilterWorks (before ++ settledOff pin handler filterValue state :: after) before.length
        (settledOff pin handler filterValue state) (filterValue / digitalInputSamplePeriod) ↔
      0 < filterValue / digitalInputSamplePeriod ∧ filterValue / digitalInputSamplePeriod < 256 := by
  set q := filterValue / digitalInputSamplePeriod with hq
  constructor
  · intro h
    have hon := (h.on (List.replicate (q + 1) fun _ => true) (by simp)
      (fun l hl => by rw [List.eq_of_mem_replicate hl])).1
    rw [valueAfter_eq, settledOff_highs hstate fun l hl => by rw [List.eq_of_mem_replicate hl],
      List.length_replicate, ← hq] at hon
    by_contra hmany
    -- a threshold that is reached too soon
    have hnot := h.notYet (List.replicate (q % 256) fun _ => true) [] (by simp; omega)
      (fun l hl => by rw [List.eq_of_mem_replicate hl]) (by simp)
    rw [valueAfter_eq, List.append_nil, ← Bool.not_eq_true,
      settledOff_highs hstate fun l hl => by rw [List.eq_of_mem_replicate hl],
      List.length_replicate, ← hq] at hnot
    exact hnot ⟨hon.1, Nat.le_refl _⟩
  · rintro ⟨hpos, hlt⟩
    have hT : q % 256 = q := Nat.mod_eq_of_lt hlt
    refine ⟨fun levels hlen (hhigh : ∀ level ∈ levels, level pin = true) =>
      ⟨?_, fun (hhandler : handler ≠ reactorNullHandle) => ?_⟩,
      fun highs lows hlen (hhigh : ∀ level ∈ highs, level pin = true) hlow => ?_⟩
    · rw [valueAfter_eq, settledOff_highs hstate hhigh, ← hq, hT]
      omega
    · -- the pass after which the threshold is reached
      obtain ⟨l₁, level, l₂, rfl, hl₁⟩ : ∃ l₁ level l₂, levels = l₁ ++ level :: l₂ ∧
          l₁.length + 1 = q := by
        refine ⟨levels.take (q - 1), levels[q - 1], levels.drop (q - 1 + 1), ?_, by simp; omega⟩
        rw [← List.drop_eq_getElem_cons, List.take_append_drop]
      have hnotice : sampleNotice level (sampled (settledOff pin handler filterValue state) l₁) =
          some (handler, pinAndValueAsArg pin true) :=
        settledOff_notice hstate hhandler (by rw [← hq, hT, hl₁])
          fun l hl => hhigh l (by simp at hl ⊢; tauto)
      exact mem_answers_samplePass (by simp) hnotice l₂
    · rw [valueAfter_eq, sampled_append]
      refine sampled_lows ?_ ?_
      · rw [← Bool.not_eq_true, settledOff_highs hstate hhigh, ← hq, hT]
        omega
      · rw [sampled_pin]
        exact hlow

/-- The filter time of the firmware's sampled inputs. -/
theorem filter_works_forty : FilterWorks [settledOff 20 3 0 .unknown, settledOff 21 4 40 .off] 1
    (settledOff 21 4 40 .off) 8 :=
  (@filter_works_iff 21 4 40 .off (by decide) [settledOff 20 3 0 .unknown] []).mpr (by decide)

/-- **A filter of 257 samples** turns the input on with the first high one. -/
theorem filter_works_fails_byte : ¬ FilterWorks [settledOff 21 4 1285 .off] 0
    (settledOff 21 4 1285 .off) (1285 / digitalInputSamplePeriod) := by
  intro h
  have hnot := h.notYet [fun _ => true] [] (by decide) (by simp) (by simp)
  exact absurd hnot (by decide)

end Asx

end CncPneumatics
