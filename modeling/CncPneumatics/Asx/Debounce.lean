import CncPneumatics.Asx.DigitalInput
import CncPneumatics.Common.Run
import Mathlib.Data.List.Chain
/-!
# Debouncing

The sampled inputs over any sequence of samples. The integrator and the
state reported stay linked: the integrator is at the top of its range only
while the input is on, and at the bottom only while it is not. Since one
sample moves it by one, changes of state are as far apart as the range is
wide.
-/

namespace CncPneumatics

namespace Asx

/-- One pass of `_digital_input_sample` over the inputs, with the
notifications it makes. -/
def samplePass (dis : List DigitalInput) (level : ℕ → Bool) : List (ℕ × ℕ) × List DigitalInput :=
  ((digitalInputSample level dis).2, (digitalInputSample level dis).1)

/-- The values that passes notified, each with the place of its pass. -/
def reports (passes : List (List (ℕ × ℕ))) : List (ℕ × Bool) :=
  passes.zipIdx.flatMap fun p => p.1.map fun n => (p.2, argValue n.2)

/-- **What reports look like**, for an integrator with the range `T`: they
alternate, are `T` samples apart, and the first one that says on comes
with the `T`-th sample or later. -/
structure Debounced (T : ℕ) (reports : List (ℕ × Bool)) : Prop where
  alternate : reports.IsChain fun r r' => r.2 ≠ r'.2 ∧ r.1 + T ≤ r'.1
  late : ∀ r ∈ reports, r.2 = true → T ≤ r.1 + 1

/-- How the integrator stands to the reports made in `n` samples. -/
def Linked (n : ℕ) (di : DigitalInput) (reports : List (ℕ × Bool)) : Prop :=
  match di.input with
  | .unknown => di.integrator < di.integratorThreshold ∧ di.integrator ≤ n ∧ reports = []
  | .on => 0 < di.integrator ∧ di.integrator ≤ di.integratorThreshold ∧
      ∃ k, reports.getLast? = some (k, true) ∧ k + 1 + di.integratorThreshold ≤ di.integrator + n
  | .off => di.integrator < di.integratorThreshold ∧
      ∃ k, reports.getLast? = some (k, false) ∧ k + 1 + di.integrator ≤ n

variable {di : DigitalInput} {n T : ℕ} {rs : List (ℕ × Bool)} {level : Bool}

@[simp] theorem digitalInputIntegrate_integratorThreshold :
    (digitalInputIntegrate di level).integratorThreshold = di.integratorThreshold := by
  unfold digitalInputIntegrate
  dsimp only
  split_ifs <;> rfl

/-- One more report. -/
theorem Debounced.concat {r : ℕ × Bool} (h : Debounced T rs)
    (hr : ∀ r' ∈ rs.getLast?, r'.2 ≠ r.2 ∧ r'.1 + T ≤ r.1) (hlate : r.2 = true → T ≤ r.1 + 1) :
    Debounced T (rs ++ [r]) where
  alternate := by
    refine List.isChain_append.mpr ⟨h.alternate, .singleton r, fun r' hr' q hq => ?_⟩
    obtain rfl : r = q := by simpa using hq
    exact hr r' hr'
  late := by
    intro q hq
    rcases List.mem_append.mp hq with hq | hq
    · exact h.late q hq
    · rw [List.mem_singleton.mp hq]; exact hlate

/-! ## One sample -/

theorem integrate_high_lt (h : di.integrator + 1 < di.integratorThreshold) :
    digitalInputIntegrate di true = { di with integrator := di.integrator + 1 } ∧
      settling true di = none := by
  have hne : ¬ di.integrator + 1 = di.integratorThreshold := by omega
  simp [digitalInputIntegrate, settling, hne, show di.integrator < di.integratorThreshold by omega]

theorem integrate_high_top (h : di.integrator + 1 = di.integratorThreshold) :
    digitalInputIntegrate di true = { di with integrator := di.integrator + 1, input := .on } ∧
      settling true di = if di.input = .on then none else some true := by
  simp [digitalInputIntegrate, settling, h, show di.integrator < di.integratorThreshold by omega]

theorem integrate_high_rest (h : di.integratorThreshold ≤ di.integrator) :
    digitalInputIntegrate di true = di ∧ settling true di = none := by
  have hne : ¬ di.integrator + 1 = di.integratorThreshold := by omega
  simp [digitalInputIntegrate, settling, hne, show ¬ di.integrator < di.integratorThreshold by omega]

theorem integrate_low_lt (h : 1 < di.integrator) :
    digitalInputIntegrate di false = { di with integrator := di.integrator - 1 } ∧
      settling false di = none := by
  simp [digitalInputIntegrate, settling, show di.integrator ≠ 0 by omega,
    show di.integrator ≠ 1 by omega, show ¬ di.integrator - 1 = 0 by omega]

theorem integrate_low_bottom (h : di.integrator = 1) :
    digitalInputIntegrate di false = { di with integrator := 0, input := .off } ∧
      settling false di = if di.input = .off then none else some false := by
  simp [digitalInputIntegrate, settling, h]

theorem integrate_low_rest (h : di.integrator = 0) :
    digitalInputIntegrate di false = di ∧ settling false di = none := by
  simp [digitalInputIntegrate, settling, h]

/-- Where the integrator is says what the input reports. -/
theorem Linked.range (h : Linked n di rs) :
    di.integrator ≤ di.integratorThreshold ∧
      (di.integrator = di.integratorThreshold → di.input = .on) ∧
      (di.integrator = 0 → di.input = .off ∨ di.input = .unknown) := by
  unfold Linked at h
  cases hi : di.input with
  | unknown =>
    rw [hi] at h
    exact ⟨h.1.le, fun htop => absurd htop h.1.ne, fun _ => .inr rfl⟩
  | on =>
    rw [hi] at h
    exact ⟨h.2.1, fun _ => rfl, fun hbottom => absurd hbottom h.1.ne'⟩
  | off =>
    rw [hi] at h
    exact ⟨h.1.le, fun htop => absurd htop h.1.ne, fun _ => .inl rfl⟩

/-- Where nothing settles the link goes on: the integrator moves by one at
most, to where the input says the same. -/
theorem Linked.move {v : ℕ} (h : Linked n di rs) (hup : v ≤ di.integrator + 1)
    (hdown : di.integrator ≤ v + 1) (hle : v ≤ di.integratorThreshold)
    (hon : di.input = .on → 0 < v) (hoff : di.input ≠ .on → v < di.integratorThreshold) :
    Linked (n + 1) { di with integrator := v } rs := by
  unfold Linked at h ⊢
  dsimp only
  cases hi : di.input with
  | unknown =>
    rw [hi] at h
    exact ⟨hoff (by simp [hi]), by omega, h.2.2⟩
  | on =>
    rw [hi] at h
    obtain ⟨-, -, k, hk, hfar⟩ := h
    exact ⟨hon hi, hle, k, hk, by omega⟩
  | off =>
    rw [hi] at h
    obtain ⟨-, k, hk, hfar⟩ := h
    exact ⟨hoff (by simp [hi]), k, hk, by omega⟩

/-- The input settles on: the last report said off, or there is none. -/
theorem Linked.settle_on (h : Linked n di rs) (hd : Debounced di.integratorThreshold rs)
    (htop : di.integrator + 1 = di.integratorThreshold) (hi : di.input ≠ .on) :
    Linked (n + 1) { di with integrator := di.integrator + 1, input := .on } (rs ++ [(n, true)]) ∧
      Debounced di.integratorThreshold (rs ++ [(n, true)]) := by
  have hlink : Linked (n + 1) { di with integrator := di.integrator + 1, input := .on }
      (rs ++ [(n, true)]) := ⟨Nat.succ_pos _, htop.le, n, List.getLast?_concat, by dsimp only; omega⟩
  unfold Linked at h
  cases hinput : di.input with
  | unknown =>
    rw [hinput] at h
    obtain ⟨-, hle, rfl⟩ := h
    exact ⟨hlink, hd.concat (by simp) fun _ => by dsimp only; omega⟩
  | on => exact absurd hinput hi
  | off =>
    rw [hinput] at h
    obtain ⟨-, k, hk, hfar⟩ := h
    refine ⟨hlink, hd.concat (fun r hr => ?_) fun _ => by dsimp only; omega⟩
    rw [hk, Option.mem_some_iff] at hr
    subst hr
    exact ⟨by simp, by dsimp only; omega⟩

/-- The input settles off: the last report said on, or there is none. -/
theorem Linked.settle_off (h : Linked n di rs) (hd : Debounced di.integratorThreshold rs)
    (hbottom : di.integrator = 1) (hi : di.input ≠ .off) :
    Linked (n + 1) { di with integrator := 0, input := .off } (rs ++ [(n, false)]) ∧
      Debounced di.integratorThreshold (rs ++ [(n, false)]) := by
  have hpos : 0 < di.integratorThreshold := by
    have := h.range.1
    omega
  have hlink : Linked (n + 1) { di with integrator := 0, input := .off } (rs ++ [(n, false)]) :=
    ⟨hpos, n, List.getLast?_concat, by dsimp only; omega⟩
  unfold Linked at h
  cases hinput : di.input with
  | unknown =>
    rw [hinput] at h
    obtain ⟨-, -, rfl⟩ := h
    exact ⟨hlink, hd.concat (by simp) (by simp)⟩
  | on =>
    rw [hinput] at h
    obtain ⟨-, -, k, hk, hfar⟩ := h
    refine ⟨hlink, hd.concat (fun r hr => ?_) (by simp)⟩
    rw [hk, Option.mem_some_iff] at hr
    subst hr
    exact ⟨by simp, by dsimp only; omega⟩
  | off => exact absurd hinput hi

/-- **One sample** keeps the link, and adds a report where the input
settles. -/
theorem Linked.integrate (hl : Linked n di rs) (hd : Debounced di.integratorThreshold rs)
    (level : Bool) :
    Linked (n + 1) (digitalInputIntegrate di level) (rs ++ (settling level di).toList.map (n, ·)) ∧
      Debounced di.integratorThreshold (rs ++ (settling level di).toList.map (n, ·)) := by
  obtain ⟨hle, htopOn, hbottomOff⟩ := hl.range
  -- at either end the integrator rests, and the link only gets older
  have hrests : Linked (n + 1) di rs :=
    hl.move (Nat.le_succ _) (Nat.le_succ _) hle
      (fun hi => Nat.pos_of_ne_zero fun hzero => by rcases hbottomOff hzero with h | h <;> simp [h] at hi)
      fun hi => hle.lt_of_ne fun htop => hi (htopOn htop)
  cases level with
  | true =>
    rcases Nat.lt_trichotomy (di.integrator + 1) di.integratorThreshold with hlt | htop | hrest
    · obtain ⟨heq, hset⟩ := integrate_high_lt hlt
      rw [heq, hset, Option.toList_none, List.map_nil, List.append_nil]
      exact ⟨hl.move le_rfl (by omega) hlt.le (fun _ => Nat.succ_pos _) fun _ => hlt, hd⟩
    · obtain ⟨heq, hset⟩ := integrate_high_top htop
      rw [heq, hset]
      by_cases hi : di.input = .on
      · rw [if_pos hi, Option.toList_none, List.map_nil, List.append_nil, ← hi]
        exact ⟨hl.move le_rfl (by omega) htop.le (fun _ => Nat.succ_pos _) fun h => absurd hi h, hd⟩
      · rw [if_neg hi]
        exact hl.settle_on hd htop hi
    · obtain ⟨heq, hset⟩ := integrate_high_rest (show di.integratorThreshold ≤ di.integrator by omega)
      rw [heq, hset, Option.toList_none, List.map_nil, List.append_nil]
      exact ⟨hrests, hd⟩
  | false =>
    rcases Nat.lt_trichotomy di.integrator 1 with hrest | hbottom | hlt
    · obtain ⟨heq, hset⟩ := integrate_low_rest (show di.integrator = 0 by omega)
      rw [heq, hset, Option.toList_none, List.map_nil, List.append_nil]
      exact ⟨hrests, hd⟩
    · obtain ⟨heq, hset⟩ := integrate_low_bottom hbottom
      rw [heq, hset]
      by_cases hi : di.input = .off
      · rw [if_pos hi, Option.toList_none, List.map_nil, List.append_nil, ← hi]
        exact ⟨hl.move (by omega) (by omega) (by omega) (fun h => by simp [hi] at h) fun _ => by omega,
          hd⟩
      · rw [if_neg hi]
        exact hl.settle_off hd hbottom hi
    · obtain ⟨heq, hset⟩ := integrate_low_lt hlt
      rw [heq, hset, Option.toList_none, List.map_nil, List.append_nil]
      exact ⟨hl.move (by omega) (by omega) (by omega) (fun _ => by omega) fun _ => by omega, hd⟩

/-! ## Any number of samples -/

/-- An input after passes at the given levels of the pins. -/
def sampled (di : DigitalInput) (levels : List (ℕ → Bool)) : DigitalInput :=
  levels.foldl (fun di level => digitalInputIntegrate di (level di.pin)) di

variable {levels : List (ℕ → Bool)} {pin handler filterValue : ℕ}

@[simp] theorem sampled_pin : (sampled di levels).pin = di.pin := by
  unfold sampled
  induction levels generalizing di with
  | nil => rfl
  | cons level levels ih => rw [List.foldl_cons, ih, digitalInputIntegrate_pin]

@[simp] theorem sampled_handler : (sampled di levels).handler = di.handler := by
  unfold sampled
  induction levels generalizing di with
  | nil => rfl
  | cons level levels ih => rw [List.foldl_cons, ih, digitalInputIntegrate_handler]

@[simp] theorem sampled_integratorThreshold :
    (sampled di levels).integratorThreshold = di.integratorThreshold := by
  unfold sampled
  induction levels generalizing di with
  | nil => rfl
  | cons level levels ih => rw [List.foldl_cons, ih, digitalInputIntegrate_integratorThreshold]

theorem sampled_concat (level : ℕ → Bool) : sampled di (levels ++ [level]) =
    digitalInputIntegrate (sampled di levels) (level di.pin) := by
  have hpin : (sampled di levels).pin = di.pin := sampled_pin
  rw [← hpin, sampled, List.foldl_append]
  rfl

theorem sampled_append (levels' : List (ℕ → Bool)) :
    sampled di (levels ++ levels') = sampled (sampled di levels) levels' := List.foldl_append

/-- High samples count up to the top. -/
theorem le_sampled_of_high (hhigh : ∀ level ∈ levels, level di.pin = true) :
    min di.integratorThreshold (di.integrator + levels.length) ≤ (sampled di levels).integrator := by
  induction levels using List.reverseRecOn with
  | nil => exact min_le_right _ _
  | append_singleton levels level ih =>
    have hmin := ih fun l hl => hhigh l (List.mem_append_left _ hl)
    have hT : (sampled di levels).integratorThreshold = di.integratorThreshold :=
      sampled_integratorThreshold
    rw [sampled_concat, hhigh level (by simp), List.length_append, List.length_singleton]
    rcases Nat.lt_trichotomy ((sampled di levels).integrator + 1)
      (sampled di levels).integratorThreshold with hlt | htop | hrest
    · rw [(integrate_high_lt hlt).1]; dsimp only; omega
    · rw [(integrate_high_top htop).1]; dsimp only; omega
    · rw [(integrate_high_rest (by omega)).1]; omega

/-- Low samples count down to the bottom. -/
theorem sampled_le_of_low (hlow : ∀ level ∈ levels, level di.pin = false) :
    (sampled di levels).integrator ≤ di.integrator - levels.length := by
  induction levels using List.reverseRecOn with
  | nil => exact le_rfl
  | append_singleton levels level ih =>
    have hle := ih fun l hl => hlow l (List.mem_append_left _ hl)
    rw [sampled_concat, hlow level (by simp), List.length_append, List.length_singleton]
    rcases Nat.lt_trichotomy (sampled di levels).integrator 1 with hrest | hbottom | hlt
    · rw [(integrate_low_rest (by omega)).1]; omega
    · rw [(integrate_low_bottom hbottom).1]; dsimp only; omega
    · rw [(integrate_low_lt hlt).1]; dsimp only; omega

theorem reports_concat (passes : List (List (ℕ × ℕ))) (pass : List (ℕ × ℕ)) :
    reports (passes ++ [pass]) =
      reports passes ++ pass.map fun n => (passes.length, argValue n.2) := by
  simp [reports, List.zipIdx_append]

/-- A pass over a single input notifies the value it settles with. -/
theorem samplePass_single (di : DigitalInput) (level : ℕ → Bool) :
    samplePass [di] level = (if di.handler ≠ reactorNullHandle then
        (settling (level di.pin) di).toList.map fun v => (di.handler, pinAndValueAsArg di.pin v)
      else [], [digitalInputIntegrate di (level di.pin)]) := by
  obtain ⟨hsettles, hvalue⟩ := digitalInputIntegrate_settling di (level di.pin)
  rw [samplePass, digitalInputSample_snd, digitalInputSample_fst, List.map_singleton,
    List.filterMap_cons, List.filterMap_nil, sampleNotice]
  refine Prod.ext ?_ rfl
  dsimp only
  cases hs : settling (level di.pin) di with
  | none =>
    rw [if_neg (fun h => by simpa [hs] using hsettles.mp h.1)]
    split_ifs <;> rfl
  | some v =>
    have hchange := hsettles.mpr (by rw [hs]; rfl)
    by_cases hk : di.handler ≠ reactorNullHandle
    · rw [if_pos ⟨hchange, hk⟩, if_pos hk, hvalue v hs]; rfl
    · rw [if_neg (fun h => hk h.2), if_neg hk]

/-- **The run law**: any number of passes leave the integrator linked to
the reports, which look as they should and are all that is notified. -/
theorem answers_samplePass (hpin : di.pin < 256) (hstart : Linked 0 di [])
    (levels : List (ℕ → Bool)) : ∃ passes rs,
    answers samplePass levels [di] = (passes, [sampled di levels]) ∧
      passes.length = levels.length ∧
      (∀ pass ∈ passes, ∀ n ∈ pass, n.1 = di.handler ∧ argPin n.2 = di.pin) ∧
      Linked levels.length (sampled di levels) rs ∧ Debounced di.integratorThreshold rs ∧
      reports passes = if di.handler ≠ reactorNullHandle then rs else [] := by
  induction levels using List.reverseRecOn with
  | nil =>
    exact ⟨[], [], rfl, rfl, by simp, hstart, ⟨.nil, by simp⟩, by split_ifs <;> rfl⟩
  | append_singleton levels level ih =>
    obtain ⟨passes, rs, hans, hlen, hown, hlink, hdeb, hrep⟩ := ih
    have hT : (sampled di levels).integratorThreshold = di.integratorThreshold :=
      sampled_integratorThreshold
    obtain ⟨hlink', hdeb'⟩ := hlink.integrate (hT ▸ hdeb) (level di.pin)
    rw [hT] at hdeb'
    have hpass := samplePass_single (sampled di levels) level
    rw [sampled_pin, sampled_handler] at hpass
    refine ⟨passes ++ [(samplePass [sampled di levels] level).1], _, ?_, ?_, ?_, ?_, hdeb', ?_⟩
    · rw [answers_append, hans, sampled_concat]
      dsimp only [answers]
      rw [hpass]
    · rw [List.length_append, List.length_append, hlen, List.length_singleton,
        List.length_singleton]
    · intro pass hmem n hn
      -- what the last pass notifies is the report that it adds
      rw [hpass] at hmem
      rcases List.mem_append.mp hmem with hmem | hmem
      · exact hown pass hmem n hn
      · obtain rfl := List.mem_singleton.mp hmem
        split_ifs at hn with hk
        · obtain ⟨v, -, rfl⟩ := List.mem_map.mp hn
          exact ⟨rfl, argPin_pinAndValueAsArg hpin v⟩
        · cases hn
    · rw [sampled_concat, List.length_append, List.length_singleton]
      exact hlink'
    · rw [reports_concat, hrep, hlen, hpass]
      by_cases hk : di.handler ≠ reactorNullHandle
      · rw [if_pos hk, if_pos hk, if_pos hk, List.map_map]
        refine congrArg _ (List.map_congr_left fun v _ => ?_)
        rw [Function.comp_apply, argValue_pinAndValueAsArg hpin]
      · rw [if_neg hk, if_neg hk, if_neg hk]; rfl

/-- **The debounce law.** Through any passes over an input with the
threshold `T`, from its initial state: the integrator stays in its range,
at the top only while the input is on and at the bottom only while it is
off or unknown; all that is notified goes to the handler of the input and
names its pin, in reports that alternate, are `T` samples apart and say on
no earlier than the `T`-th sample; and `T` high samples in a row make the
value true, `T` low ones false. -/
theorem debounce_law (hpin : pin < 256) (hT : 0 < T)
    (hfilter : (digitalInput pin handler filterValue).integratorThreshold = T)
    (levels : List (ℕ → Bool)) : ∃ passes di,
    answers samplePass levels [digitalInput pin handler filterValue] = (passes, [di]) ∧
      (di.integrator ≤ T ∧ (di.integrator = T → di.input = .on) ∧
        (di.integrator = 0 → di.input = .off ∨ di.input = .unknown)) ∧
      (∀ pass ∈ passes, ∀ n ∈ pass, n.1 = handler ∧ argPin n.2 = pin) ∧
      Debounced T (reports passes) ∧
      ∀ before last, levels = before ++ last → last.length = T →
        ((∀ level ∈ last, level pin = true) → digitalInputValue di = true) ∧
        ((∀ level ∈ last, level pin = false) → digitalInputValue di = false) := by
  set first := digitalInput pin handler filterValue with hfirst
  have hstart : Linked 0 first [] := ⟨by rw [hfilter]; exact hT, le_rfl, rfl⟩
  obtain ⟨passes, rs, hans, -, hown, hlink, hdeb, hrep⟩ := answers_samplePass hpin hstart levels
  have hrange := hlink.range
  rw [sampled_integratorThreshold, hfilter] at hrange
  refine ⟨passes, _, hans, hrange, hown, ?_, ?_⟩
  · rw [hrep, ← hfilter]
    split_ifs
    · exact hdeb
    · exact ⟨.nil, by simp⟩
  · rintro before last rfl hlen
    rw [sampled_append] at hrange ⊢
    set mid := sampled first before with hmid
    have hmidT : mid.integratorThreshold = T := by rw [hmid, sampled_integratorThreshold, hfilter]
    have hmidpin : mid.pin = pin := by rw [hmid, sampled_pin, hfirst]; rfl
    obtain ⟨hle, htop, hbottom⟩ := hrange
    constructor
    · intro hhigh
      have := le_sampled_of_high (show ∀ level ∈ last, level mid.pin = true by rwa [hmidpin])
      rw [digitalInputValue, htop (by omega)]; rfl
    · intro hlow
      obtain ⟨-, _, _, _, _, hlinkmid, -, -⟩ := answers_samplePass hpin hstart before
      have := sampled_le_of_low (show ∀ level ∈ last, level mid.pin = false by rwa [hmidpin])
      have hmidle := hlinkmid.range.1
      rw [← hmid, hmidT] at hmidle
      rw [digitalInputValue]
      rcases hbottom (by omega) with h | h <;> rw [h] <;> rfl

/-- A bouncing pin, for an input with the threshold 2. -/
def bouncing : List (ℕ → Bool) :=
  [true, false, true, true, false, true, true, false, false].map fun level _ => level

theorem debounce_law_bouncing : ∃ passes di,
    answers samplePass bouncing [digitalInput 5 3 10] = (passes, [di]) ∧
      (di.integrator ≤ 2 ∧ (di.integrator = 2 → di.input = .on) ∧
        (di.integrator = 0 → di.input = .off ∨ di.input = .unknown)) ∧
      (∀ pass ∈ passes, ∀ n ∈ pass, n.1 = 3 ∧ argPin n.2 = 5) ∧
      Debounced 2 (reports passes) ∧
      ∀ before last, bouncing = before ++ last → last.length = 2 →
        ((∀ level ∈ last, level 5 = true) → digitalInputValue di = true) ∧
        ((∀ level ∈ last, level 5 = false) → digitalInputValue di = false) :=
  debounce_law (by decide) (by decide) (by decide) bouncing

example : reports (answers samplePass bouncing [digitalInput 5 3 10]).1 =
    [(1, false), (3, true), (8, false)] := by decide

end Asx

end CncPneumatics
