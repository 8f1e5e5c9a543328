import CncPneumatics.Asx.DigitalInput
import CncPneumatics.Common.Mailbox
import Mathlib.Data.List.Nodup
/-!
# Inputs that share a handler

A number of inputs can notify one handler, whose queue holds a single
notification. What the handler has shown of an input then is up to date,
or the notification that says so is the one that is queued, unless a
sampling pass overwrites the notification of another input.
-/

namespace CncPneumatics

namespace Asx

variable {handler pin a : ℕ} {dis : List DigitalInput} {di : DigitalInput} {level : ℕ → Bool}
  {shown : ℕ → Bool} {pins q : List ℕ}

/-- The settled value of a pin, off where it never settled. -/
def settledOf (dis : List DigitalInput) (pin : ℕ) : Bool :=
  (dis.find? fun di => di.pin = pin).any digitalInputValue

/-- The notifications of a handler from the inputs that settle in a pass,
in their order. -/
def settlings (level : ℕ → Bool) (dis : List DigitalInput) (handler : ℕ) : List ℕ :=
  (dis.filter fun di => di.handler = handler).filterMap fun di =>
    (settling (level di.pin) di).map (pinAndValueAsArg di.pin)

/-- **A pass notifies a handler** of the inputs of its own that settle. -/
theorem waiting_digitalInputSample (hh : handler ≠ reactorNullHandle) :
    waiting (digitalInputSample level dis).2 handler = settlings level dis handler := by
  rw [digitalInputSample_snd]
  induction dis with
  | nil => rfl
  | cons di dis ih =>
    obtain ⟨hsettles, hvalue⟩ := digitalInputIntegrate_settling di (level di.pin)
    unfold settlings at ih ⊢
    rw [List.filterMap_cons, sampleNotice]
    by_cases hk : di.handler = handler
    · rw [List.filter_cons_of_pos (by simpa using hk), List.filterMap_cons]
      cases hs : settling (level di.pin) di with
      | none =>
        rw [if_neg (fun h => by simpa [hs] using hsettles.mp h.1)]
        exact ih
      | some v =>
        rw [if_pos ⟨hsettles.mpr (by rw [hs]; rfl), hk ▸ hh⟩, hvalue v hs]
        dsimp only
        rw [waiting_cons, if_pos hk, ih]
        rfl
    · rw [List.filter_cons_of_neg (by simpa using hk)]
      split
      · exact ih
      · next n hn =>
        rw [waiting_cons, if_neg, ih]
        rintro rfl
        split at hn
        · obtain rfl := Option.some.inj hn
          exact hk rfl
        · cases hn

/-- The inputs of a table: no two of one pin, and each pin fits into a
notification. -/
structure Distinct (dis : List DigitalInput) : Prop where
  nodup : (dis.map DigitalInput.pin).Nodup
  pin_lt : ∀ di ∈ dis, di.pin < 256

theorem Distinct.unique (h : Distinct dis) {d : DigitalInput} (hd : d ∈ dis) (hdi : di ∈ dis)
    (hpin : d.pin = di.pin) : d = di :=
  List.inj_on_of_nodup_map h.nodup hd hdi hpin

theorem Distinct.integrate (h : Distinct dis) (level : ℕ → Bool) :
    Distinct (dis.map fun di => digitalInputIntegrate di (level di.pin)) where
  nodup := by
    rw [List.map_map]
    simpa [Function.comp_def] using h.nodup
  pin_lt := by
    intro di' hdi'
    obtain ⟨di, hdi, rfl⟩ := List.mem_map.mp hdi'
    rw [digitalInputIntegrate_pin]
    exact h.pin_lt di hdi

/-- The settled value of the pin of an input. -/
theorem Distinct.settledOf (h : Distinct dis) (hdi : di ∈ dis) :
    settledOf dis di.pin = digitalInputValue di := by
  obtain ⟨d, hfind⟩ : ∃ d, dis.find? (fun d => d.pin = di.pin) = some d :=
    Option.isSome_iff_exists.mp (List.find?_isSome.mpr ⟨di, hdi, by simp⟩)
  have hpin : d.pin = di.pin := by simpa using List.find?_some hfind
  rw [Asx.settledOf, hfind, h.unique (List.mem_of_find?_eq_some hfind) hdi hpin]
  rfl

/-- A notification is not lost: the last one about its pin is the last of
all, or says what is shown already. -/
def NoticeKept (outstanding : List ℕ) (shown : Bool) (pin : ℕ) : Prop :=
  ∀ a ∈ (outstanding.filter fun a => argPin a = pin).getLast?,
    outstanding.getLast? = some a ∨ argValue a = shown

instance (outstanding : List ℕ) (shown : Bool) (pin : ℕ) :
    Decidable (NoticeKept outstanding shown pin) := by
  unfold NoticeKept
  infer_instance

/-- **What a handler with a queue of one has shown** of the pins. -/
structure Tracks (dis : List DigitalInput) (handler : ℕ) (shown : ℕ → Bool) (pins q : List ℕ) :
    Prop where
  inputs : ∀ pin ∈ pins, ∃ di ∈ dis, di.pin = pin ∧ di.handler = handler
  length_le : q.length ≤ 1
  /-- A queued notification is about an input of the handler as it is. -/
  queued : ∀ a ∈ q, ∃ di ∈ dis, di.handler = handler ∧
    a = pinAndValueAsArg di.pin (digitalInputValue di)
  /-- What is not shown is queued. -/
  shown : ∀ pin ∈ pins, shown pin = settledOf dis pin ∨
    q = [pinAndValueAsArg pin (settledOf dis pin)]

theorem mem_settlings : a ∈ settlings level dis handler ↔
    ∃ di ∈ dis, di.handler = handler ∧ ∃ v, settling (level di.pin) di = some v ∧
      pinAndValueAsArg di.pin v = a := by
  unfold settlings
  simp only [List.mem_filterMap, List.mem_filter, decide_eq_true_eq, Option.map_eq_some_iff,
    and_assoc]

/-- The last element is also the last of its kind. -/
theorem getLast?_filter {l : List ℕ} {P : ℕ → Bool} (hlast : l.getLast? = some a)
    (ha : P a = true) : (l.filter P).getLast? = some a := by
  obtain ⟨l', rfl⟩ := List.getLast?_eq_some_iff.mp hlast
  rw [List.filter_append, List.filter_cons_of_pos ha, List.filter_nil, List.getLast?_concat]

namespace Tracks

variable (hd : Distinct dis) (h : Tracks dis handler shown pins q)

include hd

/-- A notification of a pass says how an input settled. -/
theorem of_mem_settlings (ha : a ∈ settlings level dis handler) :
    ∃ di ∈ dis, di.handler = handler ∧ argPin a = di.pin ∧
      a = pinAndValueAsArg di.pin (digitalInputValue (digitalInputIntegrate di (level di.pin))) := by
  obtain ⟨di, hdi, hk, v, hv, rfl⟩ := mem_settlings.mp ha
  refine ⟨di, hdi, hk, argPin_pinAndValueAsArg (hd.pin_lt di hdi) v, ?_⟩
  rw [(digitalInputIntegrate_settling _ _).2 v hv]

/-- An input that no notification of a pass is about keeps its value. -/
theorem value_of_none (hdi : di ∈ dis) (hk : di.handler = handler)
    (hnone : ∀ a ∈ settlings level dis handler, argPin a ≠ di.pin) :
    digitalInputValue (digitalInputIntegrate di (level di.pin)) = digitalInputValue di := by
  have hsame : ¬ (digitalInputIntegrate di (level di.pin)).input ≠ di.input := by
    rw [(digitalInputIntegrate_settling _ _).1]
    intro hsome
    obtain ⟨v, hv⟩ := Option.isSome_iff_exists.mp hsome
    exact hnone _ (mem_settlings.mpr ⟨di, hdi, hk, v, hv, rfl⟩)
      (argPin_pinAndValueAsArg (hd.pin_lt di hdi) v)
  rw [digitalInputValue, not_not.mp hsame, digitalInputValue]

include h

/-- What is outstanding is about inputs of the handler. -/
theorem input_of_outstanding (ha : a ∈ q ++ settlings level dis handler) :
    ∃ di ∈ dis, di.handler = handler ∧ argPin a = di.pin := by
  rcases List.mem_append.mp ha with ha | ha
  · obtain ⟨di, hdi, hk, heq⟩ := h.queued a ha
    exact ⟨di, hdi, hk, by rw [heq, argPin_pinAndValueAsArg (hd.pin_lt di hdi)]⟩
  · obtain ⟨di, hdi, hk, hpin, -⟩ := of_mem_settlings hd ha
    exact ⟨di, hdi, hk, hpin⟩

/-- **The last notification about a pin**, queued or of the pass, says how
its input is after the pass. -/
theorem last_says (hdi : di ∈ dis) (hk : di.handler = handler)
    (ha : a ∈ ((q ++ settlings level dis handler).filter fun a => argPin a = di.pin).getLast?) :
    a = pinAndValueAsArg di.pin (digitalInputValue (digitalInputIntegrate di (level di.pin))) := by
  rw [List.filter_append, List.getLast?_append] at ha
  cases hlast : ((settlings level dis handler).filter fun a => argPin a = di.pin).getLast? with
  | some b =>
    rw [hlast, Option.some_or] at ha
    obtain rfl := Option.mem_some_iff.mp ha
    have hb := List.mem_of_getLast? hlast
    rw [List.mem_filter, decide_eq_true_eq] at hb
    obtain ⟨d, hmem, -, hpin, heq⟩ := of_mem_settlings hd hb.1
    rw [hd.unique hmem hdi (hpin.symm.trans hb.2)] at heq
    exact heq
  | none =>
    rw [hlast, Option.none_or] at ha
    rw [List.getLast?_eq_none_iff, List.filter_eq_nil_iff] at hlast
    rw [value_of_none hd hdi hk fun b hb => by simpa using hlast b hb]
    have hq := List.mem_of_getLast? ha
    rw [List.mem_filter, decide_eq_true_eq] at hq
    obtain ⟨d, hmem, -, heq⟩ := h.queued a hq.1
    have hpin : argPin a = d.pin := by rw [heq, argPin_pinAndValueAsArg (hd.pin_lt d hmem)]
    rw [hd.unique hmem hdi (hpin.symm.trans hq.2)] at heq
    exact heq

/-- **A sampling pass** that loses no notification. -/
theorem pass
    (hkept : ∀ pin ∈ pins, NoticeKept (q ++ settlings level dis handler) (shown pin) pin) :
    Tracks (dis.map fun di => digitalInputIntegrate di (level di.pin)) handler shown pins
      (q ++ settlings level dis handler).getLast?.toList where
  inputs := by
    intro pin hpin
    obtain ⟨di, hdi, rfl, hk⟩ := h.inputs pin hpin
    exact ⟨_, List.mem_map_of_mem hdi, digitalInputIntegrate_pin _,
      by rw [digitalInputIntegrate_handler, hk]⟩
  length_le := by cases (q ++ settlings level dis handler).getLast? <;> simp
  queued := by
    intro a ha
    have hlast : (q ++ settlings level dis handler).getLast? = some a := by
      simpa [Option.mem_toList] using ha
    obtain ⟨di, hdi, hk, hpin⟩ := input_of_outstanding hd h (List.mem_of_getLast? hlast)
    refine ⟨_, List.mem_map_of_mem hdi, by rw [digitalInputIntegrate_handler, hk], ?_⟩
    rw [digitalInputIntegrate_pin]
    exact last_says hd h hdi hk (getLast?_filter hlast (by simpa using hpin))
  shown := by
    intro pin hpin
    obtain ⟨di, hdi, rfl, hk⟩ := h.inputs pin hpin
    have hsettled : settledOf (dis.map fun di => digitalInputIntegrate di (level di.pin)) di.pin =
        digitalInputValue (digitalInputIntegrate di (level di.pin)) := by
      have := (hd.integrate level).settledOf (List.mem_map_of_mem hdi)
      rwa [digitalInputIntegrate_pin] at this
    rw [hsettled]
    cases hlast : ((q ++ settlings level dis handler).filter
        fun a => argPin a = di.pin).getLast? with
    | some a =>
      have hreads := last_says hd h hdi hk hlast
      rcases hkept di.pin hpin a hlast with heq | heq
      · rw [heq, hreads]
        exact .inr rfl
      · rw [hreads, argValue_pinAndValueAsArg (hd.pin_lt di hdi)] at heq
        exact .inl heq.symm
    | none =>
      -- nothing is outstanding about this pin, so it is shown as it was and is
      rw [List.getLast?_eq_none_iff, List.filter_eq_nil_iff] at hlast
      have hnone : ∀ a ∈ q ++ settlings level dis handler, argPin a ≠ di.pin :=
        fun a ha => by simpa using hlast a ha
      rw [value_of_none hd hdi hk fun a ha => hnone a (by simp [ha]), ← hd.settledOf hdi]
      refine .inl ((h.shown di.pin hpin).resolve_right fun hq => ?_)
      refine hnone (pinAndValueAsArg di.pin (Asx.settledOf dis di.pin)) (by simp [hq]) ?_
      exact argPin_pinAndValueAsArg (hd.pin_lt di hdi) _

/-- **A pass that loses a notification** leaves the one of another pin in
the queue, and the pin is not shown as it is. -/
theorem lost (hdi : di ∈ dis) (hk : di.handler = handler)
    (hlost : ¬ NoticeKept (q ++ settlings level dis handler) (shown di.pin) di.pin) :
    ∃ b, (q ++ settlings level dis handler).getLast?.toList = [b] ∧ argPin b ≠ di.pin ∧
      shown di.pin ≠
        settledOf (dis.map fun di => digitalInputIntegrate di (level di.pin)) di.pin := by
  have hsettled := (hd.integrate level).settledOf (List.mem_map_of_mem hdi)
  rw [digitalInputIntegrate_pin] at hsettled
  unfold NoticeKept at hlost
  push Not at hlost
  obtain ⟨a, ha, hne, hvalue⟩ := hlost
  have hreads := last_says hd h hdi hk ha
  cases hlast : (q ++ settlings level dis handler).getLast? with
  | none =>
    rw [List.getLast?_eq_none_iff] at hlast
    rw [hlast] at ha
    cases ha
  | some b =>
    refine ⟨b, rfl, fun hpin => ?_, fun heq => ?_⟩
    · have hb := getLast?_filter (P := fun a => argPin a = di.pin) hlast (by simpa using hpin)
      rw [hb, Option.mem_some_iff] at ha
      exact hne (ha ▸ hlast)
    · rw [hreads, argValue_pinAndValueAsArg (hd.pin_lt di hdi)] at hvalue
      exact hvalue (hsettled.symm.trans heq.symm)

/-- **Handling the notification** that is queued. -/
theorem handled {rest : List ℕ} (hq : q = a :: rest) {shown' : ℕ → Bool}
    (hshown : ∀ pin ∈ pins, shown' pin = if argPin a = pin then argValue a else shown pin) :
    rest = [] ∧ Tracks dis handler shown' pins rest := by
  subst hq
  obtain rfl : rest = [] := by
    have := h.length_le
    simpa using this
  obtain ⟨di, hdi, -, rfl⟩ := h.queued a (by simp)
  have hlt := hd.pin_lt di hdi
  refine ⟨rfl, h.inputs, by simp, by simp, fun pin hpin => .inl ?_⟩
  rw [hshown pin hpin, argPin_pinAndValueAsArg hlt, argValue_pinAndValueAsArg hlt]
  split
  · next heq => rw [← heq, hd.settledOf hdi]
  · next hne =>
    refine (h.shown pin hpin).resolve_right fun heq => hne ?_
    obtain ⟨d, hmem, rfl, -⟩ := h.inputs pin hpin
    have hargs := congrArg argPin (List.cons.inj heq).1
    rwa [argPin_pinAndValueAsArg hlt, argPin_pinAndValueAsArg (hd.pin_lt d hmem)] at hargs

end Tracks

/-- What is shown counts for the pins only. -/
theorem Tracks.congr (h : Tracks dis handler shown pins q) {shown' : ℕ → Bool}
    (hshown : ∀ pin ∈ pins, shown' pin = shown pin) : Tracks dis handler shown' pins q :=
  ⟨h.inputs, h.length_le, h.queued, fun pin hpin => by rw [hshown pin hpin]; exact h.shown pin hpin⟩

end Asx

end CncPneumatics
