import CncPneumatics.Boards.Wire
import CncPneumatics.Controller.Following
import CncPneumatics.Hub.Receipt
/-!
# Commands on their way

A command goes from the controller over the wire into the queue of the hub
and from there to the protocol. Each stage is a relay. The wire may alter
a byte: one altered bit makes no command of another, so the hub takes no
command that was not sent.
-/

namespace CncPneumatics

open Asx

namespace Boards

variable {fuel : ℕ} {s s' s₁ : State} {e : Event} {h h₁ h₂ : List (State × Event)}
  {p : State × Event} {P : UInt8 → Bool}

/-! ## What a history says -/

/-- The command that the step sends. -/
def sent (p : State × Event) : Option Opcode :=
  match p.2 with
  | .controller e =>
    if Controller.sendsOn p.1.controller e then some p.1.controller.currentCommand else none
  | _ => none

/-- The byte that the step brings to the hub. -/
def delivered (p : State × Event) : Option UInt8 :=
  match p.2 with
  | .wire => arriving p.1.line
  | _ => none

/-- The bits of the byte on the line that are flipped, after one more
step. -/
def flipsAfter (flips : UInt8) (p : State × Event) : UInt8 :=
  match p.2 with
  | .noise bits => flips ^^^ bits
  | .wire => 0
  | _ => flips

/-- The bits of the byte on the line that are flipped. -/
def flips (h : List (State × Event)) : UInt8 := h.foldl flipsAfter 0

@[simp] theorem flips_concat : flips (h ++ [p]) = flipsAfter (flips h) p := by
  rw [flips, List.foldl_append]
  rfl

/-- Without noise none are. -/
theorem flips_of_quiet (hq : ∀ p ∈ h, ∀ bits, p.2 ≠ .noise bits) : flips h = 0 := by
  induction h using List.reverseRecOn with
  | nil => rfl
  | append_singleton h p ih =>
    obtain ⟨s, e⟩ := p
    rw [flips_concat, ih fun q hmem => hq q (by simp [hmem])]
    cases e with
    | noise bits => exact absurd rfl (hq (s, .noise bits) (by simp) bits)
    | _ => rfl

/-- The events of a list are quiet when none of them is noise. -/
def quietEvents (es : List Event) : Bool :=
  es.all fun e => match e with
    | .noise _ => false
    | _ => true

theorem quiet_of_events (hq : quietEvents (h.map Prod.snd) = true) {h' : List (State × Event)}
    (hh' : h' <+: h) : ∀ p ∈ h', ∀ bits, p.2 ≠ .noise bits := by
  intro p hp bits heq
  have := List.all_eq_true.mp hq p.2 (List.mem_map_of_mem (hh'.subset hp))
  rw [heq] at this
  cases this

/-- At most one bit. -/
def slight : List UInt8 := [0, 1, 2, 4, 8, 16, 32, 64, 128]

/-- **One altered bit makes no command of another.** -/
theorem eq_zero_of_slight {c : Opcode} {flips : UInt8} (hc : c ∈ Controller.sentCommands)
    (hf : flips ∈ slight) (hv : Hub.isValid (c ^^^ flips) = true) : flips = 0 := by
  have hall : (Controller.sentCommands.all fun c => slight.all fun flips =>
      !Hub.isValid (c ^^^ flips) || flips == 0) = true := by decide
  have h := List.all_eq_true.mp (List.all_eq_true.mp hall c hc) flips hf
  rw [hv, Bool.not_true, Bool.false_or] at h
  exact eq_of_beq h

/-- Two can. -/
example : Hub.isValid (opcodesCmdPullDoor ^^^ 0b01000010) = true := by decide

/-! ## On the wire -/

/-- The command that is on its way to the hub. -/
def inflight (s : State) : List Opcode :=
  if s.controller.transfer.locked &&
      (s.controller.transfer.addrCount = 0 || (arriving s.line).isSome) then
    [s.controller.lastSent]
  else []

/-- **The byte on the line** is the command that was sent last, but for the
noise. -/
structure Carries (h : List (State × Event)) (s : State) : Prop where
  command : s.controller.transfer.locked = true →
    s.controller.lastSent ∈ Controller.sentCommands
  byte : ∀ data, arriving s.line = some data → data = s.controller.lastSent ^^^ flips h

theorem Carries.same (hc : Carries h s) (htransfer : s'.controller.transfer.locked = true →
      s.controller.transfer.locked = true) (hlast : s'.controller.lastSent = s.controller.lastSent)
    (hline : arriving s'.line = none ∨ arriving s'.line = arriving s.line ∧ flips (h ++ [p]) = flips h) :
    Carries (h ++ [p]) s' := by
  refine ⟨fun hl => hlast ▸ hc.command (htransfer hl), fun data hd => ?_⟩
  rcases hline with hnone | ⟨heq, hflips⟩
  · rw [hnone] at hd; cases hd
  · rw [hlast, hflips]
    exact hc.byte data (heq ▸ hd)

/-- The callback of a transfer. -/
theorem i2cOnComplete_bus (c : Controller.State) (status : StatusCode) :
    (Controller.i2cOnComplete c status).transfer.locked = false ∧
      (Controller.i2cOnComplete c status).lastSent = c.lastSent := by
  obtain ⟨mail, heq⟩ := i2cOnComplete_eq c status
  rw [heq]
  exact ⟨rfl, rfl⟩

/-- A turn of the line. -/
theorem Carries.turn (hc : Carries h s) (ht : Turn s s') : Carries (h ++ [(s, .wire)]) s' := by
  cases ht with
  | idle hline => exact hc.same id rfl (.inl (by rw [hline]; rfl))
  | addressed read _ _ _ _ => exact hc.same id rfl (.inl (by cases read <;> rfl))
  | sends _ hunder =>
    refine ⟨fun _ => hc.command hunder.1, fun data hd => ?_⟩
    rw [← Option.some.inj hd, flips_concat, flipsAfter, UInt8.xor_zero]
  | completes _ =>
    obtain ⟨hunlocked, hlast⟩ := i2cOnComplete_bus _ _
    exact hc.same (fun hl => absurd (hl.symm.trans hunlocked) (by simp)) hlast (.inl rfl)
  | _ => exact hc.same id rfl (.inl rfl)

/-- The step lemma. -/
theorem Carries.step (hc : Carries h s) (hl : Linked s) (hd : Controller.Directed s.controller)
    (hstep : Boards.step fuel s e = some s') : Carries (h ++ [(s, e)]) s' := by
  cases hl.steps hstep with
  | own _ _ hsame _ =>
    exact hc.same (fun hlocked => hsame.transfer ▸ hlocked) hsame.lastSent
      (.inr ⟨rfl, flips_concat⟩)
  | sends _ _ _ hsends _ _ =>
    refine ⟨fun _ => ?_, fun data hdata => (by cases hdata)⟩
    rw [hsends.lastSent]
    exact hd.commanded.mem_sentCommands
  | hub _ _ => exact hc.same id rfl (.inr ⟨rfl, flips_concat⟩)
  | wire hturn => exact hc.turn hturn
  | @noise bits line hflip =>
    refine ⟨hc.command, fun data hdata => ?_⟩
    cases hline : s.line with
    | byte before =>
      rw [hline] at hflip
      obtain rfl := Option.some.inj hflip
      have hbefore := hc.byte before (by rw [hline]; rfl)
      rw [← Option.some.inj hdata, hbefore, flips_concat, flipsAfter, UInt8.xor_assoc]
    | reply before =>
      rw [hline] at hflip
      obtain rfl := Option.some.inj hflip
      cases hdata
    | _ => rw [hline] at hflip; cases hflip
  | fault hlocked =>
    obtain ⟨hunlocked, hlast⟩ := i2cOnComplete_bus _ _
    exact hc.same (fun _ => hlocked) hlast (.inl rfl)
  | slaveFault => exact hc.same id rfl (.inr ⟨rfl, flips_concat⟩)

theorem carries_of_run (hr : Run (Boards.step fuel) start h s) : Carries h s := by
  refine hr.invariant_history (I := Carries) ?_ ?_
  · have hunlocked : start.controller.transfer.locked = false := start_linked.phase
    exact ⟨fun hl => absurd (hl.symm.trans hunlocked) (by simp), fun _ hd => (by cases hd)⟩
  · intro h s e s' hrun hc hstep
    exact hc.step (linked_of_run hrun) (Controller.directed_of_run (run_controller hrun)) hstep

/-- Before the command was sent out it is on its way, and on the line too. -/
theorem inflight_of_underway {n : ℕ} (hu : Underway s.controller.transfer n) :
    inflight s = if n = 0 ∨ (arriving s.line).isSome then [s.controller.lastSent] else [] := by
  obtain ⟨hlocked, -, -, haddr⟩ := hu
  simp [inflight, hlocked, haddr]

theorem inflight_of_unlocked (hu : s.controller.transfer.locked = false) : inflight s = [] := by
  simp [inflight, hu]

/-- A turn of the line brings the command, or leaves it on its way. -/
theorem Linked.inflight_turn (hl : Linked s) (ht : Turn s s') :
    (∃ data, arriving s.line = some data ∧ inflight s = [s.controller.lastSent] ∧ inflight s' = []) ∨
      arriving s.line = none ∧ inflight s' = inflight s := by
  have hphase := hl.phase
  cases ht with
  | idle hline => exact .inr ⟨by rw [hline]; rfl, rfl⟩
  | addressed read hline _ _ _ =>
    refine .inr ⟨by rw [hline]; rfl, ?_⟩
    unfold inflight
    rw [hline]
    cases read <;> rfl
  | sends hline hunder =>
    refine .inr ⟨by rw [hline]; rfl, ?_⟩
    rw [inflight_of_underway hunder]
    simp [inflight, hunder.1, arriving]
  | restarts hline hunder =>
    refine .inr ⟨by rw [hline]; rfl, ?_⟩
    unfold inflight
    rw [hline]
    rfl
  | @receives data slave' hline _ =>
    rw [hline] at hphase
    refine .inl ⟨data, by rw [hline]; rfl, ?_, ?_⟩
    · rw [inflight_of_underway hphase.1, hline]
      rfl
    · obtain ⟨⟨hlocked, -, -, haddr⟩, -⟩ := hphase
      simp [inflight, hlocked, haddr, arriving]
  | replies hline _ | ends hline _ | stops hline _ =>
    refine .inr ⟨by rw [hline]; rfl, ?_⟩
    unfold inflight
    rw [hline]
    rfl
  | completes hline =>
    rw [hline] at hphase
    refine .inr ⟨by rw [hline]; rfl, ?_⟩
    rw [inflight_of_unlocked (i2cOnComplete_bus _ _).1, inflight_of_underway hphase, hline]
    rfl

/-- **What a step does to the command on its way**: it is sent, it is
delivered, or nothing new. -/
theorem Linked.inflight_step (hl : Linked s) (hstep : Boards.step fuel s e = some s') :
    (∃ c, sent (s, e) = some c ∧ delivered (s, e) = none ∧ inflight s' = [c]) ∨
    (∃ data, sent (s, e) = none ∧ delivered (s, e) = some data ∧ arriving s.line = some data ∧
      inflight s = [s.controller.lastSent] ∧ inflight s' = []) ∨
    (sent (s, e) = none ∧ delivered (s, e) = none ∧ (inflight s').Sublist (inflight s)) := by
  cases hl.steps hstep with
  | @own e c _ _ hsame hnot =>
    refine .inr (.inr ⟨by simp [sent, hnot], rfl, ?_⟩)
    simp only [inflight, hsame.transfer, hsame.lastSent]
    exact List.Sublist.refl _
  | @sends e c _ _ _ hsends hon hunder =>
    refine .inl ⟨s.controller.currentCommand, by simp [sent, hon], rfl, ?_⟩
    rw [inflight_of_underway hunder, if_pos (.inl rfl), hsends.lastSent]
  | hub _ _ => exact .inr (.inr ⟨rfl, rfl, List.Sublist.refl _⟩)
  | wire hturn =>
    rcases hl.inflight_turn hturn with ⟨data, hline, hbefore, hafter⟩ | ⟨hline, heq⟩
    · exact .inr (.inl ⟨data, rfl, hline, hline, hbefore, hafter⟩)
    · exact .inr (.inr ⟨rfl, hline, heq ▸ List.Sublist.refl _⟩)
  | @noise bits line hflip =>
    refine .inr (.inr ⟨rfl, rfl, ?_⟩)
    have hsame : (arriving line).isSome = (arriving s.line).isSome := by
      cases hline : s.line with
      | byte | reply => rw [hline] at hflip; exact Option.some.inj hflip ▸ rfl
      | _ => rw [hline] at hflip; cases hflip
    simp only [inflight, hsame]
    exact List.Sublist.refl _
  | fault _ =>
    refine .inr (.inr ⟨rfl, rfl, ?_⟩)
    rw [inflight_of_unlocked (i2cOnComplete_bus _ _).1]
    exact List.nil_sublist _
  | slaveFault => exact .inr (.inr ⟨rfl, rfl, List.Sublist.refl _⟩)

/-! ## Delivery -/

/-- The noise of a run, where it alters a command, alters it to something
that `P` rejects. -/
def Noticed (P : UInt8 → Bool) (h : List (State × Event)) : Prop :=
  ∀ h', h' <+: h → ∀ c ∈ Controller.sentCommands, P (c ^^^ flips h') = true → flips h' = 0

theorem Noticed.of_concat (hn : Noticed P (h ++ [p])) : Noticed P h :=
  fun h' hh' => hn h' (hh'.trans (List.prefix_append _ _))

/-- Slight noise makes no valid command of another. -/
theorem noticed_of_slight (hs : ∀ h', h' <+: h → flips h' ∈ slight) : Noticed Hub.isValid h :=
  fun h' hh' _ hc hv => eq_zero_of_slight hc (hs h' hh') hv

/-- **The wire is a relay** of the bytes that `P` accepts. -/
theorem delivered_relayed (hr₁ : Run (Boards.step fuel) start h₁ s₁)
    (hr₂ : Run (Boards.step fuel) s₁ h₂ s) (hn : Noticed P (h₁ ++ h₂)) :
    Relayed (inflight s₁ ++ h₂.filterMap sent) (inflight s)
      ((h₂.filterMap delivered).filter P) := by
  refine hr₂.invariant_history (I := fun h₂ s => Noticed P (h₁ ++ h₂) →
    Relayed (inflight s₁ ++ h₂.filterMap sent) (inflight s) ((h₂.filterMap delivered).filter P))
    ?_ ?_ hn
  · intro _
    rw [List.filterMap_nil, List.append_nil]
    exact .start _
  · intro h₂ s e s' hrun ih hstep hn
    rw [← List.append_assoc] at hn
    have h := ih hn.of_concat
    have hfull := hr₁.trans hrun
    rw [filterMap_concat, filterMap_concat, List.filter_append, ← List.append_assoc]
    rcases (linked_of_run hfull).inflight_step hstep with
      ⟨c, hsent, hdel, hafter⟩ | ⟨data, hsent, hdel, hline, hbefore, hafter⟩ | ⟨hsent, hdel, hsub⟩
    · rw [hsent, hdel, hafter, Option.toList_some, Option.toList_none, List.filter_nil,
        List.append_nil]
      exact h.replace
    · rw [hsent, hdel, hafter, Option.toList_some, Option.toList_none, List.append_nil,
        List.filter_singleton]
      rw [hbefore] at h
      cases hP : P data with
      | false => exact (List.append_nil _).symm ▸ h.lose (List.nil_sublist _)
      | true =>
        -- what is accepted is what was sent
        have hlocked : s.controller.transfer.locked = true := by
          by_contra hu
          rw [inflight_of_unlocked (by simpa using hu)] at hbefore
          cases hbefore
        have hc := carries_of_run hfull
        have hdata := hc.byte data hline
        have hzero := hn _ (List.prefix_append _ _) _ (hc.command hlocked) (hdata ▸ hP)
        rw [hzero, UInt8.xor_zero] at hdata
        rw [hdata]
        exact h.take
    · rw [hsent, hdel, Option.toList_none, List.append_nil, List.filter_nil, List.append_nil]
      exact h.lose hsub

/-- What the hub receives is what the wire delivers. -/
theorem received_ofHub (hr₁ : Run (Boards.step fuel) start h₁ s₁)
    (hr₂ : Run (Boards.step fuel) s₁ h₂ s) :
    (ofHub h₂).filterMap Hub.received = h₂.filterMap delivered := by
  refine hr₂.invariant_history
    (I := fun h₂ _ => (ofHub h₂).filterMap Hub.received = h₂.filterMap delivered) rfl ?_
  intro h₂ s e s' hrun ih hstep
  have hone : (ofHub [(s, e)]).filterMap Hub.received = (delivered (s, e)).toList := by
    cases (linked_of_run (hr₁.trans hrun)).steps hstep with
    | @hub e hub _ hne =>
      cases e with
      | receive byte => exact absurd rfl (hne byte)
      | _ => rfl
    | wire _ =>
      unfold delivered
      dsimp only
      cases ha : arriving s.line with
      | none => rw [ofHub, project_singleton_none (by simp [hubPart, ha])]; rfl
      | some byte => rw [ofHub, project_singleton_some (k := .receive byte) (by simp [hubPart, ha])]; rfl
    | _ => rfl
  rw [filterMap_concat, ← ih, ← hone, ofHub_append, List.filterMap_append]

/-- The run of the hub goes on where it stood. -/
theorem run_hub_after (hr₁ : Run (Boards.step fuel) start h₁ s₁)
    (hr₂ : Run (Boards.step fuel) s₁ h₂ s) :
    Run (Hub.step fuel) s₁.hub (ofHub h₂) s.hub :=
  Run.project State.hub hubPart hr₂ fun _ _ _ _ hrun hstep =>
    (linked_of_run (hr₁.trans hrun)).hub_step hstep

/-- **What the hub handles** from some time on was queued or on its way at
that time, or was sent afterwards. -/
theorem handled_sublist (hr₁ : Run (Boards.step fuel) start h₁ s₁)
    (hr₂ : Run (Boards.step fuel) s₁ h₂ s) (hn : Noticed P (h₁ ++ h₂)) :
    (((ofHub h₂).filterMap Hub.handled).filter P).Sublist
      ((Hub.pendingMessages s₁.hub).filter P ++ (inflight s₁ ++ h₂.filterMap sent)) := by
  have hhub := (Hub.handled_relayed (run_hub hr₁) (run_hub_after hr₁ hr₂)).sublist
  rw [received_ofHub hr₁ hr₂] at hhub
  have hwire := (delivered_relayed hr₁ hr₂ hn).sublist
  have hfilter := List.Sublist.filter P hhub
  rw [List.filter_append] at hfilter
  exact hfilter.trans (hwire.append_left _)

/-- With nothing on its way and nothing sent, nothing is delivered,
whatever the noise. -/
theorem delivered_eq_nil (hr₁ : Run (Boards.step fuel) start h₁ s₁)
    (hr₂ : Run (Boards.step fuel) s₁ h₂ s) (hinflight : inflight s₁ = [])
    (hnone : h₂.filterMap sent = []) : inflight s = [] ∧ h₂.filterMap delivered = [] := by
  refine hr₂.invariant_history (I := fun h₂ s => h₂.filterMap sent = [] →
    inflight s = [] ∧ h₂.filterMap delivered = []) (fun _ => ⟨hinflight, rfl⟩) ?_ hnone
  intro h₂ s e s' hrun ih hstep hnone
  rw [filterMap_concat] at hnone ⊢
  obtain ⟨hbefore, hlast⟩ := List.append_eq_nil_iff.mp hnone
  obtain ⟨hidle, hdel⟩ := ih hbefore
  rcases (linked_of_run (hr₁.trans hrun)).inflight_step hstep with
    ⟨c, hsent, -, -⟩ | ⟨data, -, -, -, hway, -⟩ | ⟨-, hnothing, hsub⟩
  · rw [hsent] at hlast; cases hlast
  · rw [hidle] at hway; cases hway
  · rw [hidle] at hsub
    exact ⟨List.sublist_nil.mp hsub, by rw [hdel, hnothing]; rfl⟩

/-- Where nothing is queued either, the hub handles nothing. -/
theorem handled_eq_nil (hr₁ : Run (Boards.step fuel) start h₁ s₁)
    (hr₂ : Run (Boards.step fuel) s₁ h₂ s) (hinflight : inflight s₁ = [])
    (hqueued : Hub.pendingMessages s₁.hub = []) (hnone : h₂.filterMap sent = []) :
    (ofHub h₂).filterMap Hub.handled = [] := by
  have hhub := (Hub.handled_relayed (run_hub hr₁) (run_hub_after hr₁ hr₂)).sublist
  rw [received_ofHub hr₁ hr₂, hqueued, (delivered_eq_nil hr₁ hr₂ hinflight hnone).2] at hhub
  exact List.sublist_nil.mp hhub

/-- From the start on, what the hub handles was sent. -/
theorem handled_sublist_sent (hr : Run (Boards.step fuel) start h s) (hn : Noticed P h) :
    (((ofHub h).filterMap Hub.handled).filter P).Sublist (h.filterMap sent) := by
  have hsub := handled_sublist .nil hr hn
  have hpending : Hub.pendingMessages start.hub = [] := by decide +kernel
  have hinflight : inflight start = [] := inflight_of_unlocked start_linked.phase
  rwa [hpending, hinflight, List.filter_nil, List.nil_append, List.nil_append] at hsub

/-- What is sent is one of six commands. -/
theorem mem_sentCommands (hr : Run (Boards.step fuel) start h s) {c : Opcode}
    (hc : c ∈ h.filterMap sent) : c ∈ Controller.sentCommands := by
  obtain ⟨⟨s₁, e⟩, hp, hsent⟩ := List.mem_filterMap.mp hc
  obtain ⟨g₁, g₂, rfl⟩ := List.append_of_mem hp
  unfold sent at hsent
  split at hsent
  · split_ifs at hsent
    obtain rfl := Option.some.inj hsent
    have hrun := (hr.step_of_mem).1
    exact (Controller.directed_of_run (run_controller hrun)).commanded.mem_sentCommands
  · cases hsent

/-- **The hub takes only commands that were sent.** While at most one bit
of a byte is altered at a time, the valid commands that the hub handles
are some of those that the controller sent, each at most once and in the
order in which they were sent, and they are none but six. -/
theorem handled_commands_were_sent (hr : Run (Boards.step fuel) start h s)
    (hnoise : ∀ h', h' <+: h → flips h' ∈ slight) :
    (((ofHub h).filterMap Hub.handled).filter Hub.isValid).Sublist (h.filterMap sent) ∧
      ∀ c ∈ h.filterMap sent, c ∈ Controller.sentCommands := by
  exact ⟨handled_sublist_sent hr (noticed_of_slight hnoise), fun c hc => mem_sentCommands hr hc⟩

/-- The first command, with a bit of the reply to it altered. -/
def firstCommand : List Event :=
  [.controller .tick, .controller (.run Controller.reactTimer ⟨[], false⟩),
   .controller (.run Controller.reactI2cCommand ⟨[], false⟩), .wire, .wire, .wire, .wire, .wire, .wire,
   .noise 4, .wire, .wire, .hub (.run Hub.reactI2cHandler false)]

theorem handled_commands_were_sent_first : ∃ h s, Run (step 16) start h s ∧
    (ofHub h).filterMap Hub.handled = [opcodesCmdIdle] ∧
    (((ofHub h).filterMap Hub.handled).filter Hub.isValid).Sublist (h.filterMap sent) ∧
    ∀ c ∈ h.filterMap sent, c ∈ Controller.sentCommands := by
  obtain ⟨s, hs⟩ := Option.isSome_iff_exists.mp
    (show (runEvents (step 16) firstCommand start).isSome = true by decide +kernel)
  have hhandled : (ofHub (history (step 16) firstCommand start)).filterMap Hub.handled =
      [opcodesCmdIdle] := by decide +kernel
  have hslight : ∀ h' ∈ (history (step 16) firstCommand start).inits, flips h' ∈ slight := by
    decide +kernel
  have hr := (run_history hs).1
  exact ⟨_, s, hr, hhandled, handled_commands_were_sent hr fun h' hh' =>
    hslight h' ((List.mem_inits _ _).mpr hh')⟩

end Boards

end CncPneumatics
