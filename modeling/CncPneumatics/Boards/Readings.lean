import CncPneumatics.Boards.Delivery
/-!
# The readings

What the controller is told of the pressure. The reply to a command is
prepared when the hub receives it, and the controller reads it at the end
of the same transfer: it is what the hub's input was then, unless the
noise on both ways together flipped every bit.
-/

namespace CncPneumatics

open Asx

namespace Boards

variable {fuel : ℕ} {s s' s₁ : State} {e : Event} {h h₁ h₂ : List (State × Event)}
  {p : State × Event}

/-! ## What a history says -/

/-- The step sends a command, or brings one to the hub. -/
def moves (p : State × Event) : Bool := (sent p).isSome || (delivered p).isSome

/-- The bits that are flipped, and those that were when a command was last
brought to the hub. -/
def noiseAfter (f : UInt8 × UInt8) (p : State × Event) : UInt8 × UInt8 :=
  (flipsAfter f.1 p, if (delivered p).isSome then f.1 else f.2)

/-- The bits that were flipped of the command brought to the hub last. -/
def commandFlips (h : List (State × Event)) : UInt8 := (h.foldl noiseAfter (0, 0)).2

/-- **What is altered** of an exchange: bits of the command, and of the
reply on the line. -/
def alteration (h : List (State × Event)) : UInt8 := commandFlips h ^^^ flips h

theorem foldl_noiseAfter (h : List (State × Event)) :
    (h.foldl noiseAfter (0, 0)).1 = flips h := by
  induction h using List.reverseRecOn with
  | nil => rfl
  | append_singleton h p ih =>
    rw [List.foldl_append, flips_concat, ← ih]
    rfl

theorem commandFlips_concat : commandFlips (h ++ [p]) =
    if (delivered p).isSome then flips h else commandFlips h := by
  rw [commandFlips, List.foldl_append, ← foldl_noiseAfter]
  rfl

theorem commandFlips_of_quiet (hq : ∀ p ∈ h, ∀ bits, p.2 ≠ .noise bits) : commandFlips h = 0 := by
  induction h using List.reverseRecOn with
  | nil => rfl
  | append_singleton h p ih =>
    have hq' : ∀ q ∈ h, ∀ bits, q.2 ≠ .noise bits := fun q hmem => hq q (by simp [hmem])
    rw [commandFlips_concat, flips_of_quiet hq', ih hq', ite_self]

theorem lastWhere_moves_concat (hm : moves p = false) :
    lastWhere moves (h ++ [p]) = lastWhere moves h := by
  rw [lastWhere_concat, hm]
  rfl

/-! ## The reply -/

/-- **The reply to a command** that was brought to the hub in the step `q`. -/
structure Answers (h : List (State × Event)) (s : State) (q : State × Event) : Prop where
  last : lastWhere moves h = some q
  brings : (delivered q).isSome = true
  data : s.slave.sendData[0] = opcodesEncodeReply (Hub.pressureMonReply q.1.hub)
    (s.controller.lastSent ^^^ commandFlips h)
  reply : ∀ data, s.line = .reply data → data = s.slave.sendData[0] ^^^ flips h

/-- A transfer has brought its command, and waits for the reply. -/
def Awaits (s : State) : Prop :=
  s.controller.transfer.locked = true ∧ inflight s = []

/-- Whoever awaits a reply has one. -/
def Answered (h : List (State × Event)) (s : State) : Prop := Awaits s → ∃ q, Answers h s q

/-- A step that neither sends nor brings anything, and leaves the reply on
the line, if there is one. -/
theorem Answered.same (ha : Answered h s) (hsent : sent p = none) (hdel : delivered p = none)
    (hawait : Awaits s' → Awaits s) (hdata : s'.slave.sendData = s.slave.sendData)
    (hlast : s'.controller.lastSent = s.controller.lastSent)
    (hreply : ∀ data, s'.line = .reply data → Awaits s → s.slave.sendData[0] ^^^ flips (h ++ [p]) = data) :
    Answered (h ++ [p]) s' := by
  intro haw
  obtain ⟨q, hq⟩ := ha (hawait haw)
  have hm : moves p = false := by simp [moves, hsent, hdel]
  refine ⟨q, ⟨(lastWhere_moves_concat hm).trans hq.last, hq.brings, ?_, fun data hline => ?_⟩⟩
  · rw [hdata, hlast, commandFlips_concat, hdel]
    exact hq.data
  · rw [hdata]
    exact (hreply data hline (hawait haw)).symm

/-- With the same transfer and as little of a command on the line. -/
theorem Awaits.of_same (haw : Awaits s')
    (htransfer : s'.controller.transfer = s.controller.transfer)
    (hline : (arriving s'.line).isSome = (arriving s.line).isSome) : Awaits s := by
  obtain ⟨hlocked, hnone⟩ := haw
  rw [htransfer] at hlocked
  refine ⟨hlocked, ?_⟩
  simp only [inflight, htransfer, hline] at hnone ⊢
  split at hnone
  · cases hnone
  · next hnot => rw [if_neg hnot]

/-- A turn of the line. -/
theorem Answered.turn (ha : Answered h s) (hl : Linked s) (hc : Carries h s) (ht : Turn s s') :
    Answered (h ++ [(s, .wire)]) s' := by
  have hphase := hl.phase
  cases ht with
  | idle hline =>
    rw [hline] at hphase
    intro haw
    exact absurd (haw.1.symm.trans hphase) (by simp)
  | addressed read hline hsame _ _ =>
    refine ha.same rfl (by rw [delivered, hline]; rfl) (fun haw => haw.of_same rfl ?_) hsame.sendData
      rfl fun data hreply => ?_
    · rw [hline]
      cases read <;> rfl
    · cases read <;> cases hreply
  | sends hline hunder =>
    rintro ⟨-, hnone⟩
    simp [inflight, hunder.1, arriving] at hnone
  | restarts hline hunder =>
    refine ha.same rfl (by rw [delivered, hline]; rfl) (fun haw => haw.of_same rfl ?_) rfl rfl
      fun data hreply => (by cases hreply)
    rw [hline]
    rfl
  | @receives data slave' hline hsame =>
    -- the reply is prepared now
    intro _
    have hdel : delivered (s, .wire) = some data := by rw [delivered, hline]; rfl
    refine ⟨(s, .wire), ⟨?_, by rw [hdel]; rfl, ?_, fun _ hreply => by cases hreply⟩⟩
    · rw [lastWhere_concat, moves, hdel]
      rfl
    · have hbyte := hc.byte data (by rw [hline]; rfl)
      rw [commandFlips_concat, hdel, hsame.sendData]
      show (s.slave.sendData.set 0 _)[0] = opcodesEncodeReply _ (s.controller.lastSent ^^^ flips h)
      rw [← hbyte, Vector.getElem_set_self]
  | replies hline hsame =>
    refine ha.same rfl (by rw [delivered, hline]; rfl) (fun haw => haw.of_same rfl ?_)
      hsame.sendData rfl fun data hreply _ => ?_
    · rw [hline]
      rfl
    · rw [flips_concat, flipsAfter, UInt8.xor_zero]
      exact Line.reply.inj hreply
  | completes hline =>
    rintro ⟨hlocked, -⟩
    exact absurd (hlocked.symm.trans (i2cOnComplete_bus _ _).1) (by simp)
  | ends hline _ | stops hline _ =>
    rw [hline] at hphase
    intro haw
    exact absurd (haw.1.symm.trans hphase) (by simp)

/-- The step lemma. -/
theorem Answered.step (ha : Answered h s) (hl : Linked s) (hc : Carries h s)
    (hstep : Boards.step fuel s e = some s') : Answered (h ++ [(s, e)]) s' := by
  -- away from the wire a reply stays on the line
  have hstays (hflips : flips (h ++ [(s, e)]) = flips h) : ∀ data, s.line = .reply data → Awaits s →
      s.slave.sendData[0] ^^^ flips (h ++ [(s, e)]) = data := by
    intro data hline haw
    obtain ⟨q, hq⟩ := ha haw
    rw [hflips, hq.reply data hline]
  cases hl.steps hstep with
  | own _ _ hsame hnot =>
    exact ha.same (by simp [sent, hnot]) rfl (fun haw => haw.of_same hsame.transfer rfl) rfl
      hsame.lastSent (hstays flips_concat)
  | sends _ _ _ hsends _ hunder =>
    rintro ⟨-, hnone⟩
    rw [inflight_of_underway hunder, if_pos (.inl rfl)] at hnone
    cases hnone
  | hub _ _ => exact ha.same rfl rfl (fun haw => haw.of_same rfl rfl) rfl rfl (hstays flips_concat)
  | wire hturn => exact ha.turn hl hc hturn
  | @noise bits line hflip =>
    cases hline : s.line with
    | byte data =>
      rw [hline] at hflip
      obtain rfl := Option.some.inj hflip
      refine ha.same rfl rfl (fun haw => haw.of_same rfl (by rw [hline]; rfl)) rfl rfl
        fun _ hreply => (by cases hreply)
    | reply data =>
      rw [hline] at hflip
      obtain rfl := Option.some.inj hflip
      refine ha.same rfl rfl (fun haw => haw.of_same rfl (by rw [hline]; rfl)) rfl rfl
        fun data' hreply haw => ?_
      obtain ⟨q, hq⟩ := ha haw
      rw [← Line.reply.inj hreply, hq.reply data hline, flips_concat, flipsAfter, UInt8.xor_assoc]
    | _ => rw [hline] at hflip; cases hflip
  | fault _ =>
    rintro ⟨hlocked, -⟩
    exact absurd (hlocked.symm.trans (i2cOnComplete_bus _ _).1) (by simp)
  | slaveFault =>
    exact ha.same rfl rfl (fun haw => haw.of_same rfl rfl) rfl rfl (hstays flips_concat)

theorem answered_of_run (hr : Run (Boards.step fuel) start h s) : Answered h s := by
  refine hr.invariant_history (I := Answered) ?_ ?_
  · rintro ⟨hlocked, -⟩
    exact absurd (hlocked.symm.trans start_linked.phase) (by simp)
  · intro h s e s' hrun ha hstep
    exact ha.step (linked_of_run hrun) (carries_of_run hrun) hstep

/-! ## What the controller is told -/

/-- Where the reply is on the line, the transfer awaits it. -/
theorem Linked.awaits (hl : Linked s) {data : UInt8} (hline : s.line = .reply data) : Awaits s := by
  have hphase := hl.phase
  rw [hline] at hphase
  refine ⟨hphase.1, ?_⟩
  rw [inflight_of_underway hphase, hline]
  rfl

/-- What the controller makes of the byte that ends the transfer. -/
def readReply (s : State) (data : UInt8) : OpcodesReply :=
  opcodesDecodeReply s.controller.lastSent data

/-- What a reply does to the queues of the controller. -/
def posted (m : Mailroom ℕ) : OpcodesReply → Mailroom ℕ
  | .on => deposit Controller.queueSize m Controller.reactI2cRead 1
  | .off => deposit Controller.queueSize m Controller.reactI2cRead 0
  | .error => deposit Controller.queueSize m Controller.reactI2cError StatusCode.errBadData.asArg

theorem replied_mail (data : UInt8) :
    (replied s.controller data).mail = posted s.controller.mail (readReply s data) := by
  show (Controller.i2cOnComplete _ .statusOk).mail = _
  unfold Controller.i2cOnComplete readReply
  rw [if_pos rfl]
  cases hr : opcodesDecodeReply s.controller.lastSent data <;> simp [hr, twimRelease, posted, Controller.notify]

/-- What the controller reads, when the hub meant a reply. -/
def heardReply (h : List (State × Event)) (reply : OpcodesReply) : OpcodesReply :=
  if alteration h = 0 then reply
  else if alteration h = opcodeInputMasks then reply.other
  else .error

/-- The byte on the line, read. -/
theorem exists_readReply {data : UInt8} (hr : Run (Boards.step fuel) start h s)
    (hline : s.line = .reply data) :
    ∃ q, lastWhere moves h = some q ∧ (delivered q).isSome = true ∧
      readReply s data = heardReply h (Hub.pressureMonReply q.1.hub) := by
  obtain ⟨q, hq⟩ := answered_of_run hr ((linked_of_run hr).awaits hline)
  have hne : Hub.pressureMonReply q.1.hub ≠ .error := by
    unfold Hub.pressureMonReply
    split <;> simp
  refine ⟨q, hq.last, hq.brings, ?_⟩
  rw [readReply, hq.reply data hline, hq.data, opcodesDecodeReply_altered _ hne]
  rfl

/-- The turn that ends a transfer with a reply. -/
theorem Linked.wire_reply (hl : Linked s) {data : UInt8} (hline : s.line = .reply data) :
    wire s = { s with controller := replied s.controller data, line := .refused } := by
  have hphase := hl.phase
  rw [hline] at hphase
  rw [wire_master (.readInterrupt data) (by rw [hline]; rfl) (by rw [hline]; rfl),
    masterTurn_read hphase data]

/-- **What the controller is told of the pressure.** When a transfer ends
with a reply, the last thing that went over the wire before was its
command. The controller is told what the input of the hub was when the hub
received it, if the noise altered nothing of the exchange or the same bits
both ways; the opposite, if the noise flipped every bit of it once; and
otherwise that there was an error. -/
theorem reply_tells_pressure {data : UInt8} (hr : Run (Boards.step fuel) start h s)
    (hline : s.line = .reply data) :
    ∃ q, lastWhere moves h = some q ∧ (delivered q).isSome = true ∧
      (wire s).controller.mail = posted s.controller.mail
        (if alteration h = 0 then Hub.pressureMonReply q.1.hub
          else if alteration h = opcodeInputMasks then (Hub.pressureMonReply q.1.hub).other
          else .error) := by
  obtain ⟨q, hlast, hbrings, hread⟩ := exists_readReply hr hline
  refine ⟨q, hlast, hbrings, ?_⟩
  rw [(linked_of_run hr).wire_reply hline]
  show (replied s.controller data).mail = _
  rw [replied_mail, hread]
  rfl

/-- The first command, with the same bit of it and of the reply altered. -/
def alteredTwice : List Event :=
  [.controller .tick, .controller (.run Controller.reactTimer ⟨[], false⟩),
   .controller (.run Controller.reactI2cCommand ⟨[], false⟩), .wire, .wire, .noise 4, .wire, .wire,
   .wire, .wire, .noise 4]

theorem reply_tells_pressure_alteredTwice : ∃ h s q, Run (step 16) start h s ∧
    lastWhere moves h = some q ∧ delivered q = some (opcodesCmdIdle ^^^ 4) ∧
    (wire s).controller.mail = posted s.controller.mail (Hub.pressureMonReply q.1.hub) := by
  have heval : (runEvents (step 16) alteredTwice start).any (fun s =>
      decide (s.line = .reply (opcodesEncodeReply .off opcodesCmdIdle))) = true := by decide +kernel
  obtain ⟨s, hs, hline⟩ := (Option.any_eq_true _ _).mp heval
  have hr := (run_history hs).1
  have hzero : alteration (history (step 16) alteredTwice start) = 0 := by decide +kernel
  have hbrought : (lastWhere moves (history (step 16) alteredTwice start)).bind delivered =
      some (opcodesCmdIdle ^^^ 4) := by decide +kernel
  obtain ⟨q, hlast, -, hmail⟩ := reply_tells_pressure hr (of_decide_eq_true hline)
  rw [hlast, Option.bind_some] at hbrought
  rw [if_pos hzero] at hmail
  exact ⟨_, s, q, hr, hlast, hbrought, hmail⟩

end Boards

end CncPneumatics
