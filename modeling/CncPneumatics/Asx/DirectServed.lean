import CncPneumatics.Asx.DirectInput
import CncPneumatics.Common.Bits
import CncPneumatics.Common.Run
/-!
# What direct inputs do

Each step of the driver comes down to what it does with the mask of the
pins, with the notifications that are queued for the direct handler and
for the one that acknowledges, and with the timers of the latter.
-/

namespace CncPneumatics

namespace Asx

variable {c : DirectInputs} {s s' : DirectState} {hist : List (DirectState × DirectEvent)}
  {p : DirectState × DirectEvent} {portId pin arg fuel i n : ℕ} {portValue mask : BitVec 8}
  {is : List ℕ}

/-! ## Masked pins -/

/-- A pin is masked: its bit is set in `_isr_bit_mask`. -/
def masked (s : DirectState) (pin : ℕ) : Bool :=
  (cell s.isrBitMask (ioportPinToPortId pin)).getLsbD (ioportPinToIndex pin)

/-- The pin of the input at a place in the chain. -/
def pinAt (c : DirectInputs) (i : ℕ) : Option ℕ := c.firstDirect[i]?.map DirectInput.pin

/-- The bits that an interrupt takes: those of its flags that are not
being processed. -/
def takenBits (s : DirectState) (portId : ℕ) (mask : BitVec 8) : BitVec 8 :=
  mask &&& ~~~cell s.isrBitMask portId

/-- A step is an interrupt that takes a pin. -/
def takes (pin : ℕ) (p : DirectState × DirectEvent) : Bool :=
  match p with
  | (s, .pinChange portId _ mask) =>
    portId = ioportPinToPortId pin && (takenBits s portId mask).getLsbD (ioportPinToIndex pin)
  | _ => false

/-! ## The interrupt -/

/-- The notification of a bit that an interrupt takes. -/
def pinNotice (portId : ℕ) (portValue : BitVec 8) (i : ℕ) : ℕ :=
  pinAndValueAsArg (ioportCreatePin portId i) (decide (portValue ≠ 0))

/-- The notifications of an interrupt, from the lowest pin up. -/
def pinNotices (portId : ℕ) (portValue mask : BitVec 8) : List ℕ :=
  (bitsFrom mask 0 8).map (pinNotice portId portValue)

/-- **The loop goes through the bits of the mask**, from the lowest up. -/
theorem pinChangeLoop_eq (s : DirectState) :
    pinChangeLoop c portId portValue n (mask >>> i) i s =
      (bitsFrom mask i n).foldl (fun s i => pinChanged c portId portValue i s) s := by
  induction n generalizing i s with
  | zero => rfl
  | succ n ih =>
    rw [pinChangeLoop, ← BitVec.shiftRight_add]
    by_cases hmask : mask >>> i = 0
    · rw [if_pos hmask, bitsFrom_of_shift_eq_zero hmask, List.foldl_nil]
    · have hodd : mask >>> i &&& 1 ≠ 0 ↔ mask.getLsbD i = true :=
        shift_and_one_ne_zero_iff (by decide)
      rw [if_neg hmask, ih, bitsFrom_succ]
      by_cases hbit : mask.getLsbD i = true
      · rw [if_pos hbit, List.foldl_cons, if_pos (hodd.mpr hbit)]
      · rw [if_neg hbit, if_neg fun h => hbit (hodd.mp h)]

/-- What the bits of an interrupt do. -/
theorem foldl_pinChanged (is : List ℕ) (s : DirectState) :
    let s' := is.foldl (fun s i => pinChanged c portId portValue i s) s
    s'.isrBitMask = s.isrBitMask ∧ s'.timer = s.timer ∧
      s'.mail = depositAll c.queueSize s.mail
        (is.map fun i => (c.reactDirectHandler, pinNotice portId portValue i)) := by
  induction is generalizing s with
  | nil => exact ⟨rfl, rfl, rfl⟩
  | cons i is ih =>
    obtain ⟨hisr, htimer, hmail⟩ := ih (pinChanged c portId portValue i s)
    exact ⟨hisr, htimer, hmail⟩

/-- **What an interrupt does**: it masks the pins it takes and notifies the
direct handler of each. -/
theorem handlePinChangeIsr_spec (s : DirectState) :
    let s' := handlePinChangeIsr c portId portValue mask s
    s'.isrBitMask = s.isrBitMask.set portId (cell s.isrBitMask portId ||| takenBits s portId mask) ∧
      s'.timer = s.timer ∧
      s'.mail = depositAll c.queueSize s.mail
        ((pinNotices portId portValue (takenBits s portId mask)).map fun a =>
          (c.reactDirectHandler, a)) := by
  set bits := takenBits s portId mask with hbits
  set s₁ : DirectState :=
    { s with isrBitMask := s.isrBitMask.set portId (cell s.isrBitMask portId ||| bits) } with hs₁
  have hloop : pinChangeLoop c portId portValue 8 bits 0 s₁ =
      (bitsFrom bits 0 8).foldl (fun s i => pinChanged c portId portValue i s) s₁ := by
    have h := @pinChangeLoop_eq c portId 0 8 portValue bits s₁
    rwa [BitVec.ushiftRight_zero] at h
  obtain ⟨hisr, htimer, hmail⟩ :=
    @foldl_pinChanged c portId portValue (bitsFrom bits 0 8) s₁
  rw [← hloop] at hisr htimer hmail
  refine ⟨hisr, htimer, ?_⟩
  rw [pinNotices, List.map_map]
  exact hmail

/-- The pins that are masked after an interrupt. -/
theorem masked_handlePinChangeIsr (hbits : s.isrBitMask.length = 2) (hport : portId < 2) (pin : ℕ) :
    masked (handlePinChangeIsr c portId portValue mask s) pin =
      (masked s pin || takes pin (s, .pinChange portId portValue mask)) := by
  obtain ⟨hisr, -, -⟩ := @handlePinChangeIsr_spec c portId portValue mask s
  rw [masked, hisr, cell_set (by omega), takes]
  by_cases heq : ioportPinToPortId pin = portId
  · simp [heq, masked]
  · simp [heq, Ne.symm heq, masked]

/-- A pin that is masked is not taken. -/
theorem not_takes (hmasked : masked s pin = true) :
    takes pin (s, .pinChange portId portValue mask) = false := by
  unfold takes takenBits
  by_cases heq : portId = ioportPinToPortId pin
  · rw [masked] at hmasked
    simp [heq, hmasked]
  · simp [heq]

/-- What the notifications of an interrupt are about. -/
theorem argPin_pinNotice (hport : portId < 2) (hi : i < 8) :
    argPin (pinNotice portId portValue i) = ioportCreatePin portId i := by
  refine argPin_pinAndValueAsArg ?_ _
  unfold ioportCreatePin
  omega

theorem argPin_pinNotices (hport : portId < 2) :
    (pinNotices portId portValue mask).map argPin =
      (bitsFrom mask 0 8).map (ioportCreatePin portId) := by
  rw [pinNotices, List.map_map]
  refine List.map_congr_left fun i hi => argPin_pinNotice hport ?_
  have := (mem_bitsFrom.mp hi).1
  omega

/-- **An interrupt notifies of the pins it takes**, once each. -/
theorem count_pinNotices (hport : portId < 2) (pin : ℕ) :
    ((pinNotices portId portValue (takenBits s portId mask)).map argPin).count pin =
      (takes pin (s, .pinChange portId portValue mask)).toNat := by
  have hinj : Function.Injective (ioportCreatePin portId) := by
    intro i j hij
    unfold ioportCreatePin at hij
    omega
  rw [argPin_pinNotices hport, (nodup_bitsFrom.map hinj).count, takes]
  have hmem : pin ∈ (bitsFrom (takenBits s portId mask) 0 8).map (ioportCreatePin portId) ↔
      portId = ioportPinToPortId pin ∧
        (takenBits s portId mask).getLsbD (ioportPinToIndex pin) = true := by
    constructor
    · intro hmem
      obtain ⟨i, hi, rfl⟩ := List.mem_map.mp hmem
      obtain ⟨⟨-, hlt⟩, hbit⟩ := mem_bitsFrom.mp hi
      rw [ioportPinToPortId_create (by omega), ioportPinToIndex_create (by omega)]
      exact ⟨rfl, hbit⟩
    · rintro ⟨heq, hbit⟩
      have hlt := ioportPinToIndex_lt pin
      refine List.mem_map.mpr ⟨ioportPinToIndex pin, mem_bitsFrom.mpr ⟨⟨by omega, by omega⟩, hbit⟩, ?_⟩
      rw [heq, ioportCreatePin_port_index]
  by_cases htakes : portId = ioportPinToPortId pin ∧
      (takenBits s portId mask).getLsbD (ioportPinToIndex pin) = true
  · rw [if_pos (hmem.mpr htakes), htakes.2, ← htakes.1]
    simp
  · rw [if_neg fun h => htakes (hmem.mp h)]
    by_cases hport : portId = ioportPinToPortId pin
    · rw [Bool.eq_false_iff.mpr fun h => htakes ⟨hport, h⟩, Bool.and_false]
      rfl
    · simp [hport]

/-- Acknowledging leaves the timers and the queues alone. -/
@[simp] theorem clearInterrupt_timer : (clearInterrupt c i s).timer = s.timer := by
  unfold clearInterrupt
  split <;> rfl

@[simp] theorem clearInterrupt_mail : (clearInterrupt c i s).mail = s.mail := by
  unfold clearInterrupt
  split <;> rfl

@[simp] theorem clearInterrupt_length :
    (clearInterrupt c i s).isrBitMask.length = s.isrBitMask.length := by
  unfold clearInterrupt
  split
  · rfl
  · exact List.length_set

/-- The pins that are masked after an acknowledgement. -/
theorem masked_clearInterrupt (hbits : s.isrBitMask.length = 2) {next : DirectInput}
    (hnext : c.firstDirect[i]? = some next) (pin : ℕ) :
    masked (clearInterrupt c i s) pin = (masked s pin && decide (pin ≠ next.pin)) := by
  have hlt : ioportPinToPortId next.pin < s.isrBitMask.length := by
    have := c.pin_lt next (List.mem_of_getElem? hnext)
    unfold ioportPinToPortId
    omega
  unfold masked clearInterrupt
  rw [hnext]
  dsimp only
  rw [cell_set hlt]
  by_cases hport : ioportPinToPortId pin = ioportPinToPortId next.pin
  · rw [if_pos hport, BitVec.getLsbD_and, BitVec.getLsbD_not, getLsbD_ioportPinToMask, hport]
    have hpin : ioportPinToIndex pin = ioportPinToIndex next.pin ↔ pin = next.pin := by
      unfold ioportPinToIndex
      unfold ioportPinToPortId at hport
      omega
    simp [ioportPinToIndex_lt, hpin]
  · rw [if_neg hport]
    have hpin : pin ≠ next.pin := fun h => hport (by rw [h])
    simp [hpin]

/-! ## The handlers -/

/-- **What the direct handler does**: nothing where no input has the pin,
and otherwise what the first one is responsible for. -/
theorem digitalInputDirectHandler_cases (c : DirectInputs) (arg : ℕ) (s : DirectState) :
    (c.firstDirect.find? (fun di => di.pin = argPin arg) = none ∧
      digitalInputDirectHandler c arg s = some s) ∨
    ∃ i next, c.firstDirect.find? (fun di => di.pin = argPin arg) = some next ∧
      c.firstDirect[i]? = some next ∧
      digitalInputDirectHandler c arg s = directResponsible c arg i next s := by
  unfold digitalInputDirectHandler
  suffices h : ∀ (l : List DirectInput) (j : ℕ),
      (l.find? (fun di => di.pin = argPin arg) = none ∧ directHandlerFrom c arg l j s = some s) ∨
      ∃ i next, l.find? (fun di => di.pin = argPin arg) = some next ∧ l[i]? = some next ∧
        directHandlerFrom c arg l j s = directResponsible c arg (j + i) next s by
    have := h c.firstDirect 0
    simpa only [Nat.zero_add] using this
  intro l
  induction l with
  | nil => exact fun j => .inl ⟨rfl, rfl⟩
  | cons di l ih =>
    intro j
    rw [directHandlerFrom]
    by_cases hpin : di.pin = argPin arg
    · rw [if_pos hpin, List.find?_cons_of_pos (by simpa using hpin)]
      exact .inr ⟨0, di, rfl, rfl, rfl⟩
    · rw [if_neg hpin, List.find?_cons_of_neg (by simpa using hpin)]
      rcases ih (j + 1) with h | ⟨i, next, hfind, hnext, heq⟩
      · exact .inl h
      · exact .inr ⟨i + 1, next, hfind, hnext, by rw [heq, Nat.add_right_comm, Nat.add_assoc]⟩

/-! ## The timers -/

/-- **The timers around the driver**: those of the acknowledgements do not
repeat, and there is none of the direct handler. -/
structure AckTimers (c : DirectInputs) (t : Timer) : Prop where
  holds : t.Holds t.pending
  once : ∀ f ∈ timersFor c.reactAckIt t.pending, f.rep = 0
  unheard : timersFor c.reactDirectHandler t.pending = []

namespace AckTimers

variable {t t' : Timer} {reactor count rep inst : ℕ}

theorem tick (h : AckTimers c t) :
    AckTimers c (timerTick t) ∧ (timerTick t).pending = t.pending := by
  have hl := timerTick_holds h.holds
  rw [hl.pending_eq]
  exact ⟨⟨by rw [hl.pending_eq]; exact hl, by rw [hl.pending_eq]; exact h.once,
    by rw [hl.pending_eq]; exact h.unheard⟩, rfl⟩

/-- Another user arms a timer. -/
theorem arm (h : AckTimers c t) (hack : reactor ≠ c.reactAckIt)
    (hdirect : reactor ≠ c.reactDirectHandler) (hnull : reactor ≠ reactorNullHandle)
    (harm : timerArm t reactor count rep arg = some (inst, t')) :
    AckTimers c t' ∧ timersFor c.reactAckIt t'.pending = timersFor c.reactAckIt t.pending := by
  obtain ⟨-, -, hl₁, -⟩ := timerArm_holds h.holds hnull harm
  have hkeeps : ∀ k, reactor ≠ k → timersFor k t'.pending = timersFor k t.pending := by
    intro k hk
    rw [hl₁.pending_eq]
    exact filter_armInsert_of_not (by simpa using hk)
  refine ⟨⟨hl₁.holds_pending, ?_, ?_⟩, hkeeps _ hack⟩
  · rw [hkeeps _ hack]
    exact h.once
  · rw [hkeeps _ hdirect]
    exact h.unheard

/-- The timer of an acknowledgement is armed. -/
theorem arm_ack (h : AckTimers c t)
    (harm : timerArm t c.reactAckIt count 0 arg = some (inst, t')) :
    AckTimers c t' ∧ ∃ f, f.arg = arg ∧
      (timersFor c.reactAckIt t'.pending).Perm (f :: timersFor c.reactAckIt t.pending) := by
  obtain ⟨-, -, hl₁, -⟩ := timerArm_holds h.holds c.ack_ne harm
  set f : TimerFuture := ⟨c.reactAckIt, (t.currentInstance + 1) % 2 ^ 32, count, 0, arg⟩ with hf
  have hperm : (timersFor c.reactAckIt t'.pending).Perm (f :: timersFor c.reactAckIt t.pending) := by
    rw [hl₁.pending_eq]
    refine ((List.perm_orderedInsert _ f t.pending).filter _).trans ?_
    rw [List.filter_cons_of_pos (by simp [hf])]
    exact List.Perm.refl _
  refine ⟨⟨hl₁.holds_pending, fun g hg => ?_, ?_⟩, f, rfl, hperm⟩
  · rcases List.mem_cons.mp (hperm.subset hg) with rfl | hg
    · rfl
    · exact h.once g hg
  · rw [hl₁.pending_eq]
    exact (filter_armInsert_of_not (by simpa [hf] using c.direct_ne.symm)).trans h.unheard

/-- Another user cancels a timer. -/
theorem cancel (h : AckTimers c t)
    (hnone : ¬ ∃ f ∈ t.pending, f.inst = inst ∧ f.reactor = c.reactAckIt) :
    AckTimers c (timerCancel t inst).2 ∧
      timersFor c.reactAckIt (timerCancel t inst).2.pending = timersFor c.reactAckIt t.pending := by
  rcases timerCancel_split h.holds inst with ⟨f, l₁, l₂, hsplit, -, hf, -, hl₁, -⟩ | ⟨hsame, -⟩
  · have hk : f.reactor ≠ c.reactAckIt := fun hk => hnone ⟨f, by rw [hsplit]; simp, hf, hk⟩
    have hkeeps : timersFor c.reactAckIt (timerCancel t inst).2.pending =
        timersFor c.reactAckIt t.pending := by
      rw [hl₁.pending_eq, hsplit, timersFor, timersFor, List.filter_append,
        List.filter_append, List.filter_cons_of_neg (by simpa using hk)]
    refine ⟨⟨hl₁.holds_pending, ?_, ?_⟩, hkeeps⟩
    · rw [hkeeps]
      exact h.once
    · refine List.eq_nil_of_sublist_nil ?_
      rw [← h.unheard, hl₁.pending_eq, hsplit]
      exact ((List.sublist_cons_self f l₂).append_left l₁).filter _
  · rw [hsame]
    exact ⟨h, rfl⟩

/-- **A dispatch notifies of the acknowledgements that are due**, from the
front, and keeps the rest. -/
theorem dispatch (h : AckTimers c t) {r : List (ℕ × ℕ) × Timer}
    (hr : timerDispatch fuel t = some r) :
    AckTimers c r.2 ∧ waiting r.1 c.reactDirectHandler = [] ∧
      ∃ fired, timersFor c.reactAckIt t.pending = fired ++ timersFor c.reactAckIt r.2.pending ∧
        (∀ f ∈ fired, f.count ≤ t.counter) ∧
        waiting r.1 c.reactAckIt = fired.map TimerFuture.arg := by
  obtain ⟨l', hl', -, hd⟩ := timerDispatch_holds h.holds hr
  obtain ⟨fired, hsplit, hcount, hwait⟩ := ringDrain_of_reactor (k := c.reactAckIt)
    (fun f hf hk => h.once f (mem_timersFor.mpr ⟨hf, hk⟩)) hd
  have hdirect : t.pending.filter (fun f => f.reactor = c.reactDirectHandler) = [] := h.unheard
  obtain ⟨none, hsplit', -, hwait'⟩ := ringDrain_of_reactor (k := c.reactDirectHandler)
    (fun f hf hk => absurd (mem_timersFor.mpr ⟨hf, hk⟩) (by rw [h.unheard]; simp)) hd
  rw [hdirect] at hsplit'
  obtain ⟨rfl, hnone⟩ := List.append_eq_nil_iff.mp hsplit'.symm
  rw [hl'.pending_eq]
  refine ⟨⟨hl'.pending_eq ▸ hl', fun f hf => ?_, ?_⟩, hwait', fired, hsplit, hcount, hwait⟩
  · rw [hl'.pending_eq] at hf
    refine h.once f ?_
    rw [timersFor, hsplit]
    exact List.mem_append_right _ hf
  · rw [hl'.pending_eq]
    exact hnone

end AckTimers

/-! ## What a step does -/

/-- **What the driver keeps in every run.** -/
structure DirectSound (c : DirectInputs) (s : DirectState) : Prop where
  timers : AckTimers c s.timer
  bits : s.isrBitMask.length = 2
  direct_le : (waiting s.mail c.reactDirectHandler).length ≤ 1
  ack_le : (waiting s.mail c.reactAckIt).length ≤ 1

/-- **What a step does** with the mask, the notifications and the timers. -/
inductive Changes (c : DirectInputs) (s s' : DirectState) : DirectEvent → Prop
  /-- An interrupt masks the pins it takes, and posts a notification of
  each; the last one stays. -/
  | interrupt {portId : ℕ} {portValue mask : BitVec 8} (hport : portId < 2)
    (hmask : ∀ pin, masked s' pin =
      (masked s pin || takes pin (s, .pinChange portId portValue mask)))
    (hdirect : waiting s'.mail c.reactDirectHandler = (waiting s.mail c.reactDirectHandler ++
      pinNotices portId portValue (takenBits s portId mask)).getLast?.toList)
    (hack : waiting s'.mail c.reactAckIt = waiting s.mail c.reactAckIt)
    (htimers : timersFor c.reactAckIt s'.timer.pending = timersFor c.reactAckIt s.timer.pending) :
    Changes c s s' (.pinChange portId portValue mask)
  /-- A dispatch posts the acknowledgements that are due. -/
  | fired {fired : List TimerFuture} (hmask : ∀ pin, masked s' pin = masked s pin)
    (hdirect : waiting s'.mail c.reactDirectHandler = waiting s.mail c.reactDirectHandler)
    (hack : waiting s'.mail c.reactAckIt =
      (waiting s.mail c.reactAckIt ++ fired.map TimerFuture.arg).getLast?.toList)
    (htimers : timersFor c.reactAckIt s.timer.pending =
      fired ++ timersFor c.reactAckIt s'.timer.pending)
    (hdue : ∀ f ∈ fired, f.count ≤ s.timer.counter) :
    Changes c s s' (.run c.timerReactorHandle)
  /-- A notification of a pin that is none of an input. -/
  | ignored {arg : ℕ} (hnone : ∀ di ∈ c.firstDirect, di.pin ≠ argPin arg)
    (hmask : ∀ pin, masked s' pin = masked s pin)
    (hdirect : waiting s.mail c.reactDirectHandler =
      arg :: waiting s'.mail c.reactDirectHandler)
    (hack : waiting s'.mail c.reactAckIt = waiting s.mail c.reactAckIt)
    (htimers : timersFor c.reactAckIt s'.timer.pending = timersFor c.reactAckIt s.timer.pending) :
    Changes c s s' (.run c.reactDirectHandler)
  /-- The acknowledgement of a notification is put off. -/
  | putOff {arg : ℕ} {f : TimerFuture} (hpin : pinAt c f.arg = some (argPin arg))
    (hmask : ∀ pin, masked s' pin = masked s pin)
    (hdirect : waiting s.mail c.reactDirectHandler =
      arg :: waiting s'.mail c.reactDirectHandler)
    (hack : waiting s'.mail c.reactAckIt = waiting s.mail c.reactAckIt)
    (htimers : (timersFor c.reactAckIt s'.timer.pending).Perm
      (f :: timersFor c.reactAckIt s.timer.pending)) :
    Changes c s s' (.run c.reactDirectHandler)
  /-- A notification is acknowledged at once. -/
  | atOnce {arg : ℕ}
    (hmask : ∀ pin, masked s' pin = (masked s pin && decide (pin ≠ argPin arg)))
    (hdirect : waiting s.mail c.reactDirectHandler =
      arg :: waiting s'.mail c.reactDirectHandler)
    (hack : waiting s'.mail c.reactAckIt = waiting s.mail c.reactAckIt)
    (htimers : timersFor c.reactAckIt s'.timer.pending = timersFor c.reactAckIt s.timer.pending) :
    Changes c s s' (.run c.reactDirectHandler)
  /-- An acknowledgement that was put off. -/
  | acknowledged {i : ℕ}
    (hmask : ∀ pin, masked s' pin = (masked s pin && decide (pinAt c i ≠ some pin)))
    (hdirect : waiting s'.mail c.reactDirectHandler = waiting s.mail c.reactDirectHandler)
    (hack : waiting s.mail c.reactAckIt = i :: waiting s'.mail c.reactAckIt)
    (htimers : timersFor c.reactAckIt s'.timer.pending = timersFor c.reactAckIt s.timer.pending) :
    Changes c s s' (.run c.reactAckIt)
  /-- A step of the others. -/
  | others {e : DirectEvent} (htakes : ∀ pin, takes pin (s, e) = false)
    (hmask : ∀ pin, masked s' pin = masked s pin)
    (hdirect : waiting s'.mail c.reactDirectHandler = waiting s.mail c.reactDirectHandler)
    (hack : waiting s'.mail c.reactAckIt = waiting s.mail c.reactAckIt)
    (htimers : timersFor c.reactAckIt s'.timer.pending = timersFor c.reactAckIt s.timer.pending) :
    Changes c s s' e

/-- Posts to other queues. -/
theorem waiting_deposit_of_ne {caps : ℕ → ℕ} {m : Mailroom ℕ} {handle k : ℕ} (h : handle ≠ k) :
    waiting (deposit caps m handle arg) k = waiting m k := by
  rw [waiting_deposit, if_neg h.symm]

theorem getLast?_toList_length_le (l : List ℕ) : l.getLast?.toList.length ≤ 1 := by
  cases l.getLast? <;> simp

/-- What is queued after an interrupt. -/
theorem DirectSound.waiting_interrupt (h : DirectSound c s) :
    waiting (handlePinChangeIsr c portId portValue mask s).mail c.reactDirectHandler =
        (waiting s.mail c.reactDirectHandler ++
          pinNotices portId portValue (takenBits s portId mask)).getLast?.toList ∧
      waiting (handlePinChangeIsr c portId portValue mask s).mail c.reactAckIt =
        waiting s.mail c.reactAckIt := by
  obtain ⟨-, -, hmail⟩ := @handlePinChangeIsr_spec c portId portValue mask s
  have hnotices : ∀ (l : List ℕ) (k : ℕ),
      waiting (l.map fun a => (c.reactDirectHandler, a)) k =
        if k = c.reactDirectHandler then l else [] := by
    intro l k
    induction l with
    | nil => split <;> rfl
    | cons a l ih =>
      rw [List.map_cons, waiting_cons, ih]
      by_cases hk : k = c.reactDirectHandler
      · rw [if_pos hk, if_pos hk, if_pos hk.symm]
      · rw [if_neg hk, if_neg hk, if_neg (Ne.symm hk)]
  constructor
  · rw [hmail, waiting_depositAll, hnotices, if_pos rfl, c.direct_one, foldl_post_one h.direct_le]
  · rw [hmail, waiting_depositAll, hnotices, if_neg c.direct_ne.symm, List.foldl_nil]

/-- An interrupt. -/
theorem DirectSound.interrupt (h : DirectSound c s) (hport : portId < 2) :
    DirectSound c (handlePinChangeIsr c portId portValue mask s) ∧
      Changes c s (handlePinChangeIsr c portId portValue mask s)
        (.pinChange portId portValue mask) := by
  obtain ⟨hisr, htimer, -⟩ := @handlePinChangeIsr_spec c portId portValue mask s
  obtain ⟨hdirect, hack⟩ := @DirectSound.waiting_interrupt c s portId portValue mask h
  refine ⟨⟨htimer ▸ h.timers, ?_, ?_, by rw [hack]; exact h.ack_le⟩,
    .interrupt hport (masked_handlePinChangeIsr h.bits hport) hdirect hack (by rw [htimer])⟩
  · rw [hisr, List.length_set]
    exact h.bits
  · rw [hdirect]
    exact getLast?_toList_length_le _

/-- The handler of an input is told, and acknowledges. -/
theorem DirectSound.responsible (h : DirectSound c s) {m : Mailroom ℕ} {rest : List ℕ}
    {next : DirectInput} (hnext : c.firstDirect[i]? = some next) (hpin : next.pin = argPin arg)
    (hq : waiting s.mail c.reactDirectHandler = arg :: rest)
    (hm : ∀ k, waiting m k = if k = c.reactDirectHandler then rest else waiting s.mail k)
    (hstep : directResponsible c arg i next { s with mail := m } = some s') :
    DirectSound c s' ∧ Changes c s s' (.run c.reactDirectHandler) := by
  obtain ⟨hne_direct, hne_ack⟩ := c.handler_ne next (List.mem_of_getElem? hnext)
  -- telling the handler of the input leaves both queues of the driver alone
  obtain ⟨s₁, hs₁, hdirect, hack⟩ : ∃ s₁ : DirectState,
      (if next.handler ≠ reactorNullHandle then directNotify c next.handler arg { s with mail := m }
        else { s with mail := m }) = { s₁ with timer := s.timer, isrBitMask := s.isrBitMask } ∧
      waiting s₁.mail c.reactDirectHandler = rest ∧
      waiting s₁.mail c.reactAckIt = waiting s.mail c.reactAckIt := by
    have hm_direct := hm c.reactDirectHandler
    have hm_ack := hm c.reactAckIt
    rw [if_pos rfl] at hm_direct
    rw [if_neg c.direct_ne.symm] at hm_ack
    by_cases hnull : next.handler ≠ reactorNullHandle
    · rw [if_pos hnull]
      exact ⟨directNotify c next.handler arg { s with mail := m }, rfl,
        (waiting_deposit_of_ne hne_direct).trans hm_direct,
        (waiting_deposit_of_ne hne_ack).trans hm_ack⟩
    · rw [if_neg hnull]
      exact ⟨{ s with mail := m }, rfl, hm_direct, hm_ack⟩
  have hrest : rest.length ≤ 1 := by
    have := h.direct_le
    rw [hq, List.length_cons] at this
    omega
  rw [← hdirect] at hrest hq
  have hack_le := h.ack_le
  rw [← hack] at hack_le
  rw [directResponsible, hs₁] at hstep
  by_cases hfilter : next.filter ≠ 0
  · rw [if_pos hfilter, Option.map_eq_some_iff] at hstep
    obtain ⟨⟨inst, t⟩, harm, rfl⟩ := hstep
    obtain ⟨htimers, f, hf, hperm⟩ := h.timers.arm_ack harm
    refine ⟨⟨htimers, h.bits, hrest, hack_le⟩,
      .putOff (f := f) ?_ (fun _ => rfl) hq hack hperm⟩
    rw [pinAt, hf, hnext, ← hpin]
    rfl
  · rw [if_neg hfilter, Option.some.injEq] at hstep
    subst hstep
    refine ⟨⟨by simpa using h.timers, by simpa using h.bits, by simpa using hrest,
      by simpa using hack_le⟩, .atOnce (fun pin => ?_) (by simpa using hq)
      (by simpa using hack) (by simp)⟩
    rw [masked_clearInterrupt (s := { s₁ with timer := s.timer, isrBitMask := s.isrBitMask })
      h.bits hnext, hpin]
    rfl

/-- The direct handler takes a notification. -/
theorem DirectSound.direct (h : DirectSound c s) {m : Mailroom ℕ} {rest : List ℕ}
    (hq : waiting s.mail c.reactDirectHandler = arg :: rest)
    (hm : ∀ k, waiting m k = if k = c.reactDirectHandler then rest else waiting s.mail k)
    (hstep : digitalInputDirectHandler c arg { s with mail := m } = some s') :
    DirectSound c s' ∧ Changes c s s' (.run c.reactDirectHandler) := by
  rcases digitalInputDirectHandler_cases c arg { s with mail := m } with
    ⟨hfind, heq⟩ | ⟨i, next, hfind, hnext, heq⟩
  · rw [heq, Option.some.injEq] at hstep
    subst hstep
    have hrest : rest.length ≤ 1 := by
      have := h.direct_le
      rw [hq, List.length_cons] at this
      omega
    have hdirect := hm c.reactDirectHandler
    rw [if_pos rfl] at hdirect
    have hack := hm c.reactAckIt
    rw [if_neg c.direct_ne.symm] at hack
    refine ⟨⟨h.timers, h.bits, hdirect ▸ hrest, hack ▸ h.ack_le⟩,
      .ignored (fun di hdi => ?_) (fun _ => rfl) (hdirect ▸ hq) hack rfl⟩
    simpa using List.find?_eq_none.mp hfind di hdi
  · rw [heq] at hstep
    exact h.responsible hnext (by simpa using List.find?_some hfind) hq hm hstep

/-- An acknowledgement that was put off. -/
theorem DirectSound.acknowledge (h : DirectSound c s) {m : Mailroom ℕ} {rest : List ℕ}
    (hq : waiting s.mail c.reactAckIt = i :: rest)
    (hm : ∀ k, waiting m k = if k = c.reactAckIt then rest else waiting s.mail k) :
    DirectSound c (clearInterrupt c i { s with mail := m }) ∧
      Changes c s (clearInterrupt c i { s with mail := m }) (.run c.reactAckIt) := by
  have hack := hm c.reactAckIt
  have hdirect := hm c.reactDirectHandler
  rw [if_pos rfl] at hack
  rw [if_neg c.direct_ne] at hdirect
  have hack_le := h.ack_le
  rw [hq, List.length_cons] at hack_le
  refine ⟨⟨by simpa using h.timers, by simpa using h.bits, ?_, ?_⟩,
    .acknowledged (i := i) (fun pin => ?_) ?_ ?_ (by simp)⟩
  · rw [clearInterrupt_mail, hdirect]
    exact h.direct_le
  · rw [clearInterrupt_mail, hack]
    omega
  · cases hnext : c.firstDirect[i]? with
    | none => simp [clearInterrupt, pinAt, hnext, masked]
    | some next =>
      rw [masked_clearInterrupt (s := { s with mail := m }) h.bits hnext, pinAt, hnext]
      simp [masked, eq_comm]
  · rw [clearInterrupt_mail, hdirect]
  · rw [clearInterrupt_mail, hack, hq]

/-- A dispatch. -/
theorem DirectSound.dispatch (h : DirectSound c s) {m : Mailroom ℕ}
    (hm : ∀ k, k ≠ c.timerReactorHandle → waiting m k = waiting s.mail k)
    {r : List (ℕ × ℕ) × Timer} (hr : timerDispatch fuel s.timer = some r) :
    DirectSound c { s with timer := r.2, mail := depositAll c.queueSize m r.1 } ∧
      Changes c s { s with timer := r.2, mail := depositAll c.queueSize m r.1 }
        (.run c.timerReactorHandle) := by
  obtain ⟨htimers, hnone, fired, hsplit, hdue, hwait⟩ := h.timers.dispatch hr
  have hdirect : waiting (depositAll c.queueSize m r.1) c.reactDirectHandler =
      waiting s.mail c.reactDirectHandler := by
    rw [waiting_depositAll, hnone, List.foldl_nil, hm _ c.timer_ne.1.symm]
  have hack : waiting (depositAll c.queueSize m r.1) c.reactAckIt =
      (waiting s.mail c.reactAckIt ++ fired.map TimerFuture.arg).getLast?.toList := by
    rw [waiting_depositAll, hwait, hm _ c.timer_ne.2.symm, c.ack_one, foldl_post_one h.ack_le]
  refine ⟨⟨htimers, h.bits, ?_, ?_⟩, .fired (fun _ => rfl) hdirect hack hsplit hdue⟩
  · show (waiting (depositAll c.queueSize m r.1) c.reactDirectHandler).length ≤ 1
    rw [hdirect]
    exact h.direct_le
  · show (waiting (depositAll c.queueSize m r.1) c.reactAckIt).length ≤ 1
    rw [hack]
    exact getLast?_toList_length_le _

/-- **One step of the driver.** -/
theorem DirectSound.step (h : DirectSound c s) {e : DirectEvent}
    (hstep : directStep c fuel s e = some s') : DirectSound c s' ∧ Changes c s s' e := by
  cases e with
  | pinChange portId portValue mask =>
    rw [directStep] at hstep
    split_ifs at hstep with hport
    obtain rfl := Option.some.inj hstep
    exact h.interrupt hport
  | tick =>
    rw [directStep, Option.some.injEq] at hstep
    subst hstep
    obtain ⟨htimers, hpending⟩ := h.timers.tick
    -- a tick notifies the timer reactor and no other
    have hdirect : waiting (deposit c.queueSize s.mail c.timerReactorHandle 0)
        c.reactDirectHandler = _ := waiting_deposit_of_ne c.timer_ne.1
    have hack : waiting (deposit c.queueSize s.mail c.timerReactorHandle 0)
        c.reactAckIt = _ := waiting_deposit_of_ne c.timer_ne.2
    exact ⟨⟨htimers, h.bits, hdirect ▸ h.direct_le, hack ▸ h.ack_le⟩,
      .others (fun _ => rfl) (fun _ => rfl) hdirect hack (congrArg (timersFor _) hpending)⟩
  | run handle =>
    rw [directStep, Option.bind_eq_some_iff] at hstep
    obtain ⟨⟨arg, m⟩, hcollect, hstep⟩ := hstep
    obtain ⟨rest, hq, hm⟩ := collect_eq_some hcollect
    rw [directHandle] at hstep
    by_cases htimer : handle = c.timerReactorHandle
    · rw [if_pos htimer, Option.map_eq_some_iff] at hstep
      obtain ⟨r, hr, rfl⟩ := hstep
      subst htimer
      exact h.dispatch (fun k hk => by rw [hm, if_neg hk]) hr
    · rw [if_neg htimer] at hstep
      by_cases hdirect : handle = c.reactDirectHandler
      · rw [if_pos hdirect] at hstep
        subst hdirect
        exact h.direct hq hm hstep
      · rw [if_neg hdirect] at hstep
        by_cases hack : handle = c.reactAckIt
        · rw [if_pos hack, Option.some.injEq] at hstep
          subst hack hstep
          exact h.acknowledge hq hm
        · rw [if_neg hack, Option.some.injEq] at hstep
          subst hstep
          have hdirect' := hm c.reactDirectHandler
          have hack' := hm c.reactAckIt
          rw [if_neg (Ne.symm hdirect)] at hdirect'
          rw [if_neg (Ne.symm hack)] at hack'
          exact ⟨⟨h.timers, h.bits, hdirect' ▸ h.direct_le, hack' ▸ h.ack_le⟩,
            .others (fun _ => rfl) (fun _ => rfl) hdirect' hack' rfl⟩
  | arm reactor count rep arg =>
    rw [directStep] at hstep
    split_ifs at hstep with hkind
    rw [Option.map_eq_some_iff] at hstep
    obtain ⟨⟨inst, t⟩, harm, rfl⟩ := hstep
    push Not at hkind
    obtain ⟨htimers, hsame⟩ := h.timers.arm hkind.1 hkind.2.1 hkind.2.2 harm
    exact ⟨⟨htimers, h.bits, h.direct_le, h.ack_le⟩,
      .others (fun _ => rfl) (fun _ => rfl) rfl rfl hsame⟩
  | cancel inst =>
    rw [directStep] at hstep
    split_ifs at hstep with hown
    obtain rfl := Option.some.inj hstep
    obtain ⟨htimers, hsame⟩ := h.timers.cancel hown
    exact ⟨⟨htimers, h.bits, h.direct_le, h.ack_le⟩,
      .others (fun _ => rfl) (fun _ => rfl) rfl rfl hsame⟩

/-- At first only the sampling timer is pending. -/
theorem digitalInputInit_timers (c : DirectInputs) :
    (digitalInputInit c).timer.Holds (digitalInputInit c).timer.pending ∧
      ∀ k, c.reactSample ≠ k → timersFor k (digitalInputInit c).timer.pending = [] := by
  obtain ⟨t, harm, hl, -⟩ := timerArm_eq_some timerInit_holds (by decide) c.sample_ne.2.2
    (timerGetCountFromNow timerInit 0) digitalInputSamplePeriod 0
  have htimer : (digitalInputInit c).timer = t := by
    show ((timerArm timerInit c.reactSample _ _ 0).map Prod.snd).getD timerInit = t
    rw [harm]
    rfl
  rw [htimer, hl.pending_eq]
  exact ⟨hl, fun k hk => filter_armInsert_of_not (by simpa using hk)⟩

/-- The driver as it is initialised. -/
theorem digitalInputInit_sound (c : DirectInputs) : DirectSound c (digitalInputInit c) := by
  obtain ⟨hl, hnone⟩ := digitalInputInit_timers c
  refine ⟨⟨hl, ?_, hnone _ c.sample_ne.1⟩, rfl, by simp [digitalInputInit],
    by simp [digitalInputInit]⟩
  rw [hnone _ c.sample_ne.2.1]
  simp

/-- **Every run keeps it.** -/
theorem directSound_of_run (hr : Run (directStep c fuel) (digitalInputInit c) hist s) :
    DirectSound c s :=
  hr.invariant (digitalInputInit_sound c) fun _ _ _ h hstep => (h.step hstep).1

end Asx

end CncPneumatics
