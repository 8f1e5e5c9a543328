import CncPneumatics.Asx.Reactor
import CncPneumatics.Common.Bits
import CncPneumatics.Common.Run
/-!
# The reactor keeps its books

A flag is set when and only when the queue of its handler has something
in it. From that follows the rest: the pop in the loop never fails, the
handler called is one of the highest priority among those that had
something to do, and each queue is a mailbox of which every message is
accounted for.
-/

namespace CncPneumatics

namespace Asx

variable {w : ℕ} {α : Type*} {r r' : Reactor w α} {handle h i j n : ℕ} {data : α}

namespace Reactor

theorem handler_setHandler {item : ReactorItem w α} (hlt : handle < r.handlers.length) :
    (r.setHandler handle item).handler h = if h = handle then item else r.handler h :=
  cell_set hlt

@[simp] theorem setHandler_length {item : ReactorItem w α} :
    (r.setHandler handle item).handlers.length = r.handlers.length := List.length_set

end Reactor

/-! ## The tables -/

/-- The tables of the reactor after sorting: the bits are given to the
handlers one to one, by falling priority. -/
structure Reactor.Sorted (r : Reactor w α) : Prop where
  le_width : r.nextHandle ≤ w
  lookup_lt : ∀ i < r.nextHandle, r.lookup i < r.nextHandle
  lookup_inj : ∀ i < r.nextHandle, ∀ j < r.nextHandle, r.lookup i = r.lookup j → i = j
  lookup_surj : ∀ h < r.nextHandle, ∃ i < r.nextHandle, r.lookup i = h
  mask_eq : ∀ i < r.nextHandle, (r.handler (r.lookup i)).mask = 1#w <<< i
  falling : ∀ i j, i ≤ j → j < r.nextHandle →
    (r.handler (r.lookup j)).priority ≤ (r.handler (r.lookup i)).priority

/-- The same handlers, with the same bits, priorities and capacities. -/
structure Reactor.SameTables (r r' : Reactor w α) : Prop where
  nextHandle : r'.nextHandle = r.nextHandle
  lookup : ∀ i, r'.lookup i = r.lookup i
  mask : ∀ h, (r'.handler h).mask = (r.handler h).mask
  priority : ∀ h, (r'.handler h).priority = (r.handler h).priority
  nelem : ∀ h < r.nextHandle, (r'.handler h).queue.nelem = (r.handler h).queue.nelem

namespace Reactor.SameTables

theorem refl (r : Reactor w α) : r.SameTables r :=
  ⟨rfl, fun _ => rfl, fun _ => rfl, fun _ => rfl, fun _ _ => rfl⟩

theorem trans {r'' : Reactor w α} (h₁ : r.SameTables r') (h₂ : r'.SameTables r'') :
    r.SameTables r'' where
  nextHandle := h₂.nextHandle.trans h₁.nextHandle
  lookup := fun i => (h₂.lookup i).trans (h₁.lookup i)
  mask := fun h => (h₂.mask h).trans (h₁.mask h)
  priority := fun h => (h₂.priority h).trans (h₁.priority h)
  nelem := fun h hh => (h₂.nelem h (h₁.nextHandle ▸ hh)).trans (h₁.nelem h hh)

theorem sorted (hs : r.SameTables r') (h : r.Sorted) : r'.Sorted where
  le_width := hs.nextHandle ▸ h.le_width
  lookup_lt := fun i hi => by rw [hs.lookup, hs.nextHandle]; exact h.lookup_lt i (hs.nextHandle ▸ hi)
  lookup_inj := fun i hi j hj heq => by
    rw [hs.lookup, hs.lookup] at heq
    exact h.lookup_inj i (hs.nextHandle ▸ hi) j (hs.nextHandle ▸ hj) heq
  lookup_surj := fun k hk => by
    obtain ⟨i, hi, heq⟩ := h.lookup_surj k (hs.nextHandle ▸ hk)
    exact ⟨i, hs.nextHandle ▸ hi, (hs.lookup i).trans heq⟩
  mask_eq := fun i hi => by rw [hs.lookup, hs.mask]; exact h.mask_eq i (hs.nextHandle ▸ hi)
  falling := fun i j hij hj => by
    rw [hs.lookup, hs.lookup, hs.priority, hs.priority]
    exact h.falling i j hij (hs.nextHandle ▸ hj)

end Reactor.SameTables

theorem Reactor.SameTables.setPc (r : Reactor w α) (pc : ReactorPc w α) :
    r.SameTables { r with pc := pc } :=
  ⟨rfl, fun _ => rfl, fun _ => rfl, fun _ => rfl, fun _ _ => rfl⟩

/-- Writing the queue of an item leaves the tables. -/
theorem Reactor.setHandler_queue_same (hlt : handle < r.nextHandle) {q : Queue α}
    (hq : q.nelem = (r.handler handle).queue.nelem) :
    r.SameTables (r.setHandler handle { r.handler handle with queue := q }) where
  nextHandle := Reactor.setHandler_length
  lookup := fun _ => rfl
  mask := fun h => by
    rw [Reactor.handler_setHandler hlt]
    by_cases hh : h = handle
    · rw [if_pos hh, hh]
    · rw [if_neg hh]
  priority := fun h => by
    rw [Reactor.handler_setHandler hlt]
    by_cases hh : h = handle
    · rw [if_pos hh, hh]
    · rw [if_neg hh]
  nelem := fun h _ => by
    rw [Reactor.handler_setHandler hlt]
    by_cases hh : h = handle
    · rw [if_pos hh, hh]; exact hq
    · rw [if_neg hh]

variable [Inhabited α]

/-! ## Contents -/

/-- What a queue reads, from its head. -/
def Queue.contents (q : Queue α) : List α := ringRead q.buffer q.nelem q.head.toNat q.length

theorem Queue.Holds.contents_eq {q : Queue α} {l : List α} (hq : q.Holds l) : q.contents = l := by
  rw [Queue.contents, hq.length_eq, hq.read]

namespace Reactor

/-- What waits for a handler. -/
def contents (r : Reactor w α) (handle : ℕ) : List α := (r.handler handle).queue.contents

end Reactor

/-! ## The invariant -/

/-- **The flags tell the queues**: the queues are well formed and a bit is
set for those that are not empty. -/
structure Reactor.Flagged (r : Reactor w α) : Prop where
  holds : ∀ h < r.nextHandle, (r.handler h).queue.Holds (r.contents h)
  bit_iff : ∀ i < r.nextHandle, r.notifications.getLsbD i = true ↔ r.contents (r.lookup i) ≠ []
  bit_high : ∀ i, r.nextHandle ≤ i → r.notifications.getLsbD i = false

/-- At its place in the loop: the flags that were read are still set. -/
def Reactor.AtPc (r : Reactor w α) : Prop :=
  match r.pc with
  | .loop => True
  | .flagged flags => flags ≠ 0 ∧ ∀ i, flags.getLsbD i = true → r.notifications.getLsbD i = true
  | .calling _ _ => True
  | .stopped => False

/-- **The invariant of the reactor.** -/
structure Reactor.Inv (r : Reactor w α) : Prop where
  sorted : r.Sorted
  flagged : r.Flagged
  atPc : r.AtPc

/-! ## Bits -/

theorem testBit_one_shift (hi : i < w) (j : ℕ) : (1#w <<< i).getLsbD j = decide (j = i) := by
  rw [BitVec.getLsbD_shiftLeft, BitVec.getLsbD_one]
  by_cases hj : j = i
  · subst hj; simp; omega
  · by_cases hlt : j < i
    · simp [hlt, hj]
    · have : ¬ j - i = 0 := by omega
      simp [hj, this]

/-- **The search finds the lowest flag.** -/
theorem reactorFindFlag_eq_some (hw : 0 < w) :
    ∀ (n i : ℕ) (flags : BitVec w) (k : ℕ), reactorFindFlag n i flags = some k →
      i ≤ k ∧ k < i + n ∧ flags.getLsbD (k - i) = true ∧ ∀ j < k - i, flags.getLsbD j = false := by
  intro n
  induction n with
  | zero => intro i flags k hk; cases hk
  | succ n ih =>
    intro i flags k hk
    rw [reactorFindFlag] at hk
    by_cases hbit : flags &&& 1#w ≠ 0
    · rw [if_pos hbit, Option.some.injEq] at hk
      subst hk
      rw [and_one_ne_zero_iff hw] at hbit
      exact ⟨le_rfl, by omega, by rw [Nat.sub_self]; exact hbit, fun j hj => by omega⟩
    · rw [if_neg hbit] at hk
      obtain ⟨hle, hlt, hset, hlow⟩ := ih _ _ _ hk
      rw [and_one_ne_zero_iff hw] at hbit
      have hshift : ∀ j, (flags >>> 1).getLsbD j = flags.getLsbD (j + 1) := fun j => by
        rw [BitVec.getLsbD_ushiftRight, Nat.add_comm]
      refine ⟨by omega, by omega, ?_, ?_⟩
      · rw [hshift] at hset
        rwa [show k - i = k - (i + 1) + 1 by omega]
      · intro j hj
        rcases Nat.eq_zero_or_pos j with rfl | hpos
        · simpa using hbit
        · have := hlow (j - 1) (by omega)
          rwa [hshift, Nat.sub_add_cancel hpos] at this

/-- The search fails when no flag of a handler is set. -/
theorem reactorFindFlag_eq_none (hw : 0 < w) :
    ∀ (n i : ℕ) (flags : BitVec w), reactorFindFlag n i flags = none →
      ∀ j < n, flags.getLsbD j = false := by
  intro n
  induction n with
  | zero => intro i flags _ j hj; omega
  | succ n ih =>
    intro i flags hk j hj
    rw [reactorFindFlag] at hk
    by_cases hbit : flags &&& 1#w ≠ 0
    · rw [if_pos hbit] at hk; cases hk
    · rw [if_neg hbit] at hk
      rw [and_one_ne_zero_iff hw] at hbit
      rcases Nat.eq_zero_or_pos j with rfl | hpos
      · simpa using hbit
      · have := ih _ _ hk (j - 1) (by omega)
        rwa [BitVec.getLsbD_ushiftRight, Nat.add_comm, Nat.sub_add_cancel hpos] at this

/-! ## What a step does -/

/-- Where one queue has changed: what the mailboxes are, and that each queue
still holds its own. -/
theorem Reactor.contents_of_queue {q : Queue α} {l : List α}
    (hhandler : ∀ h, r'.handler h =
      if h = handle then { r.handler handle with queue := q } else r.handler h)
    (hq : q.Holds l) (h : ℕ) :
    r'.contents h = (if h = handle then l else r.contents h) ∧
      ((r.handler h).queue.Holds (r.contents h) → (r'.handler h).queue.Holds (r'.contents h)) := by
  unfold Reactor.contents
  rw [hhandler]
  by_cases heq : h = handle
  · rw [if_pos heq, if_pos heq]
    dsimp only
    rw [hq.contents_eq]
    exact ⟨rfl, fun _ => hq⟩
  · rw [if_neg heq, if_neg heq]
    exact ⟨rfl, id⟩

/-- **Notifying posts** to the mailbox of the handler. -/
theorem reactorNotify_spec (hr : r.Inv) (hlt : handle < r.nextHandle) (data : α) :
    r.SameTables (reactorNotify r handle data) ∧ (reactorNotify r handle data).Flagged ∧
      (∀ h, (reactorNotify r handle data).contents h = if h = handle then
        post (r.handler handle).queue.nelem (r.contents handle) data else r.contents h) ∧
      (∀ i, r.notifications.getLsbD i = true →
        (reactorNotify r handle data).notifications.getLsbD i = true) ∧
      (reactorNotify r handle data).pc = r.pc := by
  obtain ⟨hholds, hnelem⟩ := (hr.flagged.holds handle hlt).queuePushRing data
  have hsame : r.SameTables (reactorNotify r handle data) := by
    have := Reactor.setHandler_queue_same (r := { r with
      notifications := r.notifications ||| (r.handler handle).mask }) hlt hnelem
    exact ⟨this.nextHandle, this.lookup, this.mask, this.priority, this.nelem⟩
  have hhandler : ∀ h, (reactorNotify r handle data).handler h = if h = handle then
      { r.handler handle with queue := queuePushRing (r.handler handle).queue data }
      else r.handler h :=
    fun h => Reactor.handler_setHandler (r := { r with notifications := _ }) hlt
  have hqueues := Reactor.contents_of_queue hhandler hholds
  have hcontents := fun h => (hqueues h).1
  -- the flag that is set is that of the place the handler is sorted to
  obtain ⟨k, hk, hkh⟩ := hr.sorted.lookup_surj handle hlt
  have hbit : ∀ i, (reactorNotify r handle data).notifications.getLsbD i =
      (r.notifications.getLsbD i || decide (i = k)) := by
    intro i
    have hkw : k < w := by have := hr.sorted.le_width; omega
    show (r.notifications ||| (r.handler handle).mask).getLsbD i = _
    rw [BitVec.getLsbD_or, ← hkh, hr.sorted.mask_eq k hk, testBit_one_shift hkw]
  refine ⟨hsame, ⟨?_, ?_, ?_⟩, hcontents, ?_, rfl⟩
  · exact fun h hh => (hqueues h).2 (hr.flagged.holds h (hsame.nextHandle ▸ hh))
  · intro i hi
    rw [hsame.nextHandle] at hi
    rw [hbit, hcontents, hsame.lookup]
    by_cases hik : i = k
    · subst hik
      simp [hkh, post_ne_nil]
    · have hne : r.lookup i ≠ handle := fun heq =>
        hik (hr.sorted.lookup_inj i hi k hk (heq.trans hkh.symm))
      rw [if_neg hne, decide_eq_false hik, Bool.or_false]
      exact hr.flagged.bit_iff i hi
  · intro i hi
    rw [hsame.nextHandle] at hi
    rw [hbit, hr.flagged.bit_high i hi, decide_eq_false (by omega), Bool.or_false]
  · intro i hi
    rw [hbit, hi, Bool.true_or]

/-- The flags after a pop: the flag of an emptied queue is reset. -/
theorem popFlags_bit {q : Queue α} {rest : List α} {flags : BitVec w} {i j : ℕ} (hq : q.Holds rest)
    (hi : i < w) (hbit : flags.getLsbD i = true) :
    (if queueIsEmpty q then flags &&& ~~~(1#w <<< i) else flags).getLsbD j =
      if j = i then decide (rest ≠ []) else flags.getLsbD j := by
  by_cases he : queueIsEmpty q = true
  · have hrest := hq.isEmpty_iff.mp he
    rw [if_pos he, BitVec.getLsbD_and, BitVec.getLsbD_not, testBit_one_shift hi]
    by_cases hji : j = i
    · simp [hji, hrest]
    · rcases Nat.lt_or_ge j w with hj | hj
      · simp [hji, hj]
      · rw [BitVec.getLsbD_of_ge flags j hj, Bool.false_and, if_neg hji]
  · have hrest : rest ≠ [] := fun heq => he (hq.isEmpty_iff.mpr heq)
    rw [if_neg he]
    by_cases hji : j = i
    · rw [if_pos hji, hji, decide_eq_true hrest]
      exact hbit
    · rw [if_neg hji]

/-- **Popping the queue of a flagged handler** calls it with the oldest
message of its mailbox. -/
theorem reactorPop_spec (hr : r.Inv) (hi : i < r.nextHandle)
    (hbit : r.notifications.getLsbD i = true) :
    ∃ data rest, r.contents (r.lookup i) = data :: rest ∧
      (reactorPop r (r.lookup i)).pc = .calling (r.lookup i) data ∧
      r.SameTables (reactorPop r (r.lookup i)) ∧ (reactorPop r (r.lookup i)).Flagged ∧
      ∀ h, (reactorPop r (r.lookup i)).contents h =
        if h = r.lookup i then rest else r.contents h := by
  have hlt := hr.sorted.lookup_lt i hi
  have hkw : i < w := by have := hr.sorted.le_width; omega
  have hholds := hr.flagged.holds _ hlt
  obtain ⟨data, rest, hcons⟩ := List.exists_cons_of_ne_nil ((hr.flagged.bit_iff i hi).mp hbit)
  rw [hcons] at hholds
  obtain ⟨q, hpop, hq, hnelem⟩ := hholds.queuePop_cons
  -- the item after the pop, and the flags
  set r₁ := r.setHandler (r.lookup i) { r.handler (r.lookup i) with queue := q } with hr₁
  have hsame : r.SameTables r₁ := Reactor.setHandler_queue_same hlt hnelem
  have hmask : (r₁.handler (r.lookup i)).mask = 1#w <<< i := by
    rw [hsame.mask]
    exact hr.sorted.mask_eq i hi
  have hres : reactorPop r (r.lookup i) = { r₁ with
      notifications := if queueIsEmpty q then r.notifications &&& ~~~(1#w <<< i)
        else r.notifications
      pc := .calling (r.lookup i) data } := by
    unfold reactorPop
    rw [hpop, ← hmask]
    dsimp only
    by_cases he : queueIsEmpty q = true
    · rw [if_pos he, if_pos he]
      rfl
    · rw [if_neg he, if_neg he]
      rfl
  have hbits := fun j => popFlags_bit (j := j) hq hkw hbit
  rw [hres]
  generalize (if queueIsEmpty q then r.notifications &&& ~~~(1#w <<< i)
    else r.notifications) = flags at *
  have hsame' : r.SameTables { r₁ with notifications := flags, pc := .calling (r.lookup i) data } :=
    ⟨hsame.nextHandle, hsame.lookup, hsame.mask, hsame.priority, hsame.nelem⟩
  have hhandler : ∀ h, Reactor.handler { r₁ with
      notifications := flags, pc := .calling (r.lookup i) data } h =
      if h = r.lookup i then { r.handler (r.lookup i) with queue := q } else r.handler h :=
    fun h => Reactor.handler_setHandler hlt
  have hqueues := Reactor.contents_of_queue hhandler hq
  refine ⟨data, rest, hcons, rfl, hsame', ⟨?_, ?_, ?_⟩, fun h => (hqueues h).1⟩
  · exact fun h hh => (hqueues h).2 (hr.flagged.holds h (hsame'.nextHandle ▸ hh))
  · intro j hj
    rw [hsame'.nextHandle] at hj
    rw [(hqueues _).1, hsame'.lookup, hbits]
    by_cases hji : j = i
    · rw [if_pos hji, if_pos (by rw [hji])]
      simp
    · have hne : r.lookup j ≠ r.lookup i := fun heq => hji (hr.sorted.lookup_inj j hj i hi heq)
      rw [if_neg hji, if_neg hne]
      exact hr.flagged.bit_iff j hj
  · intro j hj
    rw [hsame'.nextHandle] at hj
    rw [hbits, if_neg (by omega)]
    exact hr.flagged.bit_high j hj

/-- **What a step does**, for each kind of event. -/
inductive Reactor.Effect (r : Reactor w α) : ReactorEvent α → Reactor w α → Prop
  | notify {handle : ℕ} {data : α} {r' : Reactor w α} : handle < r.nextHandle → r'.pc = r.pc →
      (∀ h, r'.contents h = if h = handle then
        post (r.handler handle).queue.nelem (r.contents handle) data else r.contents h) →
      r.Effect (.notify handle data) r'
  /-- There is nothing to do. -/
  | sleep : r.Effect .loop r
  /-- The flags are read. -/
  | read {r' : Reactor w α} : r'.pc = .flagged r.notifications →
      (∀ h, r'.contents h = r.contents h) → r.Effect .loop r'
  /-- The handler of the lowest flag is called with the oldest message. -/
  | call {flags : BitVec w} {i : ℕ} {data : α} {rest : List α} {r' : Reactor w α} :
      r.pc = .flagged flags → i < r.nextHandle → flags.getLsbD i = true →
      (∀ j < i, flags.getLsbD j = false) → r.contents (r.lookup i) = data :: rest →
      r'.pc = .calling (r.lookup i) data →
      (∀ h, r'.contents h = if h = r.lookup i then rest else r.contents h) →
      r.Effect .dispatch r'
  | handled {r' : Reactor w α} : r'.pc = .loop → (∀ h, r'.contents h = r.contents h) →
      r.Effect .handled r'

/-- The flags and the queues do not depend on the place in the loop. -/
theorem Reactor.Inv.setPc (hr : r.Inv) {pc : ReactorPc w α}
    (hpc : Reactor.AtPc { r with pc := pc }) : Reactor.Inv { r with pc := pc } where
  sorted := ⟨hr.sorted.le_width, hr.sorted.lookup_lt, hr.sorted.lookup_inj, hr.sorted.lookup_surj,
    hr.sorted.mask_eq, hr.sorted.falling⟩
  flagged := ⟨hr.flagged.holds, hr.flagged.bit_iff, hr.flagged.bit_high⟩
  atPc := hpc

/-- Some handler has the flag, when there is one at all. -/
theorem Reactor.Inv.exists_flag (hr : r.Inv) {flags : BitVec w} (hne : flags ≠ 0)
    (hsub : ∀ i, flags.getLsbD i = true → r.notifications.getLsbD i = true) :
    ∃ i, reactorFindFlag r.nextHandle 0 flags = some i := by
  have hex : ∃ i, flags.getLsbD i = true := by
    by_contra hnone
    refine hne (BitVec.eq_of_getLsbD_eq fun i _ => ?_)
    rw [show (0 : BitVec w) = 0#w from rfl, BitVec.getLsbD_zero]
    exact Bool.eq_false_iff.mpr fun hi => hnone ⟨i, hi⟩
  obtain ⟨i, hi⟩ := hex
  have hin : i < r.nextHandle := by
    by_contra hge
    have := hr.flagged.bit_high i (by omega)
    rw [hsub i hi] at this
    cases this
  have hw : 0 < w := by have := hr.sorted.le_width; omega
  cases hfind : reactorFindFlag r.nextHandle 0 flags with
  | some k => exact ⟨k, rfl⟩
  | none =>
    have := reactorFindFlag_eq_none hw _ _ _ hfind i hin
    rw [hi] at this
    cases this

/-- **The step lemma.** -/
theorem reactorStep_spec (hr : r.Inv) {e : ReactorEvent α} (hs : reactorStep r e = some r') :
    r'.Inv ∧ r.SameTables r' ∧ r.Effect e r' := by
  have hat := hr.atPc
  cases e with
  | notify handle data =>
    -- an interrupt can come between any two blocks, but no more once the reactor has stopped
    have hstep : handle < r.nextHandle ∧ reactorNotify r handle data = r' := by
      unfold reactorStep at hs
      cases hpc : r.pc <;> simp only [hpc] at hs
      case stopped => cases hs
      all_goals
        by_cases hlt : handle < r.nextHandle
        · rw [if_pos hlt, Option.some.injEq] at hs; exact ⟨hlt, hs⟩
        · rw [if_neg hlt] at hs; cases hs
    obtain ⟨hlt, rfl⟩ := hstep
    obtain ⟨hsame, hflagged, hcontents, hmono, hpc⟩ := reactorNotify_spec hr hlt data
    refine ⟨⟨hsame.sorted hr.sorted, hflagged, ?_⟩, hsame, .notify hlt hpc hcontents⟩
    unfold Reactor.AtPc at hat ⊢
    rw [hpc]
    cases hp : r.pc with
    | loop => trivial
    | calling _ _ => trivial
    | stopped => rw [hp] at hat; exact hat
    | flagged flags =>
      rw [hp] at hat
      exact ⟨hat.1, fun i hi => hmono i (hat.2 i hi)⟩
  | loop =>
    unfold reactorStep at hs
    cases hpc : r.pc <;> simp only [hpc] at hs
    case flagged | calling | stopped => cases hs
    by_cases hz : r.notifications = 0
    · rw [if_pos hz, Option.some.injEq] at hs
      subst hs
      exact ⟨hr, .refl r, .sleep⟩
    · rw [if_neg hz, Option.some.injEq] at hs
      subst hs
      exact ⟨hr.setPc ⟨hz, fun _ hi => hi⟩, .setPc r _, .read rfl fun _ => rfl⟩
  | dispatch =>
    unfold reactorStep at hs
    cases hpc : r.pc <;> simp only [hpc] at hs
    case loop | calling | stopped => cases hs
    next flags =>
    unfold Reactor.AtPc at hat
    rw [hpc] at hat
    -- the flags that were read were not zero, and none of them is reset before this block
    obtain ⟨i, hfind⟩ := hr.exists_flag hat.1 hat.2
    have hw : 0 < w := by
      by_contra hw0
      obtain rfl : w = 0 := by omega
      exact hat.1 (BitVec.eq_of_getLsbD_eq fun i hi => by omega)
    obtain ⟨-, hi, hset, hlow⟩ := reactorFindFlag_eq_some hw _ _ _ _ hfind
    rw [Nat.zero_add] at hi
    rw [hfind, Option.some.injEq] at hs
    subst hs
    obtain ⟨data, rest, hcons, hpc', hsame, hflagged, hcontents⟩ :=
      reactorPop_spec hr hi (hat.2 i hset)
    refine ⟨⟨hsame.sorted hr.sorted, hflagged, ?_⟩, hsame,
      .call hpc hi hset hlow hcons hpc' hcontents⟩
    unfold Reactor.AtPc
    rw [hpc']
    trivial
  | handled =>
    unfold reactorStep at hs
    cases hpc : r.pc <;> simp only [hpc] at hs
    case loop | flagged | stopped => cases hs
    rw [Option.some.injEq] at hs
    subst hs
    exact ⟨hr.setPc trivial, .setPc r _, .handled rfl fun _ => rfl⟩

/-! ## Runs -/

variable {r₀ : Reactor w α} {hist : List (Reactor w α × ReactorEvent α)}

/-- The run lemma. -/
theorem Reactor.Inv.run (hr : r₀.Inv) (hrun : Run reactorStep r₀ hist r) :
    r.Inv ∧ r₀.SameTables r := by
  refine hrun.invariant (I := fun r => r.Inv ∧ r₀.SameTables r) ⟨hr, .refl r₀⟩ ?_
  rintro s e s' ⟨hs, hsame⟩ hstep
  obtain ⟨hs', hsame', -⟩ := reactorStep_spec hs hstep
  exact ⟨hs', hsame.trans hsame'⟩

/-- **Flags that are being handled were read at the last turn of the
loop**, after which there were notifications only. -/
theorem Reactor.Inv.snapshot (hr : r₀.Inv) (hrun : Run reactorStep r₀ hist r) :
    ∀ flags, r.pc = .flagged flags → (∃ h₁ s h₂, hist = h₁ ++ (s, .loop) :: h₂ ∧
      Run reactorStep r₀ h₁ s ∧ s.notifications = flags ∧
      ∀ p ∈ h₂, ∃ handle data, p.2 = .notify handle data) ∨ r₀.pc = .flagged flags := by
  refine hrun.invariant_history (I := fun hist r => ∀ flags, r.pc = .flagged flags →
    (∃ h₁ s h₂, hist = h₁ ++ (s, .loop) :: h₂ ∧ Run reactorStep r₀ h₁ s ∧ s.notifications = flags ∧
      ∀ p ∈ h₂, ∃ handle data, p.2 = .notify handle data) ∨ r₀.pc = .flagged flags)
    (fun flags hpc => .inr hpc) ?_
  intro hist s e s' hrun ih hstep flags hpc'
  obtain ⟨-, -, heff⟩ := reactorStep_spec (hr.run hrun).1 hstep
  cases heff with
  | @notify handle data _ _ hpc _ =>
    rcases ih flags (hpc ▸ hpc') with ⟨h₁, s₁, h₂, rfl, hrun₁, hflags, hall⟩ | h0
    · refine .inl ⟨h₁, s₁, h₂ ++ [(s, .notify handle data)], by simp, hrun₁, hflags,
        fun p hp => ?_⟩
      rcases List.mem_append.mp hp with hp | hp
      · exact hall p hp
      · rw [List.mem_singleton] at hp
        exact ⟨handle, data, by rw [hp]⟩
    · exact .inr h0
  | sleep =>
    have : reactorStep s .loop = some s := hstep
    unfold reactorStep at this
    rw [hpc'] at this
    cases this
  | read hpc _ =>
    rw [hpc, ReactorPc.flagged.injEq] at hpc'
    exact .inl ⟨hist, s, [], rfl, hrun, hpc', by simp⟩
  | call _ _ _ _ _ hpc _ => rw [hpc] at hpc'; cases hpc'
  | handled hpc _ => rw [hpc] at hpc'; cases hpc'

/-- The handler that an event calls, with the data it is called with. -/
def reactorDelivery (r : Reactor w α) (e : ReactorEvent α) : Option (ℕ × α) :=
  match e, reactorStep r e with
  | .dispatch, some r' =>
    match r'.pc with
    | .calling handle data => some (handle, data)
    | _ => none
  | _, _ => none

/-- The data notified to a handler, in order. -/
def notifiedTo (handle : ℕ) (hist : List (Reactor w α × ReactorEvent α)) : List α :=
  hist.filterMap fun p =>
    match p.2 with
    | .notify h data => if h = handle then some data else none
    | _ => none

/-- The data a handler was called with, in order. -/
def deliveredTo (handle : ℕ) (hist : List (Reactor w α × ReactorEvent α)) : List α :=
  hist.filterMap fun p => (reactorDelivery p.1 p.2).bind fun d =>
    if d.1 = handle then some d.2 else none

/-- All that was sent to a handler: what waited for it at first and what
was notified since. -/
def sentTo (r₀ : Reactor w α) (handle : ℕ) (hist : List (Reactor w α × ReactorEvent α)) : List α :=
  r₀.contents handle ++ notifiedTo handle hist

/-- The oldest message of the full queue of a handler was lost, at the
place `k` among those sent, to a newer one. -/
def LostTo (r₀ : Reactor w α) (handle : ℕ) (hist : List (Reactor w α × ReactorEvent α)) (k : ℕ) :
    Prop :=
  ∃ h₁ s data h₂, hist = h₁ ++ (s, .notify handle data) :: h₂ ∧
    (s.contents handle).length = (r₀.handler handle).queue.nelem ∧
    k + (s.contents handle).length = (sentTo r₀ handle h₁).length

/-- **Every message is accounted for**: the messages held are the last
ones sent, those delivered came in the order in which they were sent, and
the others were lost as the oldest of a full queue. -/
def AccountedTo (r₀ : Reactor w α) (handle : ℕ) (hist : List (Reactor w α × ReactorEvent α))
    (r : Reactor w α) : Prop :=
  ∃ taken lost, Account (sentTo r₀ handle hist) taken lost (r.contents handle) ∧
    (deliveredTo handle hist).map some = taken.map (fun k => (sentTo r₀ handle hist)[k]?) ∧
    ∀ k ∈ lost, LostTo r₀ handle hist k

theorem LostTo.append {k : ℕ} (h : LostTo r₀ handle hist k)
    (h' : List (Reactor w α × ReactorEvent α)) : LostTo r₀ handle (hist ++ h') k := by
  obtain ⟨h₁, s, data, h₂, rfl, hfull, hk⟩ := h
  exact ⟨h₁, s, data, h₂ ++ h', by simp, hfull, hk⟩

/-- A step that neither notifies the handler nor calls it changes nothing
in its account. -/
theorem AccountedTo.skip (h : AccountedTo r₀ handle hist r) {e : ReactorEvent α}
    (hsent : notifiedTo handle [(r, e)] = []) (hdel : deliveredTo handle [(r, e)] = [])
    (hcontents : r'.contents handle = r.contents handle) :
    AccountedTo r₀ handle (hist ++ [(r, e)]) r' := by
  obtain ⟨taken, lost, hacc, htaken, hlost⟩ := h
  have hsent' : sentTo r₀ handle (hist ++ [(r, e)]) = sentTo r₀ handle hist := by
    rw [notifiedTo] at hsent
    rw [sentTo, notifiedTo, List.filterMap_append, hsent, List.append_nil]
    rfl
  have hdel' : deliveredTo handle (hist ++ [(r, e)]) = deliveredTo handle hist := by
    rw [deliveredTo] at hdel
    rw [deliveredTo, List.filterMap_append, hdel, List.append_nil]
    rfl
  refine ⟨taken, lost, ?_, ?_, fun k hk => (hlost k hk).append _⟩
  · rw [hsent', hcontents]; exact hacc
  · rw [hsent', hdel']; exact htaken

theorem deliveredTo_of_ne {e : ReactorEvent α} (he : e ≠ .dispatch) :
    deliveredTo handle [(r, e)] = [] := by
  have hnone : reactorDelivery r e = none := by
    unfold reactorDelivery
    split
    · exact absurd rfl he
    · rfl
  rw [deliveredTo, List.filterMap_cons_none (by rw [hnone]; rfl)]
  rfl

/-- Notifying the handler: the message is held, and when the queue was
full its oldest is lost. -/
theorem AccountedTo.notify (h : AccountedTo r₀ handle hist r) (hpos : 0 < (r₀.handler handle).queue.nelem)
    (hle : (r.contents handle).length ≤ (r₀.handler handle).queue.nelem)
    (hcontents : r'.contents handle =
      post (r₀.handler handle).queue.nelem (r.contents handle) data) :
    AccountedTo r₀ handle (hist ++ [(r, .notify handle data)]) r' := by
  obtain ⟨taken, lost, hacc, htaken, hlost⟩ := h
  have hsent : sentTo r₀ handle (hist ++ [(r, .notify handle data)]) =
      sentTo r₀ handle hist ++ [data] := by
    simp [sentTo, notifiedTo]
  have hdel : deliveredTo handle (hist ++ [(r, .notify handle data)]) = deliveredTo handle hist := by
    have hnone : deliveredTo handle [(r, .notify handle data)] = [] := deliveredTo_of_ne (by simp)
    rw [deliveredTo] at hnone
    rw [deliveredTo, List.filterMap_append, hnone, List.append_nil]
    rfl
  -- what was taken before stands in the same place of the longer list
  have hplaces : taken.map (fun k => (sentTo r₀ handle hist ++ [data])[k]?) =
      taken.map fun k => (sentTo r₀ handle hist)[k]? := by
    refine List.map_congr_left fun k hk => ?_
    have := (hacc.settled k).mpr (.inl hk)
    exact List.getElem?_append_left (by omega)
  by_cases hroom : (r.contents handle).length < (r₀.handler handle).queue.nelem
  · rw [post_of_lt hroom] at hcontents
    refine ⟨taken, lost, ?_, ?_, fun k hk => (hlost k hk).append _⟩
    · rw [hsent, hcontents]; exact hacc.post_room
    · rw [hsent, hdel, hplaces]; exact htaken
  · obtain ⟨y, held, hheld⟩ := List.exists_cons_of_length_pos (l := r.contents handle) (by omega)
    rw [post_of_le (by omega), hheld, List.tail_cons] at hcontents
    rw [hheld] at hacc
    have hfull : (r.contents handle).length = held.length + 1 := by rw [hheld, List.length_cons]
    have hlen := hacc.length_le
    rw [List.length_cons] at hlen
    refine ⟨taken, lost ++ [(sentTo r₀ handle hist).length - (held.length + 1)], ?_, ?_, ?_⟩
    · rw [hsent, hcontents]; exact hacc.post_full
    · rw [hsent, hdel, hplaces]; exact htaken
    · intro k hk
      rcases List.mem_append.mp hk with hk | hk
      · exact (hlost k hk).append _
      · rw [List.mem_singleton] at hk
        exact ⟨hist, r, data, [], rfl, by omega, by omega⟩

/-- Calling the handler: its oldest message is taken. -/
theorem AccountedTo.call (h : AccountedTo r₀ handle hist r) {rest : List α}
    (hdel : reactorDelivery r .dispatch = some (handle, data))
    (hcons : r.contents handle = data :: rest) (hcontents : r'.contents handle = rest) :
    AccountedTo r₀ handle (hist ++ [(r, .dispatch)]) r' := by
  obtain ⟨taken, lost, hacc, htaken, hlost⟩ := h
  rw [hcons] at hacc
  have hsent : sentTo r₀ handle (hist ++ [(r, .dispatch)]) = sentTo r₀ handle hist := by
    simp [sentTo, notifiedTo]
  have hdel' : deliveredTo handle (hist ++ [(r, .dispatch)]) =
      deliveredTo handle hist ++ [data] := by
    simp [deliveredTo, hdel]
  refine ⟨_, lost, by rw [hsent, hcontents]; exact hacc.take, ?_, fun k hk => (hlost k hk).append _⟩
  rw [hsent, hdel', List.map_append, List.map_append, htaken, List.map_singleton,
    List.map_singleton, hacc.oldest]

/-- **The account is kept along every run.** -/
theorem Reactor.Inv.accounted (hr : r₀.Inv) (hlt : handle < r₀.nextHandle)
    (hrun : Run reactorStep r₀ hist r) : AccountedTo r₀ handle hist r := by
  refine hrun.invariant_history (I := AccountedTo r₀ handle)
    ⟨[], [], by simpa [sentTo, notifiedTo] using Account.start _, rfl, by simp⟩ ?_
  intro hist s e s' hrun hacc hstep
  obtain ⟨hs, hsame⟩ := hr.run hrun
  have hholds := hs.flagged.holds handle (hsame.nextHandle ▸ hlt)
  have hnelem := hsame.nelem handle hlt
  obtain ⟨-, -, heff⟩ := reactorStep_spec hs hstep
  cases heff with
  | @notify h data _ _ _ hcontents =>
    have hc := hcontents handle
    -- a message for another handler is none of this account
    by_cases heq : handle = h
    · subst heq
      rw [if_pos rfl, hnelem] at hc
      exact hacc.notify (hnelem ▸ hholds.nelem_pos) (hnelem ▸ hholds.length_le) hc
    · rw [if_neg heq] at hc
      refine hacc.skip ?_ (deliveredTo_of_ne (by simp)) hc
      rw [notifiedTo, List.filterMap_cons_none (by dsimp only; rw [if_neg (Ne.symm heq)])]
      rfl
  | sleep => exact hacc.skip rfl (deliveredTo_of_ne (by simp)) rfl
  | read _ hcontents => exact hacc.skip rfl (deliveredTo_of_ne (by simp)) (hcontents handle)
  | handled _ hcontents => exact hacc.skip rfl (deliveredTo_of_ne (by simp)) (hcontents handle)
  | @call flags i data rest _ _ _ _ _ hcons hpc hcontents =>
    have hc := hcontents handle
    have hdel : reactorDelivery s .dispatch = some (s.lookup i, data) := by
      unfold reactorDelivery
      rw [hstep]
      dsimp only
      rw [hpc]
    by_cases heq : handle = s.lookup i
    · rw [if_pos heq] at hc
      exact hacc.call (heq ▸ hdel) (heq ▸ hcons) hc
    · rw [if_neg heq] at hc
      refine hacc.skip rfl ?_ hc
      rw [deliveredTo, List.filterMap_cons_none (by
        rw [hdel, Option.bind_some, if_neg (Ne.symm heq)])]
      rfl

end Asx

end CncPneumatics
