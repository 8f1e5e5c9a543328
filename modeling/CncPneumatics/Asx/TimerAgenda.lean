import CncPneumatics.Common.Agenda
import CncPneumatics.Asx.TimerRing
import CncPneumatics.Common.Mailbox
import Mathlib.Algebra.Order.BigOperators.Group.List
import Mathlib.Algebra.Order.Ring.Nat
/-!
# The timer service is an agenda

What the service is for: an agenda of notifications, each at its deadline,
in the order of the deadlines and, at one deadline, of the arming. The
ring follows it through any sequence of calls, as long as the signed
distances with which `timer_arm` compares deadlines do not turn round.
-/

namespace CncPneumatics

namespace Asx

/-- What a timer notifies: a reactor handle and an argument. -/
abbrev Notice := ℕ × ℕ

/-- A repeating timer notifies with its argument once, and then with
none. -/
def againNull (p : Notice) : Notice := (p.1, 0)

/-- The record of an entry. -/
def toFuture (e : Entry Notice) : TimerFuture :=
  ⟨e.payload.1, e.serial % 2 ^ 32, e.deadline, e.period, e.payload.2⟩

variable {e f : Entry Notice} {l : List (Entry Notice)} {now issued B : ℕ}

/-! ## Comparing deadlines -/

/-- The deadlines that the signed distance from `now` tells apart. -/
def InWindow (now c : ℕ) : Prop := now ≤ c + 2 ^ 31 ∧ c < now + 2 ^ 31

theorem timerDistanceOf_eq {c : ℕ} (h : InWindow now c) :
    timerDistanceOf now c = (c : ℤ) - now := by
  obtain ⟨h1, h2⟩ := h
  exact Int.bmod_eq_of_le (by omega) (by omega)

/-- In the window, arming compares deadlines. -/
theorem sooner_toFuture (he : InWindow now e.deadline) (hf : InWindow now f.deadline) :
    sooner now (toFuture e) (toFuture f) ↔ e.deadline < f.deadline := by
  unfold sooner
  simp only [toFuture]
  rw [timerDistanceOf_eq he, timerDistanceOf_eq hf]
  omega

/-- **Arming enters into the agenda.** -/
theorem armInsert_toFuture (he : InWindow now e.deadline)
    (hl : ∀ f ∈ l, InWindow now f.deadline) :
    armInsert now (toFuture e) (l.map toFuture) = (insertEntry e l).map toFuture := by
  unfold armInsert insertEntry
  induction l with
  | nil => rfl
  | cons f l ih =>
    have hiff := sooner_toFuture he (hl f (by simp))
    rw [List.map_cons, List.orderedInsert_cons, List.orderedInsert_cons]
    by_cases hlt : e.deadline < f.deadline
    · rw [if_pos (hiff.mpr hlt), if_pos hlt]; rfl
    · rw [if_neg (hiff.not.mpr hlt), if_neg hlt, ih fun g hg => hl g (by simp [hg])]; rfl

/-! ## Draining -/

/-- The number `_timer_current_instance` holds after so many timers. -/
def lastInstance (issued : ℕ) : ℕ := (issued + (2 ^ 32 - 1)) % 2 ^ 32

theorem lastInstance_succ (issued : ℕ) : (lastInstance issued + 1) % 2 ^ 32 = issued % 2 ^ 32 := by
  unfold lastInstance; omega

theorem mod_eq_lastInstance (issued : ℕ) : issued % 2 ^ 32 = lastInstance (issued + 1) := by
  unfold lastInstance; omega

/-- The bounds under which a list of entries drains as its records do:
none is so late or so early that its distance from `now` turns round, and
neither is what is left of one. -/
structure Drainable (now B : ℕ) (l : List (Entry Notice)) : Prop where
  now_lt : now < B
  window : B ≤ now + 2 ^ 31
  wrap : B ≤ 2 ^ 32
  early : ∀ e ∈ l, now ≤ e.deadline + 2 ^ 31
  late : ∀ e ∈ l, e.deadline < B
  left : ∀ e ∈ l, ∀ c, remaining againNull now e = some c → c.1 < B

theorem Drainable.inWindow (h : Drainable now B l) (he : e ∈ l) : InWindow now e.deadline := by
  have h1 := h.early e he
  have h2 := h.late e he
  have h3 := h.window
  exact ⟨h1, by omega⟩

/-- The renewal of an entry that is due stays within the bounds. -/
theorem Drainable.renew_lt (h : Drainable now B l) (he : e ∈ l) (hdue : e.deadline ≤ now)
    (hper : e.period ≠ 0) : e.deadline + e.period < B := by
  by_cases hlt : now < e.deadline + e.period
  · have := h.left e he _ ((remaining_of_renew hdue hper 0).trans (remaining_of_lt _ hlt))
    exact this
  · have := h.now_lt
    omega

theorem Drainable.tail (h : Drainable now B (e :: l)) : Drainable now B l where
  now_lt := h.now_lt
  window := h.window
  wrap := h.wrap
  early := fun f hf => h.early f (List.mem_cons_of_mem _ hf)
  late := fun f hf => h.late f (List.mem_cons_of_mem _ hf)
  left := fun f hf => h.left f (List.mem_cons_of_mem _ hf)

theorem Drainable.renew (h : Drainable now B (e :: l)) (hdue : e.deadline ≤ now)
    (hper : e.period ≠ 0) (s : ℕ) :
    Drainable now B (insertEntry (e.renew againNull s) l) where
  now_lt := h.now_lt
  window := h.window
  wrap := h.wrap
  early := by
    intro f hf
    rcases mem_insertEntry.mp hf with rfl | hf
    · have := h.early e (by simp)
      simp only [Entry.renew]
      omega
    · exact h.early f (List.mem_cons_of_mem _ hf)
  late := by
    intro f hf
    rcases mem_insertEntry.mp hf with rfl | hf
    · exact h.renew_lt (by simp) hdue hper
    · exact h.late f (List.mem_cons_of_mem _ hf)
  left := by
    intro f hf c hc
    rcases mem_insertEntry.mp hf with rfl | hf
    · exact h.left e (by simp) c ((remaining_of_renew hdue hper s).trans hc)
    · exact h.left f (List.mem_cons_of_mem _ hf) c hc

/-- **A turn of the dispatch loop is a turn of the drain.** -/
theorem expire_toFuture (h : Drainable now B (e :: l)) (hdue : e.deadline ≤ now) :
    expire now (toFuture e) (l.map toFuture) (lastInstance issued) =
      if e.period ≠ 0 then
        ((insertEntry (e.renew againNull issued) l).map toFuture, lastInstance (issued + 1))
      else (l.map toFuture, lastInstance issued) := by
  unfold expire
  by_cases hper : e.period ≠ 0
  · have hlt := h.renew_lt (by simp) hdue hper
    have hrec : (⟨(toFuture e).reactor, (lastInstance issued + 1) % 2 ^ 32,
        ((toFuture e).count + (toFuture e).rep) % 2 ^ 32, (toFuture e).rep, 0⟩ : TimerFuture) =
        toFuture (e.renew againNull issued) := by
      have hwrap := h.wrap
      simp only [toFuture, Entry.renew, againNull, lastInstance_succ, TimerFuture.mk.injEq,
        true_and, and_true]
      exact Nat.mod_eq_of_lt (by omega)
    have hwin : InWindow now (e.renew againNull issued).deadline := by
      have h1 := h.early e (by simp)
      have h2 := h.window
      simp only [InWindow, Entry.renew]
      omega
    have hins := armInsert_toFuture hwin (l := e :: l) fun f hf => h.inWindow hf
    rw [List.map_cons] at hins
    rw [if_pos (show (toFuture e).rep ≠ 0 from hper), if_pos hper, hrec, hins, lastInstance_succ,
      mod_eq_lastInstance, insertEntry, List.orderedInsert_cons, if_neg (by
        simp only [Entry.renew]; omega)]
    rfl
  · rw [if_neg (show ¬ (toFuture e).rep ≠ 0 from hper), if_neg hper]

/-- **The loop drains the agenda**, as long as the ring is not full. -/
theorem ringDrain_toFuture (now B : ℕ) : ∀ (fuel : ℕ) (l : List (Entry Notice)) (issued : ℕ),
    l.length < timerMaxCallback → Drainable now B l →
    ringDrain now now fuel (l.map toFuture) (lastInstance issued) =
      (drain againNull now fuel l issued).map fun r =>
        (r.1.map Entry.payload, r.2.1.map toFuture, lastInstance r.2.2) := by
  intro fuel
  induction fuel with
  | zero => intro l issued _ _; rfl
  | succ fuel ih =>
    intro l issued hlen h
    cases l with
    | nil => rfl
    | cons e l =>
      rw [List.length_cons] at hlen
      rw [List.map_cons, ringDrain, drain, if_neg (by simp; omega)]
      by_cases hdue : e.deadline ≤ now
      · rw [if_pos (show (toFuture e).count ≤ now from hdue), if_pos hdue,
          expire_toFuture h hdue]
        by_cases hper : e.period ≠ 0
        · simp only [if_pos hper]
          rw [ih _ _ (by rw [insertEntry_length]; exact hlen) (h.renew hdue hper issued),
            Option.map_map, Option.map_map]
          rfl
        · simp only [if_neg hper]
          rw [ih _ _ (by omega) h.tail, Option.map_map, Option.map_map]
          rfl
      · rw [if_neg (show ¬ (toFuture e).count ≤ now from hdue), if_neg hdue]
        rfl

/-! ## The abstract service -/

/-- The state of the service: the time, the number of timers armed so far
and those pending, in order. -/
structure TimerAgenda where
  now : ℕ
  issued : ℕ
  pending : List (Entry Notice)
  ordered : Ordered pending
  fresh : ∀ e ∈ pending, e.serial < issued

/-- A call of the service, or a tick. -/
inductive TimerOp where
  /-- `timer_arm(reactor, count, repeat, arg)` -/
  | arm (reactor count rep arg : ℕ)
  /-- `timer_cancel(inst)` -/
  | cancel (inst : ℕ)
  | tick
  | dispatch
deriving DecidableEq

/-- What a call returns, or whom it notifies. -/
inductive TimerOut where
  | armed (inst : ℕ)
  | cancelled (found : Bool)
  | ticked
  | dispatched (notified : List Notice)
deriving DecidableEq

namespace TimerAgenda

/-- The agenda before anything was armed. -/
def start : TimerAgenda := ⟨0, 0, [], .nil, by simp⟩

/-- **What each call does**, said of the pending timers alone. Since they
are in order, it says also where a new one stands. -/
inductive Does : TimerAgenda → TimerOp → TimerOut → TimerAgenda → Prop
  /-- Arming adds one timer and returns its number, unless it repeats. -/
  | arm {a a' : TimerAgenda} {reactor count rep arg : ℕ} :
      a'.now = a.now → a'.issued = a.issued + 1 →
      a'.pending.Perm (⟨count, rep, a.issued, (reactor, arg)⟩ :: a.pending) →
      Does a (.arm reactor count rep arg)
        (.armed (if rep = 0 then a.issued else timerInvalidInstance)) a'
  /-- Cancelling a pending timer removes that one and keeps the rest as
  they are. -/
  | cancel {a a' : TimerAgenda} {e : Entry Notice} :
      e ∈ a.pending → a'.now = a.now → a'.issued = a.issued →
      a'.pending = a.pending.erase e → Does a (.cancel e.serial) (.cancelled true) a'
  /-- Cancelling anything else does nothing. -/
  | cancelMissing {a : TimerAgenda} {inst : ℕ} :
      (∀ e ∈ a.pending, e.serial ≠ inst) → Does a (.cancel inst) (.cancelled false) a
  /-- A tick is a millisecond. -/
  | tick {a a' : TimerAgenda} : a'.now = a.now + 1 → a'.issued = a.issued →
      a'.pending = a.pending → Does a .tick .ticked a'
  /-- Dispatching lets everything fire that is due. -/
  | dispatch {a a' : TimerAgenda} {fired : List (Entry Notice)} : a'.now = a.now →
      Drained againNull a.now a.pending a.issued fired a'.pending a'.issued →
      Does a .dispatch (.dispatched (fired.map Entry.payload)) a'

/-! ### Carrying it out -/

/-- Enter a timer. -/
def arm (a : TimerAgenda) (reactor count rep arg : ℕ) : TimerAgenda where
  now := a.now
  issued := a.issued + 1
  pending := insertEntry ⟨count, rep, a.issued, (reactor, arg)⟩ a.pending
  ordered := Ordered.insertEntry a.ordered a.fresh
  fresh := by
    intro e he
    rcases mem_insertEntry.mp he with rfl | he
    · exact Nat.lt_succ_self _
    · have := a.fresh e he; omega

/-- Remove the timer with this number. -/
def cancel (a : TimerAgenda) (inst : ℕ) : TimerAgenda where
  now := a.now
  issued := a.issued
  pending := a.pending.eraseP fun e => e.serial = inst
  ordered := a.ordered.sublist List.eraseP_sublist
  fresh := fun e he => a.fresh e (List.mem_of_mem_eraseP he)

/-- A millisecond. -/
def tick (a : TimerAgenda) : TimerAgenda := { a with now := a.now + 1 }

/-- What the drain at the present time gives. -/
def drained (a : TimerAgenda) : Option (List (Entry Notice) × List (Entry Notice) × ℕ) :=
  drain againNull a.now (dueCount a.now a.pending + 1) a.pending a.issued

theorem drained_eq_some (a : TimerAgenda) :
    ∃ fired left issued', a.drained = some (fired, left, issued') ∧
      Drained againNull a.now a.pending a.issued fired left issued' :=
  drain_eq_some againNull a.now _ _ _ (Nat.lt_succ_self _) a.ordered a.fresh

/-- What the drain gives is what it should. -/
theorem drained_spec {a : TimerAgenda} {r : List (Entry Notice) × List (Entry Notice) × ℕ}
    (h : a.drained = some r) : Drained againNull a.now a.pending a.issued r.1 r.2.1 r.2.2 := by
  obtain ⟨fired, left, issued', heq, hd⟩ := a.drained_eq_some
  rw [heq, Option.some.injEq] at h
  subst h
  exact hd

/-- Let everything fire that is due. -/
def dispatch (a : TimerAgenda) : List (Entry Notice) × TimerAgenda :=
  match h : a.drained with
  | some r => (r.1, ⟨a.now, r.2.2, r.2.1, (drained_spec h).ordered, (drained_spec h).fresh⟩)
  | none => ([], a)

theorem drained_eq_dispatch (a : TimerAgenda) :
    a.drained = some (a.dispatch.1, a.dispatch.2.pending, a.dispatch.2.issued) ∧
      a.dispatch.2.now = a.now := by
  unfold dispatch
  split
  · next r h => exact ⟨h, rfl⟩
  · next h =>
    obtain ⟨_, _, _, heq, -⟩ := a.drained_eq_some
    rw [h] at heq
    cases heq

/-- One call, with what it returns or notifies. -/
def step (a : TimerAgenda) : TimerOp → TimerOut × TimerAgenda
  | .arm reactor count rep arg =>
    (.armed (if rep = 0 then a.issued else timerInvalidInstance), a.arm reactor count rep arg)
  | .cancel inst => (.cancelled (a.pending.any fun e => e.serial = inst), a.cancel inst)
  | .tick => (.ticked, a.tick)
  | .dispatch => (.dispatched (a.dispatch.1.map Entry.payload), a.dispatch.2)

/-- **Each call does what it should.** -/
theorem step_does (a : TimerAgenda) (op : TimerOp) : a.Does op (a.step op).1 (a.step op).2 := by
  cases op with
  | arm reactor count rep arg => exact .arm rfl rfl (insertEntry_perm ..)
  | tick => exact .tick rfl rfl rfl
  | dispatch =>
    obtain ⟨heq, hnow⟩ := a.drained_eq_dispatch
    exact .dispatch hnow (drained_spec heq)
  | cancel inst =>
    by_cases hin : ∃ e ∈ a.pending, e.serial = inst
    · obtain ⟨e, he, rfl⟩ := hin
      have hany : (a.pending.any fun f => f.serial = e.serial) = true :=
        List.any_eq_true.mpr ⟨e, he, by simp⟩
      rw [step, hany]
      exact .cancel he rfl rfl (a.ordered.eraseP_serial he)
    · have hnone : ∀ e ∈ a.pending, e.serial ≠ inst := fun e he hi => hin ⟨e, he, hi⟩
      have hany : (a.pending.any fun f => f.serial = inst) = false := by simpa using hnone
      have hself : a.cancel inst = a := by
        obtain ⟨now, issued, pending, hord, hfresh⟩ := a
        have : (pending.eraseP fun e => decide (e.serial = inst)) = pending :=
          List.eraseP_of_forall_not (by simpa using hnone)
        simp only [cancel, this]
      rw [step, hany, hself]
      exact .cancelMissing hnone

/-! ### The timers of one reactor -/

/-- For the reactor with this handle. -/
def isFor (handle : ℕ) (p : Notice) : Bool := decide (p.1 = handle)

theorem isFor_againNull (handle : ℕ) (p : Notice) : isFor handle (againNull p) = isFor handle p := rfl

/-- The timers pending for a reactor. -/
def timersOf (a : TimerAgenda) (handle : ℕ) : List (Entry Notice) := ofKind (isFor handle) a.pending

variable {a : TimerAgenda} {handle reactor count rep arg inst : ℕ}

theorem mem_timersOf : e ∈ a.timersOf handle ↔ e ∈ a.pending ∧ e.payload.1 = handle := by
  rw [timersOf, mem_ofKind, isFor, decide_eq_true_iff]

/-- Arming a first timer for a reactor. -/
theorem timersOf_arm_self (h : a.timersOf reactor = []) :
    (a.arm reactor count rep arg).timersOf reactor = [⟨count, rep, a.issued, (reactor, arg)⟩] := by
  have hperm : ((a.arm reactor count rep arg).timersOf reactor).Perm
      (ofKind (isFor reactor) (⟨count, rep, a.issued, (reactor, arg)⟩ :: a.pending)) :=
    (insertEntry_perm _ _).filter _
  rw [ofKind_cons, if_pos (by simp [isFor]), show ofKind (isFor reactor) a.pending = [] from h]
    at hperm
  exact List.perm_singleton.mp hperm

/-- Arming leaves the timers of the other reactors. -/
theorem timersOf_arm_of_ne (h : reactor ≠ handle) :
    (a.arm reactor count rep arg).timersOf handle = a.timersOf handle := by
  have hins : ∀ l : List (Entry Notice),
      ofKind (isFor handle) (insertEntry ⟨count, rep, a.issued, (reactor, arg)⟩ l) =
        ofKind (isFor handle) l := by
    have hnot : ¬ isFor handle (reactor, arg) = true := by simpa [isFor] using h
    intro l
    unfold insertEntry
    induction l with
    | nil => rw [List.orderedInsert_nil, ofKind_cons, if_neg hnot]
    | cons e l ih =>
      rw [List.orderedInsert_cons]
      split
      · rw [ofKind_cons, if_neg hnot]
      · rw [ofKind_cons, ofKind_cons, ih]
  exact hins a.pending

/-- Cancelling removes what has the number, whosoever it is for. -/
theorem timersOf_cancel : (a.cancel inst).timersOf handle =
    (a.timersOf handle).filter fun e => e.serial ≠ inst := by
  have hpending : (a.cancel inst).pending = a.pending.filter fun e => e.serial ≠ inst :=
    a.ordered.eraseP_eq_filter inst
  unfold timersOf ofKind
  rw [hpending, List.filter_filter, List.filter_filter]
  refine List.filter_congr fun e _ => ?_
  rw [Bool.and_comm]

/-- What fires for a reactor in a dispatch. -/
def firedOf (a : TimerAgenda) (handle : ℕ) : List (ℕ × ℕ × Notice) :=
  (ofKind (isFor handle) a.dispatch.1).map Entry.content

/-- What a dispatch notifies a reactor of. -/
theorem waiting_dispatch : waiting (a.dispatch.1.map Entry.payload) handle =
    (a.firedOf handle).map fun c => c.2.2.2 := by
  unfold waiting firedOf ofKind
  rw [List.filter_map, List.map_map, List.map_map]
  rfl

theorem dispatch_drained (a : TimerAgenda) : Drained againNull a.now a.pending a.issued
    a.dispatch.1 a.dispatch.2.pending a.dispatch.2.issued := drained_spec a.drained_eq_dispatch.1

@[simp] theorem dispatch_now (a : TimerAgenda) : a.dispatch.2.now = a.now := a.drained_eq_dispatch.2

/-- The only timer of a reactor, not due. -/
theorem dispatch_later (h : a.timersOf handle = [e]) (hlt : a.now < e.deadline) :
    a.firedOf handle = [] ∧ a.dispatch.2.timersOf handle = [e] := by
  obtain ⟨hfired, hleft⟩ := a.dispatch_drained.kind_later (isFor_againNull handle) h hlt
  exact ⟨by rw [firedOf, hfired]; rfl, hleft⟩

/-- The only timer of a reactor, due and not repeating. -/
theorem dispatch_once (h : a.timersOf handle = [e]) (hdue : e.deadline ≤ a.now)
    (hper : e.period = 0) :
    a.firedOf handle = [e.content] ∧ a.dispatch.2.timersOf handle = [] :=
  a.dispatch_drained.kind_once (isFor_againNull handle) h hdue hper

/-- The only timer of a reactor, due and repeating. -/
theorem dispatch_renew (h : a.timersOf handle = [e]) (hdue : e.deadline ≤ a.now)
    (hper : e.period ≠ 0) (hlt : a.now < e.deadline + e.period) :
    a.firedOf handle = [e.content] ∧
      ∃ s, a.dispatch.2.timersOf handle = [e.renew againNull s] :=
  a.dispatch_drained.kind_renew (isFor_againNull handle) h hdue hper hlt

/-- A reactor with no timer. -/
theorem dispatch_nil (h : a.timersOf handle = []) :
    a.firedOf handle = [] ∧ a.dispatch.2.timersOf handle = [] := by
  obtain ⟨hfired, hleft⟩ := a.dispatch_drained.kind_nil (isFor_againNull handle) h
  exact ⟨by rw [firedOf, hfired]; rfl, hleft⟩

/-- Entries counted reactor by reactor. -/
theorem countP_le_sum {handles : List ℕ} (q : Entry Notice → Bool) (l : List (Entry Notice))
    (hl : ∀ e ∈ l, e.payload.1 ∈ handles) :
    l.countP q ≤ (handles.map fun k => (ofKind (isFor k) l).countP q).sum := by
  induction l with
  | nil => exact Nat.zero_le _
  | cons e l ih =>
    have hle := ih fun f hf => hl f (List.mem_cons_of_mem _ hf)
    have hmono : ∀ k, (ofKind (isFor k) l).countP q ≤ (ofKind (isFor k) (e :: l)).countP q := by
      intro k
      rw [ofKind_cons]
      split
      · exact (List.sublist_cons_self e _).countP_le
      · exact le_rfl
    cases hq : q e
    · rw [List.countP_cons_of_neg (by simp [hq])]
      exact hle.trans (List.sum_le_sum fun k _ => hmono k)
    · rw [List.countP_cons_of_pos hq]
      have hlt : (handles.map fun k => (ofKind (isFor k) l).countP q).sum <
          (handles.map fun k => (ofKind (isFor k) (e :: l)).countP q).sum := by
        refine List.sum_lt_sum _ _ (fun k _ => hmono k) ⟨e.payload.1, hl e (by simp), ?_⟩
        rw [ofKind_cons, if_pos (by simp [isFor]), List.countP_cons_of_pos hq]
        exact Nat.lt_succ_self _
      omega

/-- The timers are no more than those of the reactors that have any. -/
theorem length_le_of_timersOf {handles : List ℕ} (h : ∀ k, k ∉ handles → a.timersOf k = []) :
    a.pending.length ≤ (handles.map fun k => (a.timersOf k).length).sum := by
  have hall : ∀ e ∈ a.pending, e.payload.1 ∈ handles := by
    intro e he
    by_contra hnot
    have hmem := mem_timersOf.mpr ⟨he, rfl⟩
    rw [h _ hnot] at hmem
    cases hmem
  have hle := countP_le_sum (fun _ => true) a.pending hall
  simp only [List.countP_true] at hle
  exact hle

/-- A dispatch takes a number for each repeating timer that fires. -/
theorem dispatch_issued_le {handles : List ℕ} (h : ∀ k, k ∉ handles → a.timersOf k = []) :
    a.dispatch.2.issued ≤ a.issued +
      (handles.map fun k => (a.firedOf k).countP fun c => c.2.1 ≠ 0).sum := by
  have hall : ∀ e ∈ a.dispatch.1, e.payload.1 ∈ handles := by
    intro e he
    by_contra hnot
    obtain ⟨hfired, -⟩ := a.dispatch_drained.kind_nil (isFor_againNull e.payload.1) (h _ hnot)
    have hmem : e ∈ ofKind (isFor e.payload.1) a.dispatch.1 :=
      mem_ofKind.mpr ⟨he, by simp [isFor]⟩
    rw [hfired] at hmem
    cases hmem
  rw [a.dispatch_drained.issued_eq]
  refine Nat.add_le_add_left ((countP_le_sum _ _ hall).trans (le_of_eq ?_)) _
  refine congrArg _ (List.map_congr_left fun k _ => ?_)
  rw [firedOf, List.countP_map]
  rfl

/-! ### Sequences of calls -/

/-- A sequence of calls. -/
def run : TimerAgenda → List TimerOp → List TimerOut × TimerAgenda
  | a, [] => ([], a)
  | a, op :: ops => ((a.step op).1 :: ((a.step op).2.run ops).1, ((a.step op).2.run ops).2)

end TimerAgenda

/-- A sequence of calls in which each did what it should. -/
inductive AgendaRun : TimerAgenda → List TimerOp → List TimerOut → TimerAgenda → Prop
  | nil {a : TimerAgenda} : AgendaRun a [] [] a
  | cons {a a₁ a' : TimerAgenda} {op : TimerOp} {out : TimerOut} {ops : List TimerOp}
      {outs : List TimerOut} :
      a.Does op out a₁ → AgendaRun a₁ ops outs a' → AgendaRun a (op :: ops) (out :: outs) a'

theorem TimerAgenda.run_does (ops : List TimerOp) :
    ∀ a : TimerAgenda, AgendaRun a ops (a.run ops).1 (a.run ops).2 := by
  induction ops with
  | nil => intro a; exact .nil
  | cons op ops ih => intro a; exact .cons (a.step_does op) (ih _)

end Asx

end CncPneumatics
