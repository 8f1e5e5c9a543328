import CncPneumatics.Asx.ReactorSort
/-!
# Notifications before the reactor runs

Handlers are registered one after the other and may be notified before
`reactor_run` sorts them. Until then a handler has a temporary mask, which
`reactor_register` shifts as an `int`: with 16 bits it is the bit of the
handle up to the handle 14, all bits from 15 on for the handle 15, and
none for the handles above.
-/

namespace CncPneumatics

namespace Asx

/-- A call before the reactor runs. -/
inductive SetupCall (α : Type*) where
  /-- `reactor_register(handler, priority, queue_size)` -/
  | register (priority queueSize : ℕ)
  /-- `reactor_notify(handle, data)` -/
  | notify (handle : ℕ) (data : α)

/-- Whether a call notifies a handler. -/
def SetupCall.isFor {α : Type*} (handle : ℕ) : SetupCall α → Bool
  | .register _ _ => false
  | .notify h _ => h = handle

/-- Whether a handler was notified in some calls. -/
def notified {α : Type*} (calls : List (SetupCall α)) (handle : ℕ) : Bool :=
  calls.any fun c => c.isFor handle

variable {α : Type*} [Inhabited α] {reactorMaxHandlers w h i j : ℕ}

/-- The static variables before anything is registered. -/
def Reactor.start : Reactor w α := ⟨[], [], 0, .loop⟩

/-- One call; `none` where it alerts, or notifies a handle that was not
given out. -/
def setupStep (reactorMaxHandlers : ℕ) (r : Reactor (reactorMaskWidth reactorMaxHandlers) α) :
    SetupCall α → Option (Reactor (reactorMaskWidth reactorMaxHandlers) α)
  | .register priority queueSize =>
    (reactorRegister reactorMaxHandlers r priority queueSize).map Prod.snd
  | .notify handle data => if handle < r.nextHandle then some (reactorNotify r handle data) else none

/-- A bit is set when and only when the queue of its handler is not empty. -/
def Reactor.FlagsTellQueues (r : Reactor w α) : Prop :=
  ∀ i < r.nextHandle,
    r.notifications.getLsbD i = true ↔ queueIsEmpty (r.handler (r.lookup i)).queue = false

omit [Inhabited α] in
theorem notified_concat (calls : List (SetupCall α)) (c : SetupCall α) (handle : ℕ) :
    notified (calls ++ [c]) handle = (notified calls handle || c.isFor handle) := by
  simp [notified, List.any_append]

/-! ## The temporary mask -/

/-- A bit shifted out of the word is gone. -/
theorem testBit_one_shift_of_le (hw : w ≤ h) : (1#w <<< h).getLsbD j = false := by
  rw [BitVec.getLsbD_shiftLeft]
  by_cases hj : j < w
  · simp [show j < h by omega]
  · simp [hj]

/-- The bits of a temporary mask: above the 16 bits of an `int` they are
its sign. -/
theorem temporaryMask_bit (hj : j < w) : (temporaryMask w h).getLsbD j =
    if j < 16 then decide (j = h) else decide (h = 15) := by
  have hint : ∀ k < 16, (1#16 <<< h).getLsbD k = decide (k = h) := by
    intro k hk
    rcases Nat.lt_or_ge h 16 with hlt | hge
    · exact testBit_one_shift hlt k
    · rw [testBit_one_shift_of_le hge, decide_eq_false (by omega)]
  rw [temporaryMask, BitVec.getLsbD_signExtend, decide_eq_true hj, Bool.true_and]
  by_cases hj16 : j < 16
  · rw [if_pos hj16, if_pos hj16, hint j hj16]
  · rw [if_neg hj16, if_neg hj16, BitVec.msb_eq_getLsbD_last, hint _ (by omega)]
    exact decide_eq_decide.mpr eq_comm

/-! ## Setting up -/

/-- **What setting up leaves**: the queues tell who was notified, the
flags are the temporary masks of those. -/
structure Setup (calls : List (SetupCall α)) (r : Reactor (reactorMaskWidth reactorMaxHandlers) α) :
    Prop where
  nextHandle_le : r.nextHandle ≤ reactorMaxHandlers
  lookup_length : r.handleLookup.length = r.nextHandle
  mask : ∀ h < r.nextHandle, (r.handler h).mask = temporaryMask _ h
  queue : ∀ h < r.nextHandle, ∃ l, (r.handler h).queue.Holds l ∧ (l ≠ [] ↔ notified calls h = true)
  given : ∀ h, notified calls h = true → h < r.nextHandle
  bit : ∀ j, r.notifications.getLsbD j = true ↔
    ∃ h, notified calls h = true ∧ (temporaryMask (reactorMaskWidth reactorMaxHandlers) h).getLsbD j = true

variable {calls : List (SetupCall α)} {r r' : Reactor (reactorMaskWidth reactorMaxHandlers) α}

theorem Setup.start : Setup [] (Reactor.start : Reactor (reactorMaskWidth reactorMaxHandlers) α) where
  nextHandle_le := Nat.zero_le _
  lookup_length := rfl
  mask := fun h hh => absurd hh (Nat.not_lt_zero h)
  queue := fun h hh => absurd hh (Nat.not_lt_zero h)
  given := fun h hh => by cases hh
  bit := fun j => by
    show (0#_).getLsbD j = true ↔ _
    simp [notified]

/-- Registering a handler: its queue is empty, and it was not notified. -/
theorem Setup.register (hs : Setup calls r) {priority queueSize : ℕ}
    (hsize : 0 < queueSize ∧ queueSize ≤ 128)
    (hstep : setupStep reactorMaxHandlers r (.register priority queueSize) = some r') :
    Setup (calls ++ [.register priority queueSize]) r' := by
  have hnot : ∀ h, notified (calls ++ [.register priority queueSize]) h = notified calls h :=
    fun h => by rw [notified_concat, SetupCall.isFor, Bool.or_false]
  rw [setupStep, reactorRegister] at hstep
  by_cases hfull : r.nextHandle = reactorMaxHandlers
  · rw [if_pos hfull] at hstep; cases hstep
  rw [if_neg hfull, Option.map_some, Option.some.injEq] at hstep
  subst hstep
  have hle := hs.nextHandle_le
  -- the new handler is appended, and the others stay where they are
  have hold : ∀ (l : List (ReactorItem _ α)) (h : ℕ), h < r.nextHandle →
      cell (r.handlers ++ l) h = r.handler h := fun l h hh => cell_append l hh
  have hlast : ∀ (item : ReactorItem _ α), cell (r.handlers ++ [item]) r.nextHandle = item :=
    fun _ => cell_concat_length
  constructor
  · simp only [Reactor.nextHandle, List.length_append, List.length_singleton] at hle hfull ⊢
    omega
  · simp only [Reactor.nextHandle, List.length_append, List.length_singleton]
    rw [hs.lookup_length]
    rfl
  · intro h hh
    by_cases hlt : h < r.nextHandle
    · rw [Reactor.handler, hold _ h hlt]
      exact hs.mask h hlt
    · have heq : h = r.nextHandle := by
        simp only [Reactor.nextHandle, List.length_append, List.length_singleton] at hh hlt ⊢
        omega
      rw [Reactor.handler, heq, hlast]
  · intro h hh
    rw [hnot]
    by_cases hlt : h < r.nextHandle
    · rw [Reactor.handler, hold _ h hlt]
      exact hs.queue h hlt
    · have heq : h = r.nextHandle := by
        simp only [Reactor.nextHandle, List.length_append, List.length_singleton] at hh hlt ⊢
        omega
      rw [Reactor.handler, heq, hlast]
      refine ⟨[], queueInit_holds hsize.1 hsize.2, by simp, fun hn => ?_⟩
      exact absurd (hs.given _ hn) (lt_irrefl _)
  · intro h hh
    rw [hnot] at hh
    have hlt := hs.given h hh
    simp only [Reactor.nextHandle, List.length_append, List.length_singleton] at hlt ⊢
    omega
  · intro j
    rw [hs.bit j]
    simp only [hnot]

/-- Notifying a handler sets the flags of its temporary mask. -/
theorem Setup.notify (hs : Setup calls r) {handle : ℕ} {data : α}
    (hstep : setupStep reactorMaxHandlers r (.notify handle data) = some r') :
    Setup (calls ++ [.notify handle data]) r' := by
  have hnot : ∀ h, notified (calls ++ [.notify handle data]) h =
      (notified calls h || decide (handle = h)) := fun h => notified_concat ..
  rw [setupStep] at hstep
  split_ifs at hstep with hlt
  rw [Option.some.injEq] at hstep
  subst hstep
  have hhandler : ∀ h, (reactorNotify r handle data).handler h = if h = handle then
      { r.handler handle with queue := queuePushRing (r.handler handle).queue data }
      else r.handler h :=
    fun h => Reactor.handler_setHandler (r := { r with notifications := _ }) hlt
  have hnext : (reactorNotify r handle data).nextHandle = r.nextHandle := Reactor.setHandler_length
  constructor
  · rw [hnext]; exact hs.nextHandle_le
  · rw [hnext]; exact hs.lookup_length
  · intro h hh
    rw [hnext] at hh
    rw [hhandler]
    by_cases heq : h = handle
    · rw [if_pos heq, heq]; exact hs.mask handle hlt
    · rw [if_neg heq]; exact hs.mask h hh
  · intro h hh
    rw [hnext] at hh
    rw [hhandler, hnot]
    obtain ⟨l, hl, hiff⟩ := hs.queue h hh
    by_cases heq : h = handle
    · subst heq
      rw [if_pos rfl]
      exact ⟨_, (hl.queuePushRing data).1, by simp [post_ne_nil]⟩
    · rw [if_neg heq, decide_eq_false (Ne.symm heq), Bool.or_false]
      exact ⟨l, hl, hiff⟩
  · intro h hh
    rw [hnext]
    rw [hnot, Bool.or_eq_true, decide_eq_true_iff] at hh
    rcases hh with hh | rfl
    · exact hs.given h hh
    · exact hlt
  · intro j
    show (r.notifications ||| (r.handler handle).mask).getLsbD j = true ↔ _
    -- a bit is set where it was, and in the mask of the handler
    rw [BitVec.getLsbD_or, Bool.or_eq_true, hs.bit j, hs.mask handle hlt]
    simp only [hnot, Bool.or_eq_true, decide_eq_true_iff]
    constructor
    · rintro (⟨h, hh, hbit⟩ | hbit)
      · exact ⟨h, .inl hh, hbit⟩
      · exact ⟨handle, .inr rfl, hbit⟩
    · rintro ⟨h, hh | rfl, hbit⟩
      · exact .inl ⟨h, hh, hbit⟩
      · exact .inr hbit

variable {hist : List (Reactor (reactorMaskWidth reactorMaxHandlers) α × SetupCall α)}

/-- The queues that are registered have room for 1 to 128 messages. -/
def QueueSizes (calls : List (SetupCall α)) : Prop :=
  ∀ priority queueSize, .register priority queueSize ∈ calls → 0 < queueSize ∧ queueSize ≤ 128

/-- **The run law** of setting up. -/
theorem Setup.of_run (hrun : Run (setupStep reactorMaxHandlers) Reactor.start hist r)
    (hsizes : QueueSizes (hist.map Prod.snd)) : Setup (hist.map Prod.snd) r := by
  induction hrun with
  | nil => exact .start
  | @snoc hist r r' c _ hstep ih =>
    have hs := ih fun priority queueSize hmem => hsizes priority queueSize (by simp [hmem])
    rw [List.map_append, List.map_singleton] at hsizes ⊢
    cases c with
    | register priority queueSize =>
      exact hs.register (hsizes priority queueSize (by simp)) hstep
    | notify handle data => exact hs.notify hstep

/-- The flag of a registered handler before sorting. -/
theorem Setup.flag_iff (hs : Setup calls r) (hmax : reactorMaxHandlers ≤ 32)
    (hh : h < r.nextHandle) : r.notifications.getLsbD h = true ↔
      notified calls (if h < 16 then h else 15) = true := by
  have hw : h < reactorMaskWidth reactorMaxHandlers :=
    lt_of_lt_of_le hh (hs.nextHandle_le.trans (le_reactorMaskWidth hmax))
  rw [hs.bit h]
  simp only [temporaryMask_bit hw]
  by_cases h16 : h < 16
  · simp only [if_pos h16, decide_eq_true_iff, exists_eq_right']
  · simp only [if_neg h16, decide_eq_true_iff, exists_eq_right]

/-- **Which notifications survive the sort.** For any handlers registered
and notified before the reactor runs: after sorting the flags tell the
queues when and only when each handler with a handle from 16 on was
notified just if the handle 15 was. -/
theorem flags_survive_iff (hmax : reactorMaxHandlers ≤ 32)
    {qsort : List PriorityItem → List PriorityItem} (hqsort : IsQsort qsort)
    (hrun : Run (setupStep reactorMaxHandlers) Reactor.start hist r)
    (hsizes : QueueSizes (hist.map Prod.snd)) :
    (reactorSortByPriority qsort r).FlagsTellQueues ↔
      ∀ h < r.nextHandle, 16 ≤ h →
        notified (hist.map Prod.snd) h = notified (hist.map Prod.snd) 15 := by
  have hs := Setup.of_run hrun hsizes
  have hsort := reactorSortByPriority_sortedFrom hqsort
    (hs.nextHandle_le.trans (le_reactorMaskWidth hmax)) hs.lookup_length
  have hqueue : ∀ h < r.nextHandle, queueIsEmpty (r.handler h).queue = false ↔
      notified (hist.map Prod.snd) h = true := by
    intro h hh
    obtain ⟨l, hl, hiff⟩ := hs.queue h hh
    rw [← hiff, ← Bool.not_eq_true, hl.isEmpty_iff]
  -- bit by bit, the sorted flags are those from before
  have hbefore : (reactorSortByPriority qsort r).FlagsTellQueues ↔
      ∀ h < r.nextHandle, r.notifications.getLsbD h = true ↔
        notified (hist.map Prod.snd) h = true := by
    unfold Reactor.FlagsTellQueues
    rw [hsort.nextHandle]
    constructor
    · intro hall h hh
      obtain ⟨i, hi, rfl⟩ := hsort.sorted.lookup_surj h (by rwa [hsort.nextHandle])
      rw [hsort.nextHandle] at hi
      rw [← hqueue _ hh, ← hsort.bit i hi, hall i hi, hsort.queue]
    · intro hall i hi
      have hlt := hsort.sorted.lookup_lt i (by rwa [hsort.nextHandle])
      rw [hsort.nextHandle] at hlt
      rw [hsort.bit i hi, hall _ hlt, hsort.queue, hqueue _ hlt]
  rw [hbefore]
  constructor
  · intro hall h hh h16
    have hflag := hs.flag_iff hmax hh
    rw [if_neg (by omega)] at hflag
    rw [Bool.eq_iff_iff, ← hall h hh, hflag]
  · intro hall h hh
    rw [hs.flag_iff hmax hh]
    by_cases h16 : h < 16
    · rw [if_pos h16]
    · rw [if_neg h16, hall h hh (by omega)]

/-! ### Two set-ups -/

instance (r : Reactor w α) : Decidable r.FlagsTellQueues :=
  inferInstanceAs (Decidable (∀ i < r.nextHandle, _))

/-- Seventeen handlers of one priority, and then some notified. -/
def seventeenHandlers (handles : List ℕ) : List (SetupCall ℕ) :=
  List.replicate 17 (.register 80 1) ++ handles.map fun handle => .notify handle 0

theorem seventeenHandlers_queueSizes (handles : List ℕ) : QueueSizes (seventeenHandlers handles) := by
  intro priority queueSize hmem
  rcases List.mem_append.mp hmem with hmem | hmem
  · obtain ⟨-, rfl⟩ := SetupCall.register.inj (List.eq_of_mem_replicate hmem)
    decide
  · obtain ⟨handle, -, heq⟩ := List.mem_map.mp hmem
    cases heq

theorem flags_survive_iff_fifteen_and_sixteen : ∃ hist r,
    Run (setupStep 32) Reactor.start hist r ∧ hist.map Prod.snd = seventeenHandlers [3, 15, 16] ∧
      ((reactorSortByPriority (fun l => l.insertionSort fun e1 e2 => e2.priority ≤ e1.priority)
          r).FlagsTellQueues ↔
        ∀ h < r.nextHandle, 16 ≤ h →
          notified (hist.map Prod.snd) h = notified (hist.map Prod.snd) 15) := by
  obtain ⟨r, hr⟩ := Option.isSome_iff_exists.mp (show (runEvents (setupStep 32)
    (seventeenHandlers [3, 15, 16]) .start).isSome = true by decide +kernel)
  obtain ⟨hist, hrun, hcalls⟩ := exists_run_of_runEvents hr
  exact ⟨hist, r, hrun, hcalls, flags_survive_iff (by decide) isQsort_insertionSort hrun
    (hcalls ▸ seventeenHandlers_queueSizes _)⟩

/-- **The notification of the handle 16 is lost**: its temporary mask has
no bit. -/
theorem notification_lost_at_sixteen : ∃ hist r,
    Run (setupStep 32) Reactor.start hist r ∧ QueueSizes (hist.map Prod.snd) ∧
      hist.map Prod.snd = seventeenHandlers [16] ∧
      ¬ (reactorSortByPriority (fun l => l.insertionSort fun e1 e2 => e2.priority ≤ e1.priority)
        r).FlagsTellQueues := by
  have hlost : ((runEvents (setupStep 32) (seventeenHandlers [16]) .start).map fun r =>
      decide (reactorSortByPriority
        (fun l => l.insertionSort fun e1 e2 => e2.priority ≤ e1.priority) r).FlagsTellQueues) =
      some false := by decide +kernel
  obtain ⟨r, hr, hflags⟩ := Option.map_eq_some_iff.mp hlost
  obtain ⟨hist, hrun, hcalls⟩ := exists_run_of_runEvents hr
  exact ⟨hist, r, hrun, hcalls ▸ seventeenHandlers_queueSizes _, hcalls,
    of_decide_eq_false hflags⟩

end Asx

end CncPneumatics
