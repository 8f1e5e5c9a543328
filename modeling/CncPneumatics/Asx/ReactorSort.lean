import CncPneumatics.Asx.ReactorRun
import Mathlib.Data.List.Nodup
import Mathlib.Data.List.Sort
/-!
# Sorting, and the reactor from its start

`_reactor_sort_by_priority` sets up the tables and moves the pending flags
to their new bits. From there the books of the reactor are kept, and what
it promises its handlers holds of every run.
-/

namespace CncPneumatics

namespace Asx

variable {w : ℕ} {α : Type*} {r r' : Reactor w α} {i j n : ℕ} {items : List PriorityItem}
  {sorted b : BitVec w}

/-! ## The sorting loop -/

/-- What the loop leaves, from bit `i` on, for a list of sorted items. -/
structure SortLoop (items : List PriorityItem) (i : ℕ) (r : Reactor w α) (sorted : BitVec w)
    (r' : Reactor w α) (b : BitVec w) : Prop where
  nextHandle : r'.nextHandle = r.nextHandle
  queue : ∀ h, (r'.handler h).queue = (r.handler h).queue
  priority : ∀ h, (r'.handler h).priority = (r.handler h).priority
  lookup_low : ∀ j < i, r'.lookup j = r.lookup j
  lookup : ∀ k (hk : k < items.length), r'.lookup (i + k) = items[k].index
  mask_other : ∀ h, h ∉ items.map PriorityItem.index → (r'.handler h).mask = (r.handler h).mask
  mask : ∀ k (hk : k < items.length), (r'.handler items[k].index).mask = 1#w <<< (i + k)
  bit : ∀ k (hk : k < items.length), b.getLsbD (i + k) = r.notifications.getLsbD items[k].index
  bit_other : ∀ j, j < i ∨ i + items.length ≤ j → b.getLsbD j = sorted.getLsbD j

theorem and_shift_ne_zero_iff {flags : BitVec w} (hi : i < w) :
    flags &&& 1#w <<< i ≠ 0 ↔ flags.getLsbD i = true := by
  constructor
  · intro hne
    by_contra hbit
    refine hne (BitVec.eq_of_getLsbD_eq fun j _ => ?_)
    rw [BitVec.getLsbD_and, testBit_one_shift hi, show (0 : BitVec w) = 0#w from rfl,
      BitVec.getLsbD_zero]
    by_cases hj : j = i
    · rw [hj, Bool.eq_false_iff.mpr hbit, Bool.false_and]
    · rw [decide_eq_false hj, Bool.and_false]
  · intro hbit heq
    have hbit' := congrArg (fun b : BitVec w => b.getLsbD i) heq
    rw [BitVec.getLsbD_and, hbit, testBit_one_shift hi, show (0 : BitVec w) = 0#w from rfl,
      BitVec.getLsbD_zero] at hbit'
    simp at hbit'

/-- The flags after a turn: the flag of the item moves to bit `i`. -/
theorem sortFlags_bit {item : PriorityItem} (hitem : item.index < w) (hi : i < w)
    (hclear : sorted.getLsbD i = false) (j : ℕ) :
    (if r.notifications &&& 1#w <<< item.index ≠ 0 then sorted ||| 1#w <<< i
      else sorted).getLsbD j =
      if j = i then r.notifications.getLsbD item.index else sorted.getLsbD j := by
  by_cases hset : r.notifications &&& 1#w <<< item.index ≠ 0
  · have hflag : r.notifications.getLsbD item.index = true := (and_shift_ne_zero_iff hitem).mp hset
    rw [if_pos hset, BitVec.getLsbD_or, testBit_one_shift hi]
    by_cases hj : j = i
    · rw [if_pos hj, hflag, decide_eq_true hj, Bool.or_true]
    · rw [if_neg hj, decide_eq_false hj, Bool.or_false]
  · have hflag : r.notifications.getLsbD item.index = false := by
      rw [Bool.eq_false_iff]
      exact fun h => hset ((and_shift_ne_zero_iff hitem).mpr h)
    rw [if_neg hset]
    by_cases hj : j = i
    · rw [if_pos hj, hflag, hj, hclear]
    · rw [if_neg hj]

/-- **A turn of the loop** is the loop for one item. -/
theorem sortTurn_spec {item : PriorityItem} (hitem : item.index < r.handlers.length)
    (hlen : i < r.handleLookup.length) (hitemw : item.index < w) (hi : i < w)
    (hclear : sorted.getLsbD i = false) :
    let r₁ : Reactor w α := { r with handleLookup := r.handleLookup.set i item.index }
    let r₂ := r₁.setHandler item.index { r₁.handler item.index with mask := 1#w <<< i }
    SortLoop [item] i r sorted r₂
      (if r₂.notifications &&& 1#w <<< item.index ≠ 0 then sorted ||| 1#w <<< i else sorted) := by
  intro r₁ r₂
  have hhandler : ∀ h, r₂.handler h = if h = item.index then
      { r.handler item.index with mask := 1#w <<< i } else r.handler h :=
    fun h => Reactor.handler_setHandler hitem
  have hlookup : ∀ j, r₂.lookup j = if j = i then item.index else r.lookup j :=
    fun j => cell_set hlen
  have hbits := sortFlags_bit (r := r₂) hitemw hi hclear
  constructor
  · exact Reactor.setHandler_length
  · intro h
    rw [hhandler]
    by_cases hh : h = item.index
    · rw [if_pos hh, hh]
    · rw [if_neg hh]
  · intro h
    rw [hhandler]
    by_cases hh : h = item.index
    · rw [if_pos hh, hh]
    · rw [if_neg hh]
  · intro j hj
    rw [hlookup, if_neg (by omega)]
  · intro k hk
    obtain rfl := Nat.lt_one_iff.mp hk
    exact (hlookup i).trans (if_pos rfl)
  · intro h hh
    rw [hhandler, if_neg (by simpa using hh)]
  · intro k hk
    obtain rfl := Nat.lt_one_iff.mp hk
    rw [List.getElem_cons_zero, hhandler, if_pos rfl, Nat.add_zero]
  · intro k hk
    obtain rfl := Nat.lt_one_iff.mp hk
    exact (hbits i).trans (if_pos rfl)
  · intro j hj
    rw [List.length_singleton] at hj
    rw [hbits, if_neg (by omega)]

/-- **Turn by turn**: a turn for an item, and the loop for the others. -/
theorem SortLoop.cons {item : PriorityItem} {r'' : Reactor w α} {b' : BitVec w}
    (hturn : SortLoop [item] i r sorted r' b) (hrest : SortLoop items (i + 1) r' b r'' b')
    (hflags : r'.notifications = r.notifications)
    (hnew : item.index ∉ items.map PriorityItem.index) :
    SortLoop (item :: items) i r sorted r'' b' := by
  have hone : 0 < [item].length := Nat.one_pos
  constructor
  · exact hrest.nextHandle.trans hturn.nextHandle
  · exact fun h => (hrest.queue h).trans (hturn.queue h)
  · exact fun h => (hrest.priority h).trans (hturn.priority h)
  · exact fun j hj => (hrest.lookup_low j (by omega)).trans (hturn.lookup_low j hj)
  · intro k hk
    cases k with
    | zero => exact (hrest.lookup_low i (Nat.lt_succ_self i)).trans (hturn.lookup 0 hone)
    | succ k =>
      rw [show i + (k + 1) = i + 1 + k by omega]
      exact hrest.lookup k (by simpa using hk)
  · intro h hh
    rw [List.map_cons, List.mem_cons, not_or] at hh
    exact (hrest.mask_other h hh.2).trans (hturn.mask_other h (by simpa using hh.1))
  · intro k hk
    cases k with
    | zero => exact (hrest.mask_other _ hnew).trans (hturn.mask 0 hone)
    | succ k =>
      rw [show i + (k + 1) = i + 1 + k by omega, List.getElem_cons_succ]
      exact hrest.mask k (by simpa using hk)
  · intro k hk
    cases k with
    | zero => exact (hrest.bit_other i (.inl (Nat.lt_succ_self i))).trans (hturn.bit 0 hone)
    | succ k =>
      rw [show i + (k + 1) = i + 1 + k by omega, List.getElem_cons_succ, ← hflags]
      exact hrest.bit k (by simpa using hk)
  · intro j hj
    rw [List.length_cons] at hj
    rw [hrest.bit_other j (by omega), hturn.bit_other j (by rw [List.length_singleton]; omega)]

/-- **The loop gives each item its bit.** -/
theorem reactorSortLoop_spec : ∀ (items : List PriorityItem) (i : ℕ) (r : Reactor w α)
    (sorted : BitVec w), (∀ item ∈ items, item.index < r.nextHandle) →
    (items.map PriorityItem.index).Nodup → i + items.length ≤ r.handleLookup.length →
    r.nextHandle ≤ w → i + items.length ≤ w → (∀ j, i ≤ j → sorted.getLsbD j = false) →
    SortLoop items i r sorted (reactorSortLoop items i r sorted).1
      (reactorSortLoop items i r sorted).2 := by
  intro items
  induction items with
  | nil =>
    intro i r sorted _ _ _ _ _ _
    exact ⟨rfl, fun _ => rfl, fun _ => rfl, fun _ _ => rfl, by simp, fun _ _ => rfl, by simp,
      by simp, fun _ _ => rfl⟩
  | cons item items ih =>
    intro i r sorted hlt hnodup hlen hw hiw hclear
    rw [List.map_cons, List.nodup_cons] at hnodup
    rw [List.length_cons] at hlen hiw
    have hitem : item.index < r.handlers.length := hlt item (by simp)
    have hturn := sortTurn_spec (α := α) hitem (by omega) (lt_of_lt_of_le hitem hw) (by omega)
      (hclear i le_rfl)
    have hnext := hturn.nextHandle
    refine hturn.cons (ih (i + 1) _ _ (fun p hp => ?_) hnodup.2 ?_ (hnext ▸ hw) (by omega)
      fun j hj => ?_) rfl hnodup.1
    · rw [hnext]
      exact hlt p (by simp [hp])
    · simp only [Reactor.setHandler, List.length_set]
      omega
    · rw [hturn.bit_other j (.inr hj)]
      exact hclear j (by omega)

/-- Sorting happens before the loop. -/
theorem reactorSortByPriority_pc (qsort : List PriorityItem → List PriorityItem)
    (r : Reactor w α) : (reactorSortByPriority qsort r).pc = r.pc := by
  have hloop : ∀ (items : List PriorityItem) (i : ℕ) (r : Reactor w α) (sorted : BitVec w),
      (reactorSortLoop items i r sorted).1.pc = r.pc := by
    intro items
    induction items with
    | nil => intro i r sorted; rfl
    | cons item items ih => intro i r sorted; exact ih _ _ _
  exact hloop _ _ _ _

/-- In the order of `compare_prio`, priorities fall. -/
theorem priority_le_of_comparePrio {e1 e2 : PriorityItem} (h : comparePrio e1 e2 ≤ 0) :
    e2.priority ≤ e1.priority := by
  unfold comparePrio at h
  split_ifs at h <;> omega

/-- **What sorting does**: the bits go to the handlers one to one by
falling priority, each with the flag that its handler had, and the queues
stay. -/
structure SortedFrom (r r' : Reactor w α) : Prop where
  nextHandle : r'.nextHandle = r.nextHandle
  queue : ∀ h, (r'.handler h).queue = (r.handler h).queue
  priority : ∀ h, (r'.handler h).priority = (r.handler h).priority
  sorted : r'.Sorted
  bit : ∀ i < r.nextHandle, r'.notifications.getLsbD i = r.notifications.getLsbD (r'.lookup i)
  bit_other : ∀ i, r.nextHandle ≤ i → r'.notifications.getLsbD i = false

/-- What is sorted: every handle once, with the priority of its handler. -/
theorem IsQsort.index_perm {qsort : List PriorityItem → List PriorityItem} (hqsort : IsQsort qsort)
    (r : Reactor w α) :
    let items := qsort ((List.range r.nextHandle).map fun i => ⟨i, (r.handler i).priority⟩)
    (items.map PriorityItem.index).Perm (List.range r.nextHandle) ∧
      ∀ item ∈ items, item.index < r.nextHandle ∧
        item.priority = (r.handler item.index).priority := by
  intro items
  have hperm : items.Perm ((List.range r.nextHandle).map fun i => ⟨i, (r.handler i).priority⟩) :=
    hqsort.perm _
  constructor
  · refine (hperm.map _).trans ?_
    rw [List.map_map]
    exact .of_eq (List.map_id _)
  · intro item hitem
    obtain ⟨i, hi, rfl⟩ := List.mem_map.mp (hperm.mem_iff.mp hitem)
    exact ⟨List.mem_range.mp hi, rfl⟩

/-- **The loop leaves sorted tables** where its items are the handles, by
falling priority. -/
theorem SortLoop.tables (h : SortLoop items 0 r sorted r' b) (hnw : r.nextHandle ≤ w)
    (hindex : (items.map PriorityItem.index).Perm (List.range r.nextHandle))
    (hpriority : ∀ item ∈ items, item.priority = (r.handler item.index).priority)
    (hordered : items.Pairwise fun e1 e2 => comparePrio e1 e2 ≤ 0) : r'.Sorted := by
  have hnext := h.nextHandle
  have hlen : items.length = r.nextHandle := by
    rw [← List.length_map, hindex.length_eq, List.length_range]
  -- the loop started at the bit 0, so places and bits are the same
  have hlookup : ∀ k (hk : k < items.length), r'.lookup k = items[k].index := fun k hk => by
    have := h.lookup k hk
    rwa [Nat.zero_add] at this
  have hlt : ∀ k (hk : k < items.length), items[k].index < r.nextHandle := fun k hk =>
    List.mem_range.mp (hindex.mem_iff.mp (List.mem_map_of_mem (List.getElem_mem hk)))
  constructor
  · rw [hnext]
    exact hnw
  · intro i hi
    rw [hnext, ← hlen] at hi
    rw [hlookup i hi, hnext]
    exact hlt i hi
  · intro i hi j hj heq
    rw [hnext, ← hlen] at hi hj
    rw [hlookup i hi, hlookup j hj] at heq
    have hi' : i < (items.map PriorityItem.index).length := by rwa [List.length_map]
    have hj' : j < (items.map PriorityItem.index).length := by rwa [List.length_map]
    refine (hindex.nodup_iff.mpr List.nodup_range).getElem_inj_iff.mp
      (show (items.map PriorityItem.index)[i] = (items.map PriorityItem.index)[j] from ?_)
    rw [List.getElem_map, List.getElem_map]
    exact heq
  · intro i hi
    rw [hnext] at hi
    obtain ⟨k, hk, hki⟩ := List.getElem_of_mem (hindex.mem_iff.mpr (List.mem_range.mpr hi))
    rw [List.length_map] at hk
    rw [List.getElem_map] at hki
    exact ⟨k, by rw [hnext, ← hlen]; exact hk, by rw [hlookup k hk, hki]⟩
  · intro i hi
    rw [hnext, ← hlen] at hi
    have hmask := h.mask i hi
    rw [Nat.zero_add] at hmask
    rw [hlookup i hi]
    exact hmask
  · intro i j hij hj
    rw [hnext, ← hlen] at hj
    have hi := lt_of_le_of_lt hij hj
    rw [hlookup j hj, hlookup i hi, h.priority, h.priority, ← hpriority _ (List.getElem_mem hj),
      ← hpriority _ (List.getElem_mem hi)]
    rcases Nat.lt_or_eq_of_le hij with hlt | rfl
    · exact priority_le_of_comparePrio (List.pairwise_iff_getElem.mp hordered i j hi hj hlt)
    · exact le_rfl

theorem reactorSortByPriority_sortedFrom {qsort : List PriorityItem → List PriorityItem}
    (hqsort : IsQsort qsort) (hnw : r.nextHandle ≤ w)
    (hlookuplen : r.handleLookup.length = r.nextHandle) :
    SortedFrom r (reactorSortByPriority qsort r) := by
  obtain ⟨hindex, hmem⟩ := hqsort.index_perm r
  have hordered := hqsort.ordered
    ((List.range r.nextHandle).map fun i => ⟨i, (r.handler i).priority⟩)
  unfold reactorSortByPriority
  dsimp only
  generalize qsort ((List.range r.nextHandle).map fun i => ⟨i, (r.handler i).priority⟩) = items at *
  have hlen : items.length = r.nextHandle := by
    rw [← List.length_map, hindex.length_eq, List.length_range]
  have hloop := reactorSortLoop_spec items 0 r 0 (fun item hi => (hmem item hi).1)
    (hindex.nodup_iff.mpr List.nodup_range) (by rw [hlookuplen, hlen, Nat.zero_add]) hnw (by omega)
    fun j _ => by rw [show (0 : BitVec _) = 0#_ from rfl, BitVec.getLsbD_zero]
  generalize reactorSortLoop items 0 r 0 = res at *
  -- the flags are written back last
  have hsame : res.1.SameTables { res.1 with notifications := res.2 } :=
    ⟨rfl, fun _ => rfl, fun _ => rfl, fun _ => rfl, fun _ _ => rfl⟩
  refine ⟨hloop.nextHandle, hloop.queue, hloop.priority,
    hsame.sorted (hloop.tables hnw hindex (fun item hi => (hmem item hi).2) hordered), ?_, ?_⟩
  · intro i hi
    rw [← hlen] at hi
    have hbit := hloop.bit i hi
    have hlookup := hloop.lookup i hi
    rw [Nat.zero_add] at hbit hlookup
    exact hbit.trans (congrArg _ hlookup.symm)
  · intro i hi
    show res.2.getLsbD i = false
    rw [hloop.bit_other i (.inr (by omega)), show (0 : BitVec _) = 0#_ from rfl,
      BitVec.getLsbD_zero]

variable [Inhabited α]

/-! ## From the start -/

/-- The handlers registered, before the reactor runs: at least one, no
more than there is room for, each with a queue of 1 to 128 places, and the
flag of a handle set when its queue is not empty. -/
structure Reactor.Registered (reactorMaxHandlers : ℕ)
    (r : Reactor (reactorMaskWidth reactorMaxHandlers) α) : Prop where
  nextHandle_pos : 0 < r.nextHandle
  nextHandle_le : r.nextHandle ≤ reactorMaxHandlers
  lookup_length : r.handleLookup.length = r.nextHandle
  holds : ∀ h < r.nextHandle, (r.handler h).queue.Holds (r.contents h)
  bit_iff : ∀ h < r.nextHandle, r.notifications.getLsbD h = true ↔ r.contents h ≠ []
  at_loop : r.pc = .loop

theorem le_reactorMaskWidth {reactorMaxHandlers : ℕ} (hmax : reactorMaxHandlers ≤ 32) :
    reactorMaxHandlers ≤ reactorMaskWidth reactorMaxHandlers := by
  unfold reactorMaskWidth
  split_ifs <;> omega

/-- **Sorting sets up the books.** -/
theorem reactorSortByPriority_inv {reactorMaxHandlers : ℕ} (hmax : reactorMaxHandlers ≤ 32)
    {qsort : List PriorityItem → List PriorityItem} (hqsort : IsQsort qsort)
    {r : Reactor (reactorMaskWidth reactorMaxHandlers) α} (hr : r.Registered reactorMaxHandlers) :
    (reactorSortByPriority qsort r).Inv ∧
      (reactorSortByPriority qsort r).nextHandle = r.nextHandle ∧
      ∀ h, ((reactorSortByPriority qsort r).handler h).queue = (r.handler h).queue ∧
        ((reactorSortByPriority qsort r).handler h).priority = (r.handler h).priority := by
  have hsort := reactorSortByPriority_sortedFrom hqsort
    (hr.nextHandle_le.trans (le_reactorMaskWidth hmax)) hr.lookup_length
  have hcontents : ∀ h, (reactorSortByPriority qsort r).contents h = r.contents h := fun h => by
    rw [Reactor.contents, hsort.queue]
    rfl
  refine ⟨⟨hsort.sorted, ⟨?_, ?_, ?_⟩, ?_⟩, hsort.nextHandle,
    fun h => ⟨hsort.queue h, hsort.priority h⟩⟩
  · intro h hh
    rw [hcontents, hsort.queue]
    exact hr.holds h (hsort.nextHandle ▸ hh)
  · intro i hi
    have hlt := hsort.sorted.lookup_lt i hi
    rw [hsort.nextHandle] at hi hlt
    rw [hsort.bit i hi, hcontents]
    exact hr.bit_iff _ hlt
  · intro i hi
    exact hsort.bit_other i (hsort.nextHandle ▸ hi)
  · show Reactor.AtPc _
    unfold Reactor.AtPc
    rw [reactorSortByPriority_pc, hr.at_loop]
    trivial

/-! ## What the reactor promises -/

/-- A call of the loop, made in the state `s` after the history `h₁`: the
pop gives a handler and its data, and at the last reading of the flags
that handler had something waiting and none of those that had was of a
higher priority. -/
def CallsHighest (h₁ : List (Reactor w α × ReactorEvent α)) (s : Reactor w α) : Prop :=
  ∃ handle data, reactorDelivery s .dispatch = some (handle, data) ∧
    ∃ h₂ snapshot h₃, h₁ = h₂ ++ (snapshot, .loop) :: h₃ ∧
      (∀ p ∈ h₃, ∃ handle data, p.2 = ReactorEvent.notify handle data) ∧
      handle < s.nextHandle ∧ snapshot.contents handle ≠ [] ∧
      ∀ h < s.nextHandle, snapshot.contents h ≠ [] →
        (s.handler h).priority ≤ (s.handler handle).priority

/-- **What the reactor promises** of a run with this history. -/
structure Reactor.Promises (r₀ : Reactor w α) (hist : List (Reactor w α × ReactorEvent α))
    (r : Reactor w α) : Prop where
  /-- A flag is set when and only when the queue of its handler is not
  empty. -/
  bit_iff : ∀ i < r.nextHandle,
    r.notifications.getLsbD i = true ↔ r.contents (r.lookup i) ≠ []
  /-- No pop has failed. -/
  not_stopped : r.pc ≠ .stopped
  /-- Every call was of the highest priority. -/
  calls : ∀ h₁ s h₂, hist = h₁ ++ (s, .dispatch) :: h₂ → CallsHighest h₁ s
  /-- Every message is delivered in order, still held, or lost from a full
  queue. -/
  accounted : ∀ handle < r₀.nextHandle, AccountedTo r₀ handle hist r

variable {r₀ : Reactor w α} {hist : List (Reactor w α × ReactorEvent α)}

theorem Reactor.Inv.callsHighest (hr : r₀.Inv) (hpc : r₀.pc = .loop) {s s' : Reactor w α}
    (hrun : Run reactorStep r₀ hist s) (hstep : reactorStep s .dispatch = some s') :
    CallsHighest hist s := by
  obtain ⟨hs, hsame⟩ := hr.run hrun
  obtain ⟨-, -, heff⟩ := reactorStep_spec hs hstep
  cases heff with
  | @call flags i data rest _ hflagged hi hset hlow hcons hpc' _ =>
    have hdel : reactorDelivery s .dispatch = some (s.lookup i, data) := by
      unfold reactorDelivery
      rw [hstep]
      dsimp only
      rw [hpc']
    obtain ⟨h₂, snapshot, h₃, rfl, hrun₂, hflags, hall⟩ :=
      (hr.snapshot hrun flags hflagged).resolve_right (by rw [hpc]; simp)
    obtain ⟨hsnap, hsame₂⟩ := hr.run hrun₂
    have hnext : snapshot.nextHandle = s.nextHandle :=
      hsame₂.nextHandle.trans hsame.nextHandle.symm
    have hlookup : ∀ j, snapshot.lookup j = s.lookup j := fun j =>
      (hsame₂.lookup j).trans (hsame.lookup j).symm
    refine ⟨s.lookup i, data, hdel, h₂, snapshot, h₃, rfl, hall, hs.sorted.lookup_lt i hi, ?_, ?_⟩
    · rw [← hlookup]
      exact (hsnap.flagged.bit_iff i (by rw [hnext]; exact hi)).mp (by rw [hflags]; exact hset)
    · intro h hh hwaits
      obtain ⟨j, hj, rfl⟩ := hs.sorted.lookup_surj h hh
      rw [← hlookup] at hwaits
      have hjset := (hsnap.flagged.bit_iff j (by rw [hnext]; exact hj)).mpr hwaits
      rw [hflags] at hjset
      -- below the flag that is taken none is set
      have hij : i ≤ j := by
        by_contra hlt
        rw [hlow j (by omega)] at hjset
        cases hjset
      exact hs.sorted.falling i j hij hj

/-- **Reactor dispatch.** Take any registered handlers, sort them, and let
interrupts and running handlers notify in any order with the turns of the
loop: the flags tell the queues, the pop never fails, the handler called
is of the highest priority, and every message is accounted for. -/
theorem reactor_dispatch_promises {reactorMaxHandlers : ℕ} (hmax : reactorMaxHandlers ≤ 32)
    {qsort : List PriorityItem → List PriorityItem} (hqsort : IsQsort qsort)
    {r₀ r : Reactor (reactorMaskWidth reactorMaxHandlers) α} (hr₀ : r₀.Registered reactorMaxHandlers)
    {hist : List (Reactor (reactorMaskWidth reactorMaxHandlers) α × ReactorEvent α)}
    (hrun : Run reactorStep (reactorSortByPriority qsort r₀) hist r) :
    Reactor.Promises (reactorSortByPriority qsort r₀) hist r := by
  obtain ⟨hinv, -, -⟩ := reactorSortByPriority_inv hmax hqsort hr₀
  obtain ⟨hr, -⟩ := hinv.run hrun
  have hpc : (reactorSortByPriority qsort r₀).pc = .loop := by
    rw [reactorSortByPriority_pc]; exact hr₀.at_loop
  refine ⟨hr.flagged.bit_iff, ?_, ?_, fun handle hlt => hinv.accounted hlt hrun⟩
  · intro hstop
    have hat := hr.atPc
    unfold Reactor.AtPc at hat
    rw [hstop] at hat
    exact hat
  · rintro h₁ s h₂ rfl
    obtain ⟨hrun₁, s', hstep, -⟩ := hrun.step_of_mem
    exact hinv.callsHighest hpc hrun₁ hstep

/-! ### A run -/

/-- Insertion sort is a `qsort`. -/
theorem isQsort_insertionSort : IsQsort fun l => l.insertionSort fun e1 e2 => e2.priority ≤ e1.priority := by
  have : Std.Total fun e1 e2 : PriorityItem => e2.priority ≤ e1.priority := ⟨fun _ _ => by omega⟩
  have : IsTrans PriorityItem fun e1 e2 => e2.priority ≤ e1.priority :=
    ⟨fun _ _ _ h₁ h₂ => by omega⟩
  refine ⟨fun l => List.perm_insertionSort _ l, fun l => ?_⟩
  refine (List.pairwise_insertionSort _ l).imp fun {e1 e2} h => ?_
  unfold comparePrio
  split_ifs <;> omega

/-- Two handlers, of the priorities 90 and 190, with one place and two. -/
def twoHandlers : Reactor (reactorMaskWidth 8) ℕ where
  handlers := [⟨90, 1, queueInit 1⟩, ⟨190, 2, queueInit 2⟩]
  handleLookup := [0, 1]
  notifications := 0
  pc := .loop

theorem twoHandlers_registered : twoHandlers.Registered 8 where
  nextHandle_pos := by decide
  nextHandle_le := by decide
  lookup_length := by decide
  holds := by
    intro h hh
    have h₁ : (queueInit 1 : Queue ℕ).Holds [] := queueInit_holds (by omega) (by omega)
    have h₂ : (queueInit 2 : Queue ℕ).Holds [] := queueInit_holds (by omega) (by omega)
    obtain rfl | rfl : h = 0 ∨ h = 1 := by
      simp only [Reactor.nextHandle, twoHandlers, List.length_cons, List.length_nil] at hh; omega
    · exact h₁
    · exact h₂
  bit_iff := by
    intro h hh
    obtain rfl | rfl : h = 0 ∨ h = 1 := by
      simp only [Reactor.nextHandle, twoHandlers, List.length_cons, List.length_nil] at hh; omega
    · decide
    · decide
  at_loop := rfl

/-- The second handler gets one message more than it has room for, after
the flags were read. -/
def someNotifications : List (ReactorEvent ℕ) :=
  [.notify 0 5, .notify 1 7, .loop, .notify 1 8, .notify 1 9, .dispatch]

theorem reactor_dispatch_promises_someNotifications :
    ∃ hist r, Run reactorStep (reactorSortByPriority
        (fun l => l.insertionSort fun e1 e2 => e2.priority ≤ e1.priority) twoHandlers) hist r ∧
      r.pc = .calling 1 8 ∧ r.contents 1 = [9] ∧ Reactor.Promises (reactorSortByPriority
        (fun l => l.insertionSort fun e1 e2 => e2.priority ≤ e1.priority) twoHandlers) hist r := by
  obtain ⟨r, hr⟩ := Option.isSome_iff_exists.mp (show (runEvents reactorStep someNotifications
    (reactorSortByPriority (fun l => l.insertionSort fun e1 e2 => e2.priority ≤ e1.priority)
      twoHandlers)).isSome = true by decide +kernel)
  have hpc : (runEvents reactorStep someNotifications (reactorSortByPriority
      (fun l => l.insertionSort fun e1 e2 => e2.priority ≤ e1.priority) twoHandlers)).map
        (fun r => (r.pc, r.contents 1)) = some (.calling 1 8, [9]) := by decide +kernel
  rw [hr, Option.map_some, Option.some.injEq, Prod.mk.injEq] at hpc
  obtain ⟨hist, hrun, -⟩ := exists_run_of_runEvents hr
  exact ⟨hist, r, hrun, hpc.1, hpc.2, reactor_dispatch_promises (by decide) isQsort_insertionSort
    twoHandlers_registered hrun⟩

end Asx

end CncPneumatics
