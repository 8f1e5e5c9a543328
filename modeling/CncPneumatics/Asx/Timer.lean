import CncPneumatics.Common.Ring
/-!
# The timer service

`timer.c`: up to `TIMER_MAX_CALLBACK` future notifications in an array
used as a ring, from `_timer_slot_active` up to `_timer_slot_avail`,
sorted so that the first to expire comes first. The counter and the
deadlines are 32-bit; a slot index is an 8-bit integer that never leaves
the array.

The reactor and the counter interrupt are outside: `timerDispatchLoop`
gives the notifications in the order in which `timer_dispatch` calls
`reactor_notify`.
-/

namespace CncPneumatics

namespace Asx

/-- `TIMER_MAX_CALLBACK`, which no configuration overrides. -/
def timerMaxCallback : ℕ := 16

/-- `REACTOR_NULL_HANDLE`. -/
def reactorNullHandle : ℕ := 255

/-- `TIMER_INVALID_INSTANCE`. -/
def timerInvalidInstance : ℕ := 2 ^ 32 - 1

/-- `TIMER_MILLISECONDS`. -/
def timerMilliseconds (x : ℕ) : ℕ := x

/-- `TIMER_SECONDS`. -/
def timerSeconds (x : ℕ) : ℕ := 1000 * x

/-- `_timer_future_t`: whom to notify, when, and with what. -/
structure TimerFuture where
  /-- The reactor handle to notify on expiry. -/
  reactor : ℕ
  /-- `instance`, the number `timer_arm` gave out. -/
  inst : ℕ
  /-- The counter value that triggers it. -/
  count : ℕ
  /-- `repeat`, the period of a repeating timer and 0 for the others. -/
  rep : ℕ
  /-- The argument to notify with. -/
  arg : ℕ
deriving DecidableEq, Inhabited

/-- The static variables of the service. -/
structure Timer where
  /-- `_timer_future_sorted_list`. -/
  sortedList : List TimerFuture
  slotActive : ℕ
  slotAvail : ℕ
  /-- `_timer_free_running_ms_counter`. -/
  counter : ℕ
  /-- `_timer_current_instance`, the last instance given. -/
  currentInstance : ℕ
deriving DecidableEq

/-- `_timer_right_of`. -/
def timerRightOf (index : ℕ) : ℕ :=
  if index = timerMaxCallback - 1 then 0 else index + 1

/-- `_timer_left_of`. -/
def timerLeftOf (index : ℕ) : ℕ :=
  if index = 0 then timerMaxCallback - 1 else index - 1

/-- `_timer_distance_of`: the difference as a signed 32-bit number. -/
def timerDistanceOf (src dst : ℕ) : ℤ := ((dst : ℤ) - src).bmod (2 ^ 32)

/-- `timer_init`, on static variables that are zero at first. -/
def timerInit : Timer where
  sortedList := List.replicate timerMaxCallback ⟨reactorNullHandle, 0, 0, 0, 0⟩
  slotActive := 0
  slotAvail := 0
  counter := 0
  currentInstance := timerInvalidInstance

namespace Timer

/-- The slot at an index of the array. -/
def slot (t : Timer) (i : ℕ) : TimerFuture := cell t.sortedList i

/-- The array with one slot written. -/
def setSlot (t : Timer) (i : ℕ) (f : TimerFuture) : Timer :=
  { t with sortedList := t.sortedList.set i f }

end Timer

/-- `timer_get_count_from_now`. -/
def timerGetCountFromNow (t : Timer) (delay : ℕ) : ℕ := (t.counter + delay) % 2 ^ 32

/-- The counting of the 1 ms interrupt, which then notifies the reactor. -/
def timerTick (t : Timer) : Timer := { t with counter := (t.counter + 1) % 2 ^ 32 }

/-! ## Arming -/

/-- The search of `timer_arm`: the first slot whose count is further away
than the new one, or the available slot. -/
def timerInsertPoint (t : Timer) (count : ℕ) : ℕ → ℕ → ℕ
  | 0, insertPoint => insertPoint
  | fuel + 1, insertPoint =>
    if insertPoint = t.slotAvail then insertPoint
    else if timerDistanceOf t.counter count
        < timerDistanceOf t.counter (t.slot insertPoint).count then insertPoint
    else timerInsertPoint t count fuel (timerRightOf insertPoint)

/-- The shift of `timer_arm`: from the available slot down, each slot
takes what the slot to its left holds. -/
def timerShiftRight (insertPoint : ℕ) : ℕ → Timer → ℕ → Timer
  | 0, t, _ => t
  | fuel + 1, t, i =>
    if i = insertPoint then t
    else timerShiftRight insertPoint fuel (t.setSlot i (t.slot (timerLeftOf i))) (timerLeftOf i)

/-- `timer_arm`; `none` where it alerts and stops. -/
def timerArm (t : Timer) (reactor count rep arg : ℕ) : Option (ℕ × Timer) :=
  if t.slotActive = t.slotAvail ∧ (t.slot t.slotActive).reactor ≠ reactorNullHandle then none
  else
    let insertPoint := timerInsertPoint t count timerMaxCallback t.slotActive
    let t := timerShiftRight insertPoint timerMaxCallback t t.slotAvail
    let inst := (t.currentInstance + 1) % 2 ^ 32
    let t := { t with currentInstance := inst }
    let t := t.setSlot insertPoint ⟨reactor, inst, count, rep, arg⟩
    let t := { t with slotAvail := timerRightOf t.slotAvail }
    -- a repeating timer changes instance at every expiry, so none is returned
    some (if rep ≠ 0 then timerInvalidInstance else inst, t)

/-! ## Cancelling -/

/-- The shift of `timer_cancel`: up to the available slot, each slot takes
what the slot to its right holds. -/
def timerShiftLeft : ℕ → Timer → ℕ → Timer
  | 0, t, _ => t
  | fuel + 1, t, i =>
    if i = t.slotAvail then t
    else timerShiftLeft fuel (t.setSlot i (t.slot (timerRightOf i))) (timerRightOf i)

/-- What `timer_cancel` does where it has found its instance: reclaim the
space, and make the slot left over available. -/
def timerReclaim (t : Timer) (pointer : ℕ) : Timer :=
  let t := timerShiftLeft timerMaxCallback t pointer
  let t := { t with slotAvail := timerLeftOf t.slotAvail }
  t.setSlot t.slotAvail { t.slot t.slotAvail with reactor := reactorNullHandle }

/-- The search of `timer_cancel`. -/
def timerCancelFrom (t : Timer) (toCancel : ℕ) : ℕ → ℕ → Bool × Timer
  | 0, _ => (false, t)
  | fuel + 1, pointer =>
    if pointer = t.slotAvail then (false, t)
    else if (t.slot pointer).inst = toCancel then (true, timerReclaim t pointer)
    else timerCancelFrom t toCancel fuel (timerRightOf pointer)

/-- `timer_cancel`. -/
def timerCancel (t : Timer) (toCancel : ℕ) : Bool × Timer :=
  timerCancelFrom t toCancel timerMaxCallback t.slotActive

/-! ## Expiring -/

/-- What `timer_dispatch` does with an expired timer after notifying its
reactor: arm it again if it repeats, and move past its slot. -/
def timerExpire (t : Timer) : Option Timer :=
  let pFuture := t.slotActive
  let future := t.slot pFuture
  let armed := if future.rep ≠ 0 then
      (timerArm t future.reactor ((future.count + future.rep) % 2 ^ 32) future.rep 0).map Prod.snd
    else some t
  armed.map fun t =>
    let t := { t with slotActive := timerRightOf t.slotActive }
    -- `pFuture` still points to the slot that was active
    t.setSlot pFuture { t.slot pFuture with reactor := reactorNullHandle }

/-- The loop of `timer_dispatch` at the time `timeNow`, with the
notifications it makes, each a reactor handle and an argument. The fuel
bounds the turns of the loop: `none` where it has not ended by then. -/
def timerDispatchLoop (timeNow : ℕ) : ℕ → Timer → Option (List (ℕ × ℕ) × Timer)
  | 0, _ => none
  | fuel + 1, t =>
    if t.slotActive = t.slotAvail then some ([], t)
    else if (t.slot t.slotActive).count ≤ timeNow then
      (timerExpire t).bind fun t' => (timerDispatchLoop timeNow fuel t').map fun r =>
        (((t.slot t.slotActive).reactor, (t.slot t.slotActive).arg) :: r.1, r.2)
    else some ([], t)

/-- `timer_dispatch`, which reads the counter first. -/
def timerDispatch (fuel : ℕ) (t : Timer) : Option (List (ℕ × ℕ) × Timer) :=
  timerDispatchLoop t.counter fuel t

end Asx

end CncPneumatics
