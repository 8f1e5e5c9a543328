import CncPneumatics.Asx.Queue
/-!
# The reactor

`reactor.c`: handlers with a priority and a queue each, notification flags
in one word, and the loop that reads the flags, pops the queue of the
first flagged handler and calls it. `_reactor_sort_by_priority` gives the
handlers their bits, the highest priority the lowest one; `qsort` comes
from the C library and is a parameter.

The loop goes in steps at its critical sections. Interrupts notify between
any two of them, and so does the handler that is running.
-/

namespace CncPneumatics

namespace Asx

/-- The width of `reactor_mask_t`, chosen by `REACTOR_MAX_HANDLERS`. -/
def reactorMaskWidth (reactorMaxHandlers : ℕ) : ℕ :=
  if reactorMaxHandlers ≤ 8 then 8 else if reactorMaxHandlers ≤ 16 then 16 else 32

/-- `reactor_item_t`; the handler function is named by its handle. -/
structure ReactorItem (w : ℕ) (α : Type*) where
  priority : ℕ
  mask : BitVec w
  queue : Queue α
deriving DecidableEq

instance {w : ℕ} {α : Type*} : Inhabited (ReactorItem w α) := ⟨⟨0, 0, ⟨[], 0, 0, 0, 0⟩⟩⟩

/-- `priority_item_t`. -/
structure PriorityItem where
  index : ℕ
  priority : ℕ
deriving DecidableEq

/-- Where the loop is. -/
inductive ReactorPc (w : ℕ) (α : Type*) where
  /-- At the top of `while (true)`. -/
  | loop
  /-- With the flags read, before the queue is popped. -/
  | flagged (flags : BitVec w)
  /-- In a handler. -/
  | calling (handle : ℕ) (data : α)
  /-- In `alert_and_stop`. -/
  | stopped
deriving DecidableEq

/-- The static variables of the reactor, for the handlers registered, and
its place in the loop. -/
structure Reactor (w : ℕ) (α : Type*) where
  /-- `_handlers`, up to `_next_handle`. -/
  handlers : List (ReactorItem w α)
  /-- `_handle_lookup`, up to `_next_handle`. -/
  handleLookup : List ℕ
  /-- `reactor_notifications`. -/
  notifications : BitVec w
  pc : ReactorPc w α
deriving DecidableEq

variable {w : ℕ} {α : Type*} [Inhabited α]

namespace Reactor

/-- `_next_handle`. -/
def nextHandle (r : Reactor w α) : ℕ := r.handlers.length

/-- The item of a handle. -/
def handler (r : Reactor w α) (handle : ℕ) : ReactorItem w α := cell r.handlers handle

/-- The handle of a bit. -/
def lookup (r : Reactor w α) (i : ℕ) : ℕ := cell r.handleLookup i

/-- An item written. -/
def setHandler (r : Reactor w α) (handle : ℕ) (item : ReactorItem w α) : Reactor w α :=
  { r with handlers := r.handlers.set handle item }

end Reactor

/-- `1 << handle` with an `int` of 16 bits, converted to
`reactor_mask_t`. -/
def temporaryMask (w handle : ℕ) : BitVec w := (1#16 <<< handle).signExtend w

/-- `reactor_register`, before the reactor runs; `none` where it alerts
and stops. The new handler has the next handle. -/
def reactorRegister (reactorMaxHandlers : ℕ) (r : Reactor w α) (priority queueSize : ℕ) :
    Option (ℕ × Reactor w α) :=
  if r.nextHandle = reactorMaxHandlers then none
  else some (r.nextHandle, { r with
    handlers := r.handlers ++
      [⟨priority % 2 ^ 8, temporaryMask w r.nextHandle, queueInit queueSize⟩]
    handleLookup := r.handleLookup ++ [0] })

/-- `reactor_notify`. -/
def reactorNotify (r : Reactor w α) (handle : ℕ) (data : α) : Reactor w α :=
  let r := { r with notifications := r.notifications ||| (r.handler handle).mask }
  r.setHandler handle { r.handler handle with queue := queuePushRing (r.handler handle).queue data }

/-! ## Sorting -/

/-- `compare_prio`. -/
def comparePrio (e1 e2 : PriorityItem) : ℤ :=
  if e1.priority < e2.priority then 1 else if e1.priority > e2.priority then -1 else 0

/-- The second loop of `_reactor_sort_by_priority`. -/
def reactorSortLoop : List PriorityItem → ℕ → Reactor w α → BitVec w → Reactor w α × BitVec w
  | [], _, r, sortedNotifications => (r, sortedNotifications)
  | item :: priorities, i, r, sortedNotifications =>
    let sortedIndex := item.index
    let mask := 1#w <<< i
    let r := { r with handleLookup := r.handleLookup.set i sortedIndex }
    let r := r.setHandler sortedIndex { r.handler sortedIndex with mask := mask }
    reactorSortLoop priorities (i + 1) r
      (if r.notifications &&& 1#w <<< sortedIndex ≠ 0 then sortedNotifications ||| mask
        else sortedNotifications)

/-- `_reactor_sort_by_priority`. -/
def reactorSortByPriority (qsort : List PriorityItem → List PriorityItem) (r : Reactor w α) :
    Reactor w α :=
  let priorities := (List.range r.nextHandle).map fun i => ⟨i, (r.handler i).priority⟩
  let sorted := reactorSortLoop (qsort priorities) 0 r 0
  { sorted.1 with notifications := sorted.2 }

/-- What the C standard says of `qsort` with `compare_prio`. -/
structure IsQsort (qsort : List PriorityItem → List PriorityItem) : Prop where
  perm : ∀ l, (qsort l).Perm l
  ordered : ∀ l, (qsort l).Pairwise fun e1 e2 => comparePrio e1 e2 ≤ 0

/-! ## The loop -/

/-- The search for the first flag: `i` counts up while the flags shift. -/
def reactorFindFlag : ℕ → ℕ → BitVec w → Option ℕ
  | 0, _, _ => none
  | n + 1, i, flags => if flags &&& 1#w ≠ 0 then some i else reactorFindFlag n (i + 1) (flags >>> 1)

/-- The critical section that pops a queue and, when that leaves it empty,
resets the flag. -/
def reactorPop (r : Reactor w α) (handle : ℕ) : Reactor w α :=
  match queuePop (r.handler handle).queue with
  | none => { r with pc := .stopped }
  | some (data, queue) =>
    let r := r.setHandler handle { r.handler handle with queue := queue }
    let r := if queueIsEmpty queue then
        { r with notifications := r.notifications &&& ~~~(r.handler handle).mask }
      else r
    { r with pc := .calling handle data }

/-- A step of the reactor, of the handler it runs or of an interrupt. -/
inductive ReactorEvent (α : Type*) where
  /-- An interrupt or the running handler calls `reactor_notify`. -/
  | notify (handle : ℕ) (data : α)
  /-- Read the flags, and sleep where there are none. -/
  | loop
  /-- Pop the queue of the first flagged handler and call it. -/
  | dispatch
  /-- The handler returns. -/
  | handled
deriving DecidableEq

/-- One step; `none` where it is not enabled. -/
def reactorStep (r : Reactor w α) : ReactorEvent α → Option (Reactor w α)
  | .notify handle data =>
    match r.pc with
    | .stopped => none
    | _ => if handle < r.nextHandle then some (reactorNotify r handle data) else none
  | .loop =>
    match r.pc with
    | .loop => some (if r.notifications = 0 then r else { r with pc := .flagged r.notifications })
    | _ => none
  | .dispatch =>
    match r.pc with
    | .flagged flags =>
      some (match reactorFindFlag r.nextHandle 0 flags with
        | some i => reactorPop r (r.lookup i)
        | none => { r with pc := .loop })
    | _ => none
  | .handled =>
    match r.pc with
    | .calling _ _ => some { r with pc := .loop }
    | _ => none

end Asx

end CncPneumatics
