import CncPneumatics.Common.Run
import CncPneumatics.Controller.Model
/-!
# Runs written down

Long runs in few words: times in which no handler is run, and the reactor
serving what is queued, the most urgent first.
-/

namespace CncPneumatics

open Asx

namespace Controller

variable {fuel handle : ℕ} {s s' : State} {around : Surroundings}

/-! ## Blocks -/

/-- A time in which no handler is run, or an event. -/
inductive Block where
  /-- One millisecond more than the number. -/
  | wait (ms : ℕ)
  | event (e : Event)

def Block.events : Block → List Event
  | .wait ms => List.replicate (ms + 1) .tick
  | .event e => [e]

/-- A block runs a handler. -/
def Block.runs (handle : ℕ) : Block → Bool
  | .event (.run k _) => k = handle
  | _ => false

theorem Block.not_mem_events {b : Block} (h : b.runs handle = false) :
    .run handle around ∉ b.events := by
  intro hmem
  cases b with
  | wait ms => cases List.eq_of_mem_replicate hmem
  | event e =>
    obtain rfl := List.mem_singleton.mp hmem
    simp [Block.runs] at h

/-- The state after a time. -/
def waited (s : State) (ms : ℕ) : State :=
  notify { s with timer := { s.timer with counter := (s.timer.counter + ms) % 2 ^ 32 } } reactTimer 0

def runBlocks (fuel : ℕ) : List Block → State → Option State
  | [], s => some s
  | .wait ms :: l, s =>
    if waiting s.mail reactTimer = [] then runBlocks fuel l (waited s (ms + 1)) else none
  | .event e :: l, s => (step fuel s e).bind (runBlocks fuel l)

/-- The timer handler is notified once, and the time passes. -/
theorem runEvents_ticks {stepped : State → Event → Option State}
    (htick : ∀ s, stepped s .tick = step fuel s .tick) (h : waiting s.mail reactTimer = [])
    (ms : ℕ) :
    runEvents stepped (List.replicate (ms + 1) .tick) s = some (waited s (ms + 1)) := by
  induction ms with
  | zero =>
    rw [List.replicate_one, runEvents, htick]
    rfl
  | succ ms ih =>
    rw [List.replicate_succ', runEvents_append, ih, Option.bind_some, runEvents, htick]
    have hmail : deposit queueSize (deposit queueSize s.mail reactTimer 0) reactTimer 0 =
        deposit queueSize s.mail reactTimer 0 := by
      rw [deposit_deposit rfl h, deposit, h, if_pos (by decide)]
    have hcounter : ((s.timer.counter + (ms + 1)) % 2 ^ 32 + 1) % 2 ^ 32 =
        (s.timer.counter + (ms + 1 + 1)) % 2 ^ 32 := by omega
    show some { s with
      timer := { s.timer with counter := ((s.timer.counter + (ms + 1)) % 2 ^ 32 + 1) % 2 ^ 32 }
      mail := deposit queueSize (deposit queueSize s.mail reactTimer 0) reactTimer 0 } = _
    rw [hmail, hcounter]
    rfl

theorem runEvents_of_runBlocks {l : List Block} (h : runBlocks fuel l s = some s') :
    runEvents (step fuel) (l.flatMap Block.events) s = some s' := by
  induction l generalizing s with
  | nil => exact h
  | cons b l ih =>
    rw [List.flatMap_cons, runEvents_append]
    cases b with
    | wait ms =>
      simp only [runBlocks] at h
      split_ifs at h with hnone
      rw [show Block.events (.wait ms) = List.replicate (ms + 1) .tick from rfl,
        runEvents_ticks (fun _ => rfl) hnone,
        Option.bind_some]
      exact ih h
    | event e =>
      obtain ⟨s₁, hs, h⟩ := Option.bind_eq_some_iff.mp h
      rw [show Block.events (.event e) = [e] from rfl, runEvents, hs]
      exact ih h

/-- The run of two lists of blocks, one after the other. -/
theorem exists_run_of_runBlocks {l l' : List Block} {s₁ : State}
    (h : runBlocks fuel l start = some s₁) (h' : runBlocks fuel l' s₁ = some s) :
    ∃ hist, Run (step fuel) start hist s ∧
      hist.map Prod.snd = (l ++ l').flatMap Block.events := by
  refine exists_run_of_runEvents ?_
  rw [List.flatMap_append, runEvents_append, runEvents_of_runBlocks h, Option.bind_some]
  exact runEvents_of_runBlocks h'

/-! ## The reactor -/

/-- No input is high, and the bus is idle. -/
def idle : Surroundings := ⟨[], false⟩

/-- A handler that is run is the most urgent of those queued. -/
def mostUrgent (p : State × Event) : Bool :=
  match p.2 with
  | .run handle _ => p.1.mail.all fun q => decide (priority q.1 ≤ priority handle)
  | _ => true

/-- The most urgent of the handlers that are queued. -/
def urgent : Mailroom ℕ → Option ℕ
  | [] => none
  | p :: m =>
    match urgent m with
    | none => some p.1
    | some handle => if priority handle < priority p.1 then some p.1 else some handle

/-- Handlers are run until nothing is queued, the most urgent first. -/
def serve (step : State → Event → Option State) (high : List ℕ) : ℕ → State → Option State
  | 0, s => if s.mail = [] then some s else none
  | n + 1, s =>
    match urgent s.mail with
    | none => some s
    | some handle => (step s (.run handle ⟨high, s.transfer.locked⟩)).bind (serve step high n)

/-- A number of times, after each of which the reactor serves. -/
def rounds (step : State → Event → Option State) (high : List ℕ) (ms : ℕ) : ℕ → State → Option State
  | 0, s => some s
  | n + 1, s =>
    if waiting s.mail reactTimer = [] then
      (serve step high 64 (waited s (ms + 1))).bind (rounds step high ms n)
    else none

variable {stepped : State → Event → Option State} {high : List ℕ} {n ms : ℕ}

theorem run_of_serve (h : serve stepped high n s = some s') : ∃ hist, Run stepped s hist s' := by
  induction n generalizing s with
  | zero =>
    simp only [serve] at h
    split_ifs at h
    obtain rfl := Option.some.inj h
    exact ⟨[], .nil⟩
  | succ n ih =>
    simp only [serve] at h
    split at h
    · obtain rfl := Option.some.inj h
      exact ⟨[], .nil⟩
    · obtain ⟨s₁, hs, h⟩ := Option.bind_eq_some_iff.mp h
      obtain ⟨hist, hr⟩ := ih h
      exact ⟨_, (Run.nil.snoc hs).trans hr⟩

theorem run_of_rounds (htick : ∀ s, stepped s .tick = step fuel s .tick)
    (h : rounds stepped high ms n s = some s') : ∃ hist, Run stepped s hist s' := by
  induction n generalizing s with
  | zero =>
    obtain rfl := Option.some.inj h
    exact ⟨[], .nil⟩
  | succ n ih =>
    simp only [rounds] at h
    split_ifs at h with hnone
    obtain ⟨s₁, hs, h⟩ := Option.bind_eq_some_iff.mp h
    obtain ⟨hist₁, hr₁⟩ := run_of_serve hs
    obtain ⟨hist₂, hr₂⟩ := ih h
    obtain ⟨hist₀, hr₀, -⟩ := exists_run_of_runEvents (runEvents_ticks htick hnone ms)
    exact ⟨_, (hr₀.trans hr₁).trans hr₂⟩

/-- Rounds with these inputs high, of so many milliseconds and one more, and
so many of them; then the next ones. -/
def stages (step : State → Event → Option State) : List (List ℕ × ℕ × ℕ) → State → Option State
  | [], s => some s
  | (high, ms, n) :: l, s => (rounds step high ms n s).bind (stages step l)

theorem run_of_stages (htick : ∀ s, stepped s .tick = step fuel s .tick)
    {l : List (List ℕ × ℕ × ℕ)} (h : stages stepped l s = some s') :
    ∃ hist, Run stepped s hist s' := by
  induction l generalizing s with
  | nil =>
    obtain rfl := Option.some.inj h
    exact ⟨[], .nil⟩
  | cons p l ih =>
    obtain ⟨s₁, hs, h⟩ := Option.bind_eq_some_iff.mp h
    obtain ⟨hist₁, hr₁⟩ := run_of_rounds htick hs
    obtain ⟨hist₂, hr₂⟩ := ih h
    exact ⟨_, hr₁.trans hr₂⟩

/-- A run that passes a further check up to some point, and goes on as the
reactor goes on to its last two steps. -/
theorem exists_run_of_last_two {check : State × Event → Bool} {hist₀ : List (State × Event)}
    {l : List Event} {s₀ s₁ s₂ : State} {e₁ e₂ : Event}
    (hr₀ : Run (guarded (fun p => mostUrgent p && check p) (step fuel)) start hist₀ s₀)
    (h₁ : runEvents (guarded mostUrgent (step fuel)) l s₀ = some s₁)
    (h₂ : guarded mostUrgent (step fuel) s₁ e₁ = some s₂)
    (h₃ : guarded mostUrgent (step fuel) s₂ e₂ = some s) :
    ∃ hist, Run (step fuel) start (hist ++ [(s₁, e₁), (s₂, e₂)]) s ∧
      ∀ p ∈ hist ++ [(s₁, e₁), (s₂, e₂)], mostUrgent p = true := by
  obtain ⟨hr₀, hall₀⟩ := hr₀.of_guarded
  obtain ⟨hist₁, hr₁, -⟩ := exists_run_of_runEvents h₁
  obtain ⟨hr, hall⟩ := ((hr₁.snoc h₂).snoc h₃).of_guarded
  have hlist : hist₀ ++ (hist₁ ++ [(s₁, e₁)] ++ [(s₂, e₂)]) =
      (hist₀ ++ hist₁) ++ [(s₁, e₁), (s₂, e₂)] := by simp
  refine ⟨hist₀ ++ hist₁, hlist ▸ hr₀.trans hr, fun p hp => ?_⟩
  rw [← hlist] at hp
  rcases List.mem_append.mp hp with hp | hp
  · exact (Bool.and_eq_true_iff.mp (hall₀ p hp)).1
  · exact hall p hp

end Controller

end CncPneumatics
