import CncPneumatics.Asx.TimerLimits
/-!
# The roll-over of the counter

A timer that is armed so many ticks ahead is notified by the first
dispatch that comes after those ticks, and not before, as long as
`timer_dispatch` finds the counts on the same side of the counter as the
distances. Where it does not, some pending timer is early or late, or the
dispatch does not end.
-/

namespace CncPneumatics

namespace Asx

variable {t t₀ s s' : Timer} {f : TimerFuture} {hist h₀ a : List (Timer × TimerOp)}
  {fuel reactor count rep arg delay : ℕ}

/-- **The counts agree with the distances**: no deadline that has passed
lies behind a roll-over, and the loop of the dispatch stops before it gets
to one ahead. -/
def Agrees (now : ℕ) (l : List TimerFuture) : Prop :=
  NoneBehind now l ∧ (Stops now l ∨ ∀ f ∈ l, elapsed now f ∧ f.rep = 0)

instance (now : ℕ) : DecidablePred (Agrees now) := fun l => inferInstanceAs (Decidable
  ((∀ f ∈ l, elapsed now f → f.count ≤ now) ∧
    (((∃ f ∈ l, now < f.count) ∨
      ∃ f ∈ l, f.rep ≠ 0 ∧ f.count ≤ now ∧ elapsed now f ∧ nextDeadline now f < 2 ^ 32) ∨
    ∀ f ∈ l, elapsed now f ∧ f.rep = 0)))

/-- The ticks in a part of a run. -/
def ticksIn (h : List (Timer × TimerOp)) : ℕ := h.countP fun p => p.2 = .tick

theorem ticksIn_concat (p : Timer × TimerOp) :
    ticksIn (a ++ [p]) = ticksIn a + if p.2 = .tick then 1 else 0 := by
  unfold ticksIn
  rw [List.countP_append, List.countP_singleton]
  simp only [decide_eq_true_eq]

theorem Agrees.loopEnds {now : ℕ} {l : List TimerFuture} (h : Agrees now l) : LoopEnds now l :=
  h.2.imp_right fun h f hf => (h f hf).2

/-- Where the counts agree, a deadline ahead leaves something to stop at. -/
theorem Agrees.stops {now : ℕ} {l : List TimerFuture} (h : Agrees now l) (hf : f ∈ l)
    (he : ¬ elapsed now f) : Stops now l := h.2.resolve_right fun h => he (h f hf).1

/-- **Where the counts agree**, a dispatch notifies the timers whose
deadline has passed, and no others. -/
theorem InOrder.named_iff {k : ℕ} {names : List ℕ} {l' : List Named} {i' : ℕ} (h : InOrder t)
    (hlen : t.pending.length < timerMaxCallback) (hagree : Agrees t.counter t.pending)
    (hk : t.pending[k]? = some f)
    (hd : drainNamed t.counter t.counter fuel t.pending.zipIdx t.currentInstance =
      some (names, l', i')) : k ∈ names ↔ elapsed t.counter f := by
  obtain ⟨hsorted, hnodup, hzip⟩ := h.named
  constructor
  · intro hin
    by_contra he
    -- something stops the loop, which keeps it within a budget of none
    obtain ⟨N, hN⟩ := h.ends hlen hagree.loopEnds
    obtain ⟨names', _, _, hd', hcount⟩ := hN (max N fuel) (le_max_left _ _)
    rw [drainNamed_mono (le_max_right N fuel) hd, Option.some.injEq, Prod.mk.injEq] at hd'
    have hle := hcount (hagree.stops (List.mem_of_getElem? hk) he) k
    have hown : allowance t.counter t.pending.zipIdx k = budget t.counter f :=
      allowance_of_mem hnodup (mem_zipIdx_pending hk)
    rw [hown, budget_of_not_elapsed he, ← hd'.1] at hle
    exact List.count_eq_zero.mp (Nat.le_zero.mp hle) hin
  · intro he
    exact named_of_elapsed h.counter_lt hsorted (by omega)
      (by rw [List.zipIdx_map_fst]; exact hagree.1) (mem_zipIdx_pending hk) he hd

/-- **A dispatch is on time**: it ends, and notifies the pending timers
whose deadline has passed, and no others. -/
def DispatchOnTime (t : Timer) : Prop :=
  DispatchEnds t fun names => ∀ k f, t.pending[k]? = some f → (k ∈ names ↔ elapsed t.counter f)

/-- **Only where the counts agree** is a dispatch on time. -/
theorem InOrder.dispatchOnTime_iff (h : InOrder t) (hlen : t.pending.length < timerMaxCallback) :
    DispatchOnTime t ↔ Agrees t.counter t.pending := by
  obtain ⟨-, -, hzip⟩ := h.named
  constructor
  · intro hontime
    have hbehind := h.noneBehind (hontime.imp fun names hall k f hk => (hall k f hk).mpr)
    refine ⟨hbehind, or_iff_not_imp_left.mpr fun hstops => ?_⟩
    have hrep : NoneRepeats t.pending := (h.loopEnds hlen hontime).resolve_left hstops
    have hcount : ∀ f ∈ t.pending, f.count ≤ t.counter := fun f hf => by
      by_contra hlt
      exact hstops (.inl ⟨f, hf, not_le.mp hlt⟩)
    obtain ⟨fuel, names, l', i', hd, hall⟩ := hontime.causes
    have hmem : ∀ p ∈ t.pending.zipIdx, p.1 ∈ t.pending := fun p hp =>
      List.mem_of_getElem? (List.mem_zipIdx_iff_getElem?.mp hp)
    -- the loop goes through all of them, so all of them are due
    have hnamed := named_of_once (by omega) (fun p hp => hrep p.1 (hmem p hp))
      (fun p hp => hcount p.1 (hmem p hp)) hd
    intro f hf
    obtain ⟨k, hk⟩ := List.mem_iff_getElem?.mp hf
    exact ⟨(hall k f hk).mp (hnamed (f, k) (mem_zipIdx_pending hk)), hrep f hf⟩
  · intro hagree
    refine h.dispatchEnds ?_
    obtain ⟨N, hN⟩ := h.ends hlen hagree.loopEnds
    refine ⟨N, fun fuel hfuel => ?_⟩
    obtain ⟨names, l', i', hd, -⟩ := hN fuel hfuel
    exact ⟨names, l', i', hd, fun k f hk => h.named_iff hlen hagree hk hd⟩

/-- **A timer waits** in a state some ticks after it was armed. -/
structure Waits (f : TimerFuture) (delay ticks : ℕ) (s : Timer) : Prop where
  inOrder : InOrder s
  pending : f ∈ s.pending
  room : s.pending.length < timerMaxCallback
  distance_eq : distance s.counter f = (delay : ℤ) - ticks

namespace Waits

variable {ticks : ℕ}

/-- A tick brings the deadline nearer. -/
theorem tick (h : Waits f delay ticks s) (hp : Proper (s, .tick)) :
    Waits f delay (ticks + 1) (timerTick s) := by
  have hl : (timerTick s).pending = s.pending := (timerTick_holds h.inOrder.holds).pending_eq
  have hstep : timerCall 0 s .tick = some (timerTick s) := rfl
  refine ⟨h.inOrder.step hp hstep, by rw [hl]; exact h.pending, by rw [hl]; exact h.room, ?_⟩
  have hd := h.distance_eq
  show timerDistanceOf ((s.counter + 1) % 2 ^ 32) f.count = _
  rw [timerDistanceOf_tick (hp f h.pending)]
  unfold distance at hd
  omega

/-- Its deadline has passed when the ticks are over. -/
theorem elapsed_iff (h : Waits f delay ticks s) : elapsed s.counter f ↔ delay ≤ ticks := by
  have := h.distance_eq
  unfold elapsed
  omega

/-- A dispatch before that leaves it waiting. -/
theorem dispatch (h : Waits f delay ticks s) (hagree : Agrees s.counter s.pending)
    (hlt : ticks < delay) (hstep : timerCall fuel s .dispatch = some s') :
    Waits f delay ticks s' := by
  obtain ⟨k, hk⟩ := List.mem_iff_getElem?.mp h.pending
  have hin := h.inOrder.step (show Proper (s, .dispatch) from trivial) hstep
  rw [timerCall, timerStep, Option.map_map] at hstep
  obtain ⟨r, hr, rfl⟩ := Option.map_eq_some_iff.mp hstep
  rcases timerDispatch_causes fuel h.inOrder.holds with
    ⟨hnone, -⟩ | ⟨ns, t', names, l', i', heq, -, -, hd, hl, hc⟩
  · rw [hnone] at hr; cases hr
  · rw [heq, Option.some.injEq] at hr
    subst hr
    have hnot : k ∉ names := fun hin =>
      not_le.mpr hlt (h.elapsed_iff.mp ((h.inOrder.named_iff h.room hagree hk hd).mp hin))
    have hstays : (f, k) ∈ l' := mem_of_not_named (mem_zipIdx_pending hk) hnot hd
    have hpending : t'.pending = l'.map Prod.fst := hl.pending_eq
    refine ⟨hin, ?_, ?_, ?_⟩
    · show f ∈ t'.pending
      rw [hpending]
      exact List.mem_map_of_mem (f := Prod.fst) hstays
    · show t'.pending.length < timerMaxCallback
      rw [hpending, List.length_map]
      have hle := length_drainNamed_le hd
      rw [List.length_zipIdx] at hle
      exact lt_of_le_of_lt hle h.room
    · show distance t'.counter f = _
      rw [hc]
      exact h.distance_eq

end Waits

/-- The timer that an arming enters. -/
theorem waits_of_arm (h : InOrder t₀) (hp : Proper (t₀, .arm reactor count rep arg))
    (hothers : t₀.pending.length < timerMaxCallback - 1)
    (hcount : count = timerGetCountFromNow t₀ delay) (hdelay : delay < 2 ^ 31)
    (hstep : timerCall fuel t₀ (.arm reactor count rep arg) = some s) :
    Waits ⟨reactor, (t₀.currentInstance + 1) % 2 ^ 32, count, rep, arg⟩ delay 0 s := by
  have hin := h.step hp hstep
  rw [timerCall, timerStep, Option.map_map] at hstep
  obtain ⟨⟨inst, t₁⟩, harm, rfl⟩ := Option.map_eq_some_iff.mp hstep
  obtain ⟨-, -, hl, hc, -⟩ := timerArm_holds h.holds hp.1 harm
  refine ⟨hin, ?_, ?_, ?_⟩
  · show _ ∈ t₁.pending
    rw [hl.pending_eq]
    exact mem_armInsert.mpr (.inl rfl)
  · show t₁.pending.length < timerMaxCallback
    rw [hl.pending_eq, armInsert_length]
    omega
  · show timerDistanceOf t₁.counter count = _
    have hself : timerDistanceOf t₀.counter t₀.counter = 0 := by simp [timerDistanceOf]
    rw [hc, hcount, timerGetCountFromNow, timerDistanceOf_add (by rw [hself]; omega), hself]
    omega

/-- **The run law**: through ticks and dispatches that come before its
deadline, the timer waits. -/
theorem waits_of_run
    (hrun : Run (timerCall fuel) timerInit (h₀ ++ (t₀, .arm reactor count rep arg) :: a) s)
    (hp : ∀ p ∈ h₀ ++ (t₀, .arm reactor count rep arg) :: a, Proper p)
    (hothers : t₀.pending.length < timerMaxCallback - 1)
    (hcount : count = timerGetCountFromNow t₀ delay) (hdelay : delay < 2 ^ 31)
    (ha : ∀ p ∈ a, p.2 = .tick ∨ p.2 = .dispatch)
    (hagree : ∀ p ∈ a, p.2 = .dispatch → Agrees p.1.counter p.1.pending)
    (hfirst : ∀ a₁ s₁ a₂, a = a₁ ++ (s₁, .dispatch) :: a₂ → ticksIn a₁ < delay) :
    Waits ⟨reactor, (t₀.currentInstance + 1) % 2 ^ 32, count, rep, arg⟩ delay (ticksIn a) s := by
  induction a using List.reverseRecOn generalizing s with
  | nil =>
    obtain ⟨hrun₀, hstep⟩ := hrun.of_snoc
    exact waits_of_arm (inOrder_of_run timerInit_inOrder hrun₀ fun p hmem => hp p (by simp [hmem]))
      (hp _ (by simp)) hothers hcount hdelay hstep
  | append_singleton a p ih =>
    obtain ⟨s₁, op⟩ := p
    rw [show h₀ ++ (t₀, TimerOp.arm reactor count rep arg) :: (a ++ [(s₁, op)]) =
      (h₀ ++ (t₀, TimerOp.arm reactor count rep arg) :: a) ++ [(s₁, op)] by simp] at hrun hp
    obtain ⟨hrun₁, hstep⟩ := hrun.of_snoc
    have hw := ih hrun₁ (fun p hmem => hp p (List.mem_append_left _ hmem))
      (fun p hmem => ha p (by simp [hmem])) (fun p hmem => hagree p (by simp [hmem]))
      fun a₁ s₂ a₂ heq => hfirst a₁ s₂ (a₂ ++ [(s₁, op)]) (by simp [heq])
    -- time passes, or a dispatch comes before the deadline and leaves the timer
    rw [ticksIn_concat]
    rcases ha (s₁, op) (by simp) with htick | hdispatch
    · dsimp only at htick
      subst htick
      obtain rfl := Option.some.inj hstep
      rw [if_pos rfl]
      exact hw.tick (hp (s₁, .tick) (List.mem_append_right _ List.mem_cons_self))
    · dsimp only at hdispatch
      subst hdispatch
      rw [if_neg (by simp), Nat.add_zero]
      exact hw.dispatch (hagree (s₁, .dispatch) (by simp) rfl) (hfirst a s₁ [] (by simp)) hstep

/-- **A timer is notified at its deadline.** Take a run from `timer_init`
in which, with fewer than `TIMER_MAX_CALLBACK - 1` others pending, a timer
is armed `delay` ticks ahead and then time passes and dispatches come, all
of them before the deadline. Where the counts agree with the distances at
each dispatch, the timer is pending still; where they agree at the next
one too, it ends, and notifies the timer when and only when `delay` ticks
have passed. And only where they agree is that dispatch on time for all
the timers that are pending. -/
theorem notified_at_deadline
    (hrun : Run (timerCall fuel) timerInit (h₀ ++ (t₀, .arm reactor count rep arg) :: a) s)
    (hp : ∀ p ∈ h₀ ++ (t₀, .arm reactor count rep arg) :: a, Proper p)
    (hothers : t₀.pending.length < timerMaxCallback - 1)
    (hcount : count = timerGetCountFromNow t₀ delay) (hdelay : delay < 2 ^ 31)
    (ha : ∀ p ∈ a, p.2 = .tick ∨ p.2 = .dispatch)
    (hfirst : ∀ a₁ s₁ a₂, a = a₁ ++ (s₁, .dispatch) :: a₂ → ticksIn a₁ < delay)
    (hagree : ∀ p ∈ a, p.2 = .dispatch → Agrees p.1.counter p.1.pending) :
    (∃ k, s.pending[k]? = some ⟨reactor, (t₀.currentInstance + 1) % 2 ^ 32, count, rep, arg⟩ ∧
      (Agrees s.counter s.pending → DispatchEnds s fun names => (k ∈ names ↔ delay ≤ ticksIn a))) ∧
    (DispatchOnTime s ↔ Agrees s.counter s.pending) := by
  have hw := waits_of_run hrun hp hothers hcount hdelay ha hagree hfirst
  have hontime := hw.inOrder.dispatchOnTime_iff hw.room
  obtain ⟨k, hk⟩ := List.mem_iff_getElem?.mp hw.pending
  refine ⟨⟨k, hk, fun hs => ?_⟩, hontime⟩
  exact (hontime.mpr hs).imp fun names hall => (hall k _ hk).trans hw.elapsed_iff

/-! ### Three timers -/

/-- Next to a repeating timer, one is armed two ticks ahead; a dispatch
comes at once, and then two ticks. -/
theorem notified_at_deadline_two : ∃ h₀ t₀ a s,
    Run (timerCall 9) timerInit (h₀ ++ (t₀, .arm 3 2 0 7) :: a) s ∧
      a.map Prod.snd = [.dispatch, .tick, .tick] ∧
      ∃ k, s.pending[k]? = some ⟨3, (t₀.currentInstance + 1) % 2 ^ 32, 2, 0, 7⟩ ∧
        DispatchEnds s (fun names => (k ∈ names ↔ 2 ≤ ticksIn a)) ∧ DispatchOnTime s := by
  have hstate : ((timerCall 9 timerInit (.arm 4 7 3 0)).bind fun t₀ =>
      (timerCall 9 t₀ (.arm 3 2 0 7)).bind fun t₁ => (runEvents
        (guarded (fun p => decide (Proper p ∧ Agrees p.1.counter p.1.pending)) (timerCall 9))
        [.dispatch, .tick, .tick] t₁).map fun s => decide (t₀.counter = 0 ∧ t₀.pending.length = 1 ∧
          Agrees s.counter s.pending)) = some true := by decide +kernel
  obtain ⟨t₀, h₁, hstate⟩ := Option.bind_eq_some_iff.mp hstate
  obtain ⟨t₁, h₂, hstate⟩ := Option.bind_eq_some_iff.mp hstate
  obtain ⟨s, h₃, hstate⟩ := Option.map_eq_some_iff.mp hstate
  obtain ⟨hnow, hlen, hagrees⟩ := of_decide_eq_true hstate
  obtain ⟨a, hrun₃, hops⟩ := exists_run_of_runEvents h₃
  obtain ⟨hrun₃, hcheck⟩ := hrun₃.of_guarded
  have hcheck : ∀ p ∈ a, Proper p ∧ Agrees p.1.counter p.1.pending :=
    fun p hp => of_decide_eq_true (hcheck p hp)
  have hrun : Run (timerCall 9) timerInit ([(timerInit, .arm 4 7 3 0)] ++ (t₀, .arm 3 2 0 7) :: a) s :=
    ((Run.snoc (h := []) .nil h₁).snoc h₂).trans hrun₃
  obtain ⟨p₁, p₂, p₃, rfl⟩ : ∃ p₁ p₂ p₃, a = [p₁, p₂, p₃] := by
    have hlen := congrArg List.length hops
    rw [List.length_map] at hlen
    exact List.length_eq_three.mp hlen
  simp only [List.map_cons, List.map_nil, List.cons.injEq, and_true] at hops
  obtain ⟨hp₁, hp₂, hp₃⟩ := hops
  have hproper : ∀ p ∈ [(timerInit, TimerOp.arm 4 7 3 0)] ++ (t₀, .arm 3 2 0 7) :: [p₁, p₂, p₃],
      Proper p := by
    intro p hp
    rcases List.mem_append.mp hp with hp | hp
    · rw [List.mem_singleton.mp hp]; decide
    · rcases List.mem_cons.mp hp with rfl | hp
      · exact ⟨by decide, by decide, by decide⟩
      · exact (hcheck p hp).1
  have hfirst : ∀ a₁ s₁ a₂, [p₁, p₂, p₃] = a₁ ++ (s₁, .dispatch) :: a₂ → ticksIn a₁ < 2 := by
    intro a₁ s₁ a₂ heq
    match a₁, heq with
    | [], _ => decide
    | [_], heq => simp only [List.cons_append, List.nil_append, List.cons.injEq] at heq
                  rw [heq.2.1] at hp₂; cases hp₂
    | [_, _], heq => simp only [List.cons_append, List.nil_append, List.cons.injEq] at heq
                     rw [heq.2.2.1] at hp₃; cases hp₃
    | _ :: _ :: _ :: _, heq => simp at heq
  obtain ⟨⟨k, hk, hnotified⟩, hontime⟩ := notified_at_deadline hrun hproper (by rw [hlen]; decide)
    (by rw [timerGetCountFromNow, hnow]; rfl) (by decide) (by simp [hp₁, hp₂, hp₃]) hfirst
    fun p hp _ => (hcheck p hp).2
  exact ⟨_, t₀, _, s, hrun, by simp [hp₁, hp₂, hp₃], k, hk, hnotified hagrees, hontime.mpr hagrees⟩

/-- **At the roll-over timers are early or late.** With the counter at its
last value, a timer that is armed one tick ahead is notified by a dispatch
at once; and one that is armed for now is not notified by a dispatch that
comes one tick later. -/
theorem roll_over_early_and_late : ∃ hist last, Run (timerCall 2) timerInit hist last ∧
    (∀ p ∈ hist, Proper p) ∧ last.counter = 2 ^ 32 - 1 ∧ last.pending = [] ∧
    (∃ s, timerCall 2 last (.arm 3 (timerGetCountFromNow last 1) 0 7) = some s ∧
      timerDispatchCauses 2 s = some [0]) ∧
    ∃ s, runEvents (timerCall 2) [.arm 3 (timerGetCountFromNow last 0) 0 7, .tick] last = some s ∧
      s.pending = [⟨3, 0, 2 ^ 32 - 1, 0, 7⟩] ∧ timerDispatch 2 s = some ([], s) := by
  obtain ⟨hist, hrun, hp⟩ := run_ticks 2 (2 ^ 32 - 1)
  rw [show (2 ^ 32 - 1) % 2 ^ 32 = 2 ^ 32 - 1 by decide] at hrun
  set last : Timer := { timerInit with counter := 2 ^ 32 - 1 } with hlast
  have hearly : ((timerCall 2 last (.arm 3 (timerGetCountFromNow last 1) 0 7)).bind
      (timerDispatchCauses 2)) = some [0] := by decide +kernel
  have hlate : (runEvents (timerCall 2) [.arm 3 (timerGetCountFromNow last 0) 0 7, .tick] last).map
      (fun s => decide (s.pending = [⟨3, 0, 2 ^ 32 - 1, 0, 7⟩] ∧ timerDispatch 2 s = some ([], s))) =
      some true := by decide +kernel
  obtain ⟨s, hs, hcauses⟩ := Option.bind_eq_some_iff.mp hearly
  obtain ⟨s', hs', heq⟩ := Option.map_eq_some_iff.mp hlate
  obtain ⟨hl, hd⟩ := of_decide_eq_true heq
  exact ⟨hist, last, hrun, hp, rfl, rfl, ⟨s, hs, hcauses⟩, s', hs', hl, hd⟩

end Asx

end CncPneumatics
