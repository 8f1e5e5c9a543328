import CncPneumatics.Asx.TimerServed
/-!
# A chain of timers

Many users of the service go on by themselves: a timer goes off to their
reactor, whose handler arms the next one. As long as each is armed when
nothing of the chain is left there is one continuation at most, a timer
that is pending or a notification that is queued, and it comes when its
delay has elapsed.
-/

namespace CncPneumatics

namespace Asx

variable {t t' : Timer} {l : List TimerFuture} {f : TimerFuture} {A : TimerFuture → Prop}
  {k inst delay since fuel x : ℕ} {q : List ℕ}

/-- The timers of a reactor. -/
def timersFor (k : ℕ) (l : List TimerFuture) : List TimerFuture := l.filter fun f => f.reactor = k

theorem mem_timersFor : f ∈ timersFor k l ↔ f ∈ l ∧ f.reactor = k := by
  simp [timersFor]

/-- What others do with the service at most takes timers of a reactor
away. -/
theorem Timer.Served.timersFor_sublist (h : Timer.Served A t t') (hA : ∀ f, A f → f.reactor ≠ k)
    (hl : t.Holds l) :
    t'.counter = t.counter ∧ t'.Holds t'.pending ∧
      (timersFor k t'.pending).Sublist (timersFor k l) := by
  obtain ⟨hc, l', hl', -, hq⟩ := h l hl
  rw [hl'.pending_eq]
  exact ⟨hc, hl', hq _ fun f hf => by simpa using hA f hf⟩

/-- There was room where there is room afterwards: a full list stays
full. -/
theorem Timer.Served.room (h : Timer.Served A t t') (hl : t.Holds t.pending)
    (hroom : t'.pending.length < timerMaxCallback) : t.pending.length < timerMaxCallback := by
  obtain ⟨-, l', hl', hsame, -⟩ := h _ hl
  refine hl.length_le.lt_of_ne fun hfull => ?_
  rw [hl'.pending_eq, hsame hfull] at hroom
  omega

/-- A timer is armed where there is room for it. -/
theorem room_of_timerArm (hl : t.Holds t.pending) {reactor count rep arg : ℕ}
    (harm : timerArm t reactor count rep arg = some (inst, t')) :
    t.pending.length < timerMaxCallback := by
  refine hl.length_le.lt_of_ne fun hfull => ?_
  rw [timerArm_eq_none hl hfull] at harm
  cases harm

/-- What is armed is pending, under the next number. -/
theorem pending_of_timerArm (hl : t.Holds t.pending) {reactor count rep arg : ℕ}
    (hnull : reactor ≠ reactorNullHandle)
    (harm : timerArm t reactor count rep arg = some (inst, t')) :
    t'.Holds t'.pending ∧ t'.counter = t.counter ∧ t'.pending = armInsert t.counter
      ⟨reactor, (t.currentInstance + 1) % 2 ^ 32, count, rep, arg⟩ t.pending := by
  obtain ⟨-, -, hl', hcounter, -⟩ := timerArm_holds hl hnull harm
  exact ⟨hl'.holds_pending, hcounter, hl'.pending_eq⟩

/-- What a dispatch does with the timers of a reactor, none of them
repeating: it notifies of those at the front, which are due, and keeps the
rest. -/
theorem timersFor_dispatch (hl : t.Holds t.pending) (hrep : ∀ f ∈ timersFor k t.pending, f.rep = 0)
    {r : List (ℕ × ℕ) × Timer} (hr : timerDispatch fuel t = some r) :
    r.2.Holds r.2.pending ∧ r.2.counter = t.counter ∧
      ∃ fired, timersFor k t.pending = fired ++ timersFor k r.2.pending ∧
        (∀ f ∈ fired, f.count ≤ t.counter) ∧ waiting r.1 k = fired.map TimerFuture.arg := by
  obtain ⟨l', hl', hc, hd⟩ := timerDispatch_holds hl hr
  obtain ⟨fired, hsplit, hcount, hwait⟩ :=
    ringDrain_of_reactor (k := k) (fun f hf hk => hrep f (mem_timersFor.mpr ⟨hf, hk⟩)) hd
  rw [hl'.pending_eq]
  exact ⟨hl', hc, fired, hsplit, hcount, hwait⟩

/-! ## Cancelling -/

/-- The timer that cancelling a number takes away, if it does. -/
def cancelled (t : Timer) (inst : ℕ) : Option TimerFuture :=
  t.pending.find? fun f => f.inst = inst

/-- **Cancelling the only timer of a kind** leaves none, unless the list is
full. -/
theorem filter_timerCancel {q : TimerFuture → Bool} (hl : t.Holds t.pending)
    (hfull : t.pending.length < timerMaxCallback) (hone : (t.pending.filter q).length ≤ 1)
    (hown : ∀ f ∈ t.pending.filter q, (cancelled t inst).any q = true) :
    (timerCancel t inst).2.pending.filter q = [] := by
  rcases timerCancel_split hl inst with
    ⟨g, l₁, l₂, hsplit, hbefore, hg, -, hl₁, -⟩ | ⟨hsame, hnone⟩
  · rw [hl₁.pending_eq]
    refine List.eq_nil_iff_forall_not_mem.mpr fun f hf => ?_
    have hmem : f ∈ t.pending.filter q := by
      rw [hsplit]
      exact (((List.sublist_cons_self g l₂).append_left l₁).filter _).subset hf
    -- the timer that goes is one of the kind, of which there is one only
    obtain ⟨g', hg', hgk⟩ := (Option.any_eq_true _ _).mp (hown f hmem)
    obtain rfl : g = g' := by
      rw [cancelled, hsplit, List.find?_append, List.find?_eq_none.mpr (by simpa using hbefore),
        List.find?_cons_of_pos (by simpa using hg)] at hg'
      exact Option.some.inj hg'
    rw [hsplit, List.filter_append, List.filter_cons_of_pos hgk, List.length_append,
      List.length_cons] at hone
    rw [List.filter_append] at hf
    have := List.length_pos_of_mem hf
    rw [List.length_append] at this
    omega
  · rw [hsame]
    refine List.eq_nil_iff_forall_not_mem.mpr fun f hf => ?_
    obtain ⟨g, hg, -⟩ := (Option.any_eq_true _ _).mp (hown f hf)
    exact hnone.resolve_left hfull.ne g (List.mem_of_find?_eq_some hg)
      (by simpa using List.find?_some hg)

theorem timersFor_timerCancel (hl : t.Holds t.pending) (hfull : t.pending.length < timerMaxCallback)
    (hone : (timersFor k t.pending).length ≤ 1)
    (hown : ∀ f ∈ timersFor k t.pending, (cancelled t inst).any (fun g => g.reactor = k) = true) :
    timersFor k (timerCancel t inst).2.pending = [] :=
  filter_timerCancel hl hfull hone hown

/-- A number that only a reactor's timers have. -/
theorem cancelled_any (hall : ∀ f ∈ t.pending, f.inst = inst → f.reactor = k)
    (hf : f ∈ timersFor k t.pending) (hinst : f.inst = inst) :
    (cancelled t inst).any (fun g => g.reactor = k) = true := by
  obtain ⟨g, hg⟩ : ∃ g, cancelled t inst = some g := by
    rw [← Option.isSome_iff_exists, cancelled, List.find?_isSome]
    exact ⟨f, (mem_timersFor.mp hf).1, by simpa using hinst⟩
  have hk := hall g (List.mem_of_find?_eq_some hg) (by simpa using List.find?_some hg)
  simp [hg, hk]

/-! ## The chain -/

/-- **A chain**: at most one continuation, which is a timer with the number
`inst` or a notification in the queue `q`. The timer was armed with the
delay, so long ago; the notification comes when the delay has elapsed. -/
structure Chain (k inst delay since : ℕ) (t : Timer) (q : List ℕ) : Prop where
  holds : t.Holds t.pending
  single : (timersFor k t.pending).length + q.length ≤ 1
  own : ∀ f ∈ timersFor k t.pending, f.inst = inst ∧ f.rep = 0 ∧ f.count < 2 ^ 32 ∧
    ∃ c, f.count = c + delay ∧ t.counter = (c + since) % 2 ^ 32
  elapsed : q ≠ [] → delay ≤ since

namespace Chain

/-- The timer of a chain is not due before its delay has elapsed. -/
theorem delay_le (h : Chain k inst delay since t q) (hf : f ∈ timersFor k t.pending)
    (hdue : f.count ≤ t.counter) : delay ≤ since := by
  obtain ⟨-, -, hlt, c, hcount, hnow⟩ := h.own f hf
  by_contra hlate
  rw [Nat.mod_eq_of_lt (by omega)] at hnow
  omega

theorem tick (h : Chain k inst delay since t q) : Chain k inst delay (since + 1) (timerTick t) q := by
  have hl := timerTick_holds h.holds
  refine ⟨hl.holds_pending, hl.pending_eq ▸ h.single, fun f hf => ?_, fun hq => ?_⟩
  · rw [hl.pending_eq] at hf
    obtain ⟨hinst, hrep, hlt, c, hcount, hnow⟩ := h.own f hf
    refine ⟨hinst, hrep, hlt, c, hcount, ?_⟩
    show (t.counter + 1) % 2 ^ 32 = _
    omega
  · have := h.elapsed hq
    omega

/-- What others do with the service. -/
theorem served (h : Chain k inst delay since t q) (hs : Timer.Served A t t')
    (hA : ∀ f, A f → f.reactor ≠ k) : Chain k inst delay since t' q := by
  obtain ⟨hc, hl', hsub⟩ := hs.timersFor_sublist hA h.holds
  refine ⟨hl', ?_, fun f hf => ?_, h.elapsed⟩
  · have := hsub.length_le
    have := h.single
    omega
  · rw [hc]
    exact h.own f (hsub.subset hf)

/-- The notification is taken. -/
theorem take (h : Chain k inst delay since t (x :: q)) :
    timersFor k t.pending = [] ∧ q = [] ∧ Chain k inst delay since t [] := by
  have hsingle := h.single
  rw [List.length_cons] at hsingle
  have hnil := List.eq_nil_of_length_eq_zero (by omega : (timersFor k t.pending).length = 0)
  exact ⟨hnil, List.eq_nil_of_length_eq_zero (by omega : q.length = 0),
    ⟨h.holds, by rw [hnil]; simp, h.own, fun h' => absurd rfl h'⟩⟩

/-- **A dispatch** keeps the timer, or turns it into a notification. -/
theorem dispatch (h : Chain k inst delay since t q) {r : List (ℕ × ℕ) × Timer}
    (hr : timerDispatch fuel t = some r) {cap : ℕ} (hcap : 0 < cap) :
    Chain k inst delay since r.2 ((waiting r.1 k).foldl (post cap) q) := by
  obtain ⟨hl', hc, fired, hsplit, hcount, hwait⟩ :=
    timersFor_dispatch h.holds (fun f hf => (h.own f hf).2.1) hr
  have hsingle := h.single
  rw [hsplit, List.length_append] at hsingle
  have hown : ∀ f ∈ timersFor k r.2.pending, f.inst = inst ∧ f.rep = 0 ∧ f.count < 2 ^ 32 ∧
      ∃ c, f.count = c + delay ∧ r.2.counter = (c + since) % 2 ^ 32 := fun f hf => by
    rw [hc]
    exact h.own f (by rw [hsplit]; exact List.mem_append_right _ hf)
  cases fired with
  | nil =>
    rw [hwait, List.map_nil, List.foldl_nil]
    refine ⟨hl', ?_, hown, h.elapsed⟩
    simpa using hsingle
  | cons f fired =>
    rw [List.length_cons] at hsingle
    obtain rfl := List.eq_nil_of_length_eq_zero (by omega : fired.length = 0)
    obtain rfl := List.eq_nil_of_length_eq_zero (by omega : q.length = 0)
    have hpost : ([f].map TimerFuture.arg).foldl (post cap) [] = [f.arg] := post_of_lt hcap
    rw [hwait, hpost]
    refine ⟨hl', by simp only [List.length_cons, List.length_nil]; omega, hown,
      fun _ => ?_⟩
    exact h.delay_le (by rw [hsplit]; simp) (hcount f (by simp))

/-- **The next timer** is armed when nothing of the chain is left. -/
theorem arm (hl : t.Holds t.pending) (hnone : timersFor k t.pending = [])
    (hk : k ≠ reactorNullHandle) (hlt : t.counter + delay < 2 ^ 32)
    (harm : timerArm t k (timerGetCountFromNow t delay) 0 x = some (inst, t')) :
    Chain k inst delay 0 t' [] := by
  obtain ⟨-, rfl, hl', hc, -⟩ := timerArm_holds hl hk harm
  have hone : timersFor k t'.pending =
      [⟨k, (t.currentInstance + 1) % 2 ^ 32, timerGetCountFromNow t delay, 0, x⟩] := by
    rw [hl'.pending_eq]
    exact filter_armInsert_of_nil (by simp) hnone
  refine ⟨hl'.holds_pending, by simp [hone], fun f hf => ?_, fun h => absurd rfl h⟩
  rw [hone, List.mem_singleton] at hf
  subst hf
  have hcount : timerGetCountFromNow t delay = t.counter + delay := Nat.mod_eq_of_lt hlt
  refine ⟨rfl, rfl, by rw [hcount]; exact hlt, t.counter, hcount, ?_⟩
  rw [hc, Nat.add_zero, Nat.mod_eq_of_lt (by omega)]

end Chain

end Asx

end CncPneumatics
