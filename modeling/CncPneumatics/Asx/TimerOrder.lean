import CncPneumatics.Asx.TimerServed
import CncPneumatics.Asx.TimerRefines
import CncPneumatics.Common.Run
/-!
# The order of the pending timers

The list is sorted by the signed distance of the deadlines from the
counter, whatever the counter is: arming keeps that order, and the passing
of time keeps it as long as no timer is left pending for `2^31` ticks after
its deadline, when its distance turns round.

Whether a timer is due is another matter. By its distance a deadline has
passed when that is not positive; `timer_dispatch` compares the counts.
-/

namespace CncPneumatics

namespace Asx

variable {t t' : Timer} {l l' : List TimerFuture} {f g : TimerFuture} {now c fuel : ℕ}

/-! ## Distances -/

/-- The signed distance of a deadline. -/
abbrev distance (now : ℕ) (f : TimerFuture) : ℤ := timerDistanceOf now f.count

/-- The deadline has passed, by its distance. -/
def elapsed (now : ℕ) (f : TimerFuture) : Prop := distance now f ≤ 0

instance (now : ℕ) : DecidablePred (elapsed now) := fun _ => Int.decLe ..

/-- The distance of a count: the difference, or the difference turned
round. -/
theorem timerDistanceOf_cases (hnow : now < 2 ^ 32) (hc : c < 2 ^ 32) :
    (timerDistanceOf now c = (c : ℤ) - now ∧ now ≤ c + 2 ^ 31 ∧ c < now + 2 ^ 31) ∨
      (timerDistanceOf now c = (c : ℤ) - now - 2 ^ 32 ∧ now + 2 ^ 31 ≤ c) ∨
      (timerDistanceOf now c = (c : ℤ) - now + 2 ^ 32 ∧ c + 2 ^ 31 < now) := by
  rcases Nat.lt_or_ge c (now + 2 ^ 31) with hlt | hge
  · rcases Nat.lt_or_ge (c + 2 ^ 31) now with hlow | hhigh
    · refine .inr (.inr ⟨?_, hlow⟩)
      unfold timerDistanceOf
      rw [← Int.add_bmod_right]
      exact Int.bmod_eq_of_le (by omega) (by omega)
    · exact .inl ⟨timerDistanceOf_eq ⟨hhigh, hlt⟩, hhigh, hlt⟩
  · refine .inr (.inl ⟨?_, hge⟩)
    unfold timerDistanceOf
    rw [← Int.sub_bmod_right]
    exact Int.bmod_eq_of_le (by omega) (by omega)

/-- A distance is a signed 32-bit number. -/
theorem timerDistanceOf_range (now c : ℕ) :
    -2 ^ 31 ≤ timerDistanceOf now c ∧ timerDistanceOf now c < 2 ^ 31 := by
  unfold timerDistanceOf
  have h1 := Int.le_bmod (x := (c : ℤ) - now) (m := 2 ^ 32) (by decide)
  have h2 := Int.bmod_lt (x := (c : ℤ) - now) (m := 2 ^ 32) (by decide)
  omega

/-- A later deadline is further away, up to `2^31`. -/
theorem timerDistanceOf_add {d : ℕ} (h : timerDistanceOf now c + d < 2 ^ 31) :
    timerDistanceOf now ((c + d) % 2 ^ 32) = timerDistanceOf now c + d := by
  have hrange := timerDistanceOf_range now c
  have hmod : timerDistanceOf now ((c + d) % 2 ^ 32) = (timerDistanceOf now c + d).bmod (2 ^ 32) := by
    unfold timerDistanceOf
    rw [Int.bmod_add_bmod, Int.natCast_mod, Int.emod_sub_bmod]
    exact congrArg (Int.bmod · _) (by omega)
  rw [hmod]
  exact Int.bmod_eq_of_le (by omega) (by omega)

/-- A tick brings a deadline nearer, down to `-2^31`. -/
theorem timerDistanceOf_tick (h : timerDistanceOf now c ≠ -2 ^ 31) :
    timerDistanceOf ((now + 1) % 2 ^ 32) c = timerDistanceOf now c - 1 := by
  have hrange := timerDistanceOf_range now c
  have hmod : timerDistanceOf ((now + 1) % 2 ^ 32) c = (timerDistanceOf now c - 1).bmod (2 ^ 32) := by
    unfold timerDistanceOf
    rw [Int.bmod_sub_bmod, Int.natCast_mod, Int.sub_emod_bmod]
    exact congrArg (Int.bmod · _) (by omega)
  rw [hmod]
  exact Int.bmod_eq_of_le (by omega) (by omega)

/-! ## The list -/

/-- **The pending timers in order**, with 32-bit deadlines and periods of
less than half the range of the counter. -/
structure Sorted (now : ℕ) (l : List TimerFuture) : Prop where
  ordered : l.Pairwise fun f g => distance now f ≤ distance now g
  count_lt : ∀ f ∈ l, f.count < 2 ^ 32
  rep_lt : ∀ f ∈ l, f.rep < 2 ^ 31

theorem Sorted.nil : Sorted now [] := ⟨.nil, by simp, by simp⟩

/-- Fewer timers are in order as well. -/
theorem Sorted.sublist (h : Sorted now l) (hl : l'.Sublist l) : Sorted now l' where
  ordered := h.ordered.sublist hl
  count_lt := fun f hf => h.count_lt f (hl.subset hf)
  rep_lt := fun f hf => h.rep_lt f (hl.subset hf)

/-- **Arming keeps the order.** -/
theorem Sorted.armInsert (h : Sorted now l) (hc : f.count < 2 ^ 32) (hrep : f.rep < 2 ^ 31) :
    Sorted now (armInsert now f l) where
  ordered := by
    -- only the order is by induction on the list
    have hl := h.ordered
    clear h
    induction l with
    | nil => exact List.pairwise_singleton ..
    | cons g l ih =>
      rw [List.pairwise_cons] at hl
      rw [armInsert_cons]
      by_cases hs : sooner now f g
      · rw [if_pos hs]
        have hfg : distance now f ≤ distance now g := le_of_lt hs
        refine List.pairwise_cons.mpr ⟨fun k hk => ?_, List.pairwise_cons.mpr hl⟩
        rcases List.mem_cons.mp hk with rfl | hk
        · exact hfg
        · exact hfg.trans (hl.1 k hk)
      · rw [if_neg hs]
        refine List.pairwise_cons.mpr ⟨fun k hk => ?_, ih hl.2⟩
        rcases mem_armInsert.mp hk with rfl | hk
        · exact not_lt.mp hs
        · exact hl.1 k hk
  count_lt := by
    intro g hg
    rcases mem_armInsert.mp hg with rfl | hg
    · exact hc
    · exact h.count_lt g hg
  rep_lt := by
    intro g hg
    rcases mem_armInsert.mp hg with rfl | hg
    · exact hrep
    · exact h.rep_lt g hg

/-- Time that passes keeps the order, unless a deadline turns round. -/
theorem Sorted.tick (h : Sorted now l) (hl : ∀ f ∈ l, distance now f ≠ -2 ^ 31) :
    Sorted ((now + 1) % 2 ^ 32) l where
  ordered := h.ordered.imp_of_mem fun {f g} hf hg hfg => by
    unfold distance
    rw [timerDistanceOf_tick (hl f hf), timerDistanceOf_tick (hl g hg)]
    exact Int.sub_le_sub_right hfg 1
  count_lt := h.count_lt
  rep_lt := h.rep_lt

/-- Expiring keeps the order. -/
theorem Sorted.expire (h : Sorted now (f :: l)) (i : ℕ) : Sorted now (expire now f l i).1 := by
  unfold Asx.expire
  by_cases hrep : f.rep ≠ 0
  · rw [if_pos hrep]
    have hins := h.armInsert (f := ⟨f.reactor, (i + 1) % 2 ^ 32, (f.count + f.rep) % 2 ^ 32, f.rep, 0⟩)
      (Nat.mod_lt _ (by decide)) (h.rep_lt f (by simp))
    exact hins.sublist (List.tail_sublist _)
  · rw [if_neg hrep]
    exact h.sublist (List.sublist_cons_self f l)

theorem Sorted.ringDrain {ns : List (ℕ × ℕ)} {i i' timeNow : ℕ} (h : Sorted now l)
    (hd : ringDrain timeNow now fuel l i = some (ns, l', i')) : Sorted now l' := by
  induction fuel generalizing l ns i with
  | zero => cases hd
  | succ fuel ih =>
    rcases ringDrain_turn hd with ⟨-, rfl, -⟩ | ⟨f, l, ns, rfl, -, -, hd⟩
    · exact h
    · exact ih (h.expire i) hd

/-! ## Runs -/

/-- A call of the service, or a tick; what it returns is left out. -/
def timerCall (fuel : ℕ) (t : Timer) (op : TimerOp) : Option Timer :=
  (timerStep fuel t op).map Prod.snd

/-- **What callers see to**: a timer is for a registered reactor, its
deadline is a 32-bit number and its period below `2^31`; and no timer
stays pending until its deadline is `2^31` ticks past. -/
def Proper : Timer × TimerOp → Prop
  | (_, .arm reactor count rep _) => reactor ≠ reactorNullHandle ∧ count < 2 ^ 32 ∧ rep < 2 ^ 31
  | (t, .tick) => ∀ f ∈ t.pending, distance t.counter f ≠ -2 ^ 31
  | _ => True

instance : DecidablePred Proper
  | (_, .arm reactor count rep _) =>
    inferInstanceAs (Decidable (reactor ≠ reactorNullHandle ∧ count < 2 ^ 32 ∧ rep < 2 ^ 31))
  | (t, .tick) => inferInstanceAs (Decidable (∀ f ∈ t.pending, distance t.counter f ≠ -2 ^ 31))
  | (_, .cancel _) => .isTrue trivial
  | (_, .dispatch) => .isTrue trivial

/-- **The service in order**: the ring holds the pending timers, sorted. -/
structure InOrder (t : Timer) : Prop where
  holds : t.Holds t.pending
  counter_lt : t.counter < 2 ^ 32
  sorted : Sorted t.counter t.pending

theorem InOrder.of_holds (h : t.Holds l) (hc : t.counter < 2 ^ 32) (hs : Sorted t.counter l) :
    InOrder t := by
  obtain rfl := h.pending_eq
  exact ⟨h, hc, hs⟩

theorem timerInit_inOrder : InOrder timerInit :=
  .of_holds timerInit_holds (by decide) .nil

/-- **One call** keeps the order. -/
theorem InOrder.step {op : TimerOp} (h : InOrder t) (hp : Proper (t, op))
    (hstep : timerCall fuel t op = some t') : InOrder t' := by
  unfold timerCall timerStep at hstep
  cases op with
  | arm reactor count rep arg =>
    rw [Option.map_map] at hstep
    obtain ⟨⟨inst, t₂⟩, harm, rfl⟩ := Option.map_eq_some_iff.mp hstep
    obtain ⟨hreg, hcount, hrep⟩ := hp
    obtain ⟨-, -, hl, hc, -⟩ := timerArm_holds h.holds hreg harm
    exact .of_holds hl (hc ▸ h.counter_lt) (hc ▸ h.sorted.armInsert hcount hrep)
  | cancel inst =>
    obtain rfl := Option.some.inj hstep
    rcases h.holds.length_le.lt_or_eq with hlt | hfull
    · by_cases hin : ∃ f ∈ t.pending, f.inst = inst
      · obtain ⟨t₂, hcancel, hl, hc, -⟩ := timerCancel_eq_true h.holds hlt inst hin
        rw [hcancel]
        exact .of_holds hl (hc ▸ h.counter_lt) (hc ▸ h.sorted.sublist List.eraseP_sublist)
      · rw [timerCancel_eq_false h.holds inst fun f hf hi => hin ⟨f, hf, hi⟩]
        exact h
    · rw [timerCancel_full h.holds hfull]
      exact h
  | tick =>
    obtain rfl := Option.some.inj hstep
    exact .of_holds (timerTick_holds h.holds) (Nat.mod_lt _ (by decide)) (h.sorted.tick hp)
  | dispatch =>
    rw [Option.map_map] at hstep
    obtain ⟨r, hdispatch, rfl⟩ := Option.map_eq_some_iff.mp hstep
    obtain ⟨l', hl, hc, hdrain⟩ := timerDispatch_holds h.holds hdispatch
    exact .of_holds hl (hc ▸ h.counter_lt) (hc ▸ h.sorted.ringDrain hdrain)

/-- A run of calls that go through and are as they should be. -/
theorem exists_run_of_proper {ops : List TimerOp} {t₀ : Timer}
    (hes : runEvents (guarded (fun p => decide (Proper p)) (timerCall fuel)) ops t₀ = some t) :
    ∃ hist, Run (timerCall fuel) t₀ hist t ∧ (∀ p ∈ hist, Proper p) ∧ hist.map Prod.snd = ops := by
  obtain ⟨hist, hrun, hops⟩ := exists_run_of_runEvents hes
  obtain ⟨hrun, hp⟩ := hrun.of_guarded
  exact ⟨hist, hrun, fun p hmem => of_decide_eq_true (hp p hmem), hops⟩

/-- Time passes with nothing pending. -/
theorem run_ticks (fuel n : ℕ) : ∃ hist,
    Run (timerCall fuel) timerInit hist { timerInit with counter := n % 2 ^ 32 } ∧
      (∀ p ∈ hist, Proper p) := by
  induction n with
  | zero => exact ⟨[], .nil, by simp⟩
  | succ n ih =>
    obtain ⟨hist, hrun, hp⟩ := ih
    refine ⟨_, hrun.snoc (e := .tick) ?_, fun p hmem => ?_⟩
    · show some (timerTick _) = _
      rw [timerTick]
      simp only [Option.some.injEq, Timer.mk.injEq, true_and, and_true]
      omega
    · rcases List.mem_append.mp hmem with hmem | hmem
      · exact hp p hmem
      · rw [List.mem_singleton.mp hmem]
        intro f hf
        cases hf

/-- **In every run the list stays in order.** -/
theorem inOrder_of_run {hist : List (Timer × TimerOp)} {t₀ : Timer} (h₀ : InOrder t₀)
    (hrun : Run (timerCall fuel) t₀ hist t) (hp : ∀ p ∈ hist, Proper p) : InOrder t := by
  induction hrun with
  | nil => exact h₀
  | snoc _ hstep ih =>
    exact (ih fun p hmem => hp p (by simp [hmem])).step (hp _ (by simp)) hstep

end Asx

end CncPneumatics
