import CncPneumatics.Asx.TimerRing
import CncPneumatics.Common.Mailbox
/-!
# What is pending

The timers of one reactor among all that are pending, through arming,
cancelling and dispatching, with no bound on the time or on the number of
timers armed. Other callers of the service can take them away, and once
the list is full nothing in it changes any more.
-/

namespace CncPneumatics

namespace Asx

variable {t t' t'' : Timer} {l l' : List TimerFuture} {f g : TimerFuture}
  {A B P : TimerFuture → Prop} {q : TimerFuture → Bool} {now c i k fuel : ℕ}

/-! ## Arming -/

/-- **What arming does**, where there is room for the timer. -/
theorem timerArm_holds (h : t.Holds l) {reactor count rep arg inst : ℕ}
    (hnull : reactor ≠ reactorNullHandle)
    (harm : timerArm t reactor count rep arg = some (inst, t')) :
    l.length < timerMaxCallback ∧
      inst = (if rep ≠ 0 then timerInvalidInstance else (t.currentInstance + 1) % 2 ^ 32) ∧
      t'.Holds (armInsert t.counter ⟨reactor, (t.currentInstance + 1) % 2 ^ 32, count, rep, arg⟩ l) ∧
      t'.counter = t.counter ∧ t'.currentInstance = (t.currentInstance + 1) % 2 ^ 32 := by
  rcases h.length_le.lt_or_eq with hlt | hfull
  · obtain ⟨t₁, harm₁, hl₁, -, hcounter, hcurrent⟩ := timerArm_eq_some h hlt hnull count rep arg
    rw [harm, Option.some.injEq, Prod.mk.injEq] at harm₁
    obtain ⟨hinst, rfl⟩ := harm₁
    exact ⟨hlt, hinst, hl₁, hcounter, hcurrent⟩
  · rw [timerArm_eq_none h hfull] at harm
    cases harm

theorem armInsert_cons : armInsert now f (g :: l) =
    if sooner now f g then f :: g :: l else g :: armInsert now f l := rfl

/-- Arming a timer of another kind. -/
theorem filter_armInsert_of_not (hq : q f = false) :
    (armInsert now f l).filter q = l.filter q := by
  induction l with
  | nil => exact List.filter_cons_of_neg (by simp [hq])
  | cons g l ih =>
    rw [armInsert_cons]
    by_cases hs : sooner now f g
    · rw [if_pos hs, List.filter_cons_of_neg (by simp [hq])]
    · rw [if_neg hs]
      by_cases hg : q g = true
      · rw [List.filter_cons_of_pos hg, List.filter_cons_of_pos hg, ih]
      · rw [List.filter_cons_of_neg hg, List.filter_cons_of_neg hg, ih]

/-- Arming the first timer of a kind. -/
theorem filter_armInsert_of_nil (hq : q f = true) (hl : l.filter q = []) :
    (armInsert now f l).filter q = [f] := by
  induction l with
  | nil => exact List.filter_cons_of_pos hq
  | cons g l ih =>
    have hg : ¬ q g = true := fun hg => by rw [List.filter_cons_of_pos hg] at hl; cases hl
    rw [List.filter_cons_of_neg hg] at hl
    rw [armInsert_cons]
    by_cases hs : sooner now f g
    · rw [if_pos hs, List.filter_cons_of_pos hq, List.filter_cons_of_neg hg, hl]
    · rw [if_neg hs, List.filter_cons_of_neg hg, ih hl]

/-! ## Cancelling -/

/-- **Cancelling takes the first timer with the number**, where there is
one and the list is not full, and does nothing otherwise. -/
theorem timerCancel_split (h : t.Holds l) (inst : ℕ) :
    (∃ f l₁ l₂, l = l₁ ++ f :: l₂ ∧ (∀ g ∈ l₁, g.inst ≠ inst) ∧ f.inst = inst ∧
      l.length < timerMaxCallback ∧ (timerCancel t inst).2.Holds (l₁ ++ l₂) ∧
      (timerCancel t inst).2.counter = t.counter ∧
      (timerCancel t inst).2.currentInstance = t.currentInstance) ∨
    (timerCancel t inst).2 = t ∧ (l.length = timerMaxCallback ∨ ∀ f ∈ l, f.inst ≠ inst) := by
  rcases h.length_le.lt_or_eq with hlt | hfull
  · by_cases hex : ∃ f ∈ l, f.inst = inst
    · obtain ⟨t₁, hcancel, hl₁, hcounter, hcurrent⟩ := timerCancel_eq_true h hlt inst hex
      obtain ⟨f, l₁, l₂, hbefore, hf, hsplit, herase⟩ := List.exists_of_eraseP
        (p := fun f => decide (f.inst = inst)) hex.choose_spec.1 (by simpa using hex.choose_spec.2)
      rw [herase] at hl₁
      rw [hcancel]
      exact .inl ⟨f, l₁, l₂, hsplit, by simpa using hbefore, by simpa using hf, hlt, hl₁, hcounter,
        hcurrent⟩
    · have hnone : ∀ f ∈ l, f.inst ≠ inst := fun f hf hinst => hex ⟨f, hf, hinst⟩
      exact .inr ⟨by rw [timerCancel_eq_false h inst hnone], .inr hnone⟩
  · exact .inr ⟨by rw [timerCancel_full h hfull inst], .inl hfull⟩

/-! ## Dispatching -/

theorem mem_expire (hg : g ∈ (expire c f l i).1) :
    g = f ∨ g ∈ l ∨ f.rep ≠ 0 ∧ ∃ j d, g = ⟨f.reactor, j, d, f.rep, 0⟩ := by
  unfold expire at hg
  by_cases hrep : f.rep ≠ 0
  · rw [if_pos hrep] at hg
    rcases mem_armInsert.mp (List.mem_of_mem_tail hg) with rfl | hg
    · exact .inr (.inr ⟨hrep, _, _, rfl⟩)
    · rcases List.mem_cons.mp hg with rfl | hg
      · exact .inl rfl
      · exact .inr (.inl hg)
  · rw [if_neg hrep] at hg
    exact .inr (.inl hg)

/-- The renewal of a timer of another reactor. -/
theorem filter_expire (hf : f.rep ≠ 0 → f.reactor ≠ k) :
    ((expire c f l i).1.filter fun g => g.reactor = k) = l.filter fun g => g.reactor = k := by
  unfold expire
  by_cases hrep : f.rep ≠ 0
  · have hne := hf hrep
    rw [if_pos hrep, armInsert_cons]
    dsimp only
    split
    · rw [List.tail_cons, List.filter_cons_of_neg (by simpa using hne)]
    · rw [List.tail_cons, filter_armInsert_of_not (by simpa using hne)]
  · rw [if_neg hrep]

/-- **A turn of the dispatch loop**: it ends with what is left, or the head
is due and expires. -/
theorem ringDrain_turn {ns : Mailroom ℕ} {i' : ℕ}
    (hd : ringDrain now c (fuel + 1) l i = some (ns, l', i')) :
    (ns = [] ∧ l' = l ∧ i' = i) ∨
      ∃ f rest ns', l = f :: rest ∧ ns = (f.reactor, f.arg) :: ns' ∧ f.count ≤ now ∧
        ringDrain now c fuel (expire c f rest i).1 (expire c f rest i).2 = some (ns', l', i') := by
  have hstop : some ([], l, i) = some (ns, l', i') → ns = [] ∧ l' = l ∧ i' = i := by
    intro h
    simp only [Option.some.injEq, Prod.mk.injEq] at h
    exact ⟨h.1.symm, h.2.1.symm, h.2.2.symm⟩
  cases l with
  | nil => exact .inl (hstop hd)
  | cons f rest =>
    rw [ringDrain] at hd
    -- the loop ends at a full ring, which it takes for an empty one, and at a head not due
    split_ifs at hd with hfull hdue
    · exact .inl (hstop hd)
    · obtain ⟨⟨ns', l₁, i₁⟩, hrest, heq⟩ := Option.map_eq_some_iff.mp hd
      simp only [Prod.mk.injEq] at heq
      obtain ⟨rfl, rfl, rfl⟩ := heq
      exact .inr ⟨f, rest, ns', rfl, rfl, hdue, hrest⟩
    · exact .inl (hstop hd)

/-- **What a dispatch does with the timers of one reactor**, none of them
repeating: it notifies of those at the front, all of them due, and keeps
the rest. -/
theorem ringDrain_of_reactor {ns : Mailroom ℕ} {i' : ℕ}
    (hrep : ∀ f ∈ l, f.reactor = k → f.rep = 0)
    (hd : ringDrain now c fuel l i = some (ns, l', i')) :
    ∃ fired, (l.filter fun f => f.reactor = k) = fired ++ l'.filter (fun f => f.reactor = k) ∧
      (∀ f ∈ fired, f.count ≤ now) ∧ waiting ns k = fired.map TimerFuture.arg := by
  induction fuel generalizing l ns i with
  | zero => cases hd
  | succ fuel ih =>
    rcases ringDrain_turn hd with ⟨rfl, rfl, -⟩ | ⟨f, l, ns, rfl, rfl, hdue, hd⟩
    · exact ⟨[], rfl, by simp, rfl⟩
    · -- a timer that is renewed is none of this reactor
      have hf : f.rep ≠ 0 → f.reactor ≠ k := fun h hk => h (hrep f (by simp) hk)
      obtain ⟨fired, hsplit, hcount, hwait⟩ := ih (fun g hg hk => by
        rcases mem_expire hg with rfl | hg | ⟨hne, j, d, rfl⟩
        · exact hrep _ (by simp) hk
        · exact hrep g (by simp [hg]) hk
        · exact absurd hk (hf hne)) hd
      rw [filter_expire hf] at hsplit
      by_cases hk : f.reactor = k
      · refine ⟨f :: fired, ?_, ?_, ?_⟩
        · rw [List.filter_cons_of_pos (by simpa using hk), hsplit]; rfl
        · intro g hg
          rcases List.mem_cons.mp hg with rfl | hg
          · exact hdue
          · exact hcount g hg
        · rw [waiting_cons, if_pos hk, hwait]; rfl
      · refine ⟨fired, ?_, hcount, ?_⟩
        · rw [List.filter_cons_of_neg (by simpa using hk), hsplit]
        · rw [waiting_cons, if_neg hk, hwait]

/-- A property of every pending timer that renewing keeps. -/
theorem ringDrain_forall {ns : Mailroom ℕ} {i' : ℕ}
    (hrenew : ∀ f, P f → f.rep ≠ 0 → ∀ j d, P ⟨f.reactor, j, d, f.rep, 0⟩) (hl : ∀ f ∈ l, P f)
    (hd : ringDrain now c fuel l i = some (ns, l', i')) :
    (∀ n ∈ ns, ∃ f, P f ∧ n = (f.reactor, f.arg)) ∧ ∀ f ∈ l', P f := by
  induction fuel generalizing l ns i with
  | zero => cases hd
  | succ fuel ih =>
    rcases ringDrain_turn hd with ⟨rfl, rfl, -⟩ | ⟨f, l, ns, rfl, rfl, -, hd⟩
    · exact ⟨by simp, hl⟩
    · have hPf := hl f (by simp)
      obtain ⟨hns, hl'⟩ := ih (fun g hg => by
        rcases mem_expire hg with rfl | hg | ⟨hne, j, d, rfl⟩
        · exact hPf
        · exact hl g (by simp [hg])
        · exact hrenew f hPf hne j d) hd
      refine ⟨fun n hn => ?_, hl'⟩
      rcases List.mem_cons.mp hn with rfl | hn
      · exact ⟨f, hPf, rfl⟩
      · exact hns n hn

/-- **Nothing expires in a full list.** -/
theorem timerDispatch_full (h : t.Holds l) (hl : l.length = timerMaxCallback)
    {r : List (ℕ × ℕ) × Timer} (hr : timerDispatch fuel t = some r) : r = ([], t) := by
  cases fuel with
  | zero => cases hr
  | succ fuel =>
    rw [timerDispatch, timerDispatchLoop, if_pos (h.active_eq_avail_iff.mpr (.inr hl))] at hr
    exact (Option.some.inj hr).symm

/-- A dispatch that ends drains what is pending. -/
theorem timerDispatch_holds (h : t.Holds l) {r : List (ℕ × ℕ) × Timer}
    (hr : timerDispatch fuel t = some r) :
    ∃ l', r.2.Holds l' ∧ r.2.counter = t.counter ∧
      ringDrain t.counter t.counter fuel l t.currentInstance = some (r.1, l', r.2.currentInstance) := by
  rcases timerDispatchLoop_eq t.counter fuel t l h with ⟨hloop, -⟩ | ⟨ns, t', l', hloop, hd, hl, hc⟩
  · rw [timerDispatch, hloop] at hr; cases hr
  · rw [timerDispatch, hloop, Option.some.injEq] at hr
    subst hr
    exact ⟨l', hl, hc, hd⟩

/-! ## Serving others -/

/-- **What others can do to the pending timers**, when they arm timers of
the kind `A` and cancel any: the timers of other kinds that are left were
there before, in this order, and a full list stays as it is. -/
def Timer.Served (A : TimerFuture → Prop) (t t' : Timer) : Prop :=
  ∀ l, t.Holds l → t'.counter = t.counter ∧ ∃ l', t'.Holds l' ∧
    (l.length = timerMaxCallback → l' = l) ∧
    ∀ q : TimerFuture → Bool, (∀ f, A f → q f = false) → (l'.filter q).Sublist (l.filter q)

namespace Timer.Served

theorem refl (A : TimerFuture → Prop) (t : Timer) : Timer.Served A t t :=
  fun l h => ⟨rfl, l, h, fun _ => rfl, fun _ _ => List.Sublist.refl _⟩

theorem trans (h : Timer.Served A t t') (h' : Timer.Served A t' t'') : Timer.Served A t t'' := by
  intro l hl
  obtain ⟨hc, l', hl', hfull, hq⟩ := h l hl
  obtain ⟨hc', l'', hl'', hfull', hq'⟩ := h' l' hl'
  refine ⟨hc'.trans hc, l'', hl'', fun hlen => ?_, fun q hA => (hq' q hA).trans (hq q hA)⟩
  obtain rfl := hfull hlen
  exact hfull' hlen

theorem mono (h : Timer.Served A t t') (hAB : ∀ f, A f → B f) : Timer.Served B t t' := by
  intro l hl
  obtain ⟨hc, l', hl', hfull, hq⟩ := h l hl
  exact ⟨hc, l', hl', hfull, fun q hB => hq q fun f hf => hB f (hAB f hf)⟩

/-- Arming a timer of the kind. -/
theorem arm {reactor count rep arg inst : ℕ}
    (harm : timerArm t reactor count rep arg = some (inst, t')) (hr : reactor ≠ reactorNullHandle)
    (hA : ∀ j, A ⟨reactor, j, count, rep, arg⟩) : Timer.Served A t t' := by
  intro l hl
  obtain ⟨hlt, -, hl', hc, -⟩ := timerArm_holds hl hr harm
  refine ⟨hc, _, hl', fun hlen => absurd hlen hlt.ne, fun q hq => ?_⟩
  rw [filter_armInsert_of_not (hq _ (hA _))]

/-- Cancelling any timer. -/
theorem cancel (inst : ℕ) : Timer.Served A t (timerCancel t inst).2 := by
  intro l hl
  rcases timerCancel_split hl inst with
    ⟨f, l₁, l₂, rfl, -, -, hlt, hl₁, hcounter, -⟩ | ⟨hsame, -⟩
  · refine ⟨hcounter, _, hl₁, fun hlen => absurd hlen hlt.ne, fun q _ => ?_⟩
    exact List.Sublist.filter q ((List.sublist_cons_self f l₂).append_left l₁)
  · rw [hsame]
    exact refl A t l hl

/-- A timer that is pending was, or is of the kind. -/
theorem mem (h : Timer.Served A t t') (hl : t.Holds l) :
    ∃ l', t'.Holds l' ∧ ∀ f ∈ l', f ∈ l ∨ A f := by
  classical
  obtain ⟨-, l', hl', -, hq⟩ := h l hl
  refine ⟨l', hl', fun f hf => ?_⟩
  by_cases hA : A f
  · exact .inr hA
  · have hmem : f ∈ l'.filter fun g => decide (¬ A g) :=
      List.mem_filter.mpr ⟨hf, by simpa using hA⟩
    have := (hq (fun g => decide (¬ A g)) fun g hg => by simpa using hg).subset hmem
    exact .inl (List.mem_filter.mp this).1

end Timer.Served

end Asx

end CncPneumatics
