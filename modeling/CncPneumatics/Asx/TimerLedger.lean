import CncPneumatics.Asx.TimerChain
/-!
# A ledger of timer numbers

The service numbers the timers as they are armed. As long as the numbers
do not come round, a timer is only cancelled by the user that armed it: the
timer of a reactor has a number that no other pending timer has, and that
nobody else keeps to cancel.
-/

namespace CncPneumatics

namespace Asx

variable {t t' : Timer} {k R T count arg inst x fuel now c i i' : ℕ} {xs xs' : List ℕ}
  {l l' : List TimerFuture} {f g : TimerFuture} {ns : Mailroom ℕ}

/-- **The ledger**: the timers of the reactor `k` have the number `T`, and
the others keep the numbers `xs`. The timers of the reactor `R`, and no
others, repeat. -/
structure Ledger (k R T : ℕ) (xs : List ℕ) (t : Timer) : Prop where
  holds : t.Holds t.pending
  repeats : ∀ f ∈ t.pending, (f.rep ≠ 0 ↔ f.reactor = R)
  own : ∀ f ∈ t.pending, (f.inst = T ↔ f.reactor = k)
  given : ∀ f ∈ t.pending, f.inst ≤ t.currentInstance
  issued : 0 < T ∧ T ≤ t.currentInstance
  /-- Others keep numbers that they were given, or none. -/
  kept : ∀ x ∈ xs, x ≠ T ∧ (x ≤ t.currentInstance ∨ x = timerInvalidInstance)

/-! ## Numbers of a drain -/

/-- Expiring a timer numbers it again when it repeats. -/
theorem expire_numbers (hrep : f.rep ≠ 0 ↔ f.reactor = R)
    (hlt : i + (if f.reactor = R then 1 else 0) < 2 ^ 32) :
    (expire c f l i).2 = i + (if f.reactor = R then 1 else 0) ∧
      ∀ g ∈ (expire c f l i).1, g ∈ f :: l ∨
        g.reactor = R ∧ g.rep ≠ 0 ∧ i < g.inst ∧ g.inst ≤ (expire c f l i).2 := by
  unfold expire
  by_cases hR : f.reactor = R
  · rw [if_pos hR] at hlt ⊢
    rw [if_pos (hrep.mpr hR)]
    dsimp only
    rw [Nat.mod_eq_of_lt hlt]
    refine ⟨rfl, fun g hg => ?_⟩
    rcases mem_armInsert.mp (List.mem_of_mem_tail hg) with rfl | hg
    · exact .inr ⟨hR, hrep.mpr hR, Nat.lt_succ_self i, Nat.le_refl _⟩
    · exact .inl hg
  · rw [if_neg fun h => hR (hrep.mp h), if_neg hR]
    exact ⟨rfl, fun g hg => .inl (List.mem_cons_of_mem _ hg)⟩

/-- **A drain numbers the timers that repeat**, one number for each of
their notifications. -/
theorem ringDrain_numbers (hrep : ∀ f ∈ l, (f.rep ≠ 0 ↔ f.reactor = R))
    (hd : ringDrain now c fuel l i = some (ns, l', i')) (hlt : i + (waiting ns R).length < 2 ^ 32) :
    i' = i + (waiting ns R).length ∧
      ∀ g ∈ l', g ∈ l ∨ g.reactor = R ∧ g.rep ≠ 0 ∧ i < g.inst ∧ g.inst ≤ i' := by
  induction fuel generalizing l ns i with
  | zero => cases hd
  | succ fuel ih =>
    rcases ringDrain_turn hd with ⟨rfl, rfl, rfl⟩ | ⟨f, l, ns₁, rfl, rfl, -, hd⟩
    · exact ⟨rfl, fun g hg => .inl hg⟩
    · have hcons : (waiting ((f.reactor, f.arg) :: ns₁) R).length =
          (waiting ns₁ R).length + if f.reactor = R then 1 else 0 := by
        rw [waiting_cons]
        split <;> rfl
      rw [hcons] at hlt ⊢
      obtain ⟨hnext, hexpire⟩ := expire_numbers (c := c) (l := l) (hrep f (by simp))
        (by omega : i + (if f.reactor = R then 1 else 0) < 2 ^ 32)
      have hrep₁ : ∀ g ∈ (expire c f l i).1, (g.rep ≠ 0 ↔ g.reactor = R) := fun g hg =>
        (hexpire g hg).elim (hrep g) fun h => iff_of_true h.2.1 h.1
      obtain ⟨hlast, hdrain⟩ := ih hrep₁ hd (by omega)
      refine ⟨by omega, fun g hg => ?_⟩
      rcases hdrain g hg with hg | ⟨hR, hne, hgt, hle⟩
      · -- the renewal of the head has the first of the numbers
        rcases hexpire g hg with hg | ⟨hR, hne, hgt, hle⟩
        · exact .inl hg
        · exact .inr ⟨hR, hne, hgt, by omega⟩
      · exact .inr ⟨hR, hne, by omega, hle⟩

namespace Ledger

theorem tick (h : Ledger k R T xs t) : Ledger k R T xs (timerTick t) := by
  have hl := timerTick_holds h.holds
  have hpending := hl.pending_eq
  exact ⟨by rw [hpending]; exact hl, by rw [hpending]; exact h.repeats,
    by rw [hpending]; exact h.own, by rw [hpending]; exact h.given, h.issued, h.kept⟩

/-- Others forget numbers, or keep 0 for none. -/
theorem mono (h : Ledger k R T xs t) (hxs : ∀ x ∈ xs', x ∈ xs ∨ x = 0) : Ledger k R T xs' t := by
  refine { h with kept := fun x hx => ?_ }
  rcases hxs x hx with hx | rfl
  · exact h.kept x hx
  · exact ⟨h.issued.1.ne, .inl (Nat.zero_le _)⟩

/-- Timers go, and the numbers go on. -/
theorem of_subset (h : Ledger k R T xs t) (hl : t'.Holds l') (hsub : ∀ f ∈ l', f ∈ t.pending)
    (hcurrent : t'.currentInstance = t.currentInstance) : Ledger k R T xs t' := by
  have hpending := hl.pending_eq
  refine ⟨by rw [hpending]; exact hl, ?_, ?_, ?_, by rw [hcurrent]; exact h.issued,
    by rw [hcurrent]; exact h.kept⟩ <;> rw [hpending]
  · exact fun f hf => h.repeats f (hsub f hf)
  · exact fun f hf => h.own f (hsub f hf)
  · exact fun f hf => by rw [hcurrent]; exact h.given f (hsub f hf)

/-- **Another user cancels a number that it keeps**, which is not that of
a timer of the reactor. -/
theorem cancel (h : Ledger k R T xs t) (hx : x ∈ xs ∨ x = 0) :
    Ledger k R T xs (timerCancel t x).2 ∧
      timersFor k (timerCancel t x).2.pending = timersFor k t.pending ∧
      (timerCancel t x).2.currentInstance = t.currentInstance ∧
      (timerCancel t x).2.counter = t.counter := by
  rcases timerCancel_split h.holds x with
    ⟨f, l₁, l₂, hsplit, -, hf, -, hl₁, hcounter, hcurrent⟩ | ⟨hsame, -⟩
  · have hne : x ≠ T := hx.elim (fun hx => (h.kept x hx).1) fun hx => hx ▸ h.issued.1.ne
    have hk : f.reactor ≠ k := fun hk => hne (hf.symm.trans ((h.own f (by rw [hsplit]; simp)).mpr hk))
    refine ⟨h.of_subset hl₁ (fun g hg => ?_) hcurrent, ?_, hcurrent, hcounter⟩
    · rw [hsplit]
      exact ((List.sublist_cons_self f l₂).append_left l₁).subset hg
    · rw [hl₁.pending_eq, hsplit, timersFor, timersFor, List.filter_append, List.filter_append,
        List.filter_cons_of_neg (by simpa using hk)]
  · rw [hsame]
    exact ⟨h, rfl, rfl, rfl⟩

/-- **The reactor's own timer is cancelled**, where the list is not full. -/
theorem cancelOwn (h : Ledger k R T xs t) (hroom : t.pending.length < timerMaxCallback)
    (hone : (timersFor k t.pending).length ≤ 1) :
    Ledger k R T xs (timerCancel t T).2 ∧ timersFor k (timerCancel t T).2.pending = [] ∧
      (timerCancel t T).2.currentInstance = t.currentInstance ∧
      (timerCancel t T).2.counter = t.counter := by
  have hnone : timersFor k (timerCancel t T).2.pending = [] :=
    timersFor_timerCancel h.holds hroom hone fun f hf =>
      cancelled_any (fun g hg => (h.own g hg).mp) hf
        ((h.own f (mem_timersFor.mp hf).1).mpr (mem_timersFor.mp hf).2)
  rcases timerCancel_split h.holds T with
    ⟨f, l₁, l₂, hsplit, -, hf, -, hl₁, hcounter, hcurrent⟩ | ⟨hsame, -⟩
  · refine ⟨h.of_subset hl₁ (fun g hg => ?_) hcurrent, hnone, hcurrent, hcounter⟩
    rw [hsplit]
    exact ((List.sublist_cons_self f l₂).append_left l₁).subset hg
  · refine ⟨?_, hnone, ?_, ?_⟩ <;> rw [hsame]
    exact h

/-- What is armed has the next number. -/
theorem armed (h : Ledger k R T xs t) {reactor : ℕ} (hnull : reactor ≠ reactorNullHandle)
    (hlt : t.currentInstance + 1 < timerInvalidInstance)
    (harm : timerArm t reactor count 0 arg = some (inst, t')) :
    inst = t.currentInstance + 1 ∧ t'.currentInstance = t.currentInstance + 1 ∧
      t'.counter = t.counter ∧ t'.Holds t'.pending ∧
      t'.pending = armInsert t.counter ⟨reactor, t.currentInstance + 1, count, 0, arg⟩ t.pending := by
  have hmod : (t.currentInstance + 1) % 2 ^ 32 = t.currentInstance + 1 := by
    unfold timerInvalidInstance at hlt
    omega
  obtain ⟨-, hinst, hl', hcounter, hcurrent⟩ := timerArm_holds h.holds hnull harm
  rw [if_neg (by simp), hmod] at hinst
  rw [hmod] at hl' hcurrent
  exact ⟨hinst, hcurrent, hcounter, hl'.holds_pending, hl'.pending_eq⟩

/-- **Another user arms a timer**, and keeps its number. -/
theorem arm (h : Ledger k R T xs t) {reactor : ℕ} (hk : reactor ≠ k) (hR : reactor ≠ R)
    (hnull : reactor ≠ reactorNullHandle) (hlt : t.currentInstance + 1 < timerInvalidInstance)
    (harm : timerArm t reactor count 0 arg = some (inst, t')) :
    Ledger k R T (inst :: xs) t' ∧ timersFor k t'.pending = timersFor k t.pending ∧
      t'.currentInstance = t.currentInstance + 1 ∧ t'.counter = t.counter := by
  obtain ⟨hinst, hcurrent, hcounter, hl, hpending⟩ := h.armed hnull hlt harm
  have hissued := h.issued
  refine ⟨⟨hl, fun f hf => ?_, fun f hf => ?_, fun f hf => ?_, by omega, fun x hx => ?_⟩, ?_,
    hcurrent, hcounter⟩
  · rw [hpending] at hf
    rcases mem_armInsert.mp hf with rfl | hf
    · simpa using hR
    · exact h.repeats f hf
  · rw [hpending] at hf
    rcases mem_armInsert.mp hf with rfl | hf
    · exact iff_of_false (by dsimp only; omega) hk
    · exact h.own f hf
  · rw [hpending] at hf
    rcases mem_armInsert.mp hf with rfl | hf
    · rw [hcurrent]
    · have := h.given f hf
      omega
  · rcases List.mem_cons.mp hx with rfl | hx
    · omega
    · have := h.kept x hx
      omega
  · rw [hpending]
    exact filter_armInsert_of_not (by simpa using hk)

/-- **The reactor arms its timer** when it has none. -/
theorem armOwn (h : Ledger k R T xs t) (hR : k ≠ R) (hnull : k ≠ reactorNullHandle)
    (hnone : timersFor k t.pending = []) (hlt : t.currentInstance + 1 < timerInvalidInstance)
    (harm : timerArm t k count 0 arg = some (inst, t')) :
    Ledger k R inst xs t' ∧ (∃ f, timersFor k t'.pending = [f] ∧ f.count = count) ∧
      t'.currentInstance = t.currentInstance + 1 ∧ t'.counter = t.counter := by
  obtain ⟨hinst, hcurrent, hcounter, hl, hpending⟩ := h.armed hnull hlt harm
  -- its number is the newest, and no other timer is of this reactor
  have hothers : ∀ f ∈ t.pending, f.reactor ≠ k := fun f hf hk => by
    have hmem : f ∈ timersFor k t.pending := mem_timersFor.mpr ⟨hf, hk⟩
    rw [hnone] at hmem
    cases hmem
  refine ⟨⟨hl, fun f hf => ?_, fun f hf => ?_, fun f hf => ?_, by omega, fun x hx => ?_⟩,
    ⟨⟨k, t.currentInstance + 1, count, 0, arg⟩, ?_, rfl⟩, hcurrent, hcounter⟩
  · rw [hpending] at hf
    rcases mem_armInsert.mp hf with rfl | hf
    · simpa using hR
    · exact h.repeats f hf
  · rw [hpending] at hf
    rcases mem_armInsert.mp hf with rfl | hf
    · exact iff_of_true hinst.symm rfl
    · have := h.given f hf
      exact iff_of_false (by omega) (hothers f hf)
  · rw [hpending] at hf
    rcases mem_armInsert.mp hf with rfl | hf
    · rw [hcurrent]
    · have := h.given f hf
      omega
  · have := h.kept x hx
    omega
  · rw [hpending]
    exact filter_armInsert_of_nil (by simp) hnone

/-- **A dispatch** numbers the timers that repeat. -/
theorem dispatch (h : Ledger k R T xs t) (hR : k ≠ R) {r : List (ℕ × ℕ) × Timer}
    (hr : timerDispatch fuel t = some r)
    (hlt : t.currentInstance + (waiting r.1 R).length < timerInvalidInstance) :
    Ledger k R T xs r.2 ∧
      r.2.currentInstance = t.currentInstance + (waiting r.1 R).length ∧
      ∃ fired, timersFor k t.pending = fired ++ timersFor k r.2.pending ∧
        waiting r.1 k = fired.map TimerFuture.arg := by
  obtain ⟨l', hl', -, hd⟩ := timerDispatch_holds h.holds hr
  -- a timer that repeats is of the other reactor
  have honce : ∀ f ∈ t.pending, f.reactor = k → f.rep = 0 := fun f hf hk => by
    by_contra hrep
    exact hR (hk.symm.trans ((h.repeats f hf).mp hrep))
  obtain ⟨fired, hsplit, -, hwait⟩ := ringDrain_of_reactor honce hd
  obtain ⟨hcurrent, hnumbers⟩ := ringDrain_numbers h.repeats hd (by
    unfold timerInvalidInstance at hlt
    omega)
  have hissued := h.issued
  have hpending := hl'.pending_eq
  refine ⟨⟨by rw [hpending]; exact hl', ?_, ?_, ?_, by omega, fun x hx => ?_⟩, hcurrent, fired,
    by rw [hpending]; exact hsplit, hwait⟩
  · rw [hpending]
    exact fun f hf => (hnumbers f hf).elim (h.repeats f) fun hnew => iff_of_true hnew.2.1 hnew.1
  · rw [hpending]
    refine fun f hf => (hnumbers f hf).elim (h.own f) fun hnew => ?_
    exact iff_of_false (by omega) fun hk => hR (hk.symm.trans hnew.1)
  · rw [hpending]
    refine fun f hf => (hnumbers f hf).elim (fun hf => ?_) fun hnew => hnew.2.2.2
    have := h.given f hf
    omega
  · have := h.kept x hx
    omega

end Ledger

/-! ## What other users do -/

/-- What the service keeps. -/
structure Numbered (t : Timer) : Prop where
  holds : t.Holds t.pending
  current_lt : t.currentInstance < 2 ^ 32

/-- Cancelling a timer, whatever number. -/
theorem Numbered.cancel (ht : Numbered t) (x : ℕ) :
    Numbered (timerCancel t x).2 ∧ (timerCancel t x).2.currentInstance = t.currentInstance := by
  rcases timerCancel_split ht.holds x with
    ⟨_, l₁, l₂, -, -, -, -, hl₁, -, hcurrent⟩ | ⟨hsame, -⟩
  · exact ⟨⟨hl₁.holds_pending, hcurrent ▸ ht.current_lt⟩, hcurrent⟩
  · rw [hsame]
    exact ⟨ht, rfl⟩

/-- Arming a timer, whatever for. -/
theorem Numbered.arm (ht : Numbered t) {reactor : ℕ} (hnull : reactor ≠ reactorNullHandle)
    (harm : timerArm t reactor count 0 arg = some (inst, t')) :
    Numbered t' ∧ t'.currentInstance = (t.currentInstance + 1) % 2 ^ 32 := by
  obtain ⟨-, -, hl', -, hcurrent⟩ := timerArm_holds ht.holds hnull harm
  exact ⟨⟨hl'.holds_pending, by omega⟩, hcurrent⟩

/-- **Other users** cancel numbers they keep and arm at most `n` timers:
as long as the numbers do not come round the timer of the reactor `k` is
left alone. -/
def Others (k R n : ℕ) (xs xs' : List ℕ) (t t' : Timer) : Prop :=
  Numbered t → Numbered t' ∧ ∃ m ≤ n, t'.currentInstance = (t.currentInstance + m) % 2 ^ 32 ∧
    (t.currentInstance + m < timerInvalidInstance → ∀ T, Ledger k R T xs t →
      Ledger k R T xs' t' ∧ timersFor k t'.pending = timersFor k t.pending ∧ t'.counter = t.counter)

namespace Others

variable {n m : ℕ} {xs'' : List ℕ} {t'' : Timer}

theorem refl (hxs : ∀ x ∈ xs', x ∈ xs ∨ x = 0) (t : Timer) : Others k R 0 xs xs' t t := fun h =>
  ⟨h, 0, Nat.le_refl _, (Nat.mod_eq_of_lt h.current_lt).symm, fun _ _ hledger =>
    ⟨hledger.mono hxs, rfl, rfl⟩⟩

theorem trans (h : Others k R n xs xs' t t') (h' : Others k R m xs' xs'' t' t'') :
    Others k R (n + m) xs xs'' t t'' := by
  intro ht
  obtain ⟨ht', a, ha, hcurrent, hkeeps⟩ := h ht
  obtain ⟨ht'', b, hb, hcurrent', hkeeps'⟩ := h' ht'
  refine ⟨ht'', a + b, by omega, by omega, fun hlt T hledger => ?_⟩
  have hlt₁ : t.currentInstance + a < 2 ^ 32 := by
    unfold timerInvalidInstance at hlt
    omega
  rw [Nat.mod_eq_of_lt hlt₁] at hcurrent
  obtain ⟨hledger', hsame, hcounter⟩ := hkeeps (by omega) T hledger
  obtain ⟨hledger'', hsame', hcounter'⟩ := hkeeps' (by omega) T hledger'
  exact ⟨hledger'', hsame'.trans hsame, hcounter'.trans hcounter⟩

theorem mono (h : Others k R n xs xs' t t') (hn : n ≤ m) (hxs : ∀ x ∈ xs'', x ∈ xs' ∨ x = 0) :
    Others k R m xs xs'' t t' := by
  intro ht
  obtain ⟨ht', a, ha, hcurrent, hkeeps⟩ := h ht
  refine ⟨ht', a, by omega, hcurrent, fun hlt T hledger => ?_⟩
  obtain ⟨hledger', hsame⟩ := hkeeps hlt T hledger
  exact ⟨hledger'.mono hxs, hsame⟩

theorem cancel (hx : x ∈ xs ∨ x = 0) : Others k R 0 xs xs t (timerCancel t x).2 := by
  intro ht
  obtain ⟨ht', hcurrent⟩ := ht.cancel x
  refine ⟨ht', 0, Nat.le_refl _, ?_, fun _ T hledger => ?_⟩
  · rw [hcurrent, Nat.add_zero, Nat.mod_eq_of_lt ht.current_lt]
  · obtain ⟨hledger', hsame, -, hcounter⟩ := hledger.cancel hx
    exact ⟨hledger', hsame, hcounter⟩

end Others

theorem Others.arm {reactor : ℕ} (hk : reactor ≠ k) (hR : reactor ≠ R)
    (hnull : reactor ≠ reactorNullHandle)
    (harm : timerArm t reactor count 0 arg = some (inst, t')) :
    Others k R 1 xs (inst :: xs) t t' := by
  intro ht
  obtain ⟨ht', hcurrent⟩ := ht.arm hnull harm
  refine ⟨ht', 1, Nat.le_refl _, hcurrent, fun hlt T hledger => ?_⟩
  obtain ⟨hledger', hsame, -, hcounter⟩ := hledger.arm hk hR hnull hlt harm
  exact ⟨hledger', hsame, hcounter⟩

end Asx

end CncPneumatics
