import CncPneumatics.Asx.OnReactor
import CncPneumatics.Common.History
/-!
# The most urgent handler

A handler of a higher priority than all others has the first bit. Once a
message waits for it, the reactor calls at most one other handler before
it: the one whose flag was read already.
-/

namespace CncPneumatics

namespace Asx

variable {σ ι κ α : Type*} {w : ℕ} [Inhabited α] {r r' r₀ : Reactor w α} {top : ℕ}
  {hist : List (Reactor w α × ReactorEvent α)}

/-- The handler has a higher priority than all others. -/
def Reactor.Top (r : Reactor w α) (top : ℕ) : Prop :=
  top < r.nextHandle ∧
    ∀ h < r.nextHandle, h ≠ top → (r.handler h).priority < (r.handler top).priority

omit [Inhabited α] in
theorem Reactor.Top.of_same (h : r.Top top) (hsame : r.SameTables r') : r'.Top top := by
  obtain ⟨hlt, hhigher⟩ := h
  refine ⟨hsame.nextHandle ▸ hlt, fun k hk hne => ?_⟩
  rw [hsame.priority, hsame.priority]
  exact hhigher k (hsame.nextHandle ▸ hk) hne

omit [Inhabited α] in
/-- It has the first bit. -/
theorem Reactor.Sorted.lookup_top (hs : r.Sorted) (htop : r.Top top) : r.lookup 0 = top := by
  obtain ⟨hlt, hhigher⟩ := htop
  obtain ⟨i, hi, rfl⟩ := hs.lookup_surj top hlt
  by_contra hne
  have hfalls := hs.falling 0 i (Nat.zero_le i) hi
  have hless := hhigher _ (hs.lookup_lt 0 (by omega)) hne
  omega

/-- The calls of a run, in their order. -/
def reactorCalls (hist : List (Reactor w α × ReactorEvent α)) : List (ℕ × α) :=
  hist.filterMap fun p => reactorDelivery p.1 p.2

theorem reactorDelivery_of_ne {e : ReactorEvent α} (he : e ≠ .dispatch) :
    reactorDelivery r e = none := by
  unfold reactorDelivery
  split
  · exact absurd rfl he
  · rfl

theorem reactorCalls_concat {e : ReactorEvent α} :
    reactorCalls (hist ++ [(r, e)]) = reactorCalls hist ++ (reactorDelivery r e).toList :=
  filterMap_concat

theorem reactorCalls_skip {e : ReactorEvent α} (he : e ≠ .dispatch) :
    reactorCalls (hist ++ [(r, e)]) = reactorCalls hist := by
  rw [reactorCalls_concat, reactorDelivery_of_ne he, Option.toList_none, List.append_nil]

/-- Before it is called: it still has a message, and nothing was called, or
one handler, since which its flag is among those that were read. -/
structure Reactor.Before (top : ℕ) (hist : List (Reactor w α × ReactorEvent α)) (r : Reactor w α) :
    Prop where
  waits : r.contents top ≠ []
  called : reactorCalls hist = [] ∨ (reactorCalls hist).length = 1 ∧
    ∀ flags, r.pc = .flagged flags → flags.getLsbD 0 = true

/-- The step lemma. -/
theorem Reactor.Before.step (h : Reactor.Before top hist r) (hr : r.Inv) (htop : r.Top top)
    {e : ReactorEvent α} (hstep : reactorStep r e = some r')
    (hnot : ∀ data, reactorDelivery r e ≠ some (top, data)) :
    Reactor.Before top (hist ++ [(r, e)]) r' := by
  have hfirst := hr.sorted.lookup_top htop
  obtain ⟨-, -, heff⟩ := reactorStep_spec hr hstep
  cases heff with
  | @notify handle data _ _ hpc hcontents =>
    refine ⟨?_, ?_⟩
    · rw [hcontents]
      split_ifs with heq
      · exact post_ne_nil
      · exact h.waits
    · rw [reactorCalls_skip (by simp), hpc]
      exact h.called
  | sleep => exact ⟨h.waits, by rw [reactorCalls_skip (by simp)]; exact h.called⟩
  | read hpc hcontents =>
    refine ⟨by rw [hcontents]; exact h.waits, ?_⟩
    rw [reactorCalls_skip (by simp)]
    refine h.called.imp_right fun hone => ⟨hone.1, fun flags hflags => ?_⟩
    -- its own flag is the first
    rw [hpc, ReactorPc.flagged.injEq] at hflags
    rw [← hflags]
    exact (hr.flagged.bit_iff 0 (by have := htop.1; omega)).mpr (hfirst ▸ h.waits)
  | @call flags i data rest _ hflagged _ _ hlow _ hpc hcontents =>
    have hdelivery : reactorDelivery r .dispatch = some (r.lookup i, data) := by
      unfold reactorDelivery
      rw [hstep]
      dsimp only
      rw [hpc]
    have hother : r.lookup i ≠ top := fun heq => hnot data (by rw [hdelivery, heq])
    have hpos : 0 < i := Nat.pos_of_ne_zero fun hzero => hother (by rw [hzero, hfirst])
    refine ⟨by rw [hcontents, if_neg (Ne.symm hother)]; exact h.waits, .inr ?_⟩
    rw [reactorCalls_concat, hdelivery, Option.toList_some]
    rcases h.called with hnil | ⟨-, hread⟩
    · exact ⟨by rw [hnil]; rfl, fun flags hflags => by rw [hpc] at hflags; cases hflags⟩
    · -- its flag was read, and would have been found first
      have hset := hread flags hflagged
      rw [hlow 0 hpos] at hset
      cases hset
  | handled hpc hcontents =>
    refine ⟨by rw [hcontents]; exact h.waits, ?_⟩
    rw [reactorCalls_skip (by simp)]
    refine h.called.imp_right fun hone => ⟨hone.1, fun flags hflags => ?_⟩
    rw [hpc] at hflags
    cases hflags

/-- **At most one other handler is called** before the most urgent one,
from when something waits for it. -/
theorem Reactor.Inv.calls_before_top (hr : r₀.Inv) (htop : r₀.Top top) (hwaits : r₀.contents top ≠ [])
    (hrun : Run reactorStep r₀ hist r) (hnone : ∀ data, (top, data) ∉ reactorCalls hist) :
    (reactorCalls hist).length ≤ 1 := by
  have hbefore : (∀ data, (top, data) ∉ reactorCalls hist) → Reactor.Before top hist r := by
    refine hrun.invariant_history (I := fun hist r =>
      (∀ data, (top, data) ∉ reactorCalls hist) → Reactor.Before top hist r)
      (fun _ => ⟨hwaits, .inl rfl⟩) ?_
    intro hist s e s' hrun ih hstep hnone
    obtain ⟨hs, hsame⟩ := hr.run hrun
    rw [reactorCalls_concat] at hnone
    refine (ih fun data hmem => hnone data (by simp [hmem])).step hs (htop.of_same hsame) hstep ?_
    exact fun data hd => hnone data (by simp [hd])
  rcases (hbefore hnone).called with hnil | ⟨hone, -⟩
  · rw [hnil]
    exact Nat.zero_le 1
  · exact hone.le

/-! ## With a client -/

namespace OnReactor

variable {c : Client σ ι κ α} {caps : ℕ → ℕ} {s s' s₀ : OnReactor σ w α}
  {hist : List (OnReactor σ w α × OnReactorEvent ι κ)}

/-- The handler that a step calls. -/
def calls (p : OnReactor σ w α × OnReactorEvent ι κ) : Option (ℕ × α) :=
  match p.2 with
  | .dispatch _ => reactorDelivery p.1.reactor .dispatch
  | _ => none

/-- Notifications call nobody. -/
theorem exists_run_of_notifyAll {ns : Mailroom α} (h : notifyAll r ns = some r') :
    ∃ h, Run reactorStep r h r' ∧ reactorCalls h = [] := by
  obtain ⟨hist, hrun, hevents⟩ := exists_run_of_runEvents h
  refine ⟨hist, hrun, List.filterMap_eq_nil_iff.mpr fun p hp => reactorDelivery_of_ne fun hd => ?_⟩
  have hmem : p.2 ∈ hist.map Prod.snd := List.mem_map_of_mem hp
  rw [hevents, hd] at hmem
  simp at hmem

/-- A step of the reactor alone. -/
theorem exists_run_of_reactorStep {e : ReactorEvent α} (h : reactorStep r e = some r') :
    ∃ h, Run reactorStep r h r' ∧ reactorCalls h = (reactorDelivery r e).toList := by
  refine ⟨[] ++ [(r, e)], Run.nil.snoc h, ?_⟩
  rw [reactorCalls_concat]
  rfl

/-- **The reactor runs as it does**, whatever it serves. -/
theorem exists_reactor_steps {e : OnReactorEvent ι κ} (hstep : s.step c e = some s') :
    ∃ h, Run reactorStep s.reactor h s'.reactor ∧ reactorCalls h = (calls (s, e)).toList := by
  cases e with
  | interrupt i =>
    simp only [OnReactor.step] at hstep
    split_ifs at hstep
    obtain ⟨_, -, hstep⟩ := Option.bind_eq_some_iff.mp hstep
    obtain ⟨reactor, hnotify, rfl⟩ := Option.map_eq_some_iff.mp hstep
    exact exists_run_of_notifyAll hnotify
  | loop =>
    obtain ⟨reactor, hreactor, rfl⟩ := Option.map_eq_some_iff.mp hstep
    obtain ⟨h, hrun, hcalls⟩ := exists_run_of_reactorStep hreactor
    exact ⟨h, hrun, by rw [hcalls, reactorDelivery_of_ne (by simp)]; rfl⟩
  | dispatch around =>
    obtain ⟨reactor, hreactor, hcalled⟩ := Option.bind_eq_some_iff.mp hstep
    have hsame : s'.reactor = reactor := by
      unfold called at hcalled
      split at hcalled
      · obtain ⟨_, -, rfl⟩ := Option.map_eq_some_iff.mp hcalled
        rfl
      · obtain rfl := Option.some.inj hcalled
        rfl
    rw [hsame]
    exact exists_run_of_reactorStep hreactor
  | notify =>
    simp only [OnReactor.step] at hstep
    split at hstep
    · cases hstep
    · obtain ⟨reactor, hreactor, rfl⟩ := Option.map_eq_some_iff.mp hstep
      obtain ⟨h, hrun, hcalls⟩ := exists_run_of_reactorStep hreactor
      exact ⟨h, hrun, by rw [hcalls, reactorDelivery_of_ne (by simp)]; rfl⟩
  | handled =>
    simp only [OnReactor.step] at hstep
    split_ifs at hstep
    obtain ⟨reactor, hreactor, rfl⟩ := Option.map_eq_some_iff.mp hstep
    obtain ⟨h, hrun, hcalls⟩ := exists_run_of_reactorStep hreactor
    exact ⟨h, hrun, by rw [hcalls, reactorDelivery_of_ne (by simp)]; rfl⟩

/-- A run of it, with the same calls. -/
theorem exists_reactor_run (hr : Run (OnReactor.step c) s₀ hist s) :
    ∃ h, Run reactorStep s₀.reactor h s.reactor ∧ reactorCalls h = hist.filterMap calls := by
  induction hr with
  | nil => exact ⟨[], .nil, rfl⟩
  | @snoc hist s s' e _ hstep ih =>
    obtain ⟨h, hrun, hcalls⟩ := ih
    obtain ⟨h', hrun', hcalls'⟩ := exists_reactor_steps hstep
    refine ⟨h ++ h', hrun.trans hrun', ?_⟩
    rw [filterMap_concat, ← hcalls, ← hcalls', reactorCalls, reactorCalls, reactorCalls,
      List.filterMap_append]

/-- The tables stay as they were sorted. -/
theorem Holds.same_of_run (hs : Holds caps s₀) (hr : Run (OnReactor.step c) s₀ hist s) :
    s₀.reactor.SameTables s.reactor := by
  obtain ⟨h, hrun, -⟩ := exists_reactor_run hr
  exact (hs.inv.run hrun).2

/-- At most one other handler is called before the most urgent one. -/
theorem Holds.calls_before_top (hs : Holds caps s₀) (htop : s₀.reactor.Top top)
    (hwaits : s₀.reactor.contents top ≠ []) (hr : Run (OnReactor.step c) s₀ hist s)
    (hnone : ∀ data, (top, data) ∉ hist.filterMap calls) : (hist.filterMap calls).length ≤ 1 := by
  obtain ⟨h, hrun, hcalls⟩ := exists_reactor_run hr
  rw [← hcalls] at hnone ⊢
  exact hs.inv.calls_before_top htop hwaits hrun hnone

/-- **After an interrupt that notifies it**, at most one other handler is
called before the most urgent one. -/
theorem Holds.calls_after_interrupt {hist' : List (OnReactor σ w α × OnReactorEvent ι κ)}
    (hs : Holds caps s₀) (htop : s₀.reactor.Top top) {i : ι}
    (hnotifies : ∀ app app' ns, c.interrupt app i = some (app', ns) → waiting ns top ≠ [])
    (hr : Run (OnReactor.step c) s₀ (hist ++ (s, .interrupt i) :: hist') s')
    (hnone : ∀ data, (top, data) ∉ hist'.filterMap calls) :
    (hist'.filterMap calls).length ≤ 1 := by
  obtain ⟨hrun, s₁, hstep, hrun'⟩ := hr.step_of_mem
  obtain ⟨hs₁, -, -, ns, hint, hheld⟩ := (hs.run hrun).interrupt hstep
  have htop₁ := htop.of_same (hs.same_of_run (hrun.snoc hstep))
  refine hs₁.calls_before_top htop₁ (fun hnil => ?_) hrun' hnone
  -- what the interrupt posted is held
  refine hnotifies _ _ _ hint (eq_nil_of_foldl_post ((hheld top).symm.trans ?_))
  rw [Reactor.held, if_pos htop₁.1, hnil]

/-- The handler registered with the highest priority. -/
theorem start_top {reactorMaxHandlers : ℕ} (hmax : reactorMaxHandlers ≤ 32)
    {qsort : List PriorityItem → List PriorityItem} (hqsort : IsQsort qsort) {l : List (ℕ × ℕ)}
    {r : Reactor (reactorMaskWidth reactorMaxHandlers) α}
    (h : registerAll reactorMaxHandlers l = some r) (hne : l ≠ [])
    (hsizes : ∀ p ∈ l, 0 < p.2 ∧ p.2 ≤ 128) (htop : top < l.length)
    (hhigher : ∀ k (hk : k < l.length), k ≠ top → l[k].1 % 2 ^ 8 < l[top].1 % 2 ^ 8) (app : σ) :
    (start qsort app r).reactor.Top top := by
  have hreg := registeredAs_of_registerAll h
  obtain ⟨-, hnext, hsame⟩ := reactorSortByPriority_inv hmax hqsort (hreg.registered hne hsizes)
  have hpriority : ∀ k (hk : k < l.length),
      ((reactorSortByPriority qsort r).handler k).priority = l[k].1 % 2 ^ 8 :=
    fun k hk => (hsame k).2.trans (hreg.handler k hk).1
  have hlen : (start qsort app r).reactor.nextHandle = l.length := hnext.trans hreg.nextHandle
  refine ⟨hlen ▸ htop, fun k hk hk' => ?_⟩
  rw [hlen] at hk
  exact (hpriority k hk).trans_lt ((hhigher k hk hk').trans_eq (hpriority top htop).symm)

end OnReactor

end Asx

end CncPneumatics
