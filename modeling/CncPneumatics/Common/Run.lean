import Mathlib.Data.List.Induction
/-!
# Runs of a machine

A machine is a partial step function: `step s e = none` where the event
is not enabled or the step does not come to an end. A run carries its
history, each event with the state it found, so that a law about the
past of a state can be stated without adding anything to the state.

A machine that always goes on, and answers each call, is a total function.
-/

namespace CncPneumatics

variable {σ ε : Type*} {step : σ → ε → Option σ} {s₀ s s' : σ} {h : List (σ × ε)}

/-- **A run**: from `s₀` the machine reached the last state through the
events of the history, each listed with the state it was taken in. -/
inductive Run (step : σ → ε → Option σ) (s₀ : σ) : List (σ × ε) → σ → Prop
  /-- Nothing has happened yet. -/
  | nil : Run step s₀ [] s₀
  /-- One more event. -/
  | snoc {h : List (σ × ε)} {s s' : σ} {e : ε} :
      Run step s₀ h s → step s e = some s' → Run step s₀ (h ++ [(s, e)]) s'

namespace Run

/-- **The invariant rule**: what holds at first and is kept by every step
holds wherever a run ends. -/
theorem invariant {I : σ → Prop} (h₀ : I s₀)
    (hstep : ∀ s e s', I s → step s e = some s' → I s') (hr : Run step s₀ h s) : I s := by
  induction hr with
  | nil => exact h₀
  | snoc _ he ih => exact hstep _ _ _ ih he

/-- The invariant rule for a property of the state and its past. -/
theorem invariant_history {I : List (σ × ε) → σ → Prop} (h₀ : I [] s₀)
    (hstep : ∀ h s e s', Run step s₀ h s → I h s → step s e = some s' → I (h ++ [(s, e)]) s')
    (hr : Run step s₀ h s) : I h s := by
  induction hr with
  | nil => exact h₀
  | snoc hr he ih => exact hstep _ _ _ _ hr ih he

/-- The last step of a run. -/
theorem of_snoc {e : ε} (hr : Run step s₀ (h ++ [(s, e)]) s') :
    Run step s₀ h s ∧ step s e = some s' := by
  generalize hn : h ++ [(s, e)] = h' at hr
  cases hr with
  | nil => simp at hn
  | snoc hr he =>
    obtain ⟨rfl, hse⟩ := List.append_inj' hn rfl
    simp only [List.cons.injEq, Prod.mk.injEq, and_true] at hse
    obtain ⟨rfl, rfl⟩ := hse
    exact ⟨hr, he⟩

/-- A run goes on from where another one ended. -/
theorem trans {s₁ : σ} {h₁ h₂ : List (σ × ε)} (hr₁ : Run step s₀ h₁ s₁)
    (hr₂ : Run step s₁ h₂ s) : Run step s₀ (h₁ ++ h₂) s := by
  induction hr₂ with
  | nil => simpa using hr₁
  | snoc _ he ih => rw [← List.append_assoc]; exact ih.snoc he

/-- **A run can be cut anywhere.** -/
theorem of_append {h₁ h₂ : List (σ × ε)} (hr : Run step s₀ (h₁ ++ h₂) s) :
    ∃ s₁, Run step s₀ h₁ s₁ ∧ Run step s₁ h₂ s := by
  induction h₂ using List.reverseRecOn generalizing s with
  | nil => exact ⟨s, by simpa using hr, .nil⟩
  | append_singleton h₂ p ih =>
    rw [← List.append_assoc] at hr
    obtain ⟨hr', he⟩ := of_snoc hr
    obtain ⟨s₁, hr₁, hr₂⟩ := ih hr'
    exact ⟨s₁, hr₁, hr₂.snoc he⟩

/-- The step recorded at any place of the history was taken. -/
theorem step_of_mem {h₁ h₂ : List (σ × ε)} {e : ε} (hr : Run step s₀ (h₁ ++ (s, e) :: h₂) s') :
    Run step s₀ h₁ s ∧ ∃ s₁, step s e = some s₁ ∧ Run step s₁ h₂ s' := by
  rw [show h₁ ++ (s, e) :: h₂ = (h₁ ++ [(s, e)]) ++ h₂ by simp] at hr
  obtain ⟨s₁, hr₁, hr₂⟩ := of_append hr
  obtain ⟨hr₀, he⟩ := of_snoc hr₁
  exact ⟨hr₀, s₁, he, hr₂⟩

end Run

/-! ## Running a list of events -/

/-- The state a list of events leads to, when every one of them goes
through. -/
def runEvents (step : σ → ε → Option σ) : List ε → σ → Option σ
  | [], s => some s
  | e :: es, s => (step s e).bind (runEvents step es)

theorem runEvents_append (es es' : List ε) (s : σ) :
    runEvents step (es ++ es') s = (runEvents step es s).bind (runEvents step es') := by
  induction es generalizing s with
  | nil => rfl
  | cons e es ih =>
    rw [List.cons_append, runEvents, runEvents, Option.bind_assoc]
    exact congrArg _ (funext ih)

/-- **The variant rule**: where an event always goes through and brings a
measure down until something holds, so many of them bring it about. -/
theorem exists_runEvents_of_measure {I Q : σ → Prop} {μ : σ → ℕ} {e : ε}
    (hstep : ∀ s, I s → Q s ∨ ∃ s', step s e = some s' ∧ I s' ∧ μ s' < μ s) (hs : I s) :
    ∃ n ≤ μ s, ∃ s', runEvents step (List.replicate n e) s = some s' ∧ I s' ∧ Q s' := by
  induction hm : μ s using Nat.strongRecOn generalizing s with
  | _ m ih =>
    rcases hstep s hs with hQ | ⟨s₁, he, hI, hlt⟩
    · exact ⟨0, Nat.zero_le m, s, rfl, hs, hQ⟩
    · obtain ⟨n, hn, s', hrun, hs', hQ⟩ := ih (μ s₁) (hm ▸ hlt) hI rfl
      refine ⟨n + 1, by omega, s', ?_, hs', hQ⟩
      rw [List.replicate_succ, runEvents, he, Option.bind_some]
      exact hrun

/-- Steps that are taken only where a check passes. -/
def guarded (check : σ × ε → Bool) (step : σ → ε → Option σ) (s : σ) (e : ε) : Option σ :=
  if check (s, e) then step s e else none

/-- **A guarded run** is a run all of whose steps pass the check. -/
theorem Run.of_guarded {check : σ × ε → Bool} (hr : Run (guarded check step) s₀ h s) :
    Run step s₀ h s ∧ ∀ p ∈ h, check p = true := by
  induction hr with
  | nil => exact ⟨.nil, by simp⟩
  | snoc _ he ih =>
    unfold guarded at he
    split_ifs at he with hcheck
    refine ⟨ih.1.snoc he, fun p hp => ?_⟩
    rcases List.mem_append.mp hp with hp | hp
    · exact ih.2 p hp
    · rw [List.mem_singleton.mp hp]; exact hcheck

/-- The history of a list of events, as far as it goes through. -/
def history (step : σ → ε → Option σ) : List ε → σ → List (σ × ε)
  | [], _ => []
  | e :: es, s => (s, e) :: ((step s e).map (history step es)).getD []

/-- **A list of events that goes through** is a run, with its history. -/
theorem run_history {es : List ε} (hes : runEvents step es s₀ = some s) :
    Run step s₀ (history step es s₀) s ∧ (history step es s₀).map Prod.snd = es := by
  induction es generalizing s₀ with
  | nil =>
    simp only [runEvents, Option.some.injEq] at hes
    exact ⟨hes ▸ .nil, rfl⟩
  | cons e es ih =>
    simp only [runEvents, Option.bind_eq_some_iff] at hes
    obtain ⟨s₁, he, hes⟩ := hes
    obtain ⟨hr, hh⟩ := ih hes
    rw [history, he, Option.map_some, Option.getD_some]
    exact ⟨Run.trans (Run.snoc (h := []) .nil he) hr, by rw [List.map_cons, hh]⟩

theorem exists_run_of_runEvents {es : List ε} (hes : runEvents step es s₀ = some s) :
    ∃ h, Run step s₀ h s ∧ h.map Prod.snd = es := ⟨_, run_history hes⟩

/-- **The simulation rule**: where every step is matched by one of another
machine or by none, a run is matched by a run of its matched events. -/
theorem exists_runEvents_of_simulation {τ ε' : Type*} {step' : τ → ε' → Option τ} {R : σ → τ → Prop}
    {P : σ × ε → Prop} {label : σ × ε → Option ε'} {t₀ : τ}
    (hstep : ∀ s e s' t, P (s, e) → R s t → step s e = some s' →
      ∃ t', runEvents step' (label (s, e)).toList t = some t' ∧ R s' t')
    (hr : Run step s₀ h s) (hP : ∀ p ∈ h, P p) (h₀ : R s₀ t₀) :
    ∃ t, runEvents step' (h.filterMap label) t₀ = some t ∧ R s t := by
  induction hr with
  | nil => exact ⟨t₀, rfl, h₀⟩
  | @snoc h s s' e _ he ih =>
    obtain ⟨t, ht, hst⟩ := ih fun p hp => hP p (by simp [hp])
    obtain ⟨t', ht', hst'⟩ := hstep s e s' t (hP (s, e) (by simp)) hst he
    refine ⟨t', ?_, hst'⟩
    have hlast : [(s, e)].filterMap label = (label (s, e)).toList := by
      cases hl : label (s, e) with
      | none => rw [List.filterMap_cons_none hl]; rfl
      | some e' => rw [List.filterMap_cons_some hl]; rfl
    rw [List.filterMap_append, runEvents_append, ht, Option.bind_some, hlast, ht']

/-- **The renaming rule**: where each step is one of another machine, with
the state and the event named otherwise, so is every run. -/
theorem runEvents_rename {τ ε' : Type*} {step' : τ → ε' → Option τ} {f : σ → τ} {g : ε → ε'}
    (hstep : ∀ s e s', step s e = some s' → step' (f s) (g e) = some (f s')) {es : List ε}
    (hes : runEvents step es s₀ = some s) : runEvents step' (es.map g) (f s₀) = some (f s) := by
  induction es generalizing s₀ with
  | nil =>
    obtain rfl := Option.some.inj hes
    rfl
  | cons e es ih =>
    obtain ⟨s₁, he, hes⟩ := Option.bind_eq_some_iff.mp hes
    rw [List.map_cons, runEvents, hstep s₀ e s₁ he]
    exact ih hes

/-! ## Answering calls -/

variable {τ κ ρ : Type*} {call : σ → κ → ρ × σ} {call' : τ → κ → ρ × τ}

/-- What a sequence of calls returns, and the state after it. -/
def answers (call : σ → κ → ρ × σ) : List κ → σ → List ρ × σ
  | [], s => ([], s)
  | c :: cs, s => ((call s c).1 :: (answers call cs (call s c).2).1, (answers call cs (call s c).2).2)

theorem answers_append (cs cs' : List κ) (s : σ) :
    answers call (cs ++ cs') s =
      ((answers call cs s).1 ++ (answers call cs' (answers call cs s).2).1,
        (answers call cs' (answers call cs s).2).2) := by
  induction cs generalizing s with
  | nil => rfl
  | cons c cs ih => rw [List.cons_append, answers, answers, ih]; rfl

/-- The calls of a sequence, each with the state that it finds. -/
def found (call : σ → κ → ρ × σ) : List κ → σ → List (σ × κ)
  | [], _ => []
  | c :: cs, s => (s, c) :: found call cs (call s c).2

theorem found_append (cs cs' : List κ) (s : σ) :
    found call (cs ++ cs') s = found call cs s ++ found call cs' (answers call cs s).2 := by
  induction cs generalizing s with
  | nil => rfl
  | cons c cs ih => rw [List.cons_append, found, found, List.cons_append, ih]; rfl

/-- The invariant rule for calls: what every call keeps, every call finds. -/
theorem found_invariant {I : σ → Prop} (hcall : ∀ s c, I s → I (call s c).2) (cs : List κ) :
    ∀ s, I s → ∀ p ∈ found call cs s, I p.1 := by
  induction cs with
  | nil => intro s _ p hp; cases hp
  | cons c cs ih =>
    intro s hs p hp
    rw [found] at hp
    rcases List.mem_cons.mp hp with rfl | hp
    · exact hs
    · exact ih _ (hcall s c hs) p hp

/-- **A refinement goes from one call to a sequence.** -/
theorem answers_refines {R : σ → τ → Prop}
    (h : ∀ s t c, R s t → (call s c).1 = (call' t c).1 ∧ R (call s c).2 (call' t c).2)
    (cs : List κ) : ∀ s t, R s t →
      (answers call cs s).1 = (answers call' cs t).1 ∧
        R (answers call cs s).2 (answers call' cs t).2 := by
  induction cs with
  | nil => intro s t hst; exact ⟨rfl, hst⟩
  | cons c cs ih =>
    intro s t hst
    obtain ⟨hc, hst'⟩ := h s t c hst
    obtain ⟨hcs, hend⟩ := ih _ _ hst'
    exact ⟨by rw [answers, answers, hc, hcs], hend⟩

end CncPneumatics
