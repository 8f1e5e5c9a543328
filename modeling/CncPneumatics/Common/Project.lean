import CncPneumatics.Common.Run
/-!
# Parts of a machine

A machine put together from others, some steps of which are steps of a
part. A run of the whole is a run of each part: what its history holds of
the part is the history of that run.
-/

namespace CncPneumatics

variable {σ ε τ κ : Type*} {step : σ → ε → Option σ} {step' : τ → κ → Option τ} {s₀ s : σ}
  {get : σ → τ} {part : σ × ε → Option κ} {h h₁ h₂ : List (σ × ε)} {p : σ × ε} {k : κ}

/-- What a step of the whole is to a part, if it is a step of that part. -/
def projectStep (get : σ → τ) (part : σ × ε → Option κ) (p : σ × ε) : Option (τ × κ) :=
  (part p).map fun k => (get p.1, k)

/-- A step that is one of the part, or leaves it alone. -/
def StepOrStay (step' : τ → κ → Option τ) (t t' : τ) : Option κ → Prop
  | some k => step' t k = some t'
  | none => t' = t

/-- **The history of a part.** -/
def project (get : σ → τ) (part : σ × ε → Option κ) (h : List (σ × ε)) : List (τ × κ) :=
  h.filterMap (projectStep get part)

@[simp] theorem project_nil : project get part [] = [] := rfl

@[simp] theorem project_append :
    project get part (h₁ ++ h₂) = project get part h₁ ++ project get part h₂ :=
  List.filterMap_append

theorem project_singleton_some (hp : part p = some k) : project get part [p] = [(get p.1, k)] := by
  simp [project, projectStep, hp]

theorem project_singleton_none (hp : part p = none) : project get part [p] = [] := by
  simp [project, projectStep, hp]

/-- A step of the part, back in the whole. -/
theorem mem_project {q : τ × κ} (hq : q ∈ project get part h) :
    ∃ p ∈ h, get p.1 = q.1 ∧ part p = some q.2 := by
  obtain ⟨p, hp, heq⟩ := List.mem_filterMap.mp hq
  obtain ⟨k, hk, rfl⟩ := Option.map_eq_some_iff.mp heq
  exact ⟨p, hp, rfl, hk⟩

/-- And with what came before and after it. -/
theorem project_eq_append_cons {g₁ g₂ : List (τ × κ)} {q : τ × κ}
    (hq : project get part h = g₁ ++ q :: g₂) :
    ∃ h₁ p h₂, h = h₁ ++ p :: h₂ ∧ get p.1 = q.1 ∧ part p = some q.2 ∧
      project get part h₁ = g₁ ∧ project get part h₂ = g₂ := by
  obtain ⟨h₁, h', rfl, hg₁, hg'⟩ := List.filterMap_eq_append_iff.mp hq
  obtain ⟨h₂, p, h₃, rfl, hnone, hp, hg₂⟩ := List.filterMap_eq_cons_iff.mp hg'
  obtain ⟨k, hk, rfl⟩ := Option.map_eq_some_iff.mp hp
  refine ⟨h₁ ++ h₂, p, h₃, by simp, rfl, hk, ?_, hg₂⟩
  rw [project_append, show project get part h₁ = g₁ from hg₁, show project get part h₂ = [] from
    List.filterMap_eq_nil_iff.mpr hnone, List.append_nil]

/-- **A run of the whole is a run of each part**, when its steps are steps
of the part or leave it alone. -/
theorem Run.project (get : σ → τ) (part : σ × ε → Option κ) (hr : Run step s₀ h s)
    (hpart : ∀ h s e s', Run step s₀ h s → step s e = some s' →
      StepOrStay step' (get s) (get s') (part (s, e))) :
    Run step' (get s₀) (CncPneumatics.project get part h) (get s) := by
  induction hr with
  | nil => exact .nil
  | @snoc h s s' e hrun he ih =>
    have hstep := hpart h s e s' hrun he
    rw [project_append]
    cases hk : part (s, e) with
    | none =>
      rw [hk] at hstep
      rw [project_singleton_none hk, List.append_nil, show get s' = get s from hstep]
      exact ih
    | some k =>
      rw [hk] at hstep
      rw [project_singleton_some hk]
      exact ih.snoc hstep

end CncPneumatics
