import Mathlib.Data.List.Basic
/-!
# Computations that may stop

A computation on a state that returns it or stops in it. Whatever relates
a state to what each of two computations leaves relates it to what their
sequence leaves, stopped or not; and so for a sequence of any length.
-/

namespace CncPneumatics

variable {σ τ : Type*} {s s' : σ} {r : Except σ σ} {f : σ → Except σ σ}

/-- The state a computation left, also where it stopped. -/
def resultState : Except σ σ → σ
  | .ok s => s
  | .error s => s

@[simp] theorem resultState_ok (s : σ) : resultState (.ok s : Except σ σ) = s := rfl
@[simp] theorem resultState_error (s : σ) : resultState (.error s : Except σ σ) = s := rfl

/-- A sequence of two computations. -/
theorem resultState_bind {R : σ → σ → Prop} (htrans : ∀ a b c, R a b → R b c → R a c)
    (h : R s (resultState r)) (hf : ∀ s₁, r = .ok s₁ → R s₁ (resultState (f s₁))) :
    R s (resultState (r.bind f)) := by
  cases r with
  | error s₁ => exact h
  | ok s₁ => exact htrans _ _ _ h (hf s₁ rfl)

/-- A computation with a last change of the state, made or not. -/
theorem resultState_map (r : Except σ σ) (g : σ → σ) :
    resultState (r.map g) = resultState r ∨ resultState (r.map g) = g (resultState r) := by
  cases r with
  | error s₁ => exact .inl rfl
  | ok s₁ => exact .inr rfl

theorem bind_ok (s : σ) (f : σ → Except σ σ) : (Except.ok s : Except σ σ).bind f = f s := rfl

theorem bind_map (r : Except σ σ) (f : σ → Except σ σ) (g : σ → σ) :
    (r.bind fun s => (f s).map g) = (r.bind f).map g := by
  cases r <;> rfl

theorem bind_eq_ok {t : σ} : r.bind f = .ok t ↔ ∃ s₁, r = .ok s₁ ∧ f s₁ = .ok t := by
  cases r with
  | error s₁ => exact ⟨fun h => (by cases h), fun ⟨_, h, _⟩ => (by cases h)⟩
  | ok s₁ => exact ⟨fun h => ⟨s₁, rfl, h⟩, fun ⟨_, h, hf⟩ => by rw [Except.ok.inj h]; exact hf⟩

theorem map_eq_ok {g : σ → σ} {t : σ} : r.map g = .ok t ↔ ∃ s₁, r = .ok s₁ ∧ g s₁ = t := by
  cases r with
  | error s₁ => exact ⟨fun h => (by cases h), fun ⟨_, h, _⟩ => (by cases h)⟩
  | ok s₁ => exact ⟨fun h => ⟨s₁, rfl, Except.ok.inj h⟩,
      fun ⟨_, h, hg⟩ => by rw [Except.ok.inj h]; exact congrArg Except.ok hg⟩

theorem toOption_eq_some {ε : Type*} {r : Except ε σ} (h : r.toOption = some s) : r = .ok s := by
  cases r with
  | error _ => cases h
  | ok t => exact congrArg Except.ok (Option.some.inj h)

/-- A computation on a part of the state. -/
def within (get : σ → τ) (put : σ → τ → σ) (f : τ → Except τ τ) (s : σ) : Except σ σ :=
  match f (get s) with
  | .ok x => .ok (put s x)
  | .error x => .error (put s x)

theorem resultState_within {get : σ → τ} {put : σ → τ → σ} {f : τ → Except τ τ} :
    resultState (within get put f s) = put s (resultState (f (get s))) := by
  unfold within
  cases f (get s) <;> rfl

theorem within_eq_ok {get : σ → τ} {put : σ → τ → σ} {f : τ → Except τ τ} :
    within get put f s = .ok s' ↔ ∃ x, f (get s) = .ok x ∧ put s x = s' := by
  unfold within
  cases f (get s) with
  | error x => exact ⟨fun h => (by cases h), fun ⟨_, h, _⟩ => (by cases h)⟩
  | ok x => exact ⟨fun h => ⟨x, rfl, Except.ok.inj h⟩,
      fun ⟨_, h, hput⟩ => by rw [← hput, Except.ok.inj h]⟩

/-! ## Frames

A computation that does not depend on a part of the state commutes with
every change of it. -/

/-- A change of the state that a computation returns or stops in. -/
def onBoth (g : σ → σ) : Except σ σ → Except σ σ
  | .ok s => .ok (g s)
  | .error s => .error (g s)

/-- Changed before or after, the result is the same. -/
def Commutes (g : σ → σ) (f : σ → Except σ σ) : Prop := ∀ s, f (g s) = onBoth g (f s)

namespace Commutes

variable {g : σ → σ} {f' : σ → Except σ σ} {k : σ → σ}

theorem ok (hk : ∀ s, k (g s) = g (k s)) : Commutes g fun s => .ok (k s) :=
  fun s => congrArg Except.ok (hk s)

/-- After a change that commutes. -/
theorem comp (hk : ∀ s, k (g s) = g (k s)) (hf : Commutes g f) : Commutes g fun s => f (k s) :=
  fun s => (congrArg f (hk s)).trans (hf (k s))

theorem bind (hf : Commutes g f) (hf' : Commutes g f') : Commutes g fun s => (f s).bind f' := by
  intro s
  show (f (g s)).bind f' = onBoth g ((f s).bind f')
  rw [hf s]
  cases f s with
  | error _ => rfl
  | ok s₁ => exact hf' s₁

theorem map (hf : Commutes g f) (hk : ∀ s, k (g s) = g (k s)) : Commutes g fun s => (f s).map k := by
  intro s
  show (f (g s)).map k = onBoth g ((f s).map k)
  rw [hf s]
  cases f s with
  | error _ => rfl
  | ok s₁ => exact congrArg Except.ok (hk s₁)

/-- A choice that does not depend on the part. -/
theorem ite {P : σ → Prop} [DecidablePred P] (hP : ∀ s, P (g s) ↔ P s) (hf : Commutes g f)
    (hf' : Commutes g f') : Commutes g fun s => if P s then f s else f' s := by
  intro s
  dsimp only
  by_cases h : P s
  · rw [if_pos ((hP s).mpr h), if_pos h, hf]
  · rw [if_neg fun h' => h ((hP s).mp h'), if_neg h, hf']

/-- A computation on another part. -/
theorem within {get : σ → τ} {put : σ → τ → σ} {h : τ → Except τ τ} (hget : ∀ s, get (g s) = get s)
    (hput : ∀ s x, put (g s) x = g (put s x)) : Commutes g (within get put h) := by
  intro s
  unfold CncPneumatics.within
  rw [hget]
  cases h (get s) with
  | error x => exact congrArg Except.error (hput s x)
  | ok x => exact congrArg Except.ok (hput s x)

theorem toOption (hf : Commutes g f) (s : σ) : (f (g s)).toOption = (f s).toOption.map g := by
  rw [hf]
  cases f s <;> rfl

end Commutes

/-! ## Parts

A computation may come down to a sequence of parts, each of them one of a
few computations that are easy to describe. -/

variable {π : Type*} {run : π → σ → Except σ σ} {A B : π → Prop} {n m : ℕ} {p : π}

/-- One part after the other, up to the first that stops. -/
def runParts (run : π → σ → Except σ σ) : List π → σ → Except σ σ
  | [], s => .ok s
  | p :: ps, s => (run p s).bind (runParts run ps)

theorem runParts_append (ps qs : List π) (s : σ) :
    runParts run (ps ++ qs) s = (runParts run ps s).bind (runParts run qs) := by
  induction ps generalizing s with
  | nil => rfl
  | cons p ps ih =>
    rw [List.cons_append, runParts, runParts]
    cases run p s with
    | error _ => rfl
    | ok s₁ => exact ih s₁

/-- **Made of parts**: from this state, the result is that of at most `n`
parts of the kind `A`. -/
def MadeOf (run : π → σ → Except σ σ) (A : π → Prop) (n : ℕ) (s : σ) (r : Except σ σ) : Prop :=
  ∃ ps : List π, ps.length ≤ n ∧ (∀ p ∈ ps, A p) ∧ r = runParts run ps s

namespace MadeOf

theorem nothing (s : σ) : MadeOf run A 0 s (.ok s) := ⟨[], Nat.le_refl _, by simp, rfl⟩

theorem part (hp : A p) (s : σ) : MadeOf run A 1 s (run p s) := by
  refine ⟨[p], Nat.le_refl _, by simpa using hp, ?_⟩
  rw [runParts]
  cases run p s <;> rfl

theorem mono (h : MadeOf run A n s r) (hA : ∀ p, A p → B p) (hn : n ≤ m) : MadeOf run B m s r := by
  obtain ⟨ps, hlen, hps, hr⟩ := h
  exact ⟨ps, Nat.le_trans hlen hn, fun p hp => hA p (hps p hp), hr⟩

theorem bind (h : MadeOf run A n s r) (hf : ∀ s₁, r = .ok s₁ → MadeOf run A m s₁ (f s₁)) :
    MadeOf run A (n + m) s (r.bind f) := by
  obtain ⟨ps, hlen, hps, rfl⟩ := h
  cases hr : runParts run ps s with
  | error s₁ => exact ⟨ps, by omega, hps, hr.symm⟩
  | ok s₁ =>
    obtain ⟨qs, hlen', hqs, hf⟩ := hf s₁ hr
    refine ⟨ps ++ qs, by rw [List.length_append]; omega, ?_, ?_⟩
    · exact fun p hp => (List.mem_append.mp hp).elim (hps p) (hqs p)
    · rw [runParts_append, hr]
      exact hf

/-- A last part that cannot stop. -/
theorem map {g : σ → σ} (h : MadeOf run A n s r) (hp : A p) (hg : ∀ s, run p s = .ok (g s)) :
    MadeOf run A (n + 1) s (r.map g) := by
  have hmap : r.map g = r.bind (run p) := by
    cases r with
    | error _ => rfl
    | ok s₁ => exact (hg s₁).symm
  rw [hmap]
  exact h.bind fun s₁ _ => part hp s₁

/-- **What relates the state before each part to the state after it**
relates the state before all of them to the state after. -/
theorem relates {R : σ → σ → Prop} (hrefl : ∀ s, R s s) (htrans : ∀ a b c, R a b → R b c → R a c)
    (hpart : ∀ p s, A p → R s (resultState (run p s))) (h : MadeOf run A n s r) :
    R s (resultState r) := by
  obtain ⟨ps, -, hps, rfl⟩ := h
  induction ps generalizing s with
  | nil => exact hrefl s
  | cons p ps ih =>
    rw [runParts]
    refine resultState_bind htrans (hpart p s (hps p (by simp))) fun s₁ _ => ?_
    exact ih fun q hq => hps q (by simp [hq])

end MadeOf

end CncPneumatics
