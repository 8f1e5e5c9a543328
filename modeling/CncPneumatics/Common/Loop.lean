import Mathlib.Logic.Relation
import Mathlib.Data.Nat.Notation
/-!
# Loops

A loop by its turns: a turn leaves the loop, goes on to another state, or
fails (`none`). Where every turn from an invariant goes down along a
measure, the loop is left, and in the invariant; `Progresses` says so of
one turn, and `Progresses.loop_eq` of the loop.
-/

namespace CncPneumatics

/-- What a turn of a loop comes to. -/
inductive Turn (σ : Type*) where
  | leave
  | next (s : σ)

variable {σ : Type*} {turn : σ → Option (Turn σ)} {I : σ → Prop} {μ : σ → ℕ} {s s' : σ}

/-- The state in which a loop is left, with fuel for its turns. -/
def loop (turn : σ → Option (Turn σ)) : ℕ → σ → Option σ
  | 0, _ => none
  | fuel + 1, s =>
    match turn s with
    | none => none
    | some .leave => some s
    | some (.next s') => loop turn fuel s'

/-- The states that a loop comes to, turn after turn. -/
def Visits (turn : σ → Option (Turn σ)) : σ → σ → Prop :=
  Relation.ReflTransGen fun s s' => turn s = some (.next s')

/-- **Every turn makes progress**: from the invariant it leaves the loop or
goes on in the invariant, with less left to do. -/
def Progresses (turn : σ → Option (Turn σ)) (I : σ → Prop) (μ : σ → ℕ) : Prop :=
  ∀ s, I s → turn s = some .leave ∨ ∃ s', turn s = some (.next s') ∧ I s' ∧ μ s' < μ s

/-- The invariant rule: it holds wherever the loop comes to. -/
theorem Progresses.visits (h : Progresses turn I μ) (hs : I s) (hv : Visits turn s s') : I s' := by
  induction hv with
  | refl => exact hs
  | tail _ hturn ih =>
    rcases h _ ih with hleave | ⟨s'', hnext, hinv, -⟩
    · rw [hleave] at hturn
      cases hturn
    · rw [hnext] at hturn
      cases hturn
      exact hinv

/-- **The variant rule**: the loop is left, by more fuel than there is to do
and in the invariant. -/
theorem Progresses.loop_eq (h : Progresses turn I μ) (hs : I s) :
    ∃ s', Visits turn s s' ∧ I s' ∧ turn s' = some .leave ∧
      ∀ fuel, μ s < fuel → loop turn fuel s = some s' := by
  induction hm : μ s using Nat.strongRecOn generalizing s with
  | _ m ih =>
    rcases h s hs with hleave | ⟨s₁, hnext, hinv, hlt⟩
    · refine ⟨s, .refl, hs, hleave, fun fuel hfuel => ?_⟩
      obtain ⟨fuel, rfl⟩ := Nat.exists_eq_succ_of_ne_zero (Nat.ne_zero_of_lt hfuel)
      rw [loop, hleave]
    · obtain ⟨s', hvisits, hinv', hleave, hloop⟩ := ih (μ s₁) (hm ▸ hlt) hinv rfl
      refine ⟨s', .head hnext hvisits, hinv', hleave, fun fuel hfuel => ?_⟩
      obtain ⟨fuel, rfl⟩ := Nat.exists_eq_succ_of_ne_zero (Nat.ne_zero_of_lt hfuel)
      rw [loop, hnext]
      exact hloop fuel (by omega)

end CncPneumatics
