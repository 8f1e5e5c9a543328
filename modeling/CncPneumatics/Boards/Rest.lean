import CncPneumatics.Boards.Readings
/-!
# The wire comes to rest

When nothing else happens, what is on the line brings a transfer to its
end: the slave never holds the line, and never leaves the master without
an answer. So a transfer ends, and its callback is called once.
-/

namespace CncPneumatics

open Asx

namespace Boards

variable {fuel : ℕ} {s s' : State} {h : List (State × Event)} {c : Controller.State} {t : Transfer}

/-- How often the line goes on until it is idle. -/
def turnsLeft (t : Transfer) : Line → ℕ
  | .idle | .nacked => 0
  | .stopped => 1
  | .refused => 2
  | .reply _ => 3
  | .request => 4
  | .address _ => if t.addrCount = 0 then 9 else 5
  | .acked => if t.addrCount = 0 then 8 else 6
  | .byte _ => 7

theorem turnsLeft_le (t : Transfer) (line : Line) : turnsLeft t line ≤ 9 := by
  cases line with
  | address | acked => rw [turnsLeft]; split_ifs <;> omega
  | _ => simp [turnsLeft]

/-- Every turn is one less. -/
theorem Linked.turnsLeft_lt (hl : Linked s) (ht : Turn s s') (hne : s.line ≠ .idle) :
    turnsLeft s'.controller.transfer s'.line < turnsLeft s.controller.transfer s.line := by
  have hphase := hl.phase
  cases ht with
  | idle hline => exact absurd hline hne
  | addressed read hline _ _ _ =>
    rw [hline] at hphase ⊢
    have hother : writeAddress ≠ readAddress := by decide
    cases read with
    | false =>
      rcases hphase with ⟨-, -, -, -, haddr⟩ | ⟨heq, -⟩
      · simp [turnsLeft, haddr]
      · exact absurd heq hother
    | true =>
      rcases hphase with ⟨heq, -⟩ | ⟨-, -, -, -, haddr⟩
      · exact absurd heq.symm hother
      · simp [turnsLeft, haddr]
  | sends hline hunder | restarts hline hunder =>
    rw [hline]
    simp [turnsLeft, hunder.2.2.2]
  | receives hline _ =>
    rw [hline] at hphase ⊢
    simp [turnsLeft, hphase.1.2.2.2]
  | replies hline _ | ends hline _ | stops hline _ | completes hline =>
    rw [hline]
    simp [turnsLeft]

/-- **What the wire does to the controller** from some time on: a transfer
that was in flight goes on, or has ended with what its reply says. -/
inductive Served (c : Controller.State) : Controller.State → Prop
  | free : c.transfer.locked = false → Served c c
  | waits (t : Transfer) : c.transfer.locked = true → t.locked = true →
      Served c { c with transfer := t }
  | ended (t : Transfer) (reply : OpcodesReply) : c.transfer.locked = true → t.locked = false →
      Served c { c with transfer := t, mail := posted c.mail reply }

theorem Served.start (c : Controller.State) : Served c c := by
  cases hlocked : c.transfer.locked with
  | false => exact .free hlocked
  | true => exact .waits c.transfer hlocked hlocked

/-- Where a transfer is in flight, it is the one that was. -/
theorem Served.of_locked {c' : Controller.State} (h : Served c c')
    (hlocked : c'.transfer.locked = true) :
    c.transfer.locked = true ∧ ∃ t, c' = { c with transfer := t } := by
  cases h with
  | free hfree => rw [hlocked] at hfree; cases hfree
  | waits t h₁ _ => exact ⟨h₁, t, rfl⟩
  | ended t reply _ h₂ => exact absurd (hlocked.symm.trans h₂) (by simp)

/-- Where none is, there was none, or it has ended. -/
theorem Served.of_unlocked {c' : Controller.State} (h : Served c c')
    (hunlocked : c'.transfer.locked = false) :
    c.transfer.locked = false ∧ c' = c ∨ c.transfer.locked = true ∧ ∃ t reply,
      c' = { c with transfer := t, mail := posted c.mail reply } := by
  cases h with
  | free hfree => exact .inl ⟨hfree, rfl⟩
  | waits t _ hwaits => exact absurd (hwaits.symm.trans hunlocked) (by simp)
  | ended t reply hlocked _ => exact .inr ⟨hlocked, t, reply, rfl⟩

/-- A turn of the line. -/
theorem Served.turn (h : Served c s.controller) (hl : Linked s) (ht : Turn s s') :
    Served c s'.controller := by
  have hphase := hl.phase
  cases ht with
  | sends _ hunder =>
    obtain ⟨hlocked, t, heq⟩ := h.of_locked hunder.1
    rw [heq] at hunder ⊢
    exact .waits { t with addrCount := 1 } hlocked hunder.1
  | @completes data hline =>
    rw [hline] at hphase
    obtain ⟨hlocked, t, heq⟩ := h.of_locked hphase.1
    have hmail := replied_mail (s := s) data
    rw [heq] at hmail ⊢
    obtain ⟨mail, hcomplete⟩ := i2cOnComplete_eq
      { c with transfer := { t with buffer := data, dataCount := 1 } } .statusOk
    have hreplied : replied { c with transfer := t } data =
        { c with transfer := twimRelease { t with buffer := data, dataCount := 1 }, mail := mail } :=
      hcomplete
    rw [hreplied] at hmail ⊢
    rw [show mail = posted c.mail (readReply s data) from hmail]
    exact .ended _ _ hlocked rfl
  | _ => exact h

/-- **A transfer ends.** From every state that the boards reach, the line
is idle after at most nine turns when nothing else happens. Then no
transfer is in flight; the controller is as it was if there was none, and
otherwise its callback was called once, with a reply. -/
theorem transfer_ends (hr : Run (Boards.step fuel) start h s) :
    ∃ n ≤ 9, ∃ s', runEvents (Boards.step fuel) (List.replicate n .wire) s = some s' ∧
      s'.line = .idle ∧ s'.controller.transfer.locked = false ∧
      (s.controller.transfer.locked = false → s'.controller = s.controller) ∧
      (s.controller.transfer.locked = true → ∃ t reply, s'.controller =
        { s.controller with transfer := t, mail := posted s.controller.mail reply }) := by
  have hone : ∀ s₁, Linked s₁ ∧ Served s.controller s₁.controller → s₁.line = .idle ∨
      ∃ s₂, Boards.step fuel s₁ .wire = some s₂ ∧
        (Linked s₂ ∧ Served s.controller s₂.controller) ∧
        turnsLeft s₂.controller.transfer s₂.line < turnsLeft s₁.controller.transfer s₁.line := by
    rintro s₁ ⟨hl, hserved⟩
    by_cases hidle : s₁.line = .idle
    · exact .inl hidle
    · have hturn := hl.turn
      exact .inr ⟨wire s₁, rfl, ⟨hl.of_turn hturn, hserved.turn hl hturn⟩,
        hl.turnsLeft_lt hturn hidle⟩
  obtain ⟨n, hn, s', hrun, ⟨hl, hserved⟩, hidle⟩ :=
    exists_runEvents_of_measure hone ⟨linked_of_run hr, .start _⟩
  have hphase := hl.phase
  rw [hidle] at hphase
  have hunlocked : s'.controller.transfer.locked = false := hphase
  refine ⟨n, hn.trans (turnsLeft_le _ _), s', hrun, hidle, hunlocked, ?_⟩
  rcases hserved.of_unlocked hunlocked with ⟨hfree, heq⟩ | ⟨hlocked, hended⟩
  · exact ⟨fun _ => heq, fun hlocked => absurd (hlocked.symm.trans hfree) (by simp)⟩
  · exact ⟨fun hfree => absurd (hlocked.symm.trans hfree) (by simp), fun _ => hended⟩

/-- From the start, with the first command under way. -/
theorem transfer_ends_first : ∃ h s, Run (step 16) start h s ∧ s.controller.transfer.locked = true ∧
    ∃ n ≤ 9, ∃ s', runEvents (step 16) (List.replicate n .wire) s = some s' ∧ s'.line = .idle := by
  have heval : (runEvents (step 16) (firstCommand.take 3) start).any (fun s =>
      s.controller.transfer.locked) = true := by decide +kernel
  obtain ⟨s, hs, hlocked⟩ := (Option.any_eq_true _ _).mp heval
  obtain ⟨h, hr, -⟩ := exists_run_of_runEvents hs
  obtain ⟨n, hn, s', hrun, hidle, -⟩ := transfer_ends hr
  exact ⟨h, s, hr, hlocked, n, hn, s', hrun, hidle⟩

end Boards

end CncPneumatics
