import CncPneumatics.Common.Mailbox
import CncPneumatics.Common.Run
/-!
# Clients of a mailroom

A program of interrupts and handlers. Both change its state and post
messages; a handler is run with the oldest message that waits for it. How
the messages are kept, and which handler is next, is not the client's
business: here any handler for which something waits may be run.
-/

namespace CncPneumatics

variable {σ ι κ α : Type*}

/-- A client, with states `σ`, interrupts `ι`, and surroundings `κ` that a
handler finds when it is run. -/
structure Client (σ ι κ α : Type*) where
  /-- Whether an interrupt comes only when nothing waits. -/
  patient : ι → Bool
  /-- The state after an interrupt, and what it posts. -/
  interrupt : σ → ι → Option (σ × Mailroom α)
  /-- The state after a handler was run with a message, and what it posts. -/
  handler : σ → ℕ → α → κ → Option (σ × Mailroom α)

/-- What can happen to a client. -/
inductive ClientEvent (ι κ : Type*) where
  | interrupt (i : ι)
  | run (handle : ℕ) (around : κ)

/-- One step of a client with its mailroom. -/
def Client.step (c : Client σ ι κ α) (caps : ℕ → ℕ) (s : σ × Mailroom α) :
    ClientEvent ι κ → Option (σ × Mailroom α)
  | .interrupt i =>
    if c.patient i && !s.2.isEmpty then none
    else (c.interrupt s.1 i).map fun r => (r.1, depositAll caps s.2 r.2)
  | .run handle around => (collect s.2 handle).bind fun d =>
      (c.handler s.1 handle d.1 around).map fun r => (r.1, depositAll caps d.2 r.2)

end CncPneumatics
