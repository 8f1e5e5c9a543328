import CncPneumatics.Common.Mailbox
import Mathlib.Data.List.Basic
/-!
# Relays

A relay takes what it is given and hands it on, each message at most once
and in the order in which it came; it may lose some.
-/

namespace CncPneumatics

variable {α : Type*} {given held held' taken : List α} {x : α}

/-- **Relayed**: what was handed on, and after it what the relay holds, is
some of what it was given, in the same order. -/
def Relayed (given held taken : List α) : Prop := (taken ++ held).Sublist given

namespace Relayed

/-- At first everything is held. -/
theorem start (l : List α) : Relayed l l [] := List.Sublist.refl l

/-- What is held may be lost. -/
theorem lose (h : Relayed given held taken) (hs : held'.Sublist held) :
    Relayed given held' taken := (hs.append_left taken).trans h

/-- What is held is the last that was given. -/
theorem hold (h : Relayed given held taken) : Relayed (given ++ [x]) (held ++ [x]) taken := by
  unfold Relayed
  rw [← List.append_assoc]
  exact List.Sublist.append h (List.Sublist.refl [x])

/-- A relay for one message. -/
theorem replace (h : Relayed given held taken) : Relayed (given ++ [x]) [x] taken :=
  (h.lose (List.nil_sublist held)).hold

/-- A mailbox. -/
theorem post (h : Relayed given held taken) (cap : ℕ) :
    Relayed (given ++ [x]) (CncPneumatics.post cap held x) taken := by
  unfold CncPneumatics.post
  split
  · exact h.hold
  · exact (h.lose (List.tail_sublist held)).hold

/-- The oldest message is handed on. -/
theorem take (h : Relayed given (x :: held) taken) : Relayed given held (taken ++ [x]) := by
  unfold Relayed
  rwa [List.append_assoc]

/-- What was handed on was given. -/
theorem sublist (h : Relayed given held taken) : taken.Sublist given :=
  (List.sublist_append_left taken held).trans h

end Relayed

end CncPneumatics
