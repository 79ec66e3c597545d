import Mathlib.Logic.Basic
import Mathlib.Tactic.Simps.Basic

/-!
# A place for one message

A sender puts messages into a place that holds one of them, and a receiver takes the one
that is there. A message that is still there is overwritten by the next. The structure
keeps what has been sent and received, and carries the account between the two: nothing
is received twice or out of order, and messages are lost by overwriting only.
-/

/-- A place for one message, with its history. -/
structure Mailbox (α : Type*) where
  contents : Option α
  sent : List α
  received : List α
  /-- How many messages had been sent when the last one was taken. -/
  seen : Nat
  /-- How many messages have been overwritten. -/
  overwritten : Nat
  newest : ∀ v, contents = some v → sent.getLast? = some v
  seen_le : seen + contents.toList.length ≤ sent.length
  account : received.length + contents.toList.length + overwritten = sent.length
  inOrder : overwritten = 0 → received ++ contents.toList = sent

namespace Mailbox

variable {α : Type*}

/-- The place before any message. -/
@[simps] def empty : Mailbox α where
  contents := none
  sent := []
  received := []
  seen := 0
  overwritten := 0
  newest := fun _ h => absurd h (by simp)
  seen_le := Nat.le_refl 0
  account := rfl
  inOrder := fun _ => rfl

/-- Put a message, over the one that may be there. -/
@[simps] def put (v : α) (m : Mailbox α) : Mailbox α where
  contents := some v
  sent := m.sent ++ [v]
  received := m.received
  seen := m.seen
  overwritten := m.overwritten + m.contents.toList.length
  newest := by
    intro w hw
    rw [List.getLast?_concat]
    exact hw
  seen_le := by
    rw [List.length_append]
    exact Nat.add_le_add_right (Nat.le_of_add_right_le m.seen_le) 1
  account := by
    have haccount := m.account
    simp only [List.length_append, List.length_singleton, Option.toList_some]
    omega
  inOrder := by
    intro hnone
    obtain ⟨hbefore, hempty⟩ := Nat.add_eq_zero_iff.mp hnone
    have horder := m.inOrder hbefore
    rw [List.eq_nil_of_length_eq_zero hempty, List.append_nil] at horder
    rw [horder]
    rfl

/-- Take the message that is there. -/
@[simps] def take (m : Mailbox α) : Mailbox α where
  contents := none
  sent := m.sent
  received := m.received ++ m.contents.toList
  seen := m.sent.length
  overwritten := m.overwritten
  newest := fun _ h => absurd h (by simp)
  seen_le := Nat.le_refl _
  account := by
    rw [List.length_append]
    exact m.account
  inOrder := by
    intro hnone
    rw [Option.toList_none, List.append_nil]
    exact m.inOrder hnone

/-- Nothing is lost exactly when nothing has been overwritten. -/
theorem overwritten_eq_zero_iff (m : Mailbox α) :
    m.overwritten = 0 ↔ m.received.length + m.contents.toList.length = m.sent.length := by
  have haccount := m.account
  omega

/-- There is no message when all that were sent had been seen. -/
theorem seen_lt {m : Mailbox α} {v : α} (h : m.contents = some v) : m.seen < m.sent.length := by
  have hseen := m.seen_le
  rw [h] at hseen
  exact hseen

end Mailbox
