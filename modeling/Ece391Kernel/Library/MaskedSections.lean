import Mathlib.Logic.Basic
import Mathlib.Tactic.Simps.Basic

/-!
# Sections with interrupts disabled

One processor runs threads, of which each is at a place of its program. Another thread is switched
to only while interrupts are enabled. So a thread that disables them is alone in its section until
it enables them again, wherever the others have been left.
-/

namespace MaskedSections

/-- The thread that runs, the places of all threads, and whether interrupts are enabled. -/
structure Cpu (T P : Type*) where
  running : T
  place : T → P
  enabled : Bool

variable {T P : Type*}

/-- The thread that runs goes to a place, and leaves the interrupts enabled or disabled. -/
@[simps] def Cpu.move [DecidableEq T] (p : P) (e : Bool) (c : Cpu T P) : Cpu T P where
  running := c.running
  place := fun t => if t = c.running then p else c.place t
  enabled := e

/-- A thread inside a section is the one that runs, and interrupts are disabled. -/
def Exclusive (inside : P → Prop) (c : Cpu T P) : Prop :=
  ∀ t, inside (c.place t) → t = c.running ∧ c.enabled = false

namespace Exclusive

variable {inside : P → Prop} {c : Cpu T P}

theorem outside_of_enabled (h : Exclusive inside c) (henabled : c.enabled = true) (t : T) :
    ¬inside (c.place t) := by
  intro ht
  rw [(h t ht).2] at henabled
  exact absurd henabled (by decide)

theorem outside_of_ne (h : Exclusive inside c) {t : T} (ht : t ≠ c.running) :
    ¬inside (c.place t) :=
  fun hin => ht (h t hin).1

/-- A step of the thread that runs. Inside a section it has to leave interrupts disabled. -/
theorem move [DecidableEq T] (h : Exclusive inside c) {p : P} {e : Bool}
    (hp : inside p → e = false) : Exclusive inside (c.move p e) := by
  intro t ht
  simp only [Cpu.move_place] at ht
  by_cases hrunning : t = c.running
  · rw [if_pos hrunning] at ht
    exact ⟨hrunning, hp ht⟩
  · rw [if_neg hrunning] at ht
    exact absurd ht (h.outside_of_ne hrunning)

/-- Another thread is switched to. -/
theorem switch (h : Exclusive inside c) (henabled : c.enabled = true) (t : T) :
    Exclusive inside { c with running := t } :=
  fun u hu => absurd hu (h.outside_of_enabled henabled u)

/-- Interrupts are enabled or disabled outside all sections. -/
theorem setEnabled (h : Exclusive inside c) (houtside : ¬inside (c.place c.running)) (e : Bool) :
    Exclusive inside { c with enabled := e } := by
  intro t ht
  have hrunning := (h t ht).1
  subst hrunning
  exact absurd ht houtside

end Exclusive

end MaskedSections
