import Mathlib.Data.Set.Basic
import Mathlib.Order.Basic

/-!
# Programs that record their accesses

A program that reads and writes a store through a `MemoryAccess` runs on the states themselves as
well as on states with a record of the places that have been read or written, oldest first; it
commutes with every map between the two that respects the accesses, as forgetting the record does.
`Within D s s'` says that between two recorded states only places of `D` are accessed; it composes,
and so the accesses of a program are bounded along its text.
-/

namespace AccessTrace

/-- A state, and the places that have been accessed. -/
structure Traced (σ α : Type*) where
  state : σ
  accesses : List α

namespace Traced

variable {σ α β : Type*}

/-- Nothing has been accessed yet. -/
def start (s : σ) : Traced σ α := ⟨s, []⟩

/-- Read the place `a`. -/
def read (get : σ → α → β) (a : α) (s : Traced σ α) : β × Traced σ α :=
  (get s.state a, { s with accesses := s.accesses ++ [a] })

/-- Write the place `a`. -/
def write (put : σ → α → β → σ) (a : α) (v : β) (s : Traced σ α) : Traced σ α :=
  ⟨put s.state a v, s.accesses ++ [a]⟩

/-- Change a part of the state whose accesses are not recorded. -/
def silently (f : σ → σ) (s : Traced σ α) : Traced σ α :=
  { s with state := f s.state }

@[simp] theorem silently_state (f : σ → σ) (s : Traced σ α) :
    (s.silently f).state = f s.state := rfl

end Traced

/-! ## Reads and writes -/

/-- How a program reads, writes and otherwise changes a state of `σ`, which is a part of what it
runs on. -/
structure MemoryAccess (σ α β τ : Type*) where
  state : τ → σ
  read : α → τ → β × τ
  write : α → β → τ → τ
  silently : (σ → σ) → τ → τ

namespace MemoryAccess

variable {σ α β τ υ : Type*}

/-- The program runs on the state itself. -/
@[simps] def direct (get : σ → α → β) (put : σ → α → β → σ) : MemoryAccess σ α β σ where
  state := id
  read a s := (get s a, s)
  write a v s := put s a v
  silently f s := f s

/-- The accesses are recorded. -/
@[simps] def recording (get : σ → α → β) (put : σ → α → β → σ) :
    MemoryAccess σ α β (Traced σ α) where
  state := Traced.state
  read := Traced.read get
  write := Traced.write put
  silently := Traced.silently

/-- A map that respects the accesses. -/
structure Hom (m : MemoryAccess σ α β τ) (m' : MemoryAccess σ α β υ) (φ : τ → υ) : Prop where
  state : ∀ s, m'.state (φ s) = m.state s
  read : ∀ a s, m'.read a (φ s) = ((m.read a s).1, φ (m.read a s).2)
  write : ∀ a v s, φ (m.write a v s) = m'.write a v (φ s)
  silently : ∀ f s, φ (m.silently f s) = m'.silently f (φ s)

/-- Forgetting the record. -/
theorem recording_hom (get : σ → α → β) (put : σ → α → β → σ) :
    Hom (recording get put) (direct get put) Traced.state :=
  ⟨fun _ => rfl, fun _ _ => rfl, fun _ _ _ => rfl, fun _ _ => rfl⟩

/-- A map that the body of a loop respects is respected by the loop. -/
theorem map_fold {φ : τ → υ} {n : Nat} {f : (i : Nat) → i < n → τ → τ}
    {g : (i : Nat) → i < n → υ → υ} (h : ∀ i hi s, φ (f i hi s) = g i hi (φ s)) (s : τ) :
    φ (Nat.fold n f s) = Nat.fold n g (φ s) := by
  induction n with
  | zero => rfl
  | succ n ih => rw [Nat.fold_succ, Nat.fold_succ, h, ih fun i hi s => h i (by omega) s]

end MemoryAccess

/-! ## The places -/

/-- From `s` to `s'` only places of `D` are accessed. -/
def Within {σ α : Type*} (D : Set α) (s s' : Traced σ α) : Prop :=
  ∀ a ∈ s'.accesses, a ∈ s.accesses ∨ a ∈ D

namespace Within

variable {σ α β : Type*} {D : Set α}

theorem refl (s : Traced σ α) : Within D s s := fun _ ha => Or.inl ha

theorem trans {s₁ s₂ s₃ : Traced σ α} (h₁ : Within D s₁ s₂) (h₂ : Within D s₂ s₃) :
    Within D s₁ s₃ := by
  intro a ha
  rcases h₂ a ha with ha | ha
  · exact h₁ a ha
  · exact Or.inr ha

theorem of_append {s : Traced σ α} {a : α} (ha : a ∈ D) (state : σ) :
    Within D s ⟨state, s.accesses ++ [a]⟩ := by
  intro c hc
  rcases List.mem_append.mp hc with hc | hc
  · exact Or.inl hc
  · exact Or.inr (List.mem_singleton.mp hc ▸ ha)

theorem read (get : σ → α → β) {a : α} (ha : a ∈ D) (s : Traced σ α) :
    Within D s (s.read get a).2 := of_append ha s.state

theorem write (put : σ → α → β → σ) {a : α} (ha : a ∈ D) (v : β) (s : Traced σ α) :
    Within D s (s.write put a v) := of_append ha _

theorem silently (f : σ → σ) (s : Traced σ α) : Within D s (s.silently f) := refl s

/-- A loop whose body accesses places of `D` only. -/
theorem fold {n : Nat} {f : (i : Nat) → i < n → Traced σ α → Traced σ α}
    (h : ∀ i hi s, Within D s (f i hi s)) (s : Traced σ α) : Within D s (Nat.fold n f s) := by
  induction n with
  | zero => exact refl s
  | succ n ih =>
      rw [Nat.fold_succ]
      exact (ih fun i hi s => h i (by omega) s).trans (h n (by omega) _)

/-- What a program accesses that has accessed nothing before. -/
theorem mem {s : σ} {s' : Traced σ α} (h : Within D (.start s) s') {a : α}
    (ha : a ∈ s'.accesses) : a ∈ D :=
  (h a ha).resolve_left List.not_mem_nil

end Within

end AccessTrace
