import Mathlib.Data.Set.Defs
import Mathlib.Logic.Function.Basic

/-!
# Loops over a byte store

A byte store has states, loads and stores. `Lawful S P D` says that in the
states that satisfy `P` the addresses in `D` behave as separate cells: a load
gives the last byte stored at the address, whatever has been stored at other
addresses of `D`. The loops of C are `Nat.fold`; `fold_invariant` is their rule.
A loop that copies and a loop that fills are described once, for every lawful
store, by what a load gives afterwards.
-/

namespace ByteStore

/-- The rule of the loop `for (i = 0; i < n; i++)`: what holds before the first
iteration and is passed on by each holds after the last. -/
theorem fold_invariant {σ : Type*} (P : Nat → σ → Prop) :
    ∀ (n : Nat) (f : (i : Nat) → i < n → σ → σ) (s : σ), P 0 s →
      (∀ i (hi : i < n) s, P i s → P (i + 1) (f i hi s)) → P n (Nat.fold n f s)
  | 0, _, _, h0, _ => h0
  | n + 1, f, s, h0, hstep => by
      rw [Nat.fold_succ]
      apply hstep n (by omega)
      exact fold_invariant P n _ s h0 fun i hi s => hstep i (by omega) s

/-- Loads and stores of bytes. -/
structure Store (σ : Type*) where
  get : σ → Nat → UInt8
  put : σ → Nat → UInt8 → σ

/-- In the states of `P` the addresses of `D` are separate cells. -/
structure Lawful {σ : Type*} (S : Store σ) (P : σ → Prop) (D : Set Nat) : Prop where
  put_inv : ∀ s a v, P s → a ∈ D → P (S.put s a v)
  get_put_same : ∀ s a v, P s → a ∈ D → S.get (S.put s a v) a = v
  get_put_ne : ∀ s a v c, P s → a ∈ D → c ∈ D → c ≠ a → S.get (S.put s a v) c = S.get s c

namespace Lawful

variable {σ : Type*} {S : Store σ} {P : σ → Prop} {D : Set Nat}

theorem get_put (h : Lawful S P D) {s : σ} {a c : Nat} {v : UInt8} (hs : P s)
    (ha : a ∈ D) (hc : c ∈ D) :
    S.get (S.put s a v) c = if c = a then v else S.get s c := by
  split
  · rename_i hca
    subst hca
    exact h.get_put_same s c v hs ha
  · rename_i hca
    exact h.get_put_ne s a v c hs ha hc hca

/-- A loop that copies the byte at `src i` to `dst i`: if no byte is copied after
the loop has overwritten it and no place is written twice, every written place
holds the byte that was at its source, and every other place is unchanged. -/
theorem copy_loop (h : Lawful S P D) (n : Nat) (dst src : Nat → Nat)
    (hdst : ∀ i < n, dst i ∈ D) (hsrc : ∀ i < n, src i ∈ D)
    (hinj : ∀ i < n, ∀ j < n, dst i = dst j → i = j)
    (hfresh : ∀ i < n, ∀ j < i, src i ≠ dst j) {s : σ} (hs : P s) :
    let s' := Nat.fold n (fun i _ s => S.put s (dst i) (S.get s (src i))) s
    P s' ∧ (∀ i < n, S.get s' (dst i) = S.get s (src i)) ∧
      ∀ c ∈ D, (∀ i < n, c ≠ dst i) → S.get s' c = S.get s c := by
  apply fold_invariant (fun m s' =>
    P s' ∧ (∀ i < m, S.get s' (dst i) = S.get s (src i)) ∧
      ∀ c ∈ D, (∀ i < m, c ≠ dst i) → S.get s' c = S.get s c) n
  · exact ⟨hs, fun i hi => absurd hi (Nat.not_lt_zero i), fun c _ _ => rfl⟩
  · intro m hm t ht
    obtain ⟨hP, hdone, hrest⟩ := ht
    have hsame : S.get t (src m) = S.get s (src m) :=
      hrest _ (hsrc m hm) fun j hj => hfresh m hm j hj
    refine ⟨h.put_inv _ _ _ hP (hdst m hm), ?_, ?_⟩
    · intro i hi
      rw [h.get_put hP (hdst m hm) (hdst i (by omega)), hsame]
      split
      · rename_i heq
        rw [hinj i (by omega) m hm heq]
      · rename_i hne
        exact hdone i (by
          rcases Nat.lt_succ_iff_lt_or_eq.mp hi with hlt | rfl
          · exact hlt
          · exact absurd rfl hne)
    · intro c hc hout
      rw [h.get_put hP (hdst m hm) hc, if_neg (hout m (by omega))]
      exact hrest c hc fun i hi => hout i (by omega)

/-- A loop that stores `u` at `dst i` and `v` at the next address. -/
theorem fill_loop (h : Lawful S P D) (n : Nat) (dst : Nat → Nat) (u v : UInt8)
    (hdst : ∀ i < n, dst i ∈ D) (hnext : ∀ i < n, dst i + 1 ∈ D)
    (hsep : ∀ i < n, ∀ j < n, dst i ≠ dst j + 1) {s : σ} (hs : P s) :
    let s' := Nat.fold n (fun i _ s => S.put (S.put s (dst i) u) (dst i + 1) v) s
    P s' ∧ (∀ i < n, S.get s' (dst i) = u ∧ S.get s' (dst i + 1) = v) ∧
      ∀ c ∈ D, (∀ i < n, c ≠ dst i ∧ c ≠ dst i + 1) → S.get s' c = S.get s c := by
  apply fold_invariant (fun m s' =>
    P s' ∧ (∀ i < m, S.get s' (dst i) = u ∧ S.get s' (dst i + 1) = v) ∧
      ∀ c ∈ D, (∀ i < m, c ≠ dst i ∧ c ≠ dst i + 1) → S.get s' c = S.get s c) n
  · exact ⟨hs, fun i hi => absurd hi (Nat.not_lt_zero i), fun c _ _ => rfl⟩
  · intro m hm t ht
    obtain ⟨hP, hdone, hrest⟩ := ht
    have hP' : P (S.put t (dst m) u) := h.put_inv _ _ _ hP (hdst m hm)
    have hget : ∀ c ∈ D, S.get (S.put (S.put t (dst m) u) (dst m + 1) v) c =
        if c = dst m + 1 then v else if c = dst m then u else S.get t c := by
      intro c hc
      rw [h.get_put hP' (hnext m hm) hc, h.get_put hP (hdst m hm) hc]
    refine ⟨h.put_inv _ _ _ hP' (hnext m hm), ?_, ?_⟩
    · intro i hi
      have him : i < n := by omega
      rw [hget _ (hdst i him), hget _ (hnext i him), if_neg (hsep i him m hm)]
      by_cases heq : dst i = dst m
      · exact ⟨by rw [if_pos heq], by rw [heq, if_pos rfl]⟩
      · have hlt : i < m := by
          rcases Nat.lt_succ_iff_lt_or_eq.mp hi with hlt | rfl
          · exact hlt
          · exact absurd rfl heq
        have hsep' : dst i + 1 ≠ dst m := fun hc => hsep m hm i him hc.symm
        rw [if_neg heq, if_neg (by omega), if_neg hsep']
        exact hdone i hlt
    · intro c hc hout
      rw [hget c hc, if_neg (hout m (by omega)).2, if_neg (hout m (by omega)).1]
      exact hrest c hc fun i hi => hout i (by omega)

end Lawful

end ByteStore
