import Mathlib.Data.List.Basic

/-!
# Concatenating blocks of one size

The concatenation of `n` blocks of `size` elements each is read block-wise: the
element at `p` is the element at `p % size` of block `p / size`. `split` cuts a list
into such blocks and a shorter rest.
-/

namespace Blocks

variable {α : Type*}

theorem length_flatMap_range (f : Nat → List α) (size : Nat) (hf : ∀ j, (f j).length = size)
    (n : Nat) : ((List.range n).flatMap f).length = n * size := by
  induction n with
  | zero => simp
  | succ n ih =>
      rw [List.range_succ, List.flatMap_append, List.length_append, ih, Nat.succ_mul]
      simp [hf]

theorem getElem?_flatMap_range (f : Nat → List α) (size : Nat) (hf : ∀ j, (f j).length = size)
    (n p : Nat) (hp : p < n * size) :
    ((List.range n).flatMap f)[p]? = (f (p / size))[p % size]? := by
  induction n with
  | zero => simp at hp
  | succ n ih =>
      have hlen := length_flatMap_range f size hf n
      have hpos : 0 < size := by
        rcases Nat.eq_zero_or_pos size with h0 | hpos
        · simp [h0] at hp
        · exact hpos
      rw [List.range_succ, List.flatMap_append]
      by_cases hlt : p < n * size
      · rw [List.getElem?_append_left (by omega), ih hlt]
      · -- the element is in the last block
        have hsum : p = n * size + (p - n * size) := by omega
        have hoff : p - n * size < size := by rw [Nat.succ_mul] at hp; omega
        have hdiv : p / size = n := by
          rw [hsum, Nat.mul_comm n size, Nat.mul_add_div hpos, Nat.div_eq_of_lt (by
            rw [Nat.mul_comm size n]; exact hoff), Nat.add_zero]
        have hmod : p % size = p - n * size := by
          rw [Nat.mod_eq_sub, hdiv, Nat.mul_comm]
        rw [List.getElem?_append_right (by omega), hlen, hdiv, hmod]
        simp

/-! ## Cutting into blocks -/

/-- A list in pieces of one size, of which the last may be shorter. -/
def split (size : Nat) (l : List α) : List (List α) :=
  if _h : size = 0 ∨ l = [] then [] else l.take size :: split size (l.drop size)
termination_by l.length
decreasing_by
  obtain ⟨hsize, hne⟩ := not_or.mp _h
  have hpos := List.length_pos_iff.mpr hne
  rw [List.length_drop]
  omega

theorem split_nil (size : Nat) : split size ([] : List α) = [] := by
  rw [split, dif_pos (Or.inr rfl)]

theorem split_of_ne {size : Nat} {l : List α} (hsize : size ≠ 0) (hl : l ≠ []) :
    split size l = l.take size :: split size (l.drop size) := by
  rw [split, dif_neg (not_or.mpr ⟨hsize, hl⟩)]

theorem flatten_split {size : Nat} (hsize : size ≠ 0) (l : List α) :
    (split size l).flatten = l := by
  induction l using split.induct size with
  | case1 l h => rw [h.resolve_left hsize, split_nil, List.flatten_nil]
  | case2 l h ih =>
      obtain ⟨-, hne⟩ := not_or.mp h
      rw [split_of_ne hsize hne, List.flatten_cons, ih, List.take_append_drop]

end Blocks
