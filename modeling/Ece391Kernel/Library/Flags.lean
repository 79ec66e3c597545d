import Mathlib.Data.Nat.Basic
import Mathlib.Algebra.Group.Nat.Defs

/-!
# Words that hold an aligned address and flags

A page-table entry is a word whose low bits are flags and whose high bits are an
aligned address, put together with a bitwise or. When the address is a multiple
of `2 ^ w` and the flags are below `2 ^ w` the or is a sum, the address is read
back by clearing the low bits, and the low bits are those of the flags.
-/

namespace FlagWord

theorem or_eq_add {w a f : Nat} (ha : a % 2 ^ w = 0) (hf : f < 2 ^ w) :
    a ||| f = a + f := by
  obtain ⟨q, rfl⟩ := Nat.dvd_of_mod_eq_zero ha
  exact (Nat.two_pow_add_eq_or_of_lt hf q).symm

/-- Clearing the low bits gives the address back. -/
theorem address_or {w a f : Nat} (ha : a % 2 ^ w = 0) (hf : f < 2 ^ w) :
    (a ||| f) / 2 ^ w * 2 ^ w = a := by
  obtain ⟨q, rfl⟩ := Nat.dvd_of_mod_eq_zero ha
  have hpos : 0 < 2 ^ w := Nat.two_pow_pos w
  rw [or_eq_add ha hf, Nat.mul_add_div hpos, Nat.div_eq_of_lt hf, Nat.add_zero, Nat.mul_comm]

/-- A low bit of the word is that bit of the flags. -/
theorem testBit_or_of_lt {w a f i : Nat} (ha : a % 2 ^ w = 0) (hi : i < w) :
    (a ||| f).testBit i = f.testBit i := by
  obtain ⟨q, rfl⟩ := Nat.dvd_of_mod_eq_zero ha
  have hlow : (2 ^ w * q).testBit i = false := by
    rw [Nat.testBit_two_pow_mul]
    simp only [ge_iff_le, Bool.and_eq_false_imp, decide_eq_true_eq]
    intro hle
    omega
  rw [Nat.testBit_or, hlow, Bool.false_or]

end FlagWord
