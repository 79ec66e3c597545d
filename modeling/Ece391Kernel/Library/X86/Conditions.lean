import Mathlib.Data.BitVec

/-!
# Conditions

The flags that a comparison or a test of two operands of the same size leaves, and the conditions
that branches and conditional moves take from them. Operands are in the order of the result, that
is `cmpFlags a b` are the flags of `a - b`.
-/

namespace X86

structure Flags where
  carry : Bool
  zero : Bool
  sign : Bool
  overflow : Bool

section Flags

variable {w : Nat}

def cmpFlags (a b : BitVec w) : Flags where
  carry := a.ult b
  zero := a - b == 0
  sign := (a - b).msb
  overflow := a.ssubOverflow b

/-- A test has neither carry nor overflow. -/
def testFlags (a b : BitVec w) : Flags where
  carry := false
  zero := a &&& b == 0
  sign := (a &&& b).msb
  overflow := false

namespace Flags

/-- Zero, or equal. -/
def z (f : Flags) : Bool := f.zero

/-- Above or equal, for unsigned operands. -/
def ae (f : Flags) : Bool := !f.carry

/-- Less, for signed operands. -/
def l (f : Flags) : Bool := f.sign != f.overflow

/-- Greater, for signed operands. -/
def g (f : Flags) : Bool := !f.zero && !f.l

end Flags

theorem cmpFlags_ae (a b : BitVec w) : (cmpFlags a b).ae = decide (b.toNat ≤ a.toNat) := by
  simp only [cmpFlags, Flags.ae, BitVec.ult]
  rw [← decide_not, decide_eq_decide]
  exact Nat.not_lt

/-- The sign of the difference, corrected by the overflow. -/
theorem cmpFlags_l (a b : BitVec w) : (cmpFlags a b).l = a.slt b := by
  unfold cmpFlags Flags.l
  rw [BitVec.slt_eq_decide]
  by_cases hover : a.ssubOverflow b = true
  · have hsigns := hover
    rw [BitVec.ssubOverflow_eq, BitVec.msb_eq_toInt, BitVec.msb_eq_toInt] at hsigns
    rw [hover]
    cases hmsb : (a - b).msb <;> simp [hmsb] at hsigns ⊢ <;> omega
  · rw [BitVec.msb_eq_toInt, BitVec.toInt_sub_of_not_ssubOverflow hover, eq_false_of_ne_true hover]
    simp

theorem cmpFlags_zero (a b : BitVec w) : (cmpFlags a b).zero = decide (a = b) := by
  simp only [cmpFlags, beq_eq_decide, BitVec.sub_eq_iff_eq_add, zero_add]

theorem cmpFlags_g (a b : BitVec w) : (cmpFlags a b).g = b.slt a := by
  unfold Flags.g
  rw [cmpFlags_l, cmpFlags_zero, BitVec.slt_eq_decide, BitVec.slt_eq_decide]
  by_cases heq : a = b
  · simp [heq]
  · have hne : a.toInt ≠ b.toInt := fun h => heq (BitVec.eq_of_toInt_eq h)
    rw [decide_eq_false heq, Bool.not_false, Bool.true_and, ← decide_not, decide_eq_decide]
    omega

theorem testFlags_z (a b : BitVec w) : (testFlags a b).z = decide (a &&& b = 0) := by
  simp [testFlags, Flags.z, beq_eq_decide]

/-- A test finds less only where both operands are negative. -/
theorem testFlags_l (a b : BitVec w) : (testFlags a b).l = (a.msb && b.msb) := by
  simp [testFlags, Flags.l]

end Flags

end X86
