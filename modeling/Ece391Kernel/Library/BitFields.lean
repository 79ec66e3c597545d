import Mathlib.Algebra.Order.Ring.Nat
import Mathlib.Data.List.Basic

/-!
# Packed bit fields

A packed structure of bit fields is a number: each field has a width and a value, and the first one
is in the lowest bits. A value that does not fit is cut. What another party reads at an offset is
the field that has been packed there, whatever the other fields hold.
-/

namespace BitFields

/-- The word of fields, each given by its width and its value. -/
def pack : List (Nat × Nat) → Nat
  | [] => 0
  | (width, value) :: fields => value % 2 ^ width + 2 ^ width * pack fields

/-- The bits from an offset on. -/
def field (offset width word : Nat) : Nat := word / 2 ^ offset % 2 ^ width

/-- The bits that fields take. -/
def totalWidth (fields : List (Nat × Nat)) : Nat := (fields.map Prod.fst).sum

theorem pack_lt (fields : List (Nat × Nat)) : pack fields < 2 ^ totalWidth fields := by
  induction fields with
  | nil => simp [pack, totalWidth]
  | cons f fields ih =>
      obtain ⟨width, value⟩ := f
      have hwidth : totalWidth ((width, value) :: fields) = width + totalWidth fields := rfl
      have hlow : value % 2 ^ width < 2 ^ width := Nat.mod_lt _ (Nat.two_pow_pos width)
      rw [hwidth, Nat.pow_add, pack]
      calc value % 2 ^ width + 2 ^ width * pack fields
          < 2 ^ width + 2 ^ width * pack fields := Nat.add_lt_add_right hlow _
        _ = 2 ^ width * (pack fields + 1) := by rw [Nat.mul_add, Nat.mul_one, Nat.add_comm]
        _ ≤ 2 ^ width * 2 ^ totalWidth fields := Nat.mul_le_mul_left _ ih

/-- The first fields are in the low bits. -/
theorem pack_append (fields rest : List (Nat × Nat)) :
    pack (fields ++ rest) = pack fields + 2 ^ totalWidth fields * pack rest := by
  induction fields with
  | nil => simp [pack, totalWidth]
  | cons f fields ih =>
      obtain ⟨width, value⟩ := f
      have hwidth : totalWidth ((width, value) :: fields) = width + totalWidth fields := rfl
      rw [hwidth, Nat.pow_add, List.cons_append, pack, pack, ih, Nat.mul_add, Nat.add_assoc,
        Nat.mul_assoc]

/-- Fields are read together where they have been packed. -/
theorem field_pack (before fields rest : List (Nat × Nat)) :
    field (totalWidth before) (totalWidth fields) (pack (before ++ fields ++ rest)) =
      pack fields := by
  have hbefore := pack_lt before
  have hfields := pack_lt fields
  unfold field
  rw [List.append_assoc, pack_append before, Nat.add_mul_div_left _ _ (Nat.two_pow_pos _),
    Nat.div_eq_of_lt hbefore, Nat.zero_add, pack_append fields, Nat.add_mul_mod_self_left,
    Nat.mod_eq_of_lt hfields]

@[simp] theorem pack_singleton (width value : Nat) : pack [(width, value)] = value % 2 ^ width := by
  simp [pack]

/-- A part of a number that a mask selects. -/
theorem and_mask_shiftRight (n offset width : Nat) :
    (n &&& (2 ^ width - 1) <<< offset) >>> offset = field offset width n := by
  unfold field
  rw [Nat.shiftRight_and_distrib, Nat.shiftLeft_shiftRight, Nat.and_two_pow_sub_one_eq_mod,
    Nat.shiftRight_eq_div_pow]

/-- Neighbouring parts of a number are one part. -/
theorem field_add (offset width width' n : Nat) :
    field offset width n + 2 ^ width * field (offset + width) width' n =
      field offset (width + width') n := by
  unfold field
  rw [Nat.pow_add, Nat.pow_add, Nat.mod_mul, Nat.div_div_eq_div_mul]

theorem field_of_lt {width n : Nat} (hn : n < 2 ^ width) : field 0 width n = n := by
  unfold field
  rw [Nat.pow_zero, Nat.div_one, Nat.mod_eq_of_lt hn]

@[simp] theorem field_mod (offset width n : Nat) :
    field offset width n % 2 ^ width = field offset width n := Nat.mod_mod _ _

end BitFields
