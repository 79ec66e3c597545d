import Ece391Kernel.FileSystem.Directory
import Ece391Kernel.Library.Memory

/-!
# Strings in memory

`Spells` says which string begins at a pointer: its bytes, none of which is zero, and the
terminator. What lies behind the terminator is left open.
-/

namespace Ece391Kernel

open ByteMemory

/-- The bytes from a pointer on. -/
def stringAt (m : Int → UInt8) (a : Int) : Nat → UInt8 := fun i => m (a + i)

/-- At a pointer there is this string, with its terminator. -/
structure Spells (s : Nat → UInt8) (str : List UInt8) : Prop where
  ne_zero : ∀ c ∈ str, c ≠ 0
  length_lt : str.length < 2 ^ 32
  byte_eq : ∀ i ≤ str.length, s i = str.getD i 0

namespace Spells

variable {s : Nat → UInt8} {str : List UInt8}

theorem byte_of_lt (h : Spells s str) {i : Nat} (hi : i < str.length) : s i = str[i] := by
  rw [h.byte_eq i (Nat.le_of_lt hi), List.getD_eq_getElem _ _ hi]

theorem byte_ne_zero (h : Spells s str) {i : Nat} (hi : i < str.length) : s i ≠ 0 := by
  rw [h.byte_of_lt hi]
  exact h.ne_zero _ (List.getElem_mem hi)

theorem end_eq (h : Spells s str) : s str.length = 0 := by
  rw [h.byte_eq _ (Nat.le_refl _), List.getD_eq_default _ _ (Nat.le_refl _)]

/-- The rest of a string is a string. -/
theorem drop (h : Spells s str) {k : Nat} (hk : k ≤ str.length) :
    Spells (fun i => s (k + i)) (str.drop k) := by
  refine ⟨fun c hc => h.ne_zero c (List.mem_of_mem_drop hc), ?_, fun i hi => ?_⟩
  · have hlt := h.length_lt
    rw [List.length_drop]
    omega
  · rw [List.length_drop] at hi
    rw [h.byte_eq _ (by omega), List.getD_eq_getElem?_getD, List.getD_eq_getElem?_getD,
      List.getElem?_drop]

theorem strlenFrom_eq (h : Spells s str) {k i : Nat} (hi : i ≤ str.length)
    (hk : str.length < i + k) : strlenFrom s k i = str.length := by
  induction k generalizing i with
  | zero => omega
  | succ k ih =>
      unfold strlenFrom
      rcases Nat.lt_or_eq_of_le hi with hlt | rfl
      · rw [if_neg (h.byte_ne_zero hlt)]
        exact ih hlt (by omega)
      · rw [if_pos h.end_eq]

theorem strlen_eq (h : Spells s str) : strlen s = str.length :=
  h.strlenFrom_eq (Nat.zero_le _) (by have hlt := h.length_lt; omega)

/-- A string is read up to its terminator. -/
theorem stringFrom_eq (h : Spells s str) {k i : Nat} (hi : i ≤ str.length)
    (hk : str.length < i + k) : stringFrom s k i = str.drop i := by
  induction k generalizing i with
  | zero => omega
  | succ k ih =>
      unfold stringFrom
      rcases Nat.lt_or_eq_of_le hi with hlt | rfl
      · rw [if_neg (h.byte_ne_zero hlt), h.byte_of_lt hlt, ih hlt (by omega),
          ← List.drop_eq_getElem_cons hlt]
      · rw [if_pos h.end_eq, List.drop_length]

end Spells

section Stored

variable {str : List UInt8}

/-- A byte of a string that is stored, or its terminator. -/
theorem storeFrom_string (m : Int → UInt8) (buf : Int) {i : Nat} (hi : i ≤ str.length) :
    storeFrom m buf (str ++ [0]) (buf + i) = str.getD i 0 := by
  rw [storeFrom_add]
  rcases Nat.lt_or_eq_of_le hi with hlt | rfl
  · rw [List.getD_append _ _ _ _ hlt, List.getD_eq_getElem _ _ hlt, List.getD_eq_getElem _ _ hlt]
  · rw [List.getD_append_right _ _ _ _ (Nat.le_refl _), Nat.sub_self,
      List.getD_eq_default _ _ (Nat.le_refl _)]
    rfl

theorem spells_storeFrom (hbytes : ∀ c ∈ str, c ≠ 0) (hlen : str.length < 2 ^ 32)
    (m : Int → UInt8) (buf : Int) : Spells (stringAt (storeFrom m buf (str ++ [0])) buf) str :=
  ⟨hbytes, hlen, fun _ hi => storeFrom_string m buf hi⟩

end Stored

end Ece391Kernel
