import Ece391Kernel.Printing.Strings

/-!
# The strings of the user library

`ece391_strlen`, `ece391_strcpy`, `ece391_strncmp` and `ece391_fdputs`, each described by the
strings that begin at its pointers.
-/

namespace Ece391Kernel

open ByteMemory

/-! ## The functions -/

/-- `ece391_strlen`. -/
def ece391Strlen (s : Nat → UInt8) : Nat := strlen s

/-- The loop of `ece391_strcpy`, with `n` bytes to go. -/
def ece391StrcpyFrom : Nat → (Int → UInt8) → Int → Int → Int → UInt8
  | 0, m, _, _ => m
  | n + 1, m, dst, src =>
      let m' := Function.update m dst (m src)
      if m src = 0 then m' else ece391StrcpyFrom n m' (dst + 1) (src + 1)

/-- `ece391_strcpy`; an address space without a zero byte would keep it running. -/
def ece391Strcpy (m : Int → UInt8) (dst src : Int) : Int → UInt8 :=
  ece391StrcpyFrom (2 ^ 32) m dst src

/-- The loop of `ece391_strncmp` from index `i`, with `n` bytes to go. -/
def ece391StrncmpFrom (s1 s2 : Nat → UInt8) : Nat → Nat → Int
  | 0, _ => 0
  | n + 1, i =>
      if s1 i = s2 i then
        if s1 i = 0 then 0 else ece391StrncmpFrom s1 s2 n (i + 1)
      else (s1 i).toNat - (s2 i).toNat

/-- `ece391_strncmp`. -/
def ece391Strncmp (s1 s2 : Nat → UInt8) (n : Nat) : Int := ece391StrncmpFrom s1 s2 n 0

/-- The bytes that `ece391_fdputs` has `ece391_write` print. -/
def ece391Fdputs (s : Nat → UInt8) : List UInt8 := (List.range (ece391Strlen s)).map s

/-! ## Strings -/

/-- A string constant. -/
def literal (str : List UInt8) : Nat → UInt8 := fun i => str.getD i 0

theorem spells_literal {str : List UInt8} (hbytes : ∀ c ∈ str, c ≠ 0) (hlen : str.length < 2 ^ 32) :
    Spells (literal str) str :=
  ⟨hbytes, hlen, fun _ _ => rfl⟩

section Specs

variable {s s1 s2 : Nat → UInt8} {str : List UInt8}

theorem Spells.fdputs_eq (h : Spells s str) : ece391Fdputs s = str := by
  unfold ece391Fdputs ece391Strlen
  rw [h.strlen_eq]
  refine List.ext_getElem (by simp) fun i hi hi' => ?_
  rw [List.getElem_map, List.getElem_range, h.byte_of_lt hi']

/-- A string is copied to a place before it, also if the two places meet. -/
theorem ece391StrcpyFrom_eq {m : Int → UInt8} {dst src : Int} (hlt : dst < src) {n : Nat}
    (hn : str.length < n) (h : Spells (stringAt m src) str) :
    ece391StrcpyFrom n m dst src = storeFrom m dst (str ++ [0]) := by
  induction str generalizing m dst src n with
  | nil =>
      obtain ⟨n, rfl⟩ : ∃ k, n = k + 1 := ⟨n - 1, by simp at hn; omega⟩
      have hend : m src = 0 := by simpa [stringAt] using h.end_eq
      rw [ece391StrcpyFrom, if_pos hend, hend]
      rfl
  | cons c str ih =>
      obtain ⟨n, rfl⟩ : ∃ k, n = k + 1 := ⟨n - 1, by simp at hn; omega⟩
      have hc : m src = c := by simpa [stringAt] using h.byte_eq 0 (Nat.zero_le _)
      have hrest : Spells (stringAt (Function.update m dst c) (src + 1)) str := by
        have hdrop := h.drop (k := 1) (by simp)
        refine ⟨hdrop.ne_zero, hdrop.length_lt, fun i hi => ?_⟩
        have hbyte := hdrop.byte_eq i hi
        unfold stringAt at hbyte ⊢
        rw [Function.update_of_ne (by omega), add_assoc]
        exact_mod_cast hbyte
      rw [ece391StrcpyFrom, hc, if_neg (h.ne_zero c List.mem_cons_self)]
      exact ih (by omega) (by simpa using hn) hrest

theorem ece391Strcpy_eq {m : Int → UInt8} {dst src : Int} (hlt : dst < src)
    (h : Spells (stringAt m src) str) :
    ece391Strcpy m dst src = storeFrom m dst (str ++ [0]) :=
  ece391StrcpyFrom_eq hlt h.length_lt h

/-- Equal up to the length of the second string. -/
theorem ece391StrncmpFrom_eq_zero {n i : Nat} (hne : ∀ j, i ≤ j → j < i + n → s2 j ≠ 0) :
    ece391StrncmpFrom s1 s2 n i = 0 ↔ ∀ j, i ≤ j → j < i + n → s1 j = s2 j := by
  induction n generalizing i with
  | zero => exact ⟨fun _ j hij hj => by omega, fun _ => rfl⟩
  | succ n ih =>
      unfold ece391StrncmpFrom
      by_cases heq : s1 i = s2 i
      · have hnext := ih (i := i + 1) fun j hij hj => hne j (by omega) (by omega)
        rw [if_pos heq, if_neg (heq ▸ hne i (by omega) (by omega)), hnext]
        constructor
        · intro h j hij hj
          rcases Nat.eq_or_lt_of_le hij with rfl | hlt
          · exact heq
          · exact h j hlt (by omega)
        · intro h j hij hj
          exact h j (by omega) (by omega)
      · rw [if_neg heq]
        constructor
        · intro hzero
          exact absurd (UInt8.toNat_inj.mp (by omega)) heq
        · intro h
          exact absurd (h i (by omega) (by omega)) heq

/-- Bytes of a string that agree with another one are a prefix. -/
theorem forall_byte_eq_iff_prefix {search : List UInt8} (h1 : Spells s1 str)
    (h2 : Spells s2 search) :
    (∀ j < search.length, s1 j = s2 j) ↔ search <+: str := by
  rw [List.prefix_iff_getElem?]
  constructor
  · intro hsame j hj
    -- the terminator of the first string is no byte of the second
    have hin : ∀ i < search.length, i ≠ str.length := by
      rintro i hi rfl
      exact h2.byte_ne_zero hi ((hsame _ hi).symm.trans h1.end_eq)
    have hlt : j < str.length := by
      by_contra hge
      exact hin str.length (by omega) rfl
    rw [List.getElem?_eq_getElem hlt, ← h1.byte_of_lt hlt, hsame j hj, h2.byte_of_lt hj]
  · intro hpre j hj
    obtain ⟨hlt, hget⟩ := List.getElem?_eq_some_iff.mp (hpre j hj)
    rw [h1.byte_of_lt hlt, h2.byte_of_lt hj, hget]

theorem ece391Strncmp_eq_zero {search : List UInt8} (h1 : Spells s1 str) (h2 : Spells s2 search) :
    ece391Strncmp s1 s2 search.length = 0 ↔ search <+: str := by
  unfold ece391Strncmp
  rw [ece391StrncmpFrom_eq_zero fun j _ hj => h2.byte_ne_zero (by omega),
    ← forall_byte_eq_iff_prefix h1 h2]
  simp

end Specs

end Ece391Kernel
