import Ece391Kernel.FileSystem.Image
import Mathlib.Data.List.GetD

/-!
# The directory

The string functions of `lib.c` that the directory code uses, and the search for
a name over `direntries`, which `sys_execute` and `sys_open` both write out.
-/

namespace Ece391Kernel

/-- A byte as an `int8_t`. -/
def int8 (c : UInt8) : Int := c.toInt8.toInt

/-- The loop of `strncmp` from index `i`, with `n` characters to go. -/
def strncmpFrom (s1 s2 : Nat → UInt8) : Nat → Nat → Int
  | 0, _ => 0
  | n + 1, i =>
      if s1 i ≠ s2 i ∨ s1 i = 0 then int8 (s1 i) - int8 (s2 i)
      else strncmpFrom s1 s2 n (i + 1)

/-- `strncmp`. -/
def strncmp (s1 s2 : Nat → UInt8) (n : Nat) : Int := strncmpFrom s1 s2 n 0

/-- The loop of `strlen` from index `i`, with `n` bytes to go. -/
def strlenFrom (s : Nat → UInt8) : Nat → Nat → Nat
  | 0, i => i
  | n + 1, i => if s i = 0 then i else strlenFrom s n (i + 1)

/-- `strlen`; an address space without a zero byte would keep it running. -/
def strlen (s : Nat → UInt8) : Nat := strlenFrom s (2 ^ 32) 0

/-- The search of `sys_execute` and `sys_open`: the first entry below `dir_count`
whose name `strncmp` finds equal. -/
def findDirentry (b : Boot) (name : Nat → UInt8) : Option Nat :=
  (List.range (dirCount b).toNat).find? fun i =>
    strncmp name (direntryName b i) filenameLen == 0

/-- The bytes of a string from index `i` up to its terminator, or `n` of them. -/
def stringFrom (s : Nat → UInt8) : Nat → Nat → List UInt8
  | 0, _ => []
  | n + 1, i => if s i = 0 then [] else s i :: stringFrom s n (i + 1)

/-- The name of a directory entry, which has no terminator when it fills its field. -/
def entryName (b : Boot) (i : Nat) : List UInt8 := stringFrom (direntryName b i) filenameLen 0

/-! ## What the search finds -/

/-- The strings agree up to the first terminator, or on `n` bytes. -/
def SameName (s1 s2 : Nat → UInt8) (n : Nat) : Prop :=
  ∀ j < n, (∀ l < j, s1 l ≠ 0) → s1 j = s2 j

theorem int8_inj {c d : UInt8} : int8 c = int8 d ↔ c = d := by
  unfold int8
  rw [Int8.toInt_inj]
  exact ⟨fun h => congrArg Int8.toUInt8 h, fun h => congrArg UInt8.toInt8 h⟩

theorem strncmpFrom_eq_zero (s1 s2 : Nat → UInt8) (n i : Nat) :
    strncmpFrom s1 s2 n i = 0 ↔
      ∀ j, i ≤ j → j < i + n → (∀ l, i ≤ l → l < j → s1 l ≠ 0) → s1 j = s2 j := by
  induction n generalizing i with
  | zero =>
      refine ⟨fun _ j hij hj => by omega, fun _ => rfl⟩
  | succ n ih =>
      unfold strncmpFrom
      split
      · rename_i hstop
        have hzero : int8 (s1 i) - int8 (s2 i) = 0 ↔ s1 i = s2 i := by
          rw [Int.sub_eq_zero, int8_inj]
        rw [hzero]
        constructor
        · intro heq j hij hj hbefore
          rcases Nat.eq_or_lt_of_le hij with rfl | hlt
          · exact heq
          · rcases hstop with hne | hnul
            · exact absurd heq hne
            · exact absurd hnul (hbefore i (by omega) hlt)
        · intro hsame
          exact hsame i (by omega) (by omega) fun l hil hl => by omega
      · rename_i hgo
        obtain ⟨hsame, hnonzero⟩ := not_or.mp hgo
        have heq : s1 i = s2 i := not_not.mp hsame
        rw [ih (i + 1)]
        constructor
        · intro hsame j hij hj hbefore
          rcases Nat.eq_or_lt_of_le hij with rfl | hlt
          · exact heq
          · exact hsame j (by omega) (by omega) fun l hil hl => hbefore l (by omega) hl
        · intro hsame j hij hj hbefore
          refine hsame j (by omega) (by omega) fun l hil hl => ?_
          rcases Nat.eq_or_lt_of_le hil with rfl | hlt
          · exact hnonzero
          · exact hbefore l (by omega) hl

theorem strncmp_eq_zero {s1 s2 : Nat → UInt8} {n : Nat} :
    strncmp s1 s2 n = 0 ↔ SameName s1 s2 n := by
  unfold strncmp SameName
  rw [strncmpFrom_eq_zero]
  constructor
  · intro h j hj hbefore
    exact h j (by omega) (by omega) fun l _ hl => hbefore l hl
  · intro h j _ hj hbefore
    exact h j (by omega) fun l hl => hbefore l (by omega) hl

/-- `strncmp` compares the strings up to the terminator or to `n` bytes. -/
theorem strncmpFrom_eq_zero_iff_string (s1 s2 : Nat → UInt8) (n i : Nat) :
    strncmpFrom s1 s2 n i = 0 ↔ stringFrom s1 n i = stringFrom s2 n i := by
  induction n generalizing i with
  | zero => exact ⟨fun _ => rfl, fun _ => rfl⟩
  | succ n ih =>
      have hdiff : int8 (s1 i) - int8 (s2 i) = 0 ↔ s1 i = s2 i := by
        rw [Int.sub_eq_zero, int8_inj]
      unfold strncmpFrom stringFrom
      by_cases hsame : s1 i = s2 i
      · by_cases hnul : s1 i = 0
        · rw [if_pos (Or.inr hnul), hdiff, if_pos hnul, if_pos (hsame ▸ hnul)]
          exact ⟨fun _ => rfl, fun _ => hsame⟩
        · rw [if_neg (by simp [hsame, hsame ▸ hnul]), if_neg hnul, if_neg (hsame ▸ hnul), ih, hsame]
          simp
      · rw [if_pos (Or.inl hsame), hdiff]
        refine iff_of_false hsame fun heq => ?_
        split at heq <;> split at heq
        · rename_i hnul hnul'
          exact hsame (hnul.trans hnul'.symm)
        · exact absurd heq (by simp)
        · exact absurd heq (by simp)
        · exact hsame (List.cons.inj heq).1

theorem findDirentry_eq_find (b : Boot) (name : Nat → UInt8) :
    findDirentry b name = (List.range (dirCount b).toNat).find? fun i =>
      entryName b i == stringFrom name filenameLen 0 := by
  unfold findDirentry
  congr 1
  funext i
  have hiff := strncmpFrom_eq_zero_iff_string name (direntryName b i) filenameLen 0
  unfold strncmp
  rw [Bool.eq_iff_iff, beq_iff_eq, beq_iff_eq, hiff]
  exact eq_comm

/-- The first entry of the directory with the name. -/
structure FirstNamed (b : Boot) (name : List UInt8) (i : Nat) : Prop where
  lt : (i : Int) < dirCount b
  name_eq : entryName b i = name
  first : ∀ j < i, entryName b j ≠ name

theorem findDirentry_eq_some {b : Boot} {name : Nat → UInt8} {i : Nat} :
    findDirentry b name = some i ↔ FirstNamed b (stringFrom name filenameLen 0) i := by
  rw [findDirentry_eq_find, List.find?_range_eq_some]
  constructor
  · rintro ⟨hname, hlt, hfirst⟩
    rw [List.mem_range] at hlt
    exact ⟨by omega, by simpa using hname, fun j hj => by simpa using hfirst j hj⟩
  · rintro ⟨hlt, hname, hfirst⟩
    refine ⟨by simpa using hname, List.mem_range.mpr (by omega), fun j hj => ?_⟩
    simpa using hfirst j hj

theorem stringFrom_length_le (s : Nat → UInt8) (n i : Nat) : (stringFrom s n i).length ≤ n := by
  induction n generalizing i with
  | zero => exact Nat.le_refl 0
  | succ n ih =>
      unfold stringFrom
      split
      · exact Nat.zero_le _
      · rw [List.length_cons]
        exact Nat.succ_le_succ (ih (i + 1))

theorem stringFrom_nonzero (s : Nat → UInt8) (n i : Nat) : ∀ c ∈ stringFrom s n i, c ≠ 0 := by
  induction n generalizing i with
  | zero => exact fun c hc => absurd hc List.not_mem_nil
  | succ n ih =>
      unfold stringFrom
      split
      · exact fun c hc => absurd hc List.not_mem_nil
      · rename_i hne
        intro c hc
        rcases List.mem_cons.mp hc with rfl | hc
        · exact hne
        · exact ih (i + 1) c hc

theorem stringFrom_congr {s s' : Nat → UInt8} {n i : Nat}
    (h : ∀ j, i ≤ j → j < i + n → s j = s' j) :
    stringFrom s n i = stringFrom s' n i := by
  induction n generalizing i with
  | zero => rfl
  | succ n ih =>
      unfold stringFrom
      rw [h i (Nat.le_refl i) (by omega), ih fun j hj hj' => h j (by omega) (by omega)]

/-- The string that a list of bytes without a terminator spells. -/
theorem stringFrom_getD {l : List UInt8} (h : ∀ c ∈ l, c ≠ 0) (n i : Nat) :
    stringFrom (fun j => l.getD j 0) n i = (l.drop i).take n := by
  induction n generalizing i with
  | zero => simp [stringFrom]
  | succ n ih =>
      unfold stringFrom
      by_cases hi : i < l.length
      · have hget : l.getD i 0 = l[i] := List.getD_eq_getElem l 0 hi
        rw [hget, if_neg (h _ (List.getElem_mem hi)), ih, List.drop_eq_getElem_cons hi,
          List.take_succ_cons]
      · rw [List.getD_eq_default _ _ (by omega), if_pos rfl, List.drop_eq_nil_of_le (by omega),
          List.take_nil]

theorem findDirentry_eq_none {b : Boot} {name : Nat → UInt8} :
    findDirentry b name = none ↔
      ∀ i : Nat, i < dirCount b → ¬SameName name (direntryName b i) filenameLen := by
  unfold findDirentry
  rw [List.find?_range_eq_none]
  constructor
  · intro h i hi hsame
    have hne := h i (by omega)
    rw [strncmp_eq_zero.mpr hsame] at hne
    exact absurd hne (by decide)
  · intro h i hi
    have hne := mt strncmp_eq_zero.mp (h i (by omega))
    simpa using hne

theorem findDirentry_lt {b : Boot} {name : Nat → UInt8} {idx : Nat}
    (h : findDirentry b name = some idx) : (idx : Int) < dirCount b := by
  have hmem := List.mem_of_find?_eq_some h
  rw [List.mem_range] at hmem
  omega

end Ece391Kernel
