import Ece391Kernel.Library.Numeral
import Ece391Kernel.Printing.Strings

/-!
# Writing numbers

`itoa` of the kernel and `ece391_itoa` of the user library. The digits are stored with the least
significant one first, and the string is reversed in place. The two differ in the reversal: that
of the library returns at once for strings of at most one byte.
-/

namespace Ece391Kernel

open ByteMemory Numeral

/-- A radix for which there are digits. -/
structure Radix where
  val : Nat
  two_le : 2 ≤ val
  le_digits : val ≤ 36

/-! ## The functions -/

/-- `lookup`: the digits `0` to `9` and `A` to `Z`. -/
def lookup : List UInt8 :=
  [0x30, 0x31, 0x32, 0x33, 0x34, 0x35, 0x36, 0x37, 0x38, 0x39,
    0x41, 0x42, 0x43, 0x44, 0x45, 0x46, 0x47, 0x48, 0x49, 0x4A, 0x4B, 0x4C, 0x4D,
    0x4E, 0x4F, 0x50, 0x51, 0x52, 0x53, 0x54, 0x55, 0x56, 0x57, 0x58, 0x59, 0x5A]

/-- An entry of `lookup`, behind whose digits there is a terminator. -/
def lookupAt (i : Nat) : UInt8 := lookup.getD i 0

/-- The loop of `itoa`: the pointer behind the last digit, and the memory. -/
def itoaLoop (radix : Radix) (newval : Nat) (newbuf : Int) (m : Int → UInt8) :
    Int × (Int → UInt8) :=
  if _h : newval = 0 then (newbuf, m)
  else itoaLoop radix (newval / radix.val) (newbuf + 1)
    (Function.update m newbuf (lookupAt (newval % radix.val)))
termination_by newval
decreasing_by exact Nat.div_lt_self (Nat.pos_of_ne_zero _h) radix.two_le

/-- The loop of `strrev`, with the bytes `s[beg]` and `s[last]` to be exchanged next. -/
def strrevLoop (s beg last : Int) (m : Int → UInt8) : Int → UInt8 :=
  if beg < last then
    strrevLoop s (beg + 1) (last - 1)
      (Function.update (Function.update m (s + last) (m (s + beg))) (s + beg) (m (s + last)))
  else m
termination_by (last - beg).toNat

/-- `strrev`. -/
def strrev (m : Int → UInt8) (s : Int) : Int → UInt8 :=
  strrevLoop s 0 (int32 (strlen (fun i : Nat => m (s + i)) - 1 : Int)) m

/-- `ece391_strrev`. -/
def ece391Strrev (m : Int → UInt8) (s : Int) : Int → UInt8 :=
  let last := int32 (strlen (fun i : Nat => m (s + i)) - 1 : Int)
  if last ≤ 0 then m else strrevLoop s 0 last m

/-- The body of `itoa` and `ece391_itoa`, with the function that reverses the string. -/
def itoaWith (reverse : (Int → UInt8) → Int → Int → UInt8) (value : UInt32) (m : Int → UInt8)
    (buf : Int) (radix : Radix) : Int → UInt8 :=
  if value = 0 then Function.update (Function.update m buf 0x30) (buf + 1) 0
  else
    let digits := itoaLoop radix value.toNat buf m
    reverse (Function.update digits.2 digits.1 0) buf

/-- `itoa`. -/
def itoa (value : UInt32) (m : Int → UInt8) (buf : Int) (radix : Radix) : Int → UInt8 :=
  itoaWith strrev value m buf radix

/-- `ece391_itoa`. -/
def ece391Itoa (value : UInt32) (m : Int → UInt8) (buf : Int) (radix : Radix) : Int → UInt8 :=
  itoaWith ece391Strrev value m buf radix

/-! ## Numerals -/

/-- The string that stands for a number. -/
def numeral (radix : Radix) (n : Nat) : List UInt8 := (write radix.val n).map lookupAt

/-- The value of a digit. -/
def digitOf (c : UInt8) : Nat := if c.toNat ≤ 0x39 then c.toNat - 0x30 else c.toNat - 0x37

/-- The number that a string stands for. -/
def evalNumeral (radix : Radix) (s : List UInt8) : Nat := eval radix.val (s.map digitOf)

/-- A string of digits below the radix, without a zero in front, that stands for a number. -/
def IsNumeral (radix : Radix) (n : Nat) (s : List UInt8) : Prop :=
  ∃ ds, s = ds.map lookupAt ∧ Canonical radix.val n ds

theorem digitOf_lookupAt {d : Nat} (hd : d < 36) : digitOf (lookupAt d) = d := by
  have hall : ∀ d : Fin 36, digitOf (lookupAt d) = d := by decide
  exact hall ⟨d, hd⟩

theorem lookupAt_ne_zero {d : Nat} (hd : d < 36) : lookupAt d ≠ 0 := by
  have hall : ∀ d : Fin 36, lookupAt d ≠ 0 := by decide
  exact hall ⟨d, hd⟩

theorem numeral_digit_lt {radix : Radix} {n d : Nat} (hd : d ∈ write radix.val n) : d < 36 :=
  Nat.lt_of_lt_of_le (write_lt radix.two_le hd) radix.le_digits

theorem numeral_isNumeral (radix : Radix) (n : Nat) : IsNumeral radix n (numeral radix n) :=
  ⟨write radix.val n, rfl, canonical_write radix.two_le n⟩

theorem IsNumeral.eq_numeral {radix : Radix} {n : Nat} {s : List UInt8} (h : IsNumeral radix n s) :
    s = numeral radix n := by
  obtain ⟨ds, rfl, hds⟩ := h
  rw [hds.eq_write radix.two_le]
  rfl

theorem evalNumeral_numeral (radix : Radix) (n : Nat) :
    evalNumeral radix (numeral radix n) = n := by
  unfold evalNumeral numeral
  have hdigits : ((write radix.val n).map lookupAt).map digitOf = write radix.val n := by
    rw [List.map_map]
    refine (List.map_congr_left fun d hd => ?_).trans (List.map_id _)
    exact digitOf_lookupAt (numeral_digit_lt hd)
  rw [hdigits, eval_write]

theorem numeral_ne_zero (radix : Radix) (n : Nat) : ∀ c ∈ numeral radix n, c ≠ 0 := by
  intro c hc
  obtain ⟨d, hd, rfl⟩ := List.mem_map.mp hc
  exact lookupAt_ne_zero (numeral_digit_lt hd)

theorem length_numeral_le {radix : Radix} {n k : Nat} (hk : 0 < k) (hn : n < radix.val ^ k) :
    (numeral radix n).length ≤ k := by
  unfold numeral
  rw [List.length_map]
  exact length_write_le radix.two_le hk hn

/-- A `uint32_t` has no more than 32 digits. -/
theorem length_numeral_word (radix : Radix) (value : UInt32) :
    (numeral radix value.toNat).length ≤ 32 := by
  refine length_numeral_le (by decide) (Nat.lt_of_lt_of_le value.toNat_lt ?_)
  exact Nat.pow_le_pow_left radix.two_le 32

/-! ## What the functions store -/

theorem itoaLoop_eq (radix : Radix) (newval : Nat) (newbuf : Int) (m : Int → UInt8) :
    itoaLoop radix newval newbuf m =
      (newbuf + (Nat.digits radix.val newval).length,
        storeFrom m newbuf ((Nat.digits radix.val newval).map lookupAt)) := by
  induction newval, newbuf, m using itoaLoop.induct radix with
  | case1 newbuf m =>
      unfold itoaLoop
      simp
  | case2 newval newbuf m hpos ih =>
      unfold itoaLoop
      rw [dif_neg hpos, ih, Nat.digits_def' radix.two_le (Nat.pos_of_ne_zero hpos), List.map_cons,
        storeFrom_cons, List.length_cons]
      push_cast
      rw [add_assoc, add_comm (1 : Int)]

/-- The bytes from `beg` to `last` are exchanged. -/
theorem strrevLoop_apply (s beg last : Int) (m : Int → UInt8) (x : Int) :
    strrevLoop s beg last m x =
      if s + beg ≤ x ∧ x ≤ s + last then m (s + beg + (s + last) - x) else m x := by
  induction beg, last, m using strrevLoop.induct s with
  | case1 beg last m hlt ih =>
      unfold strrevLoop
      rw [if_pos hlt, ih]
      -- the inner bytes are those of the shorter string, the two outer ones are exchanged here
      by_cases hinner : s + (beg + 1) ≤ x ∧ x ≤ s + (last - 1)
      · have hmirror : s + (beg + 1) + (s + (last - 1)) - x = s + beg + (s + last) - x := by ring
        rw [if_pos hinner, if_pos (by omega), hmirror, Function.update_of_ne (by omega),
          Function.update_of_ne (by omega)]
      · rw [if_neg hinner]
        by_cases hbeg : x = s + beg
        · rw [if_pos (by omega), hbeg, Function.update_self, add_sub_cancel_left]
        · rw [Function.update_of_ne hbeg]
          by_cases hlast : x = s + last
          · rw [if_pos (by omega), hlast, Function.update_self, add_sub_cancel_right]
          · rw [Function.update_of_ne hlast, if_neg (by omega)]
  | case2 beg last m hge =>
      unfold strrevLoop
      rw [if_neg hge]
      by_cases hin : s + beg ≤ x ∧ x ≤ s + last
      · have hmiddle : s + beg + (s + last) - x = x := by omega
        rw [if_pos hin, hmiddle]
      · rw [if_neg hin]

section Strings

variable {str : List UInt8}

/-- A string in memory that is reversed. -/
theorem strrevLoop_storeFrom (m : Int → UInt8) (buf : Int) :
    strrevLoop buf 0 (str.length - 1 : Int) (storeFrom m buf (str ++ [0])) =
      storeFrom m buf (str.reverse ++ [0]) := by
  funext x
  rw [strrevLoop_apply]
  by_cases hin : buf + 0 ≤ x ∧ x ≤ buf + (str.length - 1)
  · obtain ⟨i, rfl⟩ : ∃ i : Nat, x = buf + i := ⟨(x - buf).toNat, by omega⟩
    have hmirror : buf + 0 + (buf + (str.length - 1 : Int)) - (buf + i) =
        buf + (str.length - 1 - i : Nat) := by omega
    rw [if_pos hin, hmirror, storeFrom_string m buf (by omega),
      storeFrom_string m buf (by rw [List.length_reverse]; omega), List.getD_reverse i (by omega)]
  · rw [if_neg hin]
    by_cases hend : x = buf + str.length
    · have hlast : storeFrom m buf (str.reverse ++ [0]) (buf + str.length) =
          str.reverse.getD str.length 0 := storeFrom_string m buf
        (by rw [List.length_reverse])
      rw [hend, storeFrom_string m buf (Nat.le_refl _), hlast,
        List.getD_eq_default _ _ (Nat.le_refl _),
        List.getD_eq_default _ _ (by rw [List.length_reverse])]
    · rw [storeFrom_outside _ _ _ (by simp; omega), storeFrom_outside _ _ _ (by simp; omega)]

/-- The index of the last byte. -/
theorem lastIndex_eq (hbytes : ∀ c ∈ str, c ≠ 0) (hlen : str.length < 2 ^ 31) (m : Int → UInt8)
    (buf : Int) :
    int32 (strlen (fun i : Nat => storeFrom m buf (str ++ [0]) (buf + i)) - 1 : Int) =
      str.length - 1 := by
  have hstrlen : strlen (fun i : Nat => storeFrom m buf (str ++ [0]) (buf + i)) = str.length :=
    (spells_storeFrom hbytes (by omega) m buf).strlen_eq
  rw [hstrlen]
  unfold int32
  rw [BitVec.toInt_ofInt, Int.bmod_eq_of_le] <;> omega

theorem strrev_storeFrom (hbytes : ∀ c ∈ str, c ≠ 0) (hlen : str.length < 2 ^ 31) (m : Int → UInt8)
    (buf : Int) :
    strrev (storeFrom m buf (str ++ [0])) buf = storeFrom m buf (str.reverse ++ [0]) := by
  unfold strrev
  rw [lastIndex_eq hbytes hlen, strrevLoop_storeFrom]

/-- The early return of the library's function leaves a string that is its own reversal. -/
theorem ece391Strrev_storeFrom (hbytes : ∀ c ∈ str, c ≠ 0) (hlen : str.length < 2 ^ 31)
    (m : Int → UInt8) (buf : Int) :
    ece391Strrev (storeFrom m buf (str ++ [0])) buf = storeFrom m buf (str.reverse ++ [0]) := by
  unfold ece391Strrev
  simp only [lastIndex_eq hbytes hlen]
  by_cases hshort : (str.length - 1 : Int) ≤ 0
  · have hself : str.reverse = str := by
      rcases str with _ | ⟨c, _ | ⟨d, rest⟩⟩
      · rfl
      · rfl
      · simp at hshort
        omega
    rw [if_pos hshort, hself]
  · rw [if_neg hshort, strrevLoop_storeFrom]

end Strings

/-- With either function for the reversal, the numeral is stored with its terminator. -/
theorem itoaWith_eq {reverse : (Int → UInt8) → Int → Int → UInt8}
    (hreverse : ∀ (str : List UInt8) (m : Int → UInt8) (buf : Int), (∀ c ∈ str, c ≠ 0) →
      str.length < 2 ^ 31 →
        reverse (storeFrom m buf (str ++ [0])) buf = storeFrom m buf (str.reverse ++ [0]))
    (value : UInt32) (m : Int → UInt8) (buf : Int) (radix : Radix) :
    itoaWith reverse value m buf radix =
      storeFrom m buf (numeral radix value.toNat ++ [0]) := by
  unfold itoaWith
  by_cases hzero : value = 0
  · rw [if_pos hzero, hzero]
    rfl
  · have hne : value.toNat ≠ 0 := fun h => hzero (UInt32.toNat_inj.mp h)
    have hnumeral : numeral radix value.toNat =
        ((Nat.digits radix.val value.toNat).map lookupAt).reverse := by
      unfold numeral
      rw [write_of_ne _ hne, List.map_reverse]
    have hstore : Function.update
        (storeFrom m buf ((Nat.digits radix.val value.toNat).map lookupAt))
        (buf + (Nat.digits radix.val value.toNat).length) 0 =
          storeFrom m buf ((Nat.digits radix.val value.toNat).map lookupAt ++ [0]) := by
      rw [storeFrom_append, List.length_map]
      rfl
    have hlen := length_numeral_word radix value
    have hbytes := numeral_ne_zero radix value.toNat
    rw [hnumeral] at hlen hbytes
    rw [List.length_reverse] at hlen
    rw [if_neg hzero]
    simp only [itoaLoop_eq]
    rw [hstore, hreverse _ _ _ (fun c hc => hbytes c (List.mem_reverse.mpr hc)) (by omega),
      hnumeral]

theorem itoa_eq (value : UInt32) (m : Int → UInt8) (buf : Int) (radix : Radix) :
    itoa value m buf radix = storeFrom m buf (numeral radix value.toNat ++ [0]) :=
  itoaWith_eq (fun _ m buf hbytes hlen => strrev_storeFrom hbytes hlen m buf) value m buf radix

theorem ece391Itoa_eq (value : UInt32) (m : Int → UInt8) (buf : Int) (radix : Radix) :
    ece391Itoa value m buf radix = storeFrom m buf (numeral radix value.toNat ++ [0]) :=
  itoaWith_eq (fun _ m buf hbytes hlen => ece391Strrev_storeFrom hbytes hlen m buf) value m buf
    radix

end Ece391Kernel
