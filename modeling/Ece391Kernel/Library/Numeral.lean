import Mathlib.Data.Nat.Digits.Lemmas

/-!
# Numerals

The digits of a number in a base, the most significant one first, as they are written. Zero is
written with one digit. `Canonical` says what makes a list of digits the numeral of a number,
and there is exactly one such list.
-/

namespace Numeral

/-- The digits of `n`, as they are written. -/
def write (b n : ℕ) : List ℕ := if n = 0 then [0] else (Nat.digits b n).reverse

/-- The number that digits stand for. -/
def eval (b : ℕ) (ds : List ℕ) : ℕ := ds.foldl (fun n d => n * b + d) 0

/-- Digits below the base that stand for `n`, none of them an idle zero. -/
structure Canonical (b n : ℕ) (ds : List ℕ) : Prop where
  nonempty : ds ≠ []
  digit_lt : ∀ d ∈ ds, d < b
  head_ne_zero : ds ≠ [0] → ds.head? ≠ some 0
  eval_eq : eval b ds = n

variable {b n : ℕ}

theorem eval_append_singleton (b : ℕ) (ds : List ℕ) (d : ℕ) :
    eval b (ds ++ [d]) = eval b ds * b + d := by
  simp [eval, List.foldl_append]

/-- Mathlib writes the least significant digit first. -/
theorem eval_reverse (b : ℕ) (ds : List ℕ) : eval b ds.reverse = Nat.ofDigits b ds := by
  induction ds with
  | nil => rfl
  | cons d ds ih =>
      rw [List.reverse_cons, eval_append_singleton, ih, Nat.ofDigits_cons]
      ring

theorem eval_eq_ofDigits (b : ℕ) (ds : List ℕ) : eval b ds = Nat.ofDigits b ds.reverse := by
  rw [← eval_reverse, List.reverse_reverse]

/-- Zeros in front do not count. -/
theorem eval_replicate_zero_append (b k : ℕ) (ds : List ℕ) :
    eval b (List.replicate k 0 ++ ds) = eval b ds := by
  induction k with
  | zero => rfl
  | succ k ih =>
      rw [List.replicate_succ, List.cons_append]
      refine Eq.trans ?_ ih
      simp [eval]

theorem write_zero (b : ℕ) : write b 0 = [0] := if_pos rfl

theorem write_of_ne (b : ℕ) (hn : n ≠ 0) : write b n = (Nat.digits b n).reverse := if_neg hn

theorem eval_write (b n : ℕ) : eval b (write b n) = n := by
  by_cases hn : n = 0
  · rw [hn, write_zero]
    simp [eval]
  · rw [write_of_ne b hn, eval_reverse, Nat.ofDigits_digits]

theorem write_lt (hb : 1 < b) {d : ℕ} (hd : d ∈ write b n) : d < b := by
  by_cases hn : n = 0
  · rw [hn, write_zero, List.mem_singleton] at hd
    omega
  · rw [write_of_ne b hn, List.mem_reverse] at hd
    exact Nat.digits_lt_base hb hd

/-- Every number below a power of the base has a short numeral. -/
theorem length_write_le (hb : 1 < b) {k : ℕ} (hk : 0 < k) (hn : n < b ^ k) :
    (write b n).length ≤ k := by
  by_cases hzero : n = 0
  · rw [hzero, write_zero]
    exact hk
  · rw [write_of_ne b hzero, List.length_reverse]
    exact (Nat.digits_length_le_iff hb n).mpr hn

theorem canonical_write (hb : 1 < b) (n : ℕ) : Canonical b n (write b n) := by
  refine ⟨?_, fun d hd => write_lt hb hd, fun hne => ?_, eval_write b n⟩
  · by_cases hn : n = 0
    · rw [hn, write_zero]
      exact List.cons_ne_nil 0 []
    · rw [write_of_ne b hn]
      exact mt List.reverse_eq_nil_iff.mp (Nat.digits_ne_nil_iff_ne_zero.mpr hn)
  · have hn : n ≠ 0 := by
      rintro rfl
      exact hne (write_zero b)
    rw [write_of_ne b hn, List.head?_reverse, List.getLast?_eq_getLast_of_ne_nil
      (Nat.digits_ne_nil_iff_ne_zero.mpr hn)]
    exact fun hsome => Nat.getLast_digit_ne_zero b hn (Option.some.inj hsome)

/-- There is one numeral. -/
theorem Canonical.eq_write (hb : 1 < b) {ds : List ℕ} (h : Canonical b n ds) : ds = write b n := by
  by_cases hsingle : ds = [0]
  · have hn : n = 0 := by rw [← h.eval_eq, hsingle]; simp [eval]
    rw [hsingle, hn, write_zero]
  · have hlast : ∀ hne : ds.reverse ≠ [], ds.reverse.getLast hne ≠ 0 := by
      intro hne hzero
      refine h.head_ne_zero hsingle ?_
      rw [← List.getLast?_reverse, List.getLast?_eq_getLast_of_ne_nil hne, hzero]
    have hdigits := Nat.digits_ofDigits b hb ds.reverse
      (fun d hd => h.digit_lt d (List.mem_reverse.mp hd)) hlast
    rw [← eval_eq_ofDigits, h.eval_eq] at hdigits
    have hn : n ≠ 0 := by
      rintro rfl
      rw [Nat.digits_zero] at hdigits
      exact h.nonempty (List.reverse_eq_nil_iff.mp hdigits.symm)
    rw [write_of_ne b hn, hdigits, List.reverse_reverse]

end Numeral
