import Ece391Kernel.Printing.Printf

/-!
# The numeric conversions

What `%u`, `%x`, `%#x` and `%d` print: numerals that stand for the argument. With `#` the zeros
are stored in front of the digits, which begin eight bytes into `conv_buf`.
-/

namespace Ece391Kernel

open ByteMemory Numeral TransitionSystem

/-! ## Texts -/

/-- A numeral with zeros in front, of eight digits at least. -/
def eightDigits (value : UInt32) : List UInt8 :=
  List.replicate (8 - (numeral radixSixteen value.toNat).length) 0x30 ++
    numeral radixSixteen value.toNat

/-- A sign, if there is one, and a decimal numeral. -/
def signedDecimal (value : Int) : List UInt8 :=
  if value < 0 then 0x2D :: numeral radixTen value.natAbs else numeral radixTen value.natAbs

/-- The number that a decimal with a sign stands for. -/
def evalSigned : List UInt8 → Int
  | [] => 0
  | c :: s => if c = 0x2D then -evalNumeral radixTen s else evalNumeral radixTen (c :: s)

/-- Hexadecimal digits that stand for a number. -/
def IsHex (value : Nat) (s : List UInt8) : Prop :=
  ∃ ds, s = ds.map lookupAt ∧ (∀ d ∈ ds, d < 16) ∧ eval 16 ds = value

theorem length_hex_le (value : UInt32) : (numeral radixSixteen value.toNat).length ≤ 8 :=
  length_numeral_le (by decide) value.toNat_lt

theorem length_eightDigits (value : UInt32) : (eightDigits value).length = 8 := by
  have hle := length_hex_le value
  unfold eightDigits
  rw [List.length_append, List.length_replicate]
  omega

theorem eightDigits_isHex (value : UInt32) : IsHex value.toNat (eightDigits value) := by
  refine ⟨List.replicate (8 - (numeral radixSixteen value.toNat).length) 0 ++
    write 16 value.toNat, ?_, fun d hd => ?_, ?_⟩
  · rw [List.map_append, List.map_replicate]
    rfl
  · rcases List.mem_append.mp hd with hzero | hdigit
    · rw [List.eq_of_mem_replicate hzero]
      decide
    · exact write_lt (by decide) hdigit
  · rw [eval_replicate_zero_append, eval_write]

/-- No numeral begins with a sign. -/
theorem numeral_ne_sign (radix : Radix) (n : Nat) : ∀ c ∈ numeral radix n, c ≠ 0x2D := by
  have hall : ∀ d : Fin 36, lookupAt d ≠ 0x2D := by decide
  intro c hc
  obtain ⟨d, hd, rfl⟩ := List.mem_map.mp hc
  exact hall ⟨d, numeral_digit_lt hd⟩

theorem numeral_ne_nil (radix : Radix) (n : Nat) : numeral radix n ≠ [] := by
  obtain ⟨ds, hds, hcanonical⟩ := numeral_isNumeral radix n
  rw [hds]
  exact mt List.map_eq_nil_iff.mp hcanonical.nonempty

theorem evalSigned_signedDecimal (value : Int) : evalSigned (signedDecimal value) = value := by
  unfold signedDecimal
  by_cases hneg : value < 0
  · rw [if_pos hneg]
    simp only [evalSigned, if_true, evalNumeral_numeral]
    omega
  · rw [if_neg hneg]
    obtain ⟨c, s, hs⟩ := List.exists_cons_of_ne_nil (numeral_ne_nil radixTen value.natAbs)
    have hsign := numeral_ne_sign radixTen value.natAbs c (hs ▸ List.mem_cons_self)
    rw [hs]
    simp only [evalSigned, if_neg hsign]
    rw [← hs, evalNumeral_numeral]
    omega

/-! ## What is printed -/

theorem puts_storeFrom {str : List UInt8} (hbytes : ∀ c ∈ str, c ≠ 0) (hlen : str.length < 2 ^ 32)
    (m : Int → UInt8) (buf : Int) : puts (storeFrom m buf (str ++ [0])) buf = str :=
  (spells_storeFrom hbytes hlen m buf).stringFrom_eq (Nat.zero_le _) (by omega)

theorem puts_itoa (value : UInt32) (m : Int → UInt8) (buf : Int) (radix : Radix) :
    puts (itoa value m buf radix) buf = numeral radix value.toNat := by
  have hlen := length_numeral_word radix value
  rw [itoa_eq, puts_storeFrom (numeral_ne_zero _ _) (by omega)]

theorem printUnsigned_eq (value : UInt32) (convBuf : Int → UInt8) :
    printUnsigned value convBuf = numeral radixTen value.toNat :=
  puts_itoa value convBuf 0 radixTen

theorem printHex_eq (value : UInt32) (convBuf : Int → UInt8) :
    printHex false value convBuf = numeral radixSixteen value.toNat :=
  puts_itoa value convBuf 0 radixSixteen

/-- The zeros end where the digits begin. -/
theorem zeroPad_storeFrom (m : Int → UInt8) {k : Nat} (hk : k ≤ 8) (bytes : List UInt8) :
    zeroPad (storeFrom m 8 bytes) k = storeFrom m k (List.replicate (8 - k) 0x30 ++ bytes) := by
  have hbegin : (k : Int) + (List.replicate (8 - k) (0x30 : UInt8)).length = 8 := by
    rw [List.length_replicate]
    omega
  unfold zeroPad
  rw [storeFrom_comm m (by omega), storeFrom_append, hbegin]

theorem printHex_alternate_eq (value : UInt32) (convBuf : Int → UInt8) :
    printHex true value convBuf = eightDigits value := by
  have hlen := length_hex_le value
  have hbytes : ∀ c ∈ eightDigits value, c ≠ 0 := by
    intro c hc
    rcases List.mem_append.mp hc with hzero | hdigit
    · rw [List.eq_of_mem_replicate hzero]
      decide
    · exact numeral_ne_zero _ _ c hdigit
  have hindex : strlen (fun i : Nat =>
      storeFrom convBuf 8 (numeral radixSixteen value.toNat ++ [0]) (8 + i)) =
        (numeral radixSixteen value.toNat).length :=
    (spells_storeFrom (numeral_ne_zero radixSixteen value.toNat) (by omega) convBuf 8).strlen_eq
  unfold printHex
  simp only [if_true, itoa_eq, hindex]
  rw [zeroPad_storeFrom _ hlen, ← List.append_assoc]
  exact puts_storeFrom hbytes (by rw [length_eightDigits]; decide) _ _

/-- A word read with a sign. -/
theorem int32_word (value : UInt32) :
    int32 value.toNat =
      if value.toNat < 0x80000000 then (value.toNat : Int) else value.toNat - 0x100000000 := by
  have hlt := value.toNat_lt
  unfold int32
  rw [BitVec.toInt_ofInt]
  split
  · exact Int.bmod_eq_of_le (by omega) (by omega)
  · have hshift : (value.toNat : Int) = value.toNat - 0x100000000 + (2 ^ 32 : Nat) := by omega
    rw [hshift, Int.add_bmod_right, Int.bmod_eq_of_le] <;> omega

/-- The two's complement of a negative value is its absolute value. -/
theorem toNat_neg_of_int32_neg {value : UInt32} (hneg : int32 value.toNat < 0) :
    (-value).toNat = (int32 value.toNat).natAbs := by
  have hlt := value.toNat_lt
  rw [int32_word] at hneg ⊢
  rw [UInt32.toNat_neg]
  change (4294967296 - value.toNat) % 4294967296 = _
  split at hneg <;> omega

theorem printSigned_eq (value : UInt32) (convBuf : Int → UInt8) :
    printSigned value convBuf = signedDecimal (int32 value.toNat) := by
  unfold printSigned signedDecimal
  by_cases hneg : int32 value.toNat < 0
  · have hbytes : ∀ c ∈ 0x2D :: numeral radixTen (-value).toNat, c ≠ 0 := by
      intro c hc
      rcases List.mem_cons.mp hc with rfl | hdigit
      · decide
      · exact numeral_ne_zero _ _ c hdigit
    have hlen := length_numeral_word radixTen (-value)
    rw [if_pos hneg, if_pos hneg, ← toNat_neg_of_int32_neg hneg, itoa_eq]
    exact puts_storeFrom hbytes (by rw [List.length_cons]; omega) convBuf 0
  · have habs : (int32 value.toNat).natAbs = value.toNat := by
      rw [int32_word] at hneg ⊢
      have hlt := value.toNat_lt
      split at hneg <;> omega
    rw [if_neg hneg, if_neg hneg, puts_itoa, habs]

example : signedDecimal (int32 0x80000000) =
    [0x2D, 0x32, 0x31, 0x34, 0x37, 0x34, 0x38, 0x33, 0x36, 0x34, 0x38] := by decide

/-! ## Specifiers of a format -/

/-- The format has these bytes at an index. -/
def SpelledAt (p : PrintfCall) (i : Nat) (bytes : List UInt8) : Prop :=
  ∀ j < bytes.length, p.format (i + j) = bytes.getD j 0

/-- In every call `printf` prints the next argument as this text where it meets the specifier, and
goes on behind it. -/
def Converts (specifier : List UInt8) (text : UInt32 → List UInt8) : Prop :=
  ∀ p s, s.alternate = none → SpelledAt p s.buf specifier →
    ∃ reads, Run (PrintfReads p) s reads
      ⟨s.buf + specifier.length, none, s.esp + 1, s.out ++ text (p.args s.esp)⟩

section Turns

variable {p : PrintfCall} {buf esp : Nat} {out : List UInt8}

theorem printfReads_percent (h : p.format buf = 0x25) (esp : Nat) (out : List UInt8) :
    PrintfReads p ⟨buf, none, esp, out⟩ buf ⟨buf + 1, some false, esp, out⟩ := by
  refine ⟨rfl, ?_⟩
  simp [printfByte, h]

theorem printfReads_sharp {alternate : Bool} (h : p.format buf = 0x23) :
    PrintfReads p ⟨buf, some alternate, esp, out⟩ buf ⟨buf + 1, some true, esp, out⟩ := by
  refine ⟨rfl, ?_⟩
  simp [printfByte, h]

/-- The turn that takes an argument and prints it. -/
theorem printfReads_conversion {alternate : Bool} {text : List UInt8} (hc : p.format buf ≠ 0x23)
    (hprinted : printSpecifier p ⟨buf, some alternate, esp, out⟩ alternate = (text, 1)) :
    PrintfReads p ⟨buf, some alternate, esp, out⟩ buf ⟨buf + 1, none, esp + 1, out ++ text⟩ := by
  refine ⟨rfl, ?_⟩
  simp [printfByte, hc, hprinted]

end Turns

/-- A specifier of one letter. -/
theorem converts_letter {c : UInt8} {text : UInt32 → List UInt8} (hc : c ≠ 0x23)
    (hprinted : ∀ p s, p.format s.buf = c → printSpecifier p s false = (text (p.args s.esp), 1)) :
    Converts [0x25, c] text := by
  rintro p ⟨buf, alternate, esp, out⟩ rfl hspelled
  have hpercent : p.format buf = 0x25 := hspelled 0 (by simp)
  have hletter : p.format (buf + 1) = c := hspelled 1 (by simp)
  have hrun := (Run.single (printfReads_percent hpercent esp out)).snoc
    (printfReads_conversion (hletter ▸ hc) (hprinted p _ hletter))
  exact ⟨_, hrun⟩

theorem converts_unsigned : Converts [0x25, 0x75] fun value => numeral radixTen value.toNat := by
  refine converts_letter (by decide) fun p s hc => ?_
  simp [printSpecifier, hc, printUnsigned_eq]

theorem converts_hex : Converts [0x25, 0x78] fun value => numeral radixSixteen value.toNat := by
  refine converts_letter (by decide) fun p s hc => ?_
  simp [printSpecifier, hc, printHex_eq]

theorem converts_signed :
    Converts [0x25, 0x64] fun value => signedDecimal (int32 value.toNat) := by
  refine converts_letter (by decide) fun p s hc => ?_
  simp [printSpecifier, hc, printSigned_eq]

theorem converts_alternate_hex : Converts [0x25, 0x23, 0x78] eightDigits := by
  rintro p ⟨buf, alternate, esp, out⟩ rfl hspelled
  have hpercent : p.format buf = 0x25 := hspelled 0 (by decide)
  have hsharp : p.format (buf + 1) = 0x23 := hspelled 1 (by decide)
  have hletter : p.format (buf + 1 + 1) = 0x78 := hspelled 2 (by decide)
  have hprinted : printSpecifier p ⟨buf + 1 + 1, some true, esp, out⟩ true =
      (eightDigits (p.args esp), 1) := by
    simp [printSpecifier, hletter, printHex_alternate_eq]
  have hrun := ((Run.single (printfReads_percent hpercent esp out)).snoc
    (printfReads_sharp hsharp)).snoc
      (printfReads_conversion (by rw [hletter]; decide) hprinted)
  exact ⟨_, hrun⟩

/-- `itoa` and `ece391_itoa` store the numeral of the value, and its value is the value; `printf`
prints it for `%u` and `%x`, with zeros in front for `%#x`, and with a sign for `%d`. -/
theorem number_formats (value : UInt32) (radix : Radix) (m : Int → UInt8) (buf : Int) :
    (∃ str, itoa value m buf radix = storeFrom m buf (str ++ [0]) ∧
      IsNumeral radix value.toNat str ∧ (∀ str', IsNumeral radix value.toNat str' → str' = str) ∧
      str.length ≤ 32 ∧ evalNumeral radix str = value.toNat ∧ str = numeral radix value.toNat) ∧
    ece391Itoa value m buf radix = itoa value m buf radix ∧
    Converts [0x25, 0x75] (fun arg => numeral radixTen arg.toNat) ∧
    Converts [0x25, 0x78] (fun arg => numeral radixSixteen arg.toNat) ∧
    (∃ text, Converts [0x25, 0x23, 0x78] text ∧
      ∀ arg, (text arg).length = 8 ∧ IsHex arg.toNat (text arg)) ∧
    Converts [0x25, 0x64] (fun arg => signedDecimal (int32 arg.toNat)) ∧
    ∀ n, evalSigned (signedDecimal n) = n := by
  refine ⟨⟨numeral radix value.toNat, itoa_eq value m buf radix, numeral_isNumeral _ _,
    fun str' hstr' => hstr'.eq_numeral, length_numeral_word radix value,
    evalNumeral_numeral _ _, rfl⟩, ?_, converts_unsigned, converts_hex, ?_, converts_signed,
    evalSigned_signedDecimal⟩
  · rw [ece391Itoa_eq, itoa_eq]
  · exact ⟨eightDigits, converts_alternate_hex,
      fun arg => ⟨length_eightDigits arg, eightDigits_isHex arg⟩⟩

end Ece391Kernel
