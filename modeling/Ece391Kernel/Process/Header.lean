import Ece391Kernel.Process.Load

/-!
# The header of a program

`executable_check` reads the first 30 bytes of a file into a buffer on the stack of
`sys_execute` and compares four of them; `loader` takes the entry point from the same
buffer. Neither looks at what `read_data` returns. So the bytes that a short file does
not have, and all of them if its inode is not accepted, are those that an earlier call
has left on the stack.
-/

namespace Ece391Kernel

open ByteMemory

/-- `MAGIC1` to `MAGIC4`. -/
def magic : List UInt8 := [0x7F, 0x45, 0x4C, 0x46]

/-- The little-endian word at an offset of a list of bytes. -/
def wordIn (bytes : List UInt8) (i : Nat) : Nat :=
  (bytes.getD i 0).toNat + 2 ^ 8 * (bytes.getD (i + 1) 0).toNat +
    2 ^ 16 * (bytes.getD (i + 2) 0).toNat + 2 ^ 24 * (bytes.getD (i + 3) 0).toNat

/-- The file of a directory entry. -/
def direntryContent (b : Boot) (idx : Nat) : List UInt8 := fileContent b (direntryInode b idx)

/-! ## What the buffer holds -/

/-- `read_data` stores the first bytes of a file whose inode it accepts. -/
theorem checkBuffer_of_le {b : Boot} {idx : Nat} (hcount : direntryInode b idx ≤ inodeCount b)
    (hinode : direntryInode b idx ≤ 63) (stack : Int → UInt8) :
    checkBuffer b stack idx = storeFrom stack 0 ((direntryContent b idx).take bufferLen) := by
  have hguard : ¬(direntryInode b idx > entriesNum ∨ bufferLen = 0 ∨ (false : Bool) = true ∨
      0 > inodeLength b (direntryInode b idx) ∨ 0 / blockSize > dataCount b) := by
    simp only [entriesNum, bufferLen, Bool.false_eq_true, false_or, Nat.zero_div]
    omega
  have hfetches : readDataFetches b (direntryInode b idx) 0 false bufferLen =
      some (copyLoop b (direntryInode b idx) bufferLen 0) := by
    unfold readDataFetches
    rw [if_neg (by omega), if_neg hguard]
  have hvalues := copyLoop_values b (direntryInode b idx) bufferLen 0
  unfold checkBuffer readData direntryContent
  simp only [Option.isNone_some, hfetches, Option.map_some, Option.getD_some]
  rw [hvalues, List.drop_zero]

/-- And nothing for another inode. -/
theorem checkBuffer_of_lt {b : Boot} {idx : Nat}
    (h : ¬(direntryInode b idx ≤ inodeCount b ∧ direntryInode b idx ≤ 63)) (stack : Int → UInt8) :
    checkBuffer b stack idx = stack := by
  have hfetches : readDataFetches b (direntryInode b idx) 0 false bufferLen = none := by
    unfold readDataFetches
    by_cases hcount : direntryInode b idx > inodeCount b
    · rw [if_pos hcount]
    · rw [if_neg hcount, if_pos (Or.inl (by simp only [entriesNum]; omega))]
  unfold checkBuffer readData
  simp only [Option.isNone_some, hfetches, Option.getD_some]

/-- A byte of the buffer is a byte of the file, or else one of the stack. -/
theorem checkBuffer_apply {b : Boot} {idx : Nat} (hcount : direntryInode b idx ≤ inodeCount b)
    (hinode : direntryInode b idx ≤ 63) (stack : Int → UInt8) {i : Nat} (hi : i < bufferLen) :
    checkBuffer b stack idx i = (direntryContent b idx).getD i (stack i) := by
  have hstored := storeFrom_add stack 0 ((direntryContent b idx).take bufferLen) i
  rw [Int.zero_add] at hstored
  rw [checkBuffer_of_le hcount hinode, hstored, List.getD_eq_getElem?_getD, List.getElem?_take,
    if_pos hi, List.getD_eq_getElem?_getD]

/-! ## The magic number -/

theorem hasMagic_iff (buf : Int → UInt8) :
    hasMagic buf = true ↔ ∀ i : Nat, i < magic.length → buf i = magic.getD i 0 := by
  have hlen : magic.length = 4 := rfl
  constructor
  · intro h i hi
    simp only [hasMagic, Bool.and_eq_true, beq_iff_eq] at h
    obtain ⟨⟨⟨h₀, h₁⟩, h₂⟩, h₃⟩ := h
    rw [hlen] at hi
    interval_cases i
    · exact h₀
    · exact h₁
    · exact h₂
    · exact h₃
  · intro h
    have h₀ := h 0 (by decide)
    have h₁ := h 1 (by decide)
    have h₂ := h 2 (by decide)
    have h₃ := h 3 (by decide)
    simp only [hasMagic, Bool.and_eq_true, beq_iff_eq]
    exact ⟨⟨⟨h₀, h₁⟩, h₂⟩, h₃⟩

/-- Lists that agree up to where one of them ends: one is a beginning of the other. -/
theorem prefix_or_prefix_of_getD {α : Type*} {l m : List α} {d : Nat → α} {e : α}
    (h : ∀ i < m.length, l.getD i (d i) = m.getD i e) : m <+: l ∨ l <+: m := by
  have hget : ∀ i, (hl : i < l.length) → (hm : i < m.length) → l[i] = m[i] := by
    intro i hl hm
    have hi := h i hm
    rwa [List.getD_eq_getElem _ _ hl, List.getD_eq_getElem _ _ hm] at hi
  rcases Nat.le_total m.length l.length with hle | hle
  · refine Or.inl (List.prefix_iff_getElem.mpr ⟨hle, fun i hi => ?_⟩)
    exact (hget i (by omega) hi).symm
  · refine Or.inr (List.prefix_iff_getElem.mpr ⟨hle, fun i hi => ?_⟩)
    exact hget i hi (by omega)

section Accepted

variable {b : Boot} {idx : Nat} (hcount : direntryInode b idx ≤ inodeCount b)
  (hinode : direntryInode b idx ≤ 63) (stack : Int → UInt8)

include hcount hinode

/-- A file that begins with the magic number is accepted on every stack. -/
theorem hasMagic_of_magic (hmagic : magic <+: direntryContent b idx) :
    hasMagic (checkBuffer b stack idx) = true := by
  rw [hasMagic_iff]
  intro i hi
  have hlt : i < (direntryContent b idx).length := hi.trans_le hmagic.length_le
  have hlen : magic.length = 4 := rfl
  rw [checkBuffer_apply hcount hinode stack (by simp only [bufferLen]; omega),
    List.getD_eq_getElem _ _ hlt, List.getD_eq_getElem _ _ hi]
  exact (hmagic.getElem hi).symm

/-- A file that is accepted has the magic number as far as it goes. -/
theorem prefix_of_hasMagic (h : hasMagic (checkBuffer b stack idx) = true) :
    magic <+: direntryContent b idx ∨ direntryContent b idx <+: magic := by
  rw [hasMagic_iff] at h
  refine prefix_or_prefix_of_getD (d := fun i => stack i) (e := 0) fun i hi => ?_
  have hlen : magic.length = 4 := rfl
  rw [← h i hi, checkBuffer_apply hcount hinode stack (by simp only [bufferLen]; omega)]

/-- The stack completes a file that is a beginning of the magic number. -/
theorem hasMagic_iff_of_short (hshort : direntryContent b idx <+: magic) :
    hasMagic (checkBuffer b stack idx) = true ↔
      ∀ i : Nat, (direntryContent b idx).length ≤ i → i < magic.length →
        stack i = magic.getD i 0 := by
  have hlen : magic.length = 4 := rfl
  have happly (i : Nat) (hi : i < magic.length) :=
    checkBuffer_apply hcount hinode stack (i := i) (by simp only [bufferLen]; omega)
  rw [hasMagic_iff]
  constructor
  · intro h i hle hi
    rw [← h i hi, happly i hi, List.getD_eq_default _ _ hle]
  · intro h i hi
    rw [happly i hi]
    by_cases hle : (direntryContent b idx).length ≤ i
    · rw [List.getD_eq_default _ _ hle, h i hle hi]
    · rw [List.getD_eq_getElem _ _ (by omega), List.getD_eq_getElem _ _ hi]
      exact hshort.getElem (by omega)

end Accepted

/-! ## The entry point -/

/-- A byte put behind others, at any position. -/
theorem shiftLeft_or_byte (x n : Nat) {y : Nat} (hy : y < 2 ^ 8) :
    x <<< (8 + n) ||| y <<< n = (x <<< 8 + y) <<< n := by
  rw [Nat.shiftLeft_add_eq_or_of_lt hy, Nat.shiftLeft_or_distrib, ← Nat.shiftLeft_add]

/-- `loader` puts four bytes together, the last one first. -/
theorem loader_eq (buf : Int → UInt8) :
    loader buf = (buf 24).toNat + 2 ^ 8 * (buf 25).toNat + 2 ^ 16 * (buf 26).toNat +
      2 ^ 24 * (buf 27).toNat := by
  have hhigh := shiftLeft_or_byte (buf 27).toNat 16 (buf 26).toNat_lt
  have hmid := shiftLeft_or_byte ((buf 27).toNat <<< 8 + (buf 26).toNat) 8 (buf 25).toNat_lt
  unfold loader
  rw [hhigh, hmid, ← Nat.shiftLeft_add_eq_or_of_lt (buf 24).toNat_lt]
  simp only [Nat.shiftLeft_eq]
  ring

/-! ## What the verdict depends on -/

theorem executableCheck_zero_iff (buf : Int → UInt8) (k : Kernel) :
    (executableCheck buf k).1 = 0 ↔ hasMagic buf = true := by
  unfold executableCheck
  split
  next h => exact iff_of_true rfl h
  next h => exact iff_of_false (fun hret : (-1 : Int) = 0 => absurd hret (by decide)) h

/-- The verdict is the same on every stack; a file is accepted if and only if it begins with
the magic number; and an accepted file that is long enough gives the entry point. -/
structure VerdictOfFile (b : Boot) (idx : Nat) : Prop where
  same : ∀ stack stack' k, executableCheck (checkBuffer b stack idx) k =
    executableCheck (checkBuffer b stack' idx) k
  accepts : ∀ stack k, (executableCheck (checkBuffer b stack idx) k).1 = 0 ↔
    magic <+: direntryContent b idx
  entry : ∀ stack k, (executableCheck (checkBuffer b stack idx) k).1 = 0 →
    28 ≤ (direntryContent b idx).length →
      loader (checkBuffer b stack idx) = wordIn (direntryContent b idx) 24

/-- Every accepted file is long enough for the entry point. -/
def AcceptedIsLong (b : Boot) (idx : Nat) : Prop :=
  ∀ stack k, (executableCheck (checkBuffer b stack idx) k).1 = 0 →
    28 ≤ (direntryContent b idx).length

/-- The stack that an earlier call for a program has left. -/
def leftStack (i : Int) : UInt8 := magic.getD i.toNat 0

theorem VerdictOfFile.of_accepted {b : Boot} {idx : Nat}
    (hcount : direntryInode b idx ≤ inodeCount b) (hinode : direntryInode b idx ≤ 63)
    (hshort : direntryContent b idx <+: magic → direntryContent b idx = magic) :
    VerdictOfFile b idx := by
  have haccepts (stack) : hasMagic (checkBuffer b stack idx) = true ↔
      magic <+: direntryContent b idx := by
    refine ⟨fun h => ?_, hasMagic_of_magic hcount hinode stack⟩
    rcases prefix_of_hasMagic hcount hinode stack h with hmagic | hfile
    · exact hmagic
    · rw [hshort hfile]
  refine ⟨fun stack stack' k => ?_, fun stack k => ?_, fun stack k _ hlen => ?_⟩
  · have hsame : hasMagic (checkBuffer b stack idx) = hasMagic (checkBuffer b stack' idx) :=
      Bool.eq_iff_iff.mpr ((haccepts stack).trans (haccepts stack').symm)
    unfold executableCheck
    rw [hsame]
  · rw [executableCheck_zero_iff, haccepts]
  · have happly (i : Nat) (hi : i < bufferLen) (hlt : i < (direntryContent b idx).length) :
        checkBuffer b stack idx i = (direntryContent b idx).getD i 0 := by
      rw [checkBuffer_apply hcount hinode stack hi, List.getD_eq_getElem _ _ hlt,
        List.getD_eq_getElem _ _ hlt]
    have h₀ := happly 24 (by decide) (by omega)
    have h₁ := happly 25 (by decide) (by omega)
    have h₂ := happly 26 (by decide) (by omega)
    have h₃ := happly 27 (by decide) (by omega)
    rw [loader_eq, wordIn, ← h₀, ← h₁, ← h₂, ← h₃]
    rfl

/-- Two stacks give different verdicts if the file is a beginning of the magic number. -/
theorem VerdictOfFile.accepted {b : Boot} {idx : Nat} (h : VerdictOfFile b idx) :
    direntryInode b idx ≤ inodeCount b ∧ direntryInode b idx ≤ 63 ∧
      (direntryContent b idx <+: magic → direntryContent b idx = magic) := by
  have hsame : hasMagic (checkBuffer b leftStack idx) =
      hasMagic (checkBuffer b (fun _ => 0) idx) := by
    have hzero (stack) := executableCheck_zero_iff (checkBuffer b stack idx) blankKernel
    rw [Bool.eq_iff_iff, ← hzero, ← hzero, h.same leftStack (fun _ => 0)]
  have hvalid : direntryInode b idx ≤ inodeCount b ∧ direntryInode b idx ≤ 63 := by
    by_contra hinvalid
    rw [checkBuffer_of_lt hinvalid, checkBuffer_of_lt hinvalid] at hsame
    exact absurd hsame (by decide)
  refine ⟨hvalid.1, hvalid.2, fun hshort => ?_⟩
  have hleft : hasMagic (checkBuffer b leftStack idx) = true := by
    rw [hasMagic_iff_of_short hvalid.1 hvalid.2 _ hshort]
    exact fun i _ _ => rfl
  rw [hsame, hasMagic_iff_of_short hvalid.1 hvalid.2 _ hshort] at hleft
  refine hshort.eq_of_length_le ?_
  by_contra hlt
  have hlen : magic.length = 4 := rfl
  have hlast := hleft (direntryContent b idx).length (Nat.le_refl _) (by omega)
  have hnonzero : ∀ i < 4, magic.getD i 0 ≠ 0 := by decide
  exact hnonzero _ (by omega) hlast.symm

/-- For every image and directory entry: the verdict depends only on the file if and only if
`read_data` accepts the inode and the bytes of the file are no proper beginning of the magic
number. That an accepted file is always long enough for the entry point holds besides if and
only if the file does not begin with the magic number or is so long itself. -/
theorem executableCheck_of_file_iff (b : Boot) (idx : Nat) :
    (VerdictOfFile b idx ↔
      direntryInode b idx ≤ inodeCount b ∧ direntryInode b idx ≤ 63 ∧
        (direntryContent b idx <+: magic → direntryContent b idx = magic)) ∧
      (VerdictOfFile b idx ∧ AcceptedIsLong b idx ↔
        direntryInode b idx ≤ inodeCount b ∧ direntryInode b idx ≤ 63 ∧
          (direntryContent b idx <+: magic → direntryContent b idx = magic) ∧
            (magic <+: direntryContent b idx → 28 ≤ (direntryContent b idx).length)) := by
  have hverdict : VerdictOfFile b idx ↔ direntryInode b idx ≤ inodeCount b ∧
      direntryInode b idx ≤ 63 ∧
        (direntryContent b idx <+: magic → direntryContent b idx = magic) :=
    ⟨VerdictOfFile.accepted, fun h => VerdictOfFile.of_accepted h.1 h.2.1 h.2.2⟩
  refine ⟨hverdict, ?_⟩
  constructor
  · rintro ⟨hv, hlong⟩
    obtain ⟨hcount, hinode, hshort⟩ := hverdict.mp hv
    refine ⟨hcount, hinode, hshort, fun hmagic => ?_⟩
    exact hlong (fun _ => 0) blankKernel ((hv.accepts _ _).mpr hmagic)
  · rintro ⟨hcount, hinode, hshort, hlong⟩
    have hv := hverdict.mpr ⟨hcount, hinode, hshort⟩
    exact ⟨hv, fun stack k hzero => hlong ((hv.accepts stack k).mp hzero)⟩

/-- The small image, in which the file `note` is empty. -/
def emptyNoteBoot : Boot := patchedBoot [(inodeAddr 2, [0])]

/-- An empty file is accepted if the stack still holds the header of another. -/
theorem executableCheck_depends_on_stack : ¬∀ (b : Boot) (idx : Nat), VerdictOfFile b idx := by
  intro hall
  have haccepts := (hall emptyNoteBoot 2).accepts leftStack blankKernel
  rw [executableCheck_zero_iff] at haccepts
  have hempty : direntryContent emptyNoteBoot 2 = [] := by
    refine List.eq_nil_of_length_eq_zero ((fileContent_length _ _).trans ?_)
    decide +kernel
  have hmagic : hasMagic (checkBuffer emptyNoteBoot leftStack 2) = true := by decide +kernel
  have hpre := haccepts.mp hmagic
  rw [hempty] at hpre
  exact absurd hpre (by decide)

end Ece391Kernel
