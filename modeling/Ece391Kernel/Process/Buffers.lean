import Ece391Kernel.Process.Failure

/-!
# The buffers of the command line

`parse_command` fills `fname` and `arg` with four loops, and `sys_getargs` copies
`arg` to a program. What the buffers hold within their bounds is the first word and
the rest of the command, whatever they have held before. But the index of the last
loop of `parse_command` starts at -1 when nothing follows the name, nothing stops the
third loop at the end of `arg`, and `sys_getargs` copies as many bytes as it is asked
for.
-/

namespace Ece391Kernel

open ByteMemory

/-! ## The split -/

/-- The text of a command before its first space. -/
def firstWord (command : CString) : List UInt8 := command.bytes.takeWhile fun c => c != 0x20

/-- The text after the first space; empty if there is none. -/
def remainder (command : CString) : List UInt8 :=
  (command.bytes.dropWhile fun c => c != 0x20).drop 1

theorem length_firstWord (command : CString) :
    (firstWord command).length = command.bytes.findIdx fun c => c == 0x20 := by
  unfold firstWord
  rw [List.takeWhile_eq_take_findIdx_not, List.length_take]
  simp only [bne, Bool.not_not]
  exact Nat.min_eq_left List.findIdx_le_length

/-- The loop over the name stops at its bound or behind the first word. -/
theorem fnameLength_eq (command : CString) :
    fnameLength command = min filenameLen (firstWord command).length := by
  rw [length_firstWord]
  unfold fnameLength
  exact List.findIdx_take

theorem fnameLength_of_le {command : CString} (h : (firstWord command).length ≤ filenameLen) :
    fnameLength command = (firstWord command).length := by
  rw [fnameLength_eq, Nat.min_eq_right h]

theorem argText_eq_remainder {command : CString} (h : (firstWord command).length ≤ filenameLen) :
    argText command = remainder command := by
  have hsplit := List.takeWhile_append_dropWhile (p := fun c => c != 0x20) (l := command.bytes)
  unfold argText remainder
  rw [fnameLength_of_le h, ← List.drop_drop]
  congr 1
  conv_lhs => rw [← hsplit]
  exact List.drop_left

/-- A buffer of `n` bytes that reads as a list with zeros behind it. -/
theorem map_range_eq_padded {m : Int → UInt8} {n : Nat} {text : List UInt8}
    (hle : text.length ≤ n) (h : ∀ i : Nat, i < n → m i = text.getD i 0) :
    ((List.range n).map fun i : Nat => m i) = text ++ List.replicate (n - text.length) 0 := by
  refine List.ext_getElem (by simp; omega) fun i hi _ => ?_
  rw [List.length_map, List.length_range] at hi
  rw [List.getElem_map, List.getElem_range, h i hi, List.getElem_append]
  split
  next hlt => rw [List.getD_eq_getElem _ _ hlt]
  next hge => rw [List.getD_eq_default _ _ (by omega), List.getElem_replicate]

/-- A command whose first word and rest fit the buffers is split at its first space: each
buffer holds its part of the command, and zeros behind it, whatever it has held before. -/
theorem parseCommand_splits (command : CString) (k : Kernel)
    (hname : (firstWord command).length ≤ 32) (harg : (remainder command).length ≤ 128) :
    ((List.range 32).map fun i : Nat => (parseCommand command k).fname i) =
        firstWord command ++ List.replicate (32 - (firstWord command).length) 0 ∧
      ((List.range 128).map fun i : Nat => (parseCommand command k).arg i) =
        remainder command ++ List.replicate (128 - (remainder command).length) 0 ∧
      (parseCommand command k).argLength = (remainder command).length := by
  have hrest := argText_eq_remainder hname
  refine ⟨map_range_eq_padded hname fun i hi => ?_, map_range_eq_padded harg fun i hi => ?_, ?_⟩
  · have htake : command.bytes.take (firstWord command).length = firstWord command :=
      List.prefix_iff_eq_take.mp (List.takeWhile_prefix _) |>.symm
    rw [fname_parseCommand command k hi, commandName, fnameLength_of_le hname, htake]
  · rw [arg_parseCommand command k hi, commandArg, hrest]
  · rw [parseCommand_argLength, hrest]

theorem parseCommand_splits_unknown :
    ((List.range 32).map fun i : Nat => (parseCommand unknownNameWithArg blankKernel).fname i) =
        [0x6E, 0x6F, 0x70, 0x65] ++ List.replicate 28 0 ∧
      ((List.range 128).map fun i : Nat => (parseCommand unknownNameWithArg blankKernel).arg i) =
        [0x78] ++ List.replicate 127 0 ∧
      (parseCommand unknownNameWithArg blankKernel).argLength = 1 :=
  parseCommand_splits unknownNameWithArg blankKernel (by decide) (by decide)

/-! ## The stores of `parse_command` -/

/-- The stores through `fname_buf`, in order: the second loop and the third. -/
def fnameStores (command : CString) : List (Int × UInt8) :=
  let length := fnameLength command
  storesFrom 0 (command.bytes.take length) ++
    storesFrom length (List.replicate (filenameLen - length) 0)

/-- The stores through `arg_buf`, in order: the `while` loop and the last one. -/
def argStores (command : CString) : List (Int × UInt8) :=
  let afterName : Int := command.bytes.length - fnameLength command - 1
  storesFrom 0 (argText command) ++
    storesFrom afterName (List.replicate (argLen - afterName).toNat 0)

theorem parseCommand_stores (command : CString) (k : Kernel) :
    (parseCommand command k).fname = replay k.fname (fnameStores command) ∧
      (parseCommand command k).arg = replay k.arg (argStores command) := by
  unfold fnameStores argStores
  simp only [replay_append, replay_storesFrom]
  exact ⟨rfl, rfl⟩

/-- The stores through `fname_buf` never leave it. -/
theorem fnameStores_within (command : CString) :
    ∀ s ∈ fnameStores command, 0 ≤ s.1 ∧ s.1 < (filenameLen : Nat) := by
  obtain ⟨hle, hle'⟩ := fnameLength_le command
  unfold fnameStores
  simp only
  rw [List.forall_mem_append, storesFrom_within_iff, storesFrom_within_iff, List.length_take,
    List.length_replicate]
  exact ⟨Or.inr (by omega), Or.inr (by omega)⟩

/-- The stores of `parse_command` are all within its two buffers if and only if something
follows the name, if only the one space, and is not longer than the argument buffer. -/
theorem parseCommand_within_iff (command : CString) :
    (∀ k, (parseCommand command k).fname = replay k.fname (fnameStores command) ∧
        (parseCommand command k).arg = replay k.arg (argStores command)) ∧
      (((∀ s ∈ fnameStores command, 0 ≤ s.1 ∧ s.1 < 32) ∧
          ∀ s ∈ argStores command, 0 ≤ s.1 ∧ s.1 < 128) ↔
        fnameLength command < command.bytes.length ∧
          command.bytes.length - (fnameLength command + 1) ≤ 128) := by
  refine ⟨parseCommand_stores command, ?_⟩
  have hfname : ∀ s ∈ fnameStores command, 0 ≤ s.1 ∧ s.1 < 32 := fnameStores_within command
  have hlen : (argText command).length = command.bytes.length - (fnameLength command + 1) := by
    unfold argText
    rw [List.length_drop]
  have hnil : argText command = [] ↔ (argText command).length = 0 := List.length_eq_zero_iff.symm
  have hzeros (n : Nat) : List.replicate n (0 : UInt8) = [] ↔ n = 0 := List.replicate_eq_nil_iff 0
  obtain ⟨-, hle⟩ := fnameLength_le command
  rw [and_iff_right hfname]
  unfold argStores
  simp only
  rw [List.forall_mem_append, storesFrom_within_iff, storesFrom_within_iff, hnil, hzeros,
    List.length_replicate, argLen]
  omega

/-- The kernel itself asks for a shell with a command that has no space. -/
theorem parseCommand_store_before : ¬∀ command : CString,
    (∀ s ∈ fnameStores command, 0 ≤ s.1 ∧ s.1 < 32) ∧
      ∀ s ∈ argStores command, 0 ≤ s.1 ∧ s.1 < 128 := by
  intro hall
  have hmem : ((-1, 0) : Int × UInt8) ∈ argStores shellCommand := by decide
  exact absurd ((hall shellCommand).2 _ hmem).1 (by decide)

/-! ## The copy of `sys_getargs` -/

theorem sysGetargs_some (bytes : Int → UInt8) (nbytes : Int) (k : Kernel) :
    sysGetargs (some bytes) nbytes k =
      if k.argLength = 0 ∨ uint32 nbytes < k.argLength then (-1, some bytes)
      else (0, some (storeFrom bytes 0 ((List.range nbytes.toNat).map fun i : Nat => k.arg i))) :=
  rfl

/-- A call with room enough copies the buffer. -/
theorem sysGetargs_copies {k : Kernel} (nbytes : Int) (hne : k.argLength ≠ 0)
    (hle : k.argLength ≤ uint32 nbytes) (bytes : Int → UInt8) : ∃ bytes' : Int → UInt8,
      sysGetargs (some bytes) nbytes k = (0, some bytes') ∧
        ∀ i : Nat, (i : Int) < nbytes → bytes' i = k.arg i := by
  rw [sysGetargs_some, if_neg (by omega)]
  refine ⟨_, rfl, fun i hi => ?_⟩
  have hlen : i < ((List.range nbytes.toNat).map fun i : Nat => k.arg i).length := by
    rw [List.length_map, List.length_range]
    omega
  have hstored := storeFrom_add bytes 0 ((List.range nbytes.toNat).map fun i : Nat => k.arg i) i
  rw [Int.zero_add] at hstored
  rw [hstored, List.getD_eq_getElem _ _ hlen, List.getElem_map, List.getElem_range]

/-- The rounds of the copying loop: each reads `arg[i]` and writes `buf[i]`. -/
def getargsCopied (nbytes : Int) (k : Kernel) : List Nat :=
  if k.argLength = 0 ∨ uint32 nbytes < k.argLength then [] else List.range nbytes.toNat

theorem sysGetargs_eq_copied (bytes : Int → UInt8) (nbytes : Int) (k : Kernel) :
    (sysGetargs (some bytes) nbytes k).2 =
      some (storeFrom bytes 0 ((getargsCopied nbytes k).map fun i : Nat => k.arg i)) := by
  rw [sysGetargs_some]
  unfold getargsCopied
  split <;> rfl

/-- `arg` holds a text with zeros behind it, and `arg_length` its length. -/
structure StoredArg (k : Kernel) (text : List UInt8) : Prop where
  arg : ∀ i < argLen, k.arg i = text.getD i 0
  argLength : k.argLength = text.length

theorem parseCommand_storedArg (command : CString) (k : Kernel) :
    StoredArg (parseCommand command k) (argText command) :=
  ⟨fun _ hi => arg_parseCommand command k hi, parseCommand_argLength command k⟩

/-- The call returns the text and the zero byte that ends it, if there is a text and both
have room, from within `arg` and within the size; otherwise it fails. -/
def GetsTerminated (k : Kernel) (text : List UInt8) (nbytes : Int) (bytes : Int → UInt8) : Prop :=
  if 0 < text.length ∧ (text.length : Int) + 1 ≤ nbytes then
    ∃ bytes' : Int → UInt8, sysGetargs (some bytes) nbytes k = (0, some bytes') ∧
      (∀ i : Nat, i < text.length → bytes' i = text.getD i 0) ∧ bytes' text.length = 0 ∧
      (∀ i : Int, nbytes ≤ i → bytes' i = bytes i) ∧
      ∀ i ∈ getargsCopied nbytes k, (i : Int) < nbytes ∧ i < 128
  else sysGetargs (some bytes) nbytes k = (-1, some bytes)

/-- The size is compared without its sign, so a negative one is large enough. -/
theorem uint32_lt_iff {n : Int} {m : Nat} (hm : m ≤ 127) (hlow : -0x80000000 ≤ n)
    (hhigh : n < 0x80000000) : uint32 n < m ↔ 0 ≤ n ∧ n < m := by
  unfold uint32
  omega

/-- For a stored argument of at most 127 characters, `sys_getargs` returns a terminated
string or fails if and only if there is no argument, or the size is smaller than it and not
negative, or the size is larger and does not go beyond `arg`. -/
theorem getsTerminated_iff (k : Kernel) (text : List UInt8) (hstored : StoredArg k text)
    (hlen : text.length ≤ 127) (nbytes : Int) (hlow : -0x80000000 ≤ nbytes)
    (hhigh : nbytes < 0x80000000) (bytes : Int → UInt8) :
    GetsTerminated k text nbytes bytes ↔
      text.length = 0 ∨ (0 ≤ nbytes ∧ nbytes < text.length) ∨
        (text.length < nbytes ∧ nbytes ≤ 128) := by
  have hfails : (k.argLength = 0 ∨ uint32 nbytes < k.argLength) ↔
      text.length = 0 ∨ (0 ≤ nbytes ∧ nbytes < text.length) := by
    rw [hstored.argLength, uint32_lt_iff hlen hlow hhigh]
  have hzero : ((0 : Int), some bytes) ≠ (-1, some bytes) := by simp
  by_cases hfail : k.argLength = 0 ∨ uint32 nbytes < k.argLength
  · -- the call fails, as it should
    have hcond := hfails.mp hfail
    unfold GetsTerminated
    rw [sysGetargs_some, if_pos hfail, if_neg (by omega)]
    exact iff_of_true rfl (by omega)
  · have hcond := mt hfails.mpr hfail
    unfold GetsTerminated
    by_cases hroom : 0 < text.length ∧ (text.length : Int) + 1 ≤ nbytes
    · -- the call copies, as it should, but perhaps too much
      obtain ⟨bytes', hcall, hcopy⟩ :=
        sysGetargs_copies (k := k) nbytes (by omega) (by omega) bytes
      have hcopied : getargsCopied nbytes k = List.range nbytes.toNat := if_neg hfail
      rw [if_pos hroom, hcopied]
      constructor
      · rintro ⟨-, -, -, -, -, hread⟩
        have hlast := (hread (nbytes.toNat - 1) (List.mem_range.mpr (by omega))).2
        omega
      · intro hsize
        refine ⟨bytes', hcall, fun i hi => ?_, ?_, fun i hi => ?_, fun i hi => ?_⟩
        · rw [hcopy i (by omega), hstored.arg i (by simp; omega)]
        · rw [hcopy _ (by omega), hstored.arg _ (by simp; omega),
            List.getD_eq_default _ _ (Nat.le_refl _)]
        · have hbytes := congrArg Prod.snd hcall
          rw [sysGetargs_eq_copied] at hbytes
          rw [← Option.some.inj hbytes, storeFrom_outside]
          right
          rw [hcopied, List.length_map, List.length_range]
          omega
        · rw [List.mem_range] at hi
          omega
    · -- the call copies without the room for the zero byte
      rw [if_neg hroom, sysGetargs_some, if_neg hfail]
      refine iff_of_false (fun hret => ?_) (by omega)
      exact absurd (congrArg Prod.fst hret) (by simp)

theorem getsTerminated_iff_unknown : GetsTerminated (parseCommand unknownNameWithArg blankKernel)
    [0x78] 128 fun _ => 0 :=
  (getsTerminated_iff _ [0x78] (parseCommand_storedArg unknownNameWithArg blankKernel) (by decide)
    128 (by decide) (by decide) fun _ => 0).mpr (Or.inr (Or.inr ⟨by decide, by decide⟩))

/-- A program passes a buffer of 1024 bytes, which is filled from beyond `arg`; and one
without room for the zero byte gets no failure. -/
theorem getargs_not_terminated : ¬∀ (k : Kernel) (text : List UInt8), StoredArg k text →
    text.length ≤ 127 → ∀ nbytes : Int, -0x80000000 ≤ nbytes → nbytes < 0x80000000 →
      ∀ bytes, GetsTerminated k text nbytes bytes := by
  intro hall
  have hget := hall _ [0x78] (parseCommand_storedArg unknownNameWithArg blankKernel) (by decide)
    1024 (by decide) (by decide) fun _ => 0
  unfold GetsTerminated at hget
  rw [if_pos (by decide)] at hget
  obtain ⟨-, -, -, -, -, hread⟩ := hget
  have hlast : 128 ∈ getargsCopied 1024 (parseCommand unknownNameWithArg blankKernel) := by
    decide +kernel
  exact absurd (hread 128 hlast).2 (by decide)

end Ece391Kernel
