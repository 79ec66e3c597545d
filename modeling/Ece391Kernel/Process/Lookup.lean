import Ece391Kernel.Process.Execute

/-!
# The two searches of the directory

`sys_open` compares the string of its caller with the names of the directory, and
`sys_execute` what `parse_command` has put into `fname`: 32 bytes, padded with zeroes
but not always terminated. Both find the first entry whose name is the string, cut at
32 bytes.
-/

namespace Ece391Kernel

/-- The command is the name, alone or with a space and some text behind it. -/
def CommandFor (w : CString) (command : CString) : Prop :=
  command.bytes = w.bytes ∨
    ∃ text : List UInt8, text.length ≤ argLen ∧ command.bytes = w.bytes ++ 0x20 :: text

/-- `parse_command` cuts the name off at the space. -/
theorem CommandFor.fname {w command : CString} (h : CommandFor w command)
    (hw : ∀ c ∈ w.bytes, c ≠ 0x20) :
    command.bytes.take (fnameLength command) = w.bytes.take filenameLen := by
  have hnone : ∀ n, (w.bytes.take n).findIdx (fun c => c == 0x20) = (w.bytes.take n).length := by
    intro n
    rw [List.findIdx_eq_length]
    intro c hc
    simpa using hw c (List.mem_of_mem_take hc)
  unfold fnameLength
  rcases h with heq | ⟨text, -, heq⟩
  · rw [heq, hnone, List.length_take, List.take_eq_take_iff]
    omega
  · rw [heq]
    by_cases hlen : filenameLen ≤ w.bytes.length
    · rw [List.take_append_of_le_length hlen, hnone, List.length_take,
        List.take_append_of_le_length (by omega), List.take_eq_take_iff]
      omega
    · -- the space is among the first 32 bytes
      have hsplit : (w.bytes ++ 0x20 :: text).take filenameLen =
          w.bytes ++ 0x20 :: text.take (filenameLen - w.bytes.length - 1) := by
        have hsub : filenameLen - w.bytes.length =
            (filenameLen - w.bytes.length - 1) + 1 := by omega
        rw [List.take_append, List.take_of_length_le (by omega), hsub, List.take_succ_cons]
        simp
      have hfind : (w.bytes ++ 0x20 :: text.take (filenameLen - w.bytes.length - 1)).findIdx
          (fun c => c == 0x20) = w.bytes.length := by
        have hall := hnone w.bytes.length
        rw [List.take_length] at hall
        rw [List.findIdx_append, hall]
        simp [List.findIdx_cons]
      rw [hsplit, hfind, List.take_left', List.take_of_length_le (by omega)]
      rfl

/-- The search of `sys_open`. -/
theorem findDirentry_open (b : Boot) (w : CString) (i : Nat) :
    findDirentry b w.at = some i ↔ FirstNamed b (w.bytes.take filenameLen) i := by
  have hname : stringFrom w.at filenameLen 0 = w.bytes.take filenameLen :=
    stringFrom_getD w.nonzero filenameLen 0
  rw [findDirentry_eq_some, hname]

/-- The search of `sys_execute`. -/
theorem findDirentry_command (b : Boot) {w command : CString} (h : CommandFor w command)
    (hw : ∀ c ∈ w.bytes, c ≠ 0x20) (i : Nat) :
    findDirentry b (commandName command) = some i ↔
      FirstNamed b (w.bytes.take filenameLen) i := by
  have hnonzero : ∀ c ∈ w.bytes.take filenameLen, c ≠ 0 :=
    fun c hc => w.nonzero c (List.mem_of_mem_take hc)
  have hname : stringFrom (commandName command) filenameLen 0 = w.bytes.take filenameLen := by
    unfold commandName
    rw [h.fname hw, stringFrom_getD hnonzero, List.drop_zero, List.take_take, Nat.min_self]
  rw [findDirentry_eq_some, hname]

/-- `sys_open` of a name and `sys_execute` of a command for it find the same entry, the
first whose name is the string cut at 32 bytes, and both fail if there is none. -/
theorem lookups_agree (b : Boot) (w command : CString) (hw : ∀ c ∈ w.bytes, c ≠ 0x20)
    (hcommand : CommandFor w command) (k : Kernel) :
    (∀ i, findDirentry b w.at = some i ↔ FirstNamed b (w.bytes.take filenameLen) i) ∧
    (∀ i, (findDirentry b fun j : Nat => (parseCommand command k).fname j) = some i ↔
      FirstNamed b (w.bytes.take filenameLen) i) ∧
    (∀ (i fd : Nat), FirstNamed b (w.bytes.take filenameLen) i → freeDesc k = some fd →
      sysOpen b w k = ((fd : Int), k.setDesc fd fun d =>
        bindDriver b i { d with flag := 0, filePosition := 0 })) ∧
    ((∀ i, ¬FirstNamed b (w.bytes.take filenameLen) i) → sysOpen b w k = (-1, k)) ∧
    ∀ a : ExecArgs, a.command = some command → k.numProcessExecuting ≠ 6 →
      (∀ i, FirstNamed b (w.bytes.take filenameLen) i → sysExecute b a k =
        if hasMagic (checkBuffer b a.stack i) then launch b a i (parseCommand command k)
        else .returned (dropCount (parseCommand command k))) ∧
      ((∀ i, ¬FirstNamed b (w.bytes.take filenameLen) i) →
        sysExecute b a k = .returned (parseCommand command k)) := by
  have hopen := findDirentry_open b w
  have hexecute := findDirentry_command b hcommand hw
  refine ⟨hopen, fun i => ?_, fun i fd hi hfd => ?_, fun hnone => ?_, fun a ha hnum => ⟨?_, ?_⟩⟩
  · rw [findDirentry_parseCommand]
    exact hexecute i
  · unfold sysOpen
    simp only [(hopen i).mpr hi, hfd]
  · have hfind : findDirentry b w.at = none :=
      Option.eq_none_iff_forall_ne_some.mpr fun i hi => hnone i ((hopen i).mp hi)
    unfold sysOpen
    rw [hfind]
  · intro i hi
    have hidx := (hexecute i).mpr hi
    cases hmagic : hasMagic (checkBuffer b a.stack i) with
    | true => exact sysExecute_checked hnum ha hidx hmagic
    | false => exact sysExecute_rejected hnum ha hidx hmagic
  · intro hnone
    exact sysExecute_unknown hnum ha
      (Option.eq_none_iff_forall_ne_some.mpr fun i hi => hnone i ((hexecute i).mp hi))

/-- The string `"ls"`, and the command `"ls note"`. -/
def lsName : CString := ⟨[0x6C, 0x73], by simp⟩

def lsNote : CString := ⟨[0x6C, 0x73, 0x20, 0x6E, 0x6F, 0x74, 0x65], by simp⟩

theorem lookups_agree_ls :
    (∀ i, findDirentry smallBoot lsName.at = some i ↔ FirstNamed smallBoot [0x6C, 0x73] i) ∧
      ∀ i, (findDirentry smallBoot fun j : Nat => (parseCommand lsNote blankKernel).fname j) =
        some i ↔ FirstNamed smallBoot [0x6C, 0x73] i := by
  obtain ⟨hopen, hexecute, -⟩ := lookups_agree smallBoot lsName lsNote (by simp [lsName])
    (Or.inr ⟨[0x6E, 0x6F, 0x74, 0x65], by decide, rfl⟩) blankKernel
  exact ⟨hopen, hexecute⟩

end Ece391Kernel
