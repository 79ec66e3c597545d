import Ece391Kernel.FileSystem.Directory
import Ece391Kernel.Library.Memory

/-!
# The command line

`parse_command` splits a command at its first space, into the globals `fname`
and `arg`. A file name is cut at 32 characters; what follows the name and one
character more is the argument. A command without a space makes the clearing
loop of the argument buffer start at -1, and an argument longer than the buffer
is stored past its end.
-/

namespace Ece391Kernel

open ByteMemory

/-- `ARGLEN`. -/
@[simp] def argLen : Nat := 128

/-- The first loop of `parse_command`. -/
def fnameLength (command : CString) : Nat :=
  (command.bytes.take filenameLen).findIdx fun c => c == 0x20

/-- The characters that the argument loop stores. -/
def argText (command : CString) : List UInt8 := command.bytes.drop (fnameLength command + 1)

/-- `parse_command`, into the global buffers, each of which has no end and no other variable next
to it. A string has no zero byte before its end, so the branches of the source for one are never
taken. -/
@[simps -fullyApplied] def parseCommand (command : CString) (k : Kernel) : Kernel :=
  let length := fnameLength command
  let afterName : Int := command.bytes.length - length - 1
  { k with
    fname := storeFrom (storeFrom k.fname 0 (command.bytes.take length)) length
      (List.replicate (filenameLen - length) 0)
    arg := storeFrom (storeFrom k.arg 0 (argText command)) afterName
      (List.replicate (argLen - afterName).toNat 0)
    argLength := (argText command).length }

/-- The name that a command asks for, as `fname` holds it. -/
def commandName (command : CString) (i : Nat) : UInt8 :=
  (command.bytes.take (fnameLength command)).getD i 0

/-- The argument that a command passes, as `arg` holds it. -/
def commandArg (command : CString) (i : Nat) : UInt8 := (argText command).getD i 0

theorem fnameLength_le (command : CString) :
    fnameLength command ≤ filenameLen ∧ fnameLength command ≤ command.bytes.length := by
  have hle : (command.bytes.take filenameLen).findIdx (fun c => c == 0x20) ≤
      (command.bytes.take filenameLen).length := List.findIdx_le_length
  rw [List.length_take] at hle
  unfold fnameLength
  omega

theorem fname_parseCommand (command : CString) (k : Kernel) {i : Nat} (hi : i < filenameLen) :
    (parseCommand command k).fname i = commandName command i := by
  obtain ⟨hle, hle'⟩ := fnameLength_le command
  have hlen : (command.bytes.take (fnameLength command)).length = fnameLength command := by
    rw [List.length_take]
    omega
  unfold parseCommand commandName
  simp only
  rw [storeFrom_apply, List.length_replicate]
  by_cases hcut : fnameLength command ≤ i
  · rw [if_pos (by omega), List.getD_replicate (h := by omega),
      List.getD_eq_default _ _ (by omega)]
  · have hstored := storeFrom_add k.fname 0 (command.bytes.take (fnameLength command)) i
    rw [Int.zero_add] at hstored
    rw [if_neg (by omega), hstored, List.getD_eq_getElem _ _ (by omega),
      List.getD_eq_getElem _ _ (by omega)]

theorem arg_parseCommand (command : CString) (k : Kernel) {i : Nat} (hi : i < argLen) :
    (parseCommand command k).arg i = commandArg command i := by
  obtain ⟨-, hle⟩ := fnameLength_le command
  have hlen : (argText command).length = command.bytes.length - (fnameLength command + 1) := by
    unfold argText
    rw [List.length_drop]
  unfold parseCommand commandArg
  simp only
  rw [storeFrom_apply, List.length_replicate]
  by_cases hcut : (argText command).length ≤ i
  · rw [if_pos (by omega), List.getD_replicate (h := by omega),
      List.getD_eq_default _ _ hcut]
  · have hstored := storeFrom_add k.arg 0 (argText command) i
    rw [Int.zero_add] at hstored
    rw [if_neg (by omega), hstored, List.getD_eq_getElem _ _ (by omega),
      List.getD_eq_getElem _ _ (by omega)]

/-! ## The file of a command -/

/-- The directory search reads 32 characters of the name. -/
theorem findDirentry_congr {b : Boot} {name name' : Nat → UInt8}
    (h : ∀ i < filenameLen, name i = name' i) : findDirentry b name = findDirentry b name' := by
  have hsame : ∀ s : Nat → UInt8, strncmp name s filenameLen = strncmp name' s filenameLen := by
    intro s
    have hloop : ∀ n i, i + n ≤ filenameLen → strncmpFrom name s n i = strncmpFrom name' s n i := by
      intro n
      induction n with
      | zero => exact fun _ _ => rfl
      | succ n ih =>
          intro i hi
          unfold strncmpFrom
          rw [h i (by omega), ih (i + 1) (by omega)]
    exact hloop filenameLen 0 (by omega)
  unfold findDirentry
  simp only [hsame]

theorem findDirentry_parseCommand (b : Boot) (command : CString) (k : Kernel) :
    (findDirentry b fun i : Nat => (parseCommand command k).fname i) =
      findDirentry b (commandName command) :=
  findDirentry_congr fun _ hi => fname_parseCommand command k hi

end Ece391Kernel
