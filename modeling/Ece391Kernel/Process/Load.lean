import Ece391Kernel.Process.Effects
import Ece391Kernel.Paging.Invariant

/-!
# Loading a program

The page at `0x8000000` is 4MB of physical memory, the frame of the process that
is mapped. A program that fits behind `VIRTUALADDR` is stored in this frame, byte
after byte, and a call of `sys_execute` that finds a slot then starts it.
-/

namespace Ece391Kernel

/-- The first physical address of the frame of process `p`. -/
def frameAddr (p : Nat) : Nat := eightMB + fourMB * p

/-- Where in its frame a program is loaded. -/
@[simp] def loadOffset : Nat := 0x48000

/-- The bytes can be stored in the frame from `loadOffset` on. -/
def FitsFrame (bytes : List UInt8) : Prop := loadOffset + bytes.length ≤ fourMB

instance (bytes : List UInt8) : Decidable (FitsFrame bytes) := inferInstanceAs (Decidable (_ ≤ _))

/-- Memory with the given bytes stored from an address on. -/
def storeAt (m : Nat → UInt8) (pa : Nat) (bytes : List UInt8) : Nat → UInt8 :=
  fun x => if pa ≤ x ∧ x < pa + bytes.length then bytes.getD (x - pa) 0 else m x

theorem storeAt_nil (m : Nat → UInt8) (pa : Nat) : storeAt m pa [] = m := by
  funext x
  unfold storeAt
  rw [if_neg (by simp)]

theorem storeAt_cons (m : Nat → UInt8) (pa : Nat) (c : UInt8) (cs : List UInt8) :
    storeAt (Function.update m pa c) (pa + 1) cs = storeAt m pa (c :: cs) := by
  funext x
  unfold storeAt
  rw [List.length_cons]
  by_cases hx : x = pa
  · subst hx
    rw [if_neg (by omega), if_pos (by omega), Function.update_self, Nat.sub_self]
    rfl
  · rw [Function.update_of_ne hx]
    by_cases hin : pa + 1 ≤ x ∧ x < pa + 1 + cs.length
    · have hsucc : x - pa = (x - (pa + 1)) + 1 := by omega
      rw [if_pos hin, if_pos (by omega), hsucc, List.getD_cons_succ]
    · rw [if_neg hin, if_neg (by omega)]

/-- A place outside the stored range is left alone. -/
theorem storeAt_outside (m : Nat → UInt8) {pa x : Nat} {bytes : List UInt8}
    (h : x < pa ∨ pa + bytes.length ≤ x) : storeAt m pa bytes x = m x := by
  unfold storeAt
  rw [if_neg (by omega)]

theorem storeAt_congr {m m' : Nat → UInt8} (pa : Nat) (bytes : List UInt8) {x : Nat}
    (h : m x = m' x) : storeAt m pa bytes x = storeAt m' pa bytes x := by
  unfold storeAt
  rw [h]

/-- Bytes stored in the page of the mapped process end up in its frame. -/
theorem storeBytes_frame {b : Boot} {p : Nat} {bytes : List UInt8} (off : Nat) {k : Kernel}
    (hmapped : k.paging.pageDirectory virPro = processEntry p)
    (hfit : off + bytes.length ≤ fourMB) :
    storeBytes b (0x8000000 + off) bytes k =
      some (k.withMem (storeAt k.mem (frameAddr p + off) bytes)) := by
  induction bytes generalizing off k with
  | nil =>
      rw [storeAt_nil]
      rfl
  | cons c cs ih =>
      rw [List.length_cons] at hfit
      simp only [fourMB] at hfit
      have hdir : (0x8000000 + off) / fourMB = virPro := by
        simp only [fourMB, virPro]
        omega
      have hmod : (0x8000000 + off) % fourMB = off := by
        simp only [fourMB]
        omega
      have htr : translate b k.paging false (0x8000000 + off) = some (frameAddr p + off) := by
        rw [translate_process hmapped hdir, hmod]
        rfl
      unfold storeBytes
      rw [htr]
      simp only
      have hnext := ih (off + 1) (k := k.withMem (Function.update k.mem (frameAddr p + off) c))
        hmapped (by simp only [fourMB]; omega)
      rw [← Nat.add_assoc] at hnext
      rw [hnext, Kernel.withMem_mem, ← Nat.add_assoc, storeAt_cons]
      rfl

/-- Only bytes that fit can be stored: the page after that of the process is not present. -/
theorem storeBytes_fits {b : Boot} {p : Nat} {bytes : List UInt8} {off : Nat} {k k' : Kernel}
    (htables : VideoTables b k.paging) (hmapped : k.paging.pageDirectory virPro = processEntry p)
    (hoff : off ≤ fourMB) (h : storeBytes b (0x8000000 + off) bytes k = some k') :
    off + bytes.length ≤ fourMB := by
  induction bytes generalizing off k with
  | nil => exact hoff
  | cons c cs ih =>
      have hlt : off < fourMB := by
        by_contra hnot
        have hpage : 0x8000000 + off = 0x8400000 := by
          simp only [fourMB] at hoff hnot
          omega
        have hnone : translate b k.paging false 0x8400000 = none :=
          htables.translate_entry_none (by decide) (by decide)
        unfold storeBytes at h
        rw [hpage, hnone] at h
        exact absurd h (by simp)
      unfold storeBytes at h
      split at h
      · exact absurd h (by simp)
      · rename_i pa htr
        have hrest := @ih (off + 1) (k.withMem (Function.update k.mem pa c)) htables hmapped hlt
          (by rw [← Nat.add_assoc]; exact h)
        rw [List.length_cons]
        omega

/-- A program that fits is loaded into the frame of the mapped process. -/
theorem loadProgram_frame {b : Boot} (inode : Nat) {p : Nat} {k : Kernel}
    (hmapped : k.paging.pageDirectory virPro = processEntry p)
    (hfit : FitsFrame (programBytes b inode)) :
    loadProgram b inode k = some (k.withMem
      (storeAt k.mem (frameAddr p + loadOffset) (programBytes b inode))) :=
  storeBytes_frame loadOffset hmapped hfit

/-- A program that is loaded fits. -/
theorem loadProgram_fits {b : Boot} (inode : Nat) {p : Nat} {k k' : Kernel}
    (htables : VideoTables b k.paging) (hmapped : k.paging.pageDirectory virPro = processEntry p)
    (h : loadProgram b inode k = some k') : FitsFrame (programBytes b inode) :=
  storeBytes_fits htables hmapped (by decide) h

/-- What is loaded is the file. -/
theorem WellFormedImage.programBytes_eq {b : Boot} (h : WellFormedImage b) {inode : Nat}
    (hinode : inode < 64) : programBytes b inode = fileContent b inode := by
  have hlen := fileContent_length b inode
  unfold programBytes
  rcases Nat.eq_zero_or_pos (inodeLength b inode) with hzero | hpos
  · have hnone : readDataFetches b inode 0 false (inodeLength b inode) = none := by
      unfold readDataFetches
      rw [hzero]
      simp
    rw [hnone, List.eq_nil_of_length_eq_zero (hlen.trans hzero)]
  · rw [h.readDataFetches_eq 0 hinode hpos, if_pos (Nat.zero_le _)]
    simp only
    rw [copyLoop_values, List.drop_zero, ← hlen, List.take_length]

/-- A program that fits starts when there is a free slot. -/
theorem launch_fits {b : Boot} {a : ExecArgs} {idx n : Nat} {k : Kernel}
    (hslot : freeSlot k = some n) (hn : n < maxNumProcess)
    (hfit : FitsFrame (programBytes b (direntryInode b idx))) :
    ∃ k', launch b a idx k = .launched (loader (checkBuffer b a.stack idx)) k' := by
  have hload := loadProgram_frame (b := b) (direntryInode b idx) (p := n)
    (k := mapProcess n (countProcess (claimSlot n k))) (processMap_pageDirectory_virPro _ hn) hfit
  unfold launch
  rw [hslot]
  simp only [hload]
  exact ⟨_, rfl⟩

/-- A call that passes the tests starts the program when there is a free slot and
the program fits. -/
theorem sysExecute_launches {b : Boot} {a : ExecArgs} {command : CString} {idx n : Nat} {k : Kernel}
    (hnum : k.numProcessExecuting ≠ 6) (hcommand : a.command = some command)
    (hidx : findDirentry b (commandName command) = some idx)
    (hmagic : hasMagic (checkBuffer b a.stack idx) = true) (hslot : freeSlot k = some n)
    (hn : n < maxNumProcess) (hfit : FitsFrame (programBytes b (direntryInode b idx))) :
    ∃ k', sysExecute b a k = .launched (loader (checkBuffer b a.stack idx)) k' := by
  rw [sysExecute_checked hnum hcommand hidx hmagic]
  exact launch_fits (by rw [freeSlot_parseCommand, hslot]) hn hfit

/-! ## Calls on the small image -/

/-- A call for a program of the small image, on a zeroed stack. -/
def smallArgs (name : CString) : ExecArgs where
  command := some name
  stack := fun _ => 0
  esp := 0
  ebp := 0

/-- A name with an argument of 161 characters, the last of which is the number 1. -/
def withLongArgument (name : CString) : CString where
  bytes := name.bytes ++ 0x20 :: List.replicate 160 0x61 ++ [1]
  nonzero := by
    intro c hc
    simp only [List.append_assoc, List.cons_append, List.mem_append, List.mem_cons,
      List.mem_replicate, List.not_mem_nil, or_false] at hc
    rcases hc with hname | rfl | ⟨-, rfl⟩ | rfl
    · exact name.nonzero c hname
    · decide
    · decide
    · decide

/-- The string `"shell"` with such an argument. -/
def longShell : CString := withLongArgument shellCommand

/-- The string `"nope"` with such an argument. -/
def longUnknown : CString := withLongArgument unknownName

/-- A halt on a zeroed stack. -/
def smallHalt : HaltArgs where
  status := 0
  stack := fun _ => 0
  esp := 0
  ebp := 0

/-- A command for the shell of the small image starts it in every state that has room for it. -/
theorem smallBoot_named {command : CString} {k : Kernel} {n : Nat}
    (hidx : findDirentry smallBoot (commandName command) = some 0)
    (hnum : k.numProcessExecuting ≠ 6) (hslot : freeSlot k = some n) (hn : n < maxNumProcess) :
    ∃ k', sysExecute smallBoot (smallArgs command) k = .launched 0x08048000 k' := by
  have hmagic : hasMagic (checkBuffer smallBoot (fun _ => 0) 0) = true := by decide +kernel
  have hfit : FitsFrame (programBytes smallBoot (direntryInode smallBoot 0)) := by decide +kernel
  have hentry : loader (checkBuffer smallBoot (fun _ => 0) 0) = 0x08048000 := by decide +kernel
  obtain ⟨k', hk'⟩ := sysExecute_launches (a := smallArgs command) hnum rfl hidx hmagic hslot
    hn hfit
  refine ⟨k', ?_⟩
  rw [hk']
  exact congrArg (fun entry => Outcome.launched entry k') hentry

/-- The file `note` of the small image is no program. -/
theorem smallBoot_note {k : Kernel} (hnum : k.numProcessExecuting ≠ 6) :
    Rejected smallBoot (smallArgs noteName) k ∧
      ∃ k', sysExecute smallBoot (smallArgs noteName) k = .returned k' := by
  have hidx : findDirentry smallBoot (commandName noteName) = some 2 := by decide +kernel
  have hmagic : hasMagic (checkBuffer smallBoot (smallArgs noteName).stack 2) = false := by
    decide +kernel
  have hrejected : Rejected smallBoot (smallArgs noteName) k :=
    ⟨hnum, noteName, rfl, 2, hidx, hmagic⟩
  exact ⟨hrejected, hrejected.returned⟩

end Ece391Kernel
