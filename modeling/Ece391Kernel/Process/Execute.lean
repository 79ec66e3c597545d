import Ece391Kernel.Process.Command
import Ece391Kernel.Descriptor.Calls

/-!
# Starting and ending processes

`sys_execute` and `sys_halt`. A call that starts a process does not return: it
leaves the kernel for the first instruction of the program; and a call that ends
a process returns from the `sys_execute` of its parent. The steps of
`sys_execute` are functions of their own, in the order of the source, so that
other modules can let an interrupt come between them.

Two things come from outside the kernel data: what the stack holds where
`sys_execute` has its local buffer, and the stack registers that it saves.
-/

namespace Ece391Kernel

/-- `KERNEL_DS`. -/
@[simp] def kernelDs : Nat := 0x18

/-- `VIRTUALADDR`. -/
@[simp] def virtualAddr : Nat := 0x08048000

/-- `bufferlen`. -/
@[simp] def bufferLen : Nat := 30

/-- The address of the process control block in slot `n`. -/
def pcbAddr (n : Nat) : Nat := eightMB - (n + 1) * eightKB

/-- The arguments of a call of `sys_execute`. -/
structure ExecArgs where
  command : Option CString
  stack : Int → UInt8
  esp : Nat
  ebp : Nat

/-- The arguments of a call of `sys_halt`; the last three are for the shell that
it may start. -/
structure HaltArgs where
  status : UInt8
  stack : Int → UInt8
  esp : Nat
  ebp : Nat

/-- How a call ends: it returns -1; it leaves for the first instruction of a new
program; it returns, with these registers, from the call of the parent; it goes
on with a process number that was never assigned; or it faults. -/
inductive Outcome
  | returned (k : Kernel)
  | launched (firstInstruction : Nat) (k : Kernel)
  | resumed (eax esp ebp : Nat) (k : Kernel)
  | noSlot
  | fault

/-- The state in which a process goes on. -/
def Outcome.state : Outcome → Option Kernel
  | .returned k => some k
  | .launched _ k => some k
  | .resumed _ _ _ k => some k
  | .noSlot => none
  | .fault => none

/-! ## The steps of `sys_execute` -/

/-- The local buffer after the `read_data` of `executable_check`. -/
def checkBuffer (b : Boot) (stack : Int → UInt8) (directoryIdx : Nat) : Int → UInt8 :=
  (readData b (direntryInode b directoryIdx) 0 (some stack) bufferLen).2.getD stack

/-- The four comparisons of `executable_check`. -/
def hasMagic (buf : Int → UInt8) : Bool :=
  buf 0 == 0x7F && buf 1 == 0x45 && buf 2 == 0x4C && buf 3 == 0x46

/-- A failing comparison of `executable_check` takes one off the count. -/
@[simps -fullyApplied] def dropCount (k : Kernel) : Kernel :=
  { k with numProcessExecuting := k.numProcessExecuting - 1 }

/-- `executable_check`, after its `read_data`. -/
def executableCheck (buf : Int → UInt8) (k : Kernel) : Int × Kernel :=
  if hasMagic buf then (0, k) else (-1, dropCount k)

/-- `loader`. -/
def loader (buf : Int → UInt8) : Nat :=
  (buf 27).toNat <<< 24 ||| (buf 26).toNat <<< 16 ||| (buf 25).toNat <<< 8 ||| (buf 24).toNat

/-- The search for a free slot. -/
def freeSlot (k : Kernel) : Option Nat :=
  (List.range maxNumProcess).find? fun i => k.processes i == 0

/-- Mark a slot as used. -/
@[simps -fullyApplied] def claimSlot (n : Nat) (k : Kernel) : Kernel :=
  { k with processes := Function.update k.processes n 1 }

/-- The two counter increments. -/
@[simps! -fullyApplied] def countProcess (k : Kernel) : Kernel :=
  { k with numProcessExecuting := k.numProcessExecuting + 1 }.setTerminal k.executingTerminal
    fun term =>
      { term with numProcessExecutingOnTerminal := term.numProcessExecutingOnTerminal + 1 }

/-- `process_map`. -/
@[simps -fullyApplied] def mapProcess (n : Nat) (k : Kernel) : Kernel :=
  { k with paging := processMap n k.paging }

/-- Store bytes from an address on; `none` is a page fault. -/
def storeBytes (b : Boot) : Nat → List UInt8 → Kernel → Option Kernel
  | _, [], k => some k
  | v, c :: cs, k =>
      match translate b k.paging false v with
      | none => none
      | some pa => storeBytes b (v + 1) cs (k.withMem (Function.update k.mem pa c))

/-- The bytes that the second `read_data` stores. -/
def programBytes (b : Boot) (inode : Nat) : List UInt8 :=
  match readDataFetches b inode 0 false (inodeLength b inode) with
  | none => []
  | some fetched => fetched.map Fetch.value

/-- Copy the file to `VIRTUALADDR`. -/
def loadProgram (b : Boot) (inode : Nat) (k : Kernel) : Option Kernel :=
  storeBytes b virtualAddr (programBytes b inode) k

/-- The process control block in slot `n` becomes the active one of the executing
terminal, and is filled in. -/
def attachPcb (n esp ebp : Nat) (k : Kernel) : Kernel :=
  let parent := k.current.activePcb
  let k := openIo (clearDescriptors
    (k.setTerminal k.executingTerminal fun term => { term with activePcb := pcbAddr n }))
  k.setPcb (pcbAddr n) fun p =>
    { p with
      processNum := n
      parentPcb := if k.current.numProcessExecutingOnTerminal ≤ 1 then 0 else parent
      ebp := ebp
      esp := esp
      currEsp0 := k.tss.esp0 }

/-- The kernel stack for the new process. -/
@[simps -fullyApplied] def setTss (n : Nat) (k : Kernel) : Kernel :=
  { k with tss := { ss0 := kernelDs, esp0 := eightMB - eightKB * n } }

/-- What `sys_execute` does once the file has been found and checked. -/
def launch (b : Boot) (a : ExecArgs) (directoryIdx : Nat) (k : Kernel) : Outcome :=
  match freeSlot k with
  | none => .noSlot
  | some n =>
      match loadProgram b (direntryInode b directoryIdx)
          (mapProcess n (countProcess (claimSlot n k))) with
      | none => .fault
      | some k =>
          .launched (loader (checkBuffer b a.stack directoryIdx))
            (setTss n (attachPcb n a.esp a.ebp k))

/-- `sys_execute`. -/
def sysExecute (b : Boot) (a : ExecArgs) (k : Kernel) : Outcome :=
  if k.numProcessExecuting = 6 then .returned k
  else
    match a.command with
    | none => .returned k
    | some command =>
        let k := parseCommand command k
        match findDirentry b fun i : Nat => k.fname i with
        | none => .returned k
        | some directoryIdx =>
            match executableCheck (checkBuffer b a.stack directoryIdx) k with
            | (-1, k) => .returned k
            | (_, k) => launch b a directoryIdx k

/-! ## `sys_halt` -/

/-- The string `"shell"`. -/
def shellCommand : CString := ⟨[0x73, 0x68, 0x65, 0x6C, 0x6C], by simp⟩

/-- The string `"shell ab"`. -/
def shellWithArg : CString := ⟨[0x73, 0x68, 0x65, 0x6C, 0x6C, 0x20, 0x61, 0x62], by simp⟩

/-- The loop of `sys_halt` that closes files; it stops before descriptor 7. -/
def closeFiles (k : Kernel) : Kernel :=
  Nat.fold (uppb - 2) (fun i _ k => (sysClose (regFile + i) k).2) k

/-- The counters and the slot of the running process. -/
@[simps! -fullyApplied] def releaseProcess (k : Kernel) : Kernel :=
  { k with
    numProcessExecuting := k.numProcessExecuting - 1
    processes := Function.update k.processes k.activePcb.processNum 0 }.setTerminal
      k.executingTerminal fun term =>
        { term with numProcessExecutingOnTerminal := term.numProcessExecutingOnTerminal - 1 }

/-- Go back to the parent of the process with the given control block. -/
@[simps! -fullyApplied] def resumeParent (pcb : Pcb) (k : Kernel) : Kernel :=
  { k with
    paging := processMap (k.pcbs pcb.parentPcb).processNum k.paging
    tss := { ss0 := kernelDs, esp0 := pcb.currEsp0 } }.setTerminal k.executingTerminal fun term =>
      { term with activePcb := pcb.parentPcb }

/-- The value that the parent's call returns. -/
def haltReturn (status : UInt8) : Nat := if status = 0xFF then 256 else status.toNat

/-- `sys_halt`. When the shell that replaces the last process of a terminal does
not start, the null parent is read, on a page that is not present. -/
def sysHalt (b : Boot) (a : HaltArgs) (k : Kernel) : Outcome :=
  let curr := k.current.activePcb
  let k := releaseProcess (closeFiles k)
  let pcb := k.pcbs curr
  if pcb.parentPcb = 0 then
    match sysExecute b ⟨some shellCommand, a.stack, a.esp, a.ebp⟩ k with
    | .returned _ => .fault
    | outcome => outcome
  else .resumed (haltReturn a.status) pcb.esp pcb.ebp (resumeParent pcb k)

/-! ## The cases of a call -/

/-- A call that gets as far as the check of a file that is no program. -/
def Rejected (b : Boot) (a : ExecArgs) (k : Kernel) : Prop :=
  k.numProcessExecuting ≠ 6 ∧ ∃ command, a.command = some command ∧
    ∃ idx, findDirentry b (commandName command) = some idx ∧
      hasMagic (checkBuffer b a.stack idx) = false

theorem sysExecute_early {b : Boot} {a : ExecArgs} {k : Kernel}
    (h : k.numProcessExecuting = 6 ∨ a.command = none) : sysExecute b a k = .returned k := by
  unfold sysExecute
  by_cases hfull : k.numProcessExecuting = 6
  · rw [if_pos hfull]
  · rw [if_neg hfull, h.resolve_left hfull]

section Commands

variable {b : Boot} {a : ExecArgs} {k : Kernel} {command : CString} {idx : Nat}

theorem sysExecute_unknown (hnum : k.numProcessExecuting ≠ 6) (hcommand : a.command = some command)
    (hidx : findDirentry b (commandName command) = none) :
    sysExecute b a k = .returned (parseCommand command k) := by
  unfold sysExecute
  rw [if_neg hnum, hcommand]
  simp only [findDirentry_parseCommand, hidx]

theorem sysExecute_rejected (hnum : k.numProcessExecuting ≠ 6) (hcommand : a.command = some command)
    (hidx : findDirentry b (commandName command) = some idx)
    (hmagic : hasMagic (checkBuffer b a.stack idx) = false) :
    sysExecute b a k = .returned (dropCount (parseCommand command k)) := by
  unfold sysExecute
  rw [if_neg hnum, hcommand]
  simp only [findDirentry_parseCommand, hidx]
  simp [executableCheck, hmagic]

theorem sysExecute_checked (hnum : k.numProcessExecuting ≠ 6) (hcommand : a.command = some command)
    (hidx : findDirentry b (commandName command) = some idx)
    (hmagic : hasMagic (checkBuffer b a.stack idx) = true) :
    sysExecute b a k = launch b a idx (parseCommand command k) := by
  unfold sysExecute
  rw [if_neg hnum, hcommand]
  simp only [findDirentry_parseCommand, hidx]
  simp [executableCheck, hmagic]

end Commands

theorem sysExecute_cases (b : Boot) (a : ExecArgs) (k : Kernel) :
    ((k.numProcessExecuting = 6 ∨ a.command = none) ∧ sysExecute b a k = .returned k) ∨
    (∃ command, k.numProcessExecuting ≠ 6 ∧ a.command = some command ∧
      findDirentry b (commandName command) = none ∧
      sysExecute b a k = .returned (parseCommand command k)) ∨
    (∃ command, Rejected b a k ∧ a.command = some command ∧
      sysExecute b a k = .returned (dropCount (parseCommand command k))) ∨
    ∃ command idx, k.numProcessExecuting ≠ 6 ∧ a.command = some command ∧
      findDirentry b (commandName command) = some idx ∧
      hasMagic (checkBuffer b a.stack idx) = true ∧
      sysExecute b a k = launch b a idx (parseCommand command k) := by
  by_cases hfull : k.numProcessExecuting = 6
  · exact Or.inl ⟨Or.inl hfull, sysExecute_early (Or.inl hfull)⟩
  · cases hcommand : a.command with
    | none => exact Or.inl ⟨Or.inr rfl, sysExecute_early (Or.inr hcommand)⟩
    | some command =>
        right
        cases hidx : findDirentry b (commandName command) with
        | none =>
            exact Or.inl ⟨command, hfull, rfl, hidx, sysExecute_unknown hfull hcommand hidx⟩
        | some idx =>
            right
            cases hmagic : hasMagic (checkBuffer b a.stack idx) with
            | false =>
                exact Or.inl ⟨command, ⟨hfull, command, hcommand, idx, hidx, hmagic⟩, rfl,
                  sysExecute_rejected hfull hcommand hidx hmagic⟩
            | true =>
                exact Or.inr ⟨command, idx, hfull, rfl, hidx, hmagic,
                  sysExecute_checked hfull hcommand hidx hmagic⟩

theorem launch_cases (b : Boot) (a : ExecArgs) (idx : Nat) (k : Kernel) :
    (freeSlot k = none ∧ launch b a idx k = .noSlot) ∨
    (∃ n, freeSlot k = some n ∧ launch b a idx k = .fault) ∨
    ∃ n kl, freeSlot k = some n ∧
      loadProgram b (direntryInode b idx) (mapProcess n (countProcess (claimSlot n k))) = some kl ∧
      launch b a idx k = .launched (loader (checkBuffer b a.stack idx))
        (setTss n (attachPcb n a.esp a.ebp kl)) := by
  unfold launch
  cases hslot : freeSlot k with
  | none => exact Or.inl ⟨rfl, rfl⟩
  | some n =>
      right
      simp only
      cases hload : loadProgram b (direntryInode b idx)
          (mapProcess n (countProcess (claimSlot n k))) with
      | none => exact Or.inl ⟨n, rfl, rfl⟩
      | some kl => exact Or.inr ⟨n, kl, rfl, hload, rfl⟩

end Ece391Kernel
