import Mathlib.Logic.Function.Basic
import Mathlib.Algebra.Group.Nat.Defs
import Mathlib.Algebra.Group.Int.Defs
import Mathlib.Tactic.Simps.Basic

/-!
# The state of the kernel

The global variables of the kernel, as the source declares them: the process
table of `syscall.c`, the three `terminal_t` records, the two page tables and
the page directory of `paging.h`, the task state segment, and memory. Memory is
kept in three parts that the source never mixes: the process control blocks at
the tops of the kernel stacks, indexed by address; the page tables; and the
bytes of the video pages and of the 4MB frames of the processes, indexed by
physical address.

What does not change after boot is in `Boot`: the file-system image that the
boot loader put in memory, and where the linker put the two page tables.

A `uint32_t` that is only ever compared or added to below its bound is a natural
number, and an `int32_t` an integer; `uint32` and `int32` are the conversions of
C between the two.
-/

namespace Ece391Kernel

@[simp] def fourKB : Nat := 0x1000

@[simp] def eightKB : Nat := 0x2000

@[simp] def fourMB : Nat := 0x400000

@[simp] def eightMB : Nat := 0x800000

/-- `MAX_NUM_PROCESS`. -/
@[simp] def maxNumProcess : Nat := 6

/-- The unsigned reading of a C integer. -/
def uint32 (n : Int) : Nat := (n % 2 ^ 32).toNat

/-- The signed reading of a C integer. -/
def int32 (n : Int) : Int := (BitVec.ofInt 32 n).toInt

theorem uint32_of_lt {n : Nat} (h : n < 0x100000000) : uint32 n = n := by
  unfold uint32
  omega

theorem int32_of_lt {n : Nat} (h : n < 0x80000000) : int32 n = n := by
  unfold int32
  rw [BitVec.toInt_ofInt, Int.bmod_eq_of_le] <;> omega

/-- A NUL-terminated string, given by its bytes before the terminator. -/
structure CString where
  bytes : List UInt8
  nonzero : ∀ c ∈ bytes, c ≠ 0

/-- The byte at an index of a string; the terminator comes after the last. -/
def CString.at (s : CString) (i : Nat) : UInt8 := s.bytes.getD i 0

/-- A pointer to bytes: `none` is `NULL`, and otherwise the memory is read and
written relative to the pointer. -/
abbrev Buffer := Option (Int → UInt8)

/-- What is fixed at boot: the file-system image, read at offsets from the boot
block, and the addresses of the two page tables, which the source aligns to 4KB. -/
structure Boot where
  image : Nat → UInt8
  firstPageTable : Nat
  userVideoPageTable : Nat
  firstPageTable_aligned : firstPageTable % 4096 = 0
  userVideoPageTable_aligned : userVideoPageTable % 4096 = 0
  pageTables_ne : firstPageTable ≠ userVideoPageTable

/-! ## Process control blocks -/

/-- The four device drivers a descriptor can be bound to. -/
inductive Driver
  | terminal
  | rtc
  | dir
  | file
  deriving DecidableEq, Repr

/-- The members of `file_operations_t`. -/
inductive FileOp
  | openOp
  | readOp
  | writeOp
  | closeOp
  deriving DecidableEq, Repr

/-- A function pointer of `file_operations_t`: one of the driver functions, or
whatever word an earlier use of the memory has left. -/
inductive FnPtr
  | fn (driver : Driver) (op : FileOp)
  | stale (word : Nat)
  deriving DecidableEq, Repr

/-- `file_operations_t`. -/
structure FileOperations where
  openPtr : FnPtr
  readPtr : FnPtr
  writePtr : FnPtr
  closePtr : FnPtr
  deriving DecidableEq, Repr

/-- The jump table of one driver. -/
def driverOps (d : Driver) : FileOperations where
  openPtr := .fn d .openOp
  readPtr := .fn d .readOp
  writePtr := .fn d .writeOp
  closePtr := .fn d .closeOp

/-- `f_desc_t`. A descriptor is free when its flag is 1. -/
structure FileDesc where
  ftPtr : FileOperations
  inode : Int
  filePosition : Int
  flag : Int
  deriving DecidableEq, Repr

/-- `pcb_t`. -/
structure Pcb where
  fDesc : Nat → FileDesc
  processNum : Nat
  parentPcb : Nat
  currEsp0 : Nat
  ebp : Nat
  esp : Nat

/-- `terminal_t`, without `terminal_num`, which nothing reads. -/
structure Terminal where
  activePcb : Nat
  screenX : Int
  screenY : Int
  numProcessExecutingOnTerminal : Int
  keyboardBuf : Nat → UInt8
  storedOldBuf : Nat → UInt8
  curBufSize : Int
  oldBufSize : Int
  esp : Nat
  ebp : Nat
  enterFlag : Nat
  interruptFlag : Nat

/-- The terminal that is displayed first. -/
abbrev firstTerminal : Fin 3 := 0

/-- The terminal whose turn comes after that of another one. -/
abbrev nextTerminal (t : Fin 3) : Fin 3 := t + 1

/-! ## The whole state -/

/-- `page_directory`, `first_page_table` and `user_video_page_table`. -/
structure PageTables where
  pageDirectory : Nat → Nat
  firstPageTable : Nat → Nat
  userVideoPageTable : Nat → Nat

/-- The fields of the task state segment that the kernel sets at run time. -/
structure Tss where
  ss0 : Nat
  esp0 : Nat
  deriving DecidableEq, Repr

/-- The global variables of the kernel. The buffers `fname` and `arg` are read
and written relative to their first byte, and the places outside the array stand
for the bytes around it. -/
structure Kernel where
  processes : Nat → Nat
  numProcessExecuting : UInt32
  fname : Int → UInt8
  arg : Int → UInt8
  argLength : Nat
  terminals : Fin 3 → Terminal
  displayedTerminal : Fin 3
  executingTerminal : Fin 3
  nextScheduledTerminal : Fin 3
  paging : PageTables
  tss : Tss
  pcbs : Nat → Pcb
  mem : Nat → UInt8

namespace Kernel

/-- The record of the terminal whose process is running. -/
def current (k : Kernel) : Terminal := k.terminals k.executingTerminal

/-- The process control block of the running process. -/
def activePcb (k : Kernel) : Pcb := k.pcbs k.current.activePcb

/-- Change the record of one terminal. -/
@[simps -fullyApplied] def setTerminal (k : Kernel) (t : Fin 3) (f : Terminal → Terminal) :
    Kernel :=
  { k with terminals := Function.update k.terminals t (f (k.terminals t)) }

/-- The state in which a process of terminal `t` runs. -/
@[simps -fullyApplied] def onTerminal (t : Fin 3) (k : Kernel) : Kernel :=
  { k with executingTerminal := t }

/-- Change the process control block at an address. -/
@[simps -fullyApplied] def setPcb (k : Kernel) (addr : Nat) (f : Pcb → Pcb) : Kernel :=
  { k with pcbs := Function.update k.pcbs addr (f (k.pcbs addr)) }

/-- Change the bytes of memory. -/
@[simps -fullyApplied] def withMem (k : Kernel) (m : Nat → UInt8) : Kernel := { k with mem := m }

/-- Change one descriptor of the running process. -/
def setDesc (k : Kernel) (fd : Nat) (f : FileDesc → FileDesc) : Kernel :=
  k.setPcb k.current.activePcb fun p =>
    { p with fDesc := Function.update p.fDesc fd (f (p.fDesc fd)) }

theorem onTerminal_eq {k : Kernel} {t : Fin 3} (h : k.executingTerminal = t) :
    k.onTerminal t = k := by
  unfold onTerminal
  rw [← h]

@[simp] theorem setTerminal_terminals_same (k : Kernel) (t : Fin 3) (f : Terminal → Terminal) :
    (k.setTerminal t f).terminals t = f (k.terminals t) := by
  simp

theorem setTerminal_terminals_ne (k : Kernel) {t u : Fin 3} (f : Terminal → Terminal)
    (h : u ≠ t) : (k.setTerminal t f).terminals u = k.terminals u := by
  simp [h]

@[simp] theorem setPcb_pcbs_same (k : Kernel) (a : Nat) (f : Pcb → Pcb) :
    (k.setPcb a f).pcbs a = f (k.pcbs a) := by
  simp

theorem setPcb_pcbs_ne (k : Kernel) {a c : Nat} (f : Pcb → Pcb) (h : c ≠ a) :
    (k.setPcb a f).pcbs c = k.pcbs c := by
  simp [h]

end Kernel

end Ece391Kernel
