import Ece391Kernel.Screen.Video
import Ece391Kernel.Screen.Scancode
import Ece391Kernel.Library.Memory

/-!
# The terminal driver

`terminal_init`, the read and write functions of the terminal driver,
`switch_active_terminal`, and the echo functions of `keyboard.c`. `boot` is the
state in which `entry` enables interrupts: `INIT_PAGE` and `terminal_init` have
run on memory whose other contents are arbitrary.
-/

namespace Ece391Kernel

/-- The fields of a terminal that `terminal_init` sets. -/
def terminalInitRecord (term : Terminal) : Terminal :=
  { term with
    activePcb := 0
    numProcessExecutingOnTerminal := 0
    curBufSize := 0
    oldBufSize := 0
    enterFlag := 0 }

/-- `PROCESS_SIZE`. -/
@[simp] def processSize : Nat := 6

/-- The loops of `terminal_init` that blank the pages behind the video page. -/
def blankPages (b : Boot) (k : Kernel) : Kernel :=
  Nat.fold processSize
    (fun i _ k => Nat.fold (numRows * numCols)
      (fun j _ k =>
        writeByte b (writeByte b k (farPage + i * fourKB + fourKB + 2 * j) space)
          (farPage + i * fourKB + fourKB + 2 * j + 1) attrib) k) k

/-- The assignments of `terminal_init` before its loops. -/
def terminalInitRecords (k : Kernel) : Kernel :=
  { k with
    processes := fun i => if i < processSize then 0 else k.processes i
    displayedTerminal := firstTerminal
    executingTerminal := firstTerminal
    nextScheduledTerminal := firstTerminal
    terminals := fun t => terminalInitRecord (k.terminals t) }

/-- The last assignment of `terminal_init`. -/
def patchUserVideo (k : Kernel) : Kernel :=
  { k with paging := terminalInitTables k.paging }

/-- `terminal_init`. -/
def terminalInit (b : Boot) (k : Kernel) : Kernel :=
  patchUserVideo (blankPages b (terminalInitRecords k))

/-- The state of the kernel when `entry` has initialised the pages and the
terminals; `num_process_executing` still has its initial value. -/
def boot (b : Boot) (k : Kernel) : Kernel :=
  terminalInit b { k with numProcessExecuting := 0, paging := initPage b k.paging }

/-- The assignments of `switch_active_terminal` after its loops. -/
def showTerminal (t : Fin 3) (k : Kernel) : Kernel :=
  { k with
    paging := switchTables k.displayedTerminal t k.paging
    displayedTerminal := t }

/-- `switch_active_terminal`. -/
def switchActiveTerminal (b : Boot) (t : Fin 3) (k : Kernel) : Kernel :=
  showTerminal t
    (memcpy b vidAddr (farPage + (t + 1) * fourKB) fourKB
      (clear b (memcpy b (farPage + (k.displayedTerminal + 1) * fourKB) vidAddr fourKB k)))

/-- One iteration of the loop of `terminal_write`. -/
def writeChar (b : Boot) (c : UInt8) (k : Kernel) : Kernel :=
  if c ≠ 0 then
    if k.executingTerminal = k.displayedTerminal then putc b c k else putcNonDisplayed b c k
  else k

/-- `terminal_write`. -/
def terminalWrite (b : Boot) (buf : Buffer) (nbytes : Int) (k : Kernel) : Int × Kernel :=
  if nbytes = 0 then (0, k)
  else
    match buf with
    | none => (-1, k)
    | some bytes =>
        (nbytes, Nat.fold nbytes.toNat (fun i _ k => writeChar b (bytes i) k) k)

/-- `n - 1` for an `int32_t`; the processor wraps at the least integer. -/
def int32Pred (n : Int) : Int := if n = -0x80000000 then 0x7FFFFFFF else n - 1

theorem int32Pred_of_ne {n : Int} (h : n ≠ -0x80000000) : int32Pred n = n - 1 := if_neg h

/-- `terminal_read`; `none` while it still waits for the enter key. The loop
variable of the source is a byte, which never wraps because a line has at most
128 characters. -/
def terminalRead (buf : Buffer) (nbytes : Int) (k : Kernel) : Option (Int × Buffer × Kernel) :=
  if k.current.enterFlag = 0 then none
  else if nbytes = 0 then some (0, buf, k)
  else
    match buf with
    | none => some (0, none, k)
    | some bytes =>
        let count := (min (int32Pred nbytes) k.current.oldBufSize).toNat
        let line := (List.range count).map k.current.storedOldBuf
        some (count, some (ByteMemory.storeFrom bytes 0 line),
          k.setTerminal k.executingTerminal fun term => { term with enterFlag := 0 })

/-- `clear_buffer`. -/
def clearBuffer (k : Kernel) : Kernel := resetScreen k

/-- `out_key`, for the scancode `c` in the keyboard mode `mode`. -/
def outKey (b : Boot) (mode : Fin 4) (c : Nat) (k : Kernel) : Kernel :=
  if c < scancodeSize then putc b (scancode mode c) k else k

end Ece391Kernel
