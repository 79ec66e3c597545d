import Ece391Kernel.Kernel.State
import Ece391Kernel.Library.Flags

/-!
# The page tables

`initPage`, `processMap` and the part of `switch_active_terminal` that patches
the video page table are the three writers of the tables in `paging.c`;
`terminal_init` patches one entry more. `translate` is the two-level walk of the
processor: present and user bits are required at both levels, and a page
directory entry with the size bit maps a whole 4MB page. A load or a store of
the kernel goes through `translate`; one that the tables do not map changes
nothing here, and no address that the video code uses is of this kind.
-/

namespace Ece391Kernel

/-- `KB_SIZE`, the number of entries of a table. -/
@[simp] def kbSize : Nat := 1024

@[simp] def videoIndex : Nat := 0xB8

/-- `KERNEL_SPEC`: present, writable and 4MB. -/
def kernelSpec : Nat := 0x83

def notPresent : Nat := 0x00000002

/-- `USER`. -/
def userFlag : Nat := 0x4

@[simp] def virPro : Nat := 32

/-- `WP`: the present and the write bit. -/
def wp : Nat := 3

/-- `PRESENT`, which is in fact the write bit. -/
def present : Nat := 2

@[simp] def userVidPage : Nat := 33

@[simp] def vidAddr : Nat := 0xB8000

@[simp] def farPage : Nat := 0x84B8000

@[simp] def indexSeg : Nat := 4

@[simp] def fishBound : Nat := 7

/-- What the loop `for (i = lo; i < hi; i++) m[i] = f(i)` leaves. -/
def setEntries (m : Nat → Nat) (lo hi : Nat) (f : Nat → Nat) : Nat → Nat :=
  fun i => if lo ≤ i ∧ i < hi then f i else m i

/-- `INIT_PAGE`. -/
def initPage (b : Boot) (pt : PageTables) : PageTables :=
  let pageDirectory := setEntries pt.pageDirectory 0 kbSize fun _ => notPresent
  let firstPageTable := setEntries pt.firstPageTable 0 kbSize fun i => i * fourKB ||| present
  let firstPageTable :=
    Function.update firstPageTable videoIndex (firstPageTable videoIndex ||| wp)
  let pageDirectory := Function.update pageDirectory 0 (b.firstPageTable ||| wp)
  let pageDirectory := Function.update pageDirectory 1 (fourMB ||| kernelSpec)
  let userVideo := setEntries pt.userVideoPageTable 0 kbSize fun i => i * fourKB ||| present
  let userVideo := Function.update userVideo videoIndex (vidAddr ||| wp ||| userFlag)
  -- the loop variable of the source is the offset from the video page
  let userVideo := setEntries userVideo (videoIndex + 1) (videoIndex + fishBound) fun j =>
    (vidAddr + (j - videoIndex) * fourKB) ||| wp ||| userFlag
  let pageDirectory :=
    Function.update pageDirectory userVidPage (b.userVideoPageTable ||| wp ||| userFlag)
  { pageDirectory := pageDirectory
    firstPageTable := firstPageTable
    userVideoPageTable := userVideo }

/-- `process_map`. -/
def processMap (process : Nat) (pt : PageTables) : PageTables :=
  let processAddr := (eightMB + fourMB * process) % 2 ^ 32
  { pt with
    pageDirectory :=
      Function.update pt.pageDirectory virPro (processAddr ||| kernelSpec ||| userFlag) }

/-- The last statement of `terminal_init`. -/
def terminalInitTables (pt : PageTables) : PageTables :=
  { pt with
    userVideoPageTable :=
      Function.update pt.userVideoPageTable (videoIndex + indexSeg)
        (vidAddr ||| userFlag ||| wp) }

/-- The statements of `switch_active_terminal` that patch the video page table. -/
def switchTables (displayed next : Fin 3) (pt : PageTables) : PageTables :=
  let table :=
    Function.update pt.userVideoPageTable (videoIndex + displayed + indexSeg)
      ((vidAddr + (indexSeg + displayed) * fourKB) ||| wp ||| userFlag)
  { pt with
    userVideoPageTable :=
      Function.update table (videoIndex + next + indexSeg) (vidAddr ||| wp ||| userFlag) }

/-- The page table at a physical address. -/
def Boot.tableAt (b : Boot) (pt : PageTables) (addr : Nat) : Nat → Nat :=
  if addr = b.firstPageTable then pt.firstPageTable
  else if addr = b.userVideoPageTable then pt.userVideoPageTable
  else fun _ => 0

/-- An entry lets an access through: it is present and, for an access of a user
program, has the user bit. -/
def permitted (user : Bool) (entry : Nat) : Bool :=
  entry.testBit 0 && (!user || entry.testBit 2)

/-- The physical address of a virtual one, if the access is permitted. -/
def translate (b : Boot) (pt : PageTables) (user : Bool) (v : Nat) : Option Nat :=
  let pde := pt.pageDirectory (v / fourMB)
  if permitted user pde then
    if pde.testBit 7 then
      some (pde / fourMB * fourMB + v % fourMB)
    else
      let pte := b.tableAt pt (pde / fourKB * fourKB) (v / fourKB % kbSize)
      if permitted user pte then some (pte / fourKB * fourKB + v % fourKB) else none
  else none

/-! ## Loads and stores of the kernel -/

/-- A byte that the kernel loads through the page tables. -/
def readByte (b : Boot) (k : Kernel) (v : Nat) : UInt8 :=
  match translate b k.paging false v with
  | some pa => k.mem pa
  | none => 0

/-- A byte that the kernel stores through the page tables. -/
def writeByte (b : Boot) (k : Kernel) (v : Nat) (c : UInt8) : Kernel :=
  match translate b k.paging false v with
  | some pa => { k with mem := Function.update k.mem pa c }
  | none => k

/-! ## Loads and stores of the programs -/

/-- `VIRSTART`. -/
@[simp] def virStart : Nat := 0x8000000

/-- `VIREND`. -/
@[simp] def virEnd : Nat := 0x8400000

/-- A byte that a program loads; `none` is a page fault. -/
def userRead (b : Boot) (k : Kernel) (v : Nat) : Option UInt8 :=
  (translate b k.paging true v).map k.mem

/-- A byte that a program stores; `none` is a page fault. -/
def userWrite (b : Boot) (k : Kernel) (v : Nat) (c : UInt8) : Option Kernel :=
  (translate b k.paging true v).map fun pa => k.withMem (Function.update k.mem pa c)

/-! ## Entries, pages and accesses -/

theorem setEntries_of_mem (m : Nat → Nat) {lo hi : Nat} (f : Nat → Nat) {i : Nat}
    (h : lo ≤ i ∧ i < hi) : setEntries m lo hi f i = f i := if_pos h

theorem setEntries_of_not_mem (m : Nat → Nat) {lo hi : Nat} (f : Nat → Nat) {i : Nat}
    (h : ¬(lo ≤ i ∧ i < hi)) : setEntries m lo hi f i = m i := if_neg h

/-- The flags of a page-table entry leave the address alone. -/
theorem entry_or_or (a f g : Nat) : a ||| f ||| g = a ||| (f ||| g) := Nat.or_assoc a f g

/-- An access through a page directory entry that maps a 4MB page. -/
theorem translate_of_large {b : Boot} {pt : PageTables} {user : Bool} {v a f : Nat}
    (hpde : pt.pageDirectory (v / fourMB) = a ||| f) (ha : a % fourMB = 0)
    (hf : f < 256) (hperm : permitted user f = true) (hsize : f.testBit 7 = true) :
    translate b pt user v = some (a + v % fourMB) := by
  have ha22 : a % 2 ^ 22 = 0 := by simpa using ha
  have hperm' : permitted user (a ||| f) = true := by
    unfold permitted at hperm ⊢
    rwa [FlagWord.testBit_or_of_lt ha22 (by omega), FlagWord.testBit_or_of_lt ha22 (by omega)]
  have haddr : (a ||| f) / fourMB * fourMB = a := FlagWord.address_or ha22 (by omega)
  unfold translate
  simp only [hpde, hperm', if_true, haddr]
  rw [FlagWord.testBit_or_of_lt ha22 (by omega), hsize, if_pos rfl]

/-- An access through a page directory entry that points to a page table. -/
theorem translate_of_table {b : Boot} {pt : PageTables} {user : Bool} {v a f : Nat}
    (hpde : pt.pageDirectory (v / fourMB) = a ||| f) (ha : a % fourKB = 0)
    (hf : f < 128) (hperm : permitted user f = true) :
    translate b pt user v =
      if permitted user (b.tableAt pt a (v / fourKB % kbSize)) then
        some (b.tableAt pt a (v / fourKB % kbSize) / fourKB * fourKB + v % fourKB)
      else none := by
  have ha12 : a % 2 ^ 12 = 0 := by simpa using ha
  have hperm' : permitted user (a ||| f) = true := by
    unfold permitted at hperm ⊢
    rwa [FlagWord.testBit_or_of_lt ha12 (by omega), FlagWord.testBit_or_of_lt ha12 (by omega)]
  have haddr : (a ||| f) / fourKB * fourKB = a := FlagWord.address_or ha12 (by omega)
  have hsize : (a ||| f).testBit 7 = false := by
    rw [FlagWord.testBit_or_of_lt ha12 (by omega)]
    exact Nat.testBit_lt_two_pow hf
  unfold translate
  simp only [hpde, hperm', if_true, hsize, haddr, Bool.false_eq_true, if_false]

/-- An access that the page directory entry does not permit. -/
theorem translate_of_not_permitted {b : Boot} {pt : PageTables} {user : Bool} {v a f : Nat}
    (hpde : pt.pageDirectory (v / fourMB) = a ||| f) (ha : a % fourKB = 0)
    (hperm : permitted user f = false) : translate b pt user v = none := by
  have ha12 : a % 2 ^ 12 = 0 := by simpa using ha
  have hperm' : permitted user (a ||| f) = false := by
    unfold permitted at hperm ⊢
    rwa [FlagWord.testBit_or_of_lt ha12 (by omega), FlagWord.testBit_or_of_lt ha12 (by omega)]
  unfold translate
  simp only [hpde, hperm', Bool.false_eq_true, if_false]

theorem permitted_or {user : Bool} {a f : Nat} (ha : a % fourKB = 0) :
    permitted user (a ||| f) = permitted user f := by
  have ha12 : a % 2 ^ 12 = 0 := by simpa using ha
  unfold permitted
  rw [FlagWord.testBit_or_of_lt ha12 (by omega), FlagWord.testBit_or_of_lt ha12 (by omega)]

end Ece391Kernel
