import Ece391Kernel.Kernel.State

/-!
# The file-system image

The layout of `file.h`: the boot block with its 63 directory entries, 64 inode
blocks, and the data blocks after them. Everything is read at an offset from the
boot block, with the 32-bit wrap-around of the address arithmetic, so that a
number in the image that points outside it still reads some byte.
-/

namespace Ece391Kernel

@[simp] def filenameLen : Nat := 32

@[simp] def entriesNum : Nat := 63

@[simp] def blockSize : Nat := 4096

/-- `data_BNUM`. -/
@[simp] def dataBNum : Nat := 1023

def rtcFile : Int := 0

def dirFile : Int := 1

def regFile : Int := 2

/-- The byte at an offset from the boot block. -/
def Boot.byte (b : Boot) (a : Nat) : UInt8 := b.image (a % 2 ^ 32)

/-- The little-endian word at an offset from the boot block. -/
def Boot.word (b : Boot) (a : Nat) : Nat :=
  (b.byte a).toNat + 2 ^ 8 * (b.byte (a + 1)).toNat + 2 ^ 16 * (b.byte (a + 2)).toNat +
    2 ^ 24 * (b.byte (a + 3)).toNat

/-! ## The boot block -/

def dirCount (b : Boot) : Int := int32 (b.word 0)

/-- `inode_count`, in the unsigned reading of its one comparison. -/
def inodeCount (b : Boot) : Nat := b.word 4

/-- `data_count`, in the unsigned reading of its one comparison. -/
def dataCount (b : Boot) : Nat := b.word 8

def direntryAddr (i : Nat) : Nat := 64 + 64 * i

/-- `direntries[i].filename[j]`. -/
def direntryName (b : Boot) (i j : Nat) : UInt8 := b.byte (direntryAddr i + j)

/-- `direntries[i].filetype`. -/
def direntryType (b : Boot) (i : Nat) : Int := int32 (b.word (direntryAddr i + 32))

/-- `direntries[i].inode_num`, in the unsigned reading. -/
def direntryInode (b : Boot) (i : Nat) : Nat := b.word (direntryAddr i + 36)

/-! ## Inodes and data blocks -/

def inodeAddr (inode : Nat) : Nat := (inode + 1) * blockSize

/-- `length` of an inode, in the unsigned reading. -/
def inodeLength (b : Boot) (inode : Nat) : Nat := b.word (inodeAddr inode)

/-- `data_block_num[j]` of an inode, in the unsigned reading. -/
def dataBlockNum (b : Boot) (inode j : Nat) : Nat := b.word (inodeAddr inode + 4 + 4 * j)

/-- `data[off]` of a data block. -/
def dataByte (b : Boot) (block off : Nat) : UInt8 :=
  b.byte ((entriesNum + 1 + 1) * blockSize + block * blockSize + off)

/-- The data blocks that the length of an inode needs. -/
def blockCount (b : Boot) (inode : Nat) : Nat := (inodeLength b inode + (blockSize - 1)) / blockSize

/-- The bytes of a data block. -/
def dataBlock (b : Boot) (block : Nat) : List UInt8 :=
  (List.range blockSize).map (dataByte b block)

/-- The bytes of a file: its data blocks in the order of the inode, up to its
length. -/
def fileContent (b : Boot) (inode : Nat) : List UInt8 :=
  ((List.range (blockCount b inode)).flatMap fun j => dataBlock b (dataBlockNum b inode j)).take
    (inodeLength b inode)

/-- An image with the 64 inode blocks that the code counts on, whose inodes are
not longer than their tables and name distinct data blocks of the image. -/
structure WellFormedImage (b : Boot) : Prop where
  inodes : inodeCount b = entriesNum + 1
  length_le : ∀ i < 64, inodeLength b i ≤ dataBNum * blockSize
  block_lt : ∀ i < 64, ∀ j < blockCount b i, dataBlockNum b i j < dataCount b
  block_inj : ∀ i < 64, ∀ j < blockCount b i, ∀ j' < blockCount b i,
    dataBlockNum b i j = dataBlockNum b i j' → j = j'

/-! ## A small image

An image with two programs, `shell` and `ls`, and a text file, `note`. The
programs are as short as the kernel accepts, and differ in one byte. -/

/-- The image that holds the given bytes at the given offsets, and zeroes. -/
def imageOf (segments : List (Nat × List UInt8)) (a : Nat) : UInt8 :=
  match segments with
  | [] => 0
  | (start, bytes) :: rest =>
      if start ≤ a ∧ a < start + bytes.length then bytes.getD (a - start) 0 else imageOf rest a

/-- A program of 28 bytes: the magic number, an identifying byte, and the entry
point `0x08048000` in its last word. -/
def smallProgram (id : UInt8) : List UInt8 :=
  [0x7F, 0x45, 0x4C, 0x46, id] ++ List.replicate 19 0 ++ [0x00, 0x80, 0x04, 0x08]

def smallImage : List (Nat × List UInt8) :=
  [ (0, [3, 0, 0, 0, 64, 0, 0, 0, 3, 0, 0, 0]),
    (direntryAddr 0, [0x73, 0x68, 0x65, 0x6C, 0x6C]),
    (direntryAddr 0 + 32, [2, 0, 0, 0, 0, 0, 0, 0]),
    (direntryAddr 1, [0x6C, 0x73]),
    (direntryAddr 1 + 32, [2, 0, 0, 0, 1, 0, 0, 0]),
    (direntryAddr 2, [0x6E, 0x6F, 0x74, 0x65]),
    (direntryAddr 2 + 32, [2, 0, 0, 0, 2, 0, 0, 0]),
    (inodeAddr 0, [28, 0, 0, 0, 0, 0, 0, 0]),
    (inodeAddr 1, [28, 0, 0, 0, 1, 0, 0, 0]),
    (inodeAddr 2, [2, 0, 0, 0, 2, 0, 0, 0]),
    (65 * 4096, smallProgram 1),
    (66 * 4096, smallProgram 2),
    (67 * 4096, [0x68, 0x69]) ]

/-- A kernel image linked at 4MB, with the small file-system image. -/
def smallBoot : Boot where
  image := imageOf smallImage
  firstPageTable := 0x410000
  userVideoPageTable := 0x411000
  firstPageTable_aligned := by decide
  userVideoPageTable_aligned := by decide
  pageTables_ne := by decide

/-- The name `note`. -/
def noteName : CString := ⟨[0x6E, 0x6F, 0x74, 0x65], by simp⟩

/-- The string `"nope"`, which is no name of the small image. -/
def unknownName : CString := ⟨[0x6E, 0x6F, 0x70, 0x65], by simp⟩

/-- The small image with other contents in some places. -/
def patchedBoot (segments : List (Nat × List UInt8)) : Boot :=
  { smallBoot with image := imageOf (segments ++ smallImage) }

/-- A kernel with zeroed memory, as the boot loader leaves it. -/
def blankKernel : Kernel where
  processes := fun _ => 0
  numProcessExecuting := 0
  fname := fun _ => 0
  arg := fun _ => 0
  argLength := 0
  terminals := fun _ =>
    { activePcb := 0, screenX := 0, screenY := 0, numProcessExecutingOnTerminal := 0
      keyboardBuf := fun _ => 0, storedOldBuf := fun _ => 0, curBufSize := 0, oldBufSize := 0
      esp := 0, ebp := 0, enterFlag := 0, interruptFlag := 0 }
  displayedTerminal := firstTerminal
  executingTerminal := firstTerminal
  nextScheduledTerminal := firstTerminal
  paging :=
    { pageDirectory := fun _ => 0, firstPageTable := fun _ => 0, userVideoPageTable := fun _ => 0 }
  tss := { ss0 := 0, esp0 := 0 }
  pcbs := fun _ =>
    { fDesc := fun _ =>
        { ftPtr := { openPtr := .stale 0, readPtr := .stale 0, writePtr := .stale 0,
                     closePtr := .stale 0 }
          inode := 0, filePosition := 0, flag := 0 }
      processNum := 0, parentPcb := 0, currEsp0 := 0, ebp := 0, esp := 0 }
  mem := fun _ => 0

theorem smallBoot_wellFormed : WellFormedImage smallBoot where
  inodes := by decide
  length_le := by decide +kernel
  block_lt := by decide +kernel
  block_inj := by decide +kernel

end Ece391Kernel
