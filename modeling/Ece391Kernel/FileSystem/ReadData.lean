import Ece391Kernel.FileSystem.Image
import Ece391Kernel.Library.Memory
import Ece391Kernel.Library.Blocks
import Mathlib.Data.Finset.Card
import Mathlib.Data.Finset.Image

/-!
# Reading a file

`read_data` copies byte after byte, looking up the data block of each byte in
the table of the inode. The copy loop is kept as the list of its fetches, each
with the table index that it follows and the block number found there; what the
loop stores in the buffer is the list of the fetched values.
-/

namespace Ece391Kernel

open ByteMemory

/-- What one iteration of the copy loop reads. -/
structure Fetch where
  index : Nat
  block : Nat
  value : UInt8

/-- The iteration of the copy loop at position `start` of the file. -/
def fetch (b : Boot) (inode start : Nat) : Fetch where
  index := start / blockSize
  block := dataBlockNum b inode (start / blockSize)
  value := dataByte b (dataBlockNum b inode (start / blockSize)) (start % blockSize)

/-- The copy loop of `read_data`, with `n` iterations to go and `start` as in the
source: it ends early at the end of the file. -/
def copyLoop (b : Boot) (inode : Nat) : Nat → Nat → List Fetch
  | 0, _ => []
  | n + 1, start =>
      if start < inodeLength b inode then fetch b inode start :: copyLoop b inode n (start + 1)
      else []

/-- The fetches of `read_data`; `none` when it returns -1 before the loop. -/
def readDataFetches (b : Boot) (inode offset : Nat) (bufIsNull : Bool) (length : Nat) :
    Option (List Fetch) :=
  if inode > inodeCount b then none
  else if inode > entriesNum ∨ length = 0 ∨ bufIsNull ∨ offset > inodeLength b inode ∨
      offset / blockSize > dataCount b then none
  else some (copyLoop b inode length offset)

/-- `read_data`: the result and the buffer afterwards. -/
def readData (b : Boot) (inode offset : Nat) (buf : Buffer) (length : Nat) : Int × Buffer :=
  match readDataFetches b inode offset buf.isNone length with
  | none => (-1, buf)
  | some fetched =>
      (int32 fetched.length, buf.map fun m => storeFrom m 0 (fetched.map Fetch.value))

theorem copyLoop_eq_map (b : Boot) (inode n start : Nat) :
    copyLoop b inode n start =
      (List.range' start (min n (inodeLength b inode - start))).map (fetch b inode) := by
  induction n generalizing start with
  | zero => simp [copyLoop]
  | succ n ih =>
      unfold copyLoop
      split
      · have hmin : min (n + 1) (inodeLength b inode - start) =
            min n (inodeLength b inode - (start + 1)) + 1 := by omega
        rw [ih, hmin, List.range'_succ, List.map_cons]
      · have hzero : min (n + 1) (inodeLength b inode - start) = 0 := by omega
        rw [hzero]
        rfl

theorem copyLoop_length (b : Boot) (inode n start : Nat) :
    (copyLoop b inode n start).length = min n (inodeLength b inode - start) := by
  simp [copyLoop_eq_map]

/-! ## The bytes of a file -/

theorem dataBlock_length (b : Boot) (block : Nat) : (dataBlock b block).length = blockSize := by
  simp [dataBlock]

theorem inodeLength_le_blocks (b : Boot) (inode : Nat) :
    inodeLength b inode ≤ blockCount b inode * blockSize := by
  unfold blockCount
  simp only [blockSize]
  omega

theorem fileContent_length (b : Boot) (inode : Nat) :
    (fileContent b inode).length = inodeLength b inode := by
  unfold fileContent
  rw [List.length_take,
    Blocks.length_flatMap_range _ blockSize (fun j => dataBlock_length b _) _]
  exact Nat.min_eq_left (inodeLength_le_blocks b inode)

/-- A byte of the file is the byte that the copy loop fetches at its position. -/
theorem fileContent_getElem? (b : Boot) {inode p : Nat} (hp : p < inodeLength b inode) :
    (fileContent b inode)[p]? = some (fetch b inode p).value := by
  have hblocks := inodeLength_le_blocks b inode
  have hmod : p % blockSize < blockSize := Nat.mod_lt _ (by simp)
  unfold fileContent
  rw [List.getElem?_take, if_pos hp,
    Blocks.getElem?_flatMap_range _ blockSize (fun j => dataBlock_length b _) _ _ (by omega)]
  simp only [dataBlock, List.getElem?_map, List.getElem?_range hmod]
  rfl

/-- The values that the copy loop stores are the bytes of the file from `start`. -/
theorem copyLoop_values (b : Boot) (inode n start : Nat) :
    (copyLoop b inode n start).map Fetch.value =
      ((fileContent b inode).drop start).take n := by
  have hlen := fileContent_length b inode
  apply List.ext_getElem?
  intro i
  rw [copyLoop_eq_map, List.map_map, List.getElem?_map, List.getElem?_take, List.getElem?_drop]
  by_cases hi : i < min n (inodeLength b inode - start)
  · rw [if_pos (by omega), fileContent_getElem? b (by omega), List.getElem?_range' hi]
    simp
  · have hnone : (List.range' start (min n (inodeLength b inode - start)))[i]? = none :=
      List.getElem?_eq_none (by simp only [List.length_range']; omega)
    rw [hnone]
    split
    · exact (List.getElem?_eq_none (by omega)).symm
    · rfl

/-! ## Well-formed images -/

/-- The data blocks of an inode are distinct, so there are not more of them than
the image has. -/
theorem WellFormedImage.blockCount_le {b : Boot} (h : WellFormedImage b) {inode : Nat}
    (hi : inode < 64) : blockCount b inode ≤ dataCount b := by
  have hmaps : ∀ j ∈ Finset.range (blockCount b inode),
      dataBlockNum b inode j ∈ Finset.range (dataCount b) := by
    intro j hj
    exact Finset.mem_range.mpr (h.block_lt inode hi j (Finset.mem_range.mp hj))
  have hinj : Set.InjOn (dataBlockNum b inode) (Finset.range (blockCount b inode)) := by
    intro j hj j' hj' heq
    exact h.block_inj inode hi j (by simpa using hj) j' (by simpa using hj') heq
  have hcard := Finset.card_le_card_of_injOn _ hmaps hinj
  simpa using hcard

/-- On a well-formed image `read_data` reaches its loop when the offset is in the
file, whatever the guards on block numbers. -/
theorem WellFormedImage.readDataFetches_eq {b : Boot} (h : WellFormedImage b) {inode n : Nat}
    (offset : Nat) (hi : inode < 64) (hn : 0 < n) :
    readDataFetches b inode offset false n =
      if offset ≤ inodeLength b inode then some (copyLoop b inode n offset) else none := by
  have hcount : inodeCount b = 64 := by simpa using h.inodes
  have hblocks := inodeLength_le_blocks b inode
  have hdata := h.blockCount_le hi
  have hinode : ¬inode > inodeCount b := by omega
  simp only [blockSize] at hblocks
  unfold readDataFetches
  rw [if_neg hinode]
  by_cases hoff : offset ≤ inodeLength b inode
  · have hguard : ¬(inode > entriesNum ∨ n = 0 ∨ (false : Bool) = true ∨
        offset > inodeLength b inode ∨ offset / blockSize > dataCount b) := by
      simp only [entriesNum, blockSize, Bool.false_eq_true, false_or]
      omega
    rw [if_neg hguard, if_pos hoff]
  · have hguard : inode > entriesNum ∨ n = 0 ∨ (false : Bool) = true ∨
        offset > inodeLength b inode ∨ offset / blockSize > dataCount b :=
      Or.inr (Or.inr (Or.inr (Or.inl (by omega))))
    rw [if_pos hguard, if_neg hoff]

/-- The fetches of a read from a well-formed image stay inside the table entries
that cover the file. -/
theorem copyLoop_index_lt {b : Boot} {inode n start : Nat} {f : Fetch}
    (hf : f ∈ copyLoop b inode n start) : f.index < blockCount b inode := by
  rw [copyLoop_eq_map, List.mem_map] at hf
  obtain ⟨p, hp, rfl⟩ := hf
  rw [List.mem_range'_1] at hp
  unfold fetch blockCount
  simp only [blockSize]
  omega

/-- `read_data` reads the file: past its end it fails and leaves the buffer
alone, and otherwise it stores the bytes from the offset on, up to the length
asked for or the end of the file, and follows no table entry beyond those that
cover the file. -/
theorem readData_reads_file (b : Boot) (hwf : WellFormedImage b) (inode offset n : Nat)
    (hinode : inode < 64) (hn : 0 < n) (buf : Int → UInt8) :
    let count := min n (inodeLength b inode - offset)
    (inodeLength b inode < offset →
      readData b inode offset (some buf) n = (-1, some buf)) ∧
    (offset ≤ inodeLength b inode →
      ∃ buf', readData b inode offset (some buf) n = ((count : Int), some buf') ∧
        (∀ i < count, some (buf' i) = (fileContent b inode)[offset + i]?) ∧
        (∀ x : Int, x < 0 ∨ count ≤ x → buf' x = buf x)) ∧
    (∀ fetched, readDataFetches b inode offset false n = some fetched →
      ∀ f ∈ fetched, f.index < blockCount b inode) := by
  intro count
  have hfetches := hwf.readDataFetches_eq offset hinode hn
  have hmax : inodeLength b inode ≤ 1023 * 4096 := by
    simpa using hwf.length_le inode hinode
  refine ⟨?_, ?_, ?_⟩
  · intro hoff
    rw [if_neg (by omega)] at hfetches
    simp [readData, hfetches]
  · intro hoff
    rw [if_pos hoff] at hfetches
    have hlen := copyLoop_length b inode n offset
    have hvalues := copyLoop_values b inode n offset
    refine ⟨storeFrom buf 0 ((copyLoop b inode n offset).map Fetch.value), ?_, ?_, ?_⟩
    · have hret : int32 ((copyLoop b inode n offset).length : Nat) = (count : Int) := by
        rw [hlen, int32_of_lt (by omega)]
      simp only [readData, Option.isNone_some, hfetches, Option.map_some]
      rw [hret]
    · intro i hi
      have hstored := storeFrom_add buf 0 ((copyLoop b inode n offset).map Fetch.value) i
      rw [Int.zero_add] at hstored
      have hbyte : (((fileContent b inode).drop offset).take n)[i]? =
          (fileContent b inode)[offset + i]? := by
        rw [List.getElem?_take, if_pos (by omega), List.getElem?_drop]
      have hbound : offset + i < (fileContent b inode).length := by
        rw [fileContent_length]
        omega
      rw [hstored, hvalues, List.getD_eq_getElem?_getD, hbyte,
        List.getElem?_eq_getElem hbound]
      rfl
    · intro x hx
      apply storeFrom_outside
      rw [List.length_map, hlen]
      omega
  · intro fetched hfetched f hf
    rw [hfetches] at hfetched
    split at hfetched
    · rw [← Option.some.inj hfetched] at hf
      exact copyLoop_index_lt hf
    · exact absurd hfetched (by simp)

/-- The file `note` of the small image, read from its second byte. -/
theorem readData_reads_note :
    ∃ buf', readData smallBoot 2 1 (some fun _ => 0) 5 = (1, some buf') ∧
      some (buf' 0) = (fileContent smallBoot 2)[1]? ∧ buf' 1 = 0 := by
  obtain ⟨-, hread, -⟩ := readData_reads_file smallBoot smallBoot_wellFormed 2 1 5 (by decide)
    (by decide) (fun _ => 0)
  have hlen : inodeLength smallBoot 2 = 2 := by decide +kernel
  rw [hlen] at hread
  obtain ⟨buf', hret, hbytes, hrest⟩ := hread (by decide)
  exact ⟨buf', hret, hbytes 0 (by decide), hrest 1 (Or.inr (by decide))⟩

end Ece391Kernel
