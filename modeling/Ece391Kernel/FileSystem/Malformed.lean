import Ece391Kernel.FileSystem.ReadData

/-!
# Reading a malformed image

`read_data` checks its arguments before the copy loop: the inode number against
`inode_count`, where it lets the count itself through, and the block of the offset
in the file against `data_count`. It never looks at the block numbers that it finds
in the inode, and not at the end of their table.
-/

namespace Ece391Kernel

/-- A read keeps to the image: it returns a count only for an inode below
`inode_count`, when each byte stored has been taken from a data block below
`data_count`, through an index inside the table of the inode; and otherwise it
returns -1 and stores nothing. -/
def KeepsToImage (b : Boot) (inode offset : Nat) (buf : Buffer) (length : Nat) : Prop :=
  (0 ≤ (readData b inode offset buf length).1 → inode < inodeCount b ∧
    ∃ fetched, readDataFetches b inode offset buf.isNone length = some fetched ∧
      (readData b inode offset buf length).1 = fetched.length ∧
      ∀ f ∈ fetched, f.index < dataBNum ∧ f.block < dataCount b) ∧
  ((readData b inode offset buf length).1 < 0 →
    readData b inode offset buf length = (-1, buf) ∧
      readDataFetches b inode offset buf.isNone length = none)

/-- The checks of `read_data` before its loop fail. -/
def Refused (b : Boot) (inode offset : Nat) (bufIsNull : Bool) (length : Nat) : Prop :=
  inode > inodeCount b ∨ inode > entriesNum ∨ length = 0 ∨ bufIsNull = true ∨
    offset > inodeLength b inode ∨ offset / blockSize > dataCount b

/-- The inode is in the image, and so are the table entries and the data blocks of the
bytes from `offset` on, up to the end of the read or of the file. -/
def ReadsInside (b : Boot) (inode offset length : Nat) : Prop :=
  inode < inodeCount b ∧
    ∀ p, offset ≤ p → p < offset + min length (inodeLength b inode - offset) →
      p / blockSize < dataBNum ∧ dataBlockNum b inode (p / blockSize) < dataCount b

section Reads

variable {b : Boot} {inode offset length : Nat} {buf : Buffer}

theorem readDataFetches_of_refused (h : Refused b inode offset buf.isNone length) :
    readDataFetches b inode offset buf.isNone length = none := by
  unfold readDataFetches
  rcases h with hcount | hguard
  · rw [if_pos hcount]
  · rw [if_pos hguard, ite_self]

theorem readDataFetches_of_not_refused (h : ¬Refused b inode offset buf.isNone length) :
    readDataFetches b inode offset buf.isNone length = some (copyLoop b inode length offset) := by
  obtain ⟨hcount, hguard⟩ := not_or.mp h
  unfold readDataFetches
  rw [if_neg hcount, if_neg hguard]

/-- The positions of the file that the copy loop reads. -/
theorem forall_mem_copyLoop (P : Fetch → Prop) :
    (∀ f ∈ copyLoop b inode length offset, P f) ↔
      ∀ p, offset ≤ p → p < offset + min length (inodeLength b inode - offset) →
        P (fetch b inode p) := by
  rw [copyLoop_eq_map]
  simp only [List.forall_mem_map, List.mem_range'_1, and_imp]

/-- A read that is refused stores nothing. -/
theorem KeepsToImage.of_refused (h : Refused b inode offset buf.isNone length) :
    KeepsToImage b inode offset buf length := by
  have hfetches := readDataFetches_of_refused h
  have hread : readData b inode offset buf length = (-1, buf) := by
    unfold readData
    rw [hfetches]
  refine ⟨fun hret => ?_, fun _ => ⟨hread, hfetches⟩⟩
  rw [hread] at hret
  exact absurd hret (by simp)

/-- The bytes of a read inside the image are not more than an inode can name. -/
theorem ReadsInside.count_le (h : ReadsInside b inode offset length) :
    min length (inodeLength b inode - offset) ≤ dataBNum * blockSize := by
  by_contra hgt
  have hlast := (h.2 (offset + dataBNum * blockSize) (by omega) (by omega)).1
  simp only [dataBNum, blockSize] at hlast
  omega

theorem KeepsToImage.of_readsInside (h : ReadsInside b inode offset length)
    (hnot : ¬Refused b inode offset buf.isNone length) :
    KeepsToImage b inode offset buf length := by
  have hfetches := readDataFetches_of_not_refused hnot
  have hlen := copyLoop_length b inode length offset
  have hcount := h.count_le
  have hret : (readData b inode offset buf length).1 =
      ((copyLoop b inode length offset).length : Int) := by
    unfold readData
    rw [hfetches]
    simp only [dataBNum, blockSize] at hcount
    exact int32_of_lt (by omega)
  refine ⟨fun _ => ⟨h.1, _, hfetches, hret, ?_⟩, fun hneg => ?_⟩
  · rw [forall_mem_copyLoop]
    exact h.2
  · rw [hret] at hneg
    omega

/-- A read that is not refused keeps to the image only if it has been inside. -/
theorem KeepsToImage.readsInside (h : KeepsToImage b inode offset buf length)
    (hnot : ¬Refused b inode offset buf.isNone length) : ReadsInside b inode offset length := by
  have hfetches := readDataFetches_of_not_refused hnot
  have hnonneg : 0 ≤ (readData b inode offset buf length).1 := by
    by_contra hneg
    obtain ⟨-, hnone⟩ := h.2 (by omega)
    rw [hfetches] at hnone
    exact absurd hnone (by simp)
  obtain ⟨hinode, fetched, hfetched, -, hinside⟩ := h.1 hnonneg
  obtain rfl := Option.some.inj (hfetches.symm.trans hfetched)
  rw [forall_mem_copyLoop] at hinside
  exact ⟨hinode, hinside⟩

end Reads

/-- For every image and all arguments, a read keeps to the image if and only if it is
refused or is inside. -/
theorem readData_keepsToImage_iff (b : Boot) (inode offset : Nat) (buf : Buffer) (length : Nat) :
    KeepsToImage b inode offset buf length ↔
      Refused b inode offset buf.isNone length ∨ ReadsInside b inode offset length := by
  constructor
  · intro h
    by_cases hrefused : Refused b inode offset buf.isNone length
    · exact Or.inl hrefused
    · exact Or.inr (h.readsInside hrefused)
  · intro h
    by_cases hrefused : Refused b inode offset buf.isNone length
    · exact KeepsToImage.of_refused hrefused
    · exact KeepsToImage.of_readsInside (h.resolve_left hrefused) hrefused

/-- With an `inode_count` of 2 the file of inode 2 is read all the same, and so is a file
whose inode names a data block that there is not. -/
theorem readData_leaves_image :
    (inodeCount (patchedBoot [(4, [2])]) = 2 ∧
      ¬KeepsToImage (patchedBoot [(4, [2])]) 2 0 (some fun _ => 0) 1) ∧
    dataCount (patchedBoot [(inodeAddr 2 + 4, [9])]) = 3 ∧
      ¬KeepsToImage (patchedBoot [(inodeAddr 2 + 4, [9])]) 2 0 (some fun _ => 0) 1 := by
  refine ⟨⟨by decide +kernel, fun h => ?_⟩, by decide +kernel, fun h => ?_⟩
  · have hinside := h.readsInside (by unfold Refused; decide +kernel)
    exact absurd hinside.1 (by decide +kernel)
  · have hinside := h.readsInside (by unfold Refused; decide +kernel)
    exact absurd (hinside.2 0 (by decide) (by decide +kernel)).2 (by decide +kernel)

end Ece391Kernel
