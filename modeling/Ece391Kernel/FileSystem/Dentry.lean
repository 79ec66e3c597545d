import Ece391Kernel.FileSystem.Directory
import Ece391Kernel.Library.Memory

/-!
# The readers of directory entries

`read_dentry_by_name` and `read_dentry_by_index` walk the directory from `dentry_ptr`,
which `file_init` puts 65 bytes behind the boot block. The entries begin after 64
bytes, so what the readers take for an entry is one byte off; and neither of them
fails for an entry that there is not.
-/

namespace Ece391Kernel

open ByteMemory

/-- `dentry_t`, without the reserved bytes. -/
structure Dentry where
  filename : Int → UInt8
  filetype : Int
  inodeNum : Int

/-- `dentry_ptr`, as an offset from the boot block. -/
def dentryPtr : Nat := (entriesNum + 1) + 1

/-- `dentry_ptr + index`. -/
def dentryAddr (index : Nat) : Nat := dentryPtr + 64 * index

/-- `(dentry_ptr + index)->filename[j]`. -/
def dentryName (b : Boot) (index j : Nat) : UInt8 := b.byte (dentryAddr index + j)

/-- `(dentry_ptr + index)->filetype`. -/
def dentryType (b : Boot) (index : Nat) : Int := int32 (b.word (dentryAddr index + 32))

/-- `(dentry_ptr + index)->inode_num`. -/
def dentryInode (b : Boot) (index : Nat) : Int := int32 (b.word (dentryAddr index + 36))

/-- `strncpy`: the string, and zeroes up to `n` bytes. -/
def strncpy (dest : Int → UInt8) (src : Nat → UInt8) (n : Nat) : Int → UInt8 :=
  let string := stringFrom src n 0
  storeFrom (storeFrom dest 0 string) string.length (List.replicate (n - string.length) 0)

/-- `dentry_copy`. -/
def dentryCopy (b : Boot) (offset : Nat) (dentry : Dentry) : Dentry where
  filename := strncpy dentry.filename (dentryName b offset) filenameLen
  filetype := dentryType b offset
  inodeNum := dentryInode b offset

/-- `read_dentry_by_index`. The address of a member array is never `NULL`. -/
def readDentryByIndex (b : Boot) (index : Nat) (dentry : Option Dentry) : Int × Option Dentry :=
  match dentry with
  | none => (-1, none)
  | some d => (0, some (dentryCopy b index d))

/-- `read_dentry_by_name`. -/
def readDentryByName (b : Boot) (fname : Option CString) (dentry : Option Dentry) :
    Int × Option Dentry :=
  match fname, dentry with
  | some fname, some d =>
      match (List.range entriesNum).find? fun i =>
          strncmp (dentryName b i) fname.at filenameLen == 0 with
      | none => (0, some d)
      | some i =>
          match readDentryByIndex b i (some d) with
          | (-1, d) => (-1, d)
          | (_, d) => (0, d)
  | _, dentry => (-1, dentry)

/-! ## Entries and records -/

/-- The record holds the name, the type and the inode number of entry `i`. -/
def Dentry.HoldsEntry (b : Boot) (i : Nat) (d : Dentry) : Prop :=
  stringFrom (fun j : Nat => d.filename j) filenameLen 0 = entryName b i ∧
    d.filetype = direntryType b i ∧ d.inodeNum = int32 (direntryInode b i)

/-- What is at `dentry_ptr + j` reads as entry `i`. -/
def ReadsAsEntry (b : Boot) (j i : Nat) : Prop :=
  stringFrom (dentryName b j) filenameLen 0 = entryName b i ∧
    dentryType b j = direntryType b i ∧ dentryInode b j = int32 (direntryInode b i)

/-- Record `j` is the first of the 63 from `dentry_ptr` on that has the name. -/
structure FirstRecord (b : Boot) (name : List UInt8) (j : Nat) : Prop where
  lt : j < entriesNum
  name_eq : stringFrom (dentryName b j) filenameLen 0 = name
  first : ∀ l < j, stringFrom (dentryName b l) filenameLen 0 ≠ name

/-- The first `n` bytes of a copy spell the string that has been copied. -/
theorem stringFrom_strncpy (dest : Int → UInt8) (src : Nat → UInt8) (n : Nat) :
    stringFrom (fun j : Nat => strncpy dest src n j) n 0 = stringFrom src n 0 := by
  have hle := stringFrom_length_le src n 0
  have hbytes : ∀ j, 0 ≤ j → j < 0 + n →
      strncpy dest src n (j : Nat) = (stringFrom src n 0).getD j 0 := by
    intro j _ hj
    unfold strncpy
    rw [storeFrom_apply, List.length_replicate]
    by_cases hin : (stringFrom src n 0).length ≤ j
    · rw [if_pos (by omega), List.getD_replicate (h := by omega), List.getD_eq_default _ _ hin]
    · have hstored := storeFrom_add dest 0 (stringFrom src n 0) j
      rw [Int.zero_add] at hstored
      rw [if_neg (by omega), hstored, List.getD_eq_getElem _ _ (by omega),
        List.getD_eq_getElem _ _ (by omega)]
  rw [stringFrom_congr hbytes, stringFrom_getD (stringFrom_nonzero src n 0), List.drop_zero,
    List.take_of_length_le hle]

theorem dentryCopy_holdsEntry {b : Boot} {j i : Nat} (d : Dentry) :
    (dentryCopy b j d).HoldsEntry b i ↔ ReadsAsEntry b j i := by
  unfold Dentry.HoldsEntry ReadsAsEntry dentryCopy
  simp only [stringFrom_strncpy]

/-- The search of `read_dentry_by_name`. -/
theorem findRecord_eq_some {b : Boot} {fname : CString} {j : Nat} :
    ((List.range entriesNum).find? fun i =>
      strncmp (dentryName b i) fname.at filenameLen == 0) = some j ↔
        FirstRecord b (fname.bytes.take filenameLen) j := by
  have hname : stringFrom fname.at filenameLen 0 = fname.bytes.take filenameLen :=
    stringFrom_getD fname.nonzero filenameLen 0
  have hsame : ∀ i, (strncmp (dentryName b i) fname.at filenameLen == 0) = true ↔
      stringFrom (dentryName b i) filenameLen 0 = fname.bytes.take filenameLen := by
    intro i
    unfold strncmp
    rw [beq_iff_eq, strncmpFrom_eq_zero_iff_string, hname]
  rw [List.find?_range_eq_some, hsame]
  constructor
  · rintro ⟨heq, hlt, hfirst⟩
    exact ⟨List.mem_range.mp hlt, heq, fun l hl hl' => absurd ((hsame l).mpr hl') (by
      simpa using hfirst l hl)⟩
  · rintro ⟨hlt, heq, hfirst⟩
    exact ⟨heq, List.mem_range.mpr hlt, fun l hl => by simpa using mt (hsame l).mp (hfirst l hl)⟩

/-! ## The readers against the directory -/

/-- `read_dentry_by_index` does what the directory says. -/
def IndexAgrees (b : Boot) (index : Nat) (d : Dentry) : Prop :=
  ((index : Int) < dirCount b → ∃ d', readDentryByIndex b index (some d) = (0, some d') ∧
    d'.HoldsEntry b index) ∧
  (¬(index : Int) < dirCount b → readDentryByIndex b index (some d) = (-1, some d))

/-- `read_dentry_by_name` does what the search of `sys_open` says. -/
def NameAgrees (b : Boot) (fname : CString) (d : Dentry) : Prop :=
  (∀ i, findDirentry b fname.at = some i →
    ∃ d', readDentryByName b (some fname) (some d) = (0, some d') ∧ d'.HoldsEntry b i) ∧
  (findDirentry b fname.at = none → readDentryByName b (some fname) (some d) = (-1, some d))

/-- `read_dentry_by_name` has copied the first record of the name, if there is one. -/
theorem readDentryByName_eq (b : Boot) (fname : CString) (d : Dentry) :
    (∃ j, FirstRecord b (fname.bytes.take filenameLen) j ∧
      readDentryByName b (some fname) (some d) = (0, some (dentryCopy b j d))) ∨
    ((∀ j, ¬FirstRecord b (fname.bytes.take filenameLen) j) ∧
      readDentryByName b (some fname) (some d) = (0, some d)) := by
  cases hfind : (List.range entriesNum).find? fun i =>
      strncmp (dentryName b i) fname.at filenameLen == 0 with
  | some j =>
      refine Or.inl ⟨j, findRecord_eq_some.mp hfind, ?_⟩
      simp only [readDentryByName, hfind, readDentryByIndex]
  | none =>
      refine Or.inr ⟨fun j hj => ?_, ?_⟩
      · rw [findRecord_eq_some.mpr hj] at hfind
        exact absurd hfind (by simp)
      · simp only [readDentryByName, hfind]

theorem IndexAgrees.reads {b : Boot} {index : Nat} {d : Dentry} (h : IndexAgrees b index d) :
    (index : Int) < dirCount b ∧ ReadsAsEntry b index index := by
  have hlt : (index : Int) < dirCount b := by
    by_contra hge
    exact absurd (h.2 hge) (by simp [readDentryByIndex])
  obtain ⟨d', hread, hholds⟩ := h.1 hlt
  obtain ⟨-, hd'⟩ := Prod.mk.inj hread
  rw [← Option.some.inj hd', dentryCopy_holdsEntry] at hholds
  exact ⟨hlt, hholds⟩

theorem NameAgrees.reads {b : Boot} {fname : CString} {d : Dentry} (h : NameAgrees b fname d) :
    ∃ i, findDirentry b fname.at = some i ∧
      ((∃ j, FirstRecord b (fname.bytes.take filenameLen) j ∧ ReadsAsEntry b j i) ∨
        (∀ j, ¬FirstRecord b (fname.bytes.take filenameLen) j) ∧ d.HoldsEntry b i) := by
  cases hfind : findDirentry b fname.at with
  | none =>
      have hfail := h.2 hfind
      rcases readDentryByName_eq b fname d with ⟨j, -, hread⟩ | ⟨-, hread⟩
      · exact absurd (hread.symm.trans hfail) (by simp)
      · exact absurd (hread.symm.trans hfail) (by simp)
  | some i =>
      obtain ⟨d', hd', hholds⟩ := h.1 i hfind
      refine ⟨i, rfl, ?_⟩
      rcases readDentryByName_eq b fname d with ⟨j, hj, hread⟩ | ⟨hnone, hread⟩
      · obtain rfl := Option.some.inj (Prod.mk.inj (hread.symm.trans hd')).2
        exact Or.inl ⟨j, hj, (dentryCopy_holdsEntry d).mp hholds⟩
      · obtain rfl := Option.some.inj (Prod.mk.inj (hread.symm.trans hd')).2
        exact Or.inr ⟨hnone, hholds⟩

/-- `read_dentry_by_index` agrees with the directory if and only if the index is one of
an entry that reads the same one byte further on. `read_dentry_by_name` agrees with the
search of `sys_open` if and only if this finds an entry and the first record of the name,
one byte further on, reads as this entry; or there is no such record, and the caller's
buffer holds the entry already. -/
theorem dentry_readers_agree_iff (b : Boot) :
    (∀ index d, IndexAgrees b index d ↔
      (index : Int) < dirCount b ∧ ReadsAsEntry b index index) ∧
    ∀ fname d, NameAgrees b fname d ↔ ∃ i, findDirentry b fname.at = some i ∧
      ((∃ j, FirstRecord b (fname.bytes.take filenameLen) j ∧ ReadsAsEntry b j i) ∨
        (∀ j, ¬FirstRecord b (fname.bytes.take filenameLen) j) ∧ d.HoldsEntry b i) := by
  refine ⟨fun index d => ⟨IndexAgrees.reads, ?_⟩, fun fname d => ⟨NameAgrees.reads, ?_⟩⟩
  · rintro ⟨hlt, hreads⟩
    exact ⟨fun _ => ⟨_, rfl, (dentryCopy_holdsEntry d).mpr hreads⟩, fun hge => absurd hlt hge⟩
  · rintro ⟨i, hfind, hrecord⟩
    refine ⟨fun i' hfind' => ?_, fun hnone => absurd (hfind.symm.trans hnone) (by simp)⟩
    obtain rfl : i = i' := Option.some.inj (hfind.symm.trans hfind')
    rcases readDentryByName_eq b fname d with ⟨j, hj, hread⟩ | ⟨hnone, hread⟩
    · rcases hrecord with ⟨j', hj', hreads⟩ | ⟨hnone, -⟩
      · have hsame : j = j' := Option.some.inj
          ((findRecord_eq_some.mpr hj).symm.trans (findRecord_eq_some.mpr hj'))
        exact ⟨_, hread, (dentryCopy_holdsEntry d).mpr (hsame ▸ hreads)⟩
      · exact absurd hj (hnone j)
    · rcases hrecord with ⟨j, hj, -⟩ | ⟨-, hholds⟩
      · exact absurd hj (hnone j)
      · exact ⟨d, hread, hholds⟩

/-- A zeroed record. -/
def blankDentry : Dentry := ⟨fun _ => 0, 0, 0⟩

/-- On the small image entry 0 is read as `hell`, without its type; an index behind the
last entry does not fail, and neither does the name `nope`. -/
theorem dentry_readers_disagree :
    ¬IndexAgrees smallBoot 0 blankDentry ∧ ¬IndexAgrees smallBoot 3 blankDentry ∧
      ¬NameAgrees smallBoot unknownName blankDentry := by
  refine ⟨fun h => ?_, fun h => ?_, fun h => ?_⟩
  · exact absurd h.reads.2.1 (by decide +kernel)
  · exact absurd h.reads.1 (by decide +kernel)
  · obtain ⟨i, hfind, -⟩ := h.reads
    have hnone : findDirentry smallBoot unknownName.at = none := by decide +kernel
    exact absurd (hfind.symm.trans hnone) (by simp)

end Ece391Kernel
