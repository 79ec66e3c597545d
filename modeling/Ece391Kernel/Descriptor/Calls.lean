import Ece391Kernel.FileSystem.ReadData
import Ece391Kernel.FileSystem.Directory
import Ece391Kernel.Screen.Frame

/-!
# The descriptor calls

`sys_open`, `sys_close`, `sys_read` and `sys_write`, the driver functions they
call through the pointers of a descriptor, and the initialisation of the
descriptors in `sys_execute`. A driver that waits, for a line or for a tick of
the real-time clock, has a result only when it returns: `terminal_read` has none
before the enter key, and `rtc_read` returns after the next interrupt.
-/

namespace Ece391Kernel

open ByteMemory

@[simp] def firstRegFile : Nat := 2

@[simp] def lastRegFile : Nat := 8

/-- `UPPB`. -/
@[simp] def uppb : Nat := 7

/-- `DIR_NAME_LENGTH`. -/
@[simp] def dirNameLength : Nat := 32

/-- The descriptors of the running process. -/
def Kernel.table (k : Kernel) : Nat → FileDesc := k.activePcb.fDesc

/-! ## Drivers -/

/-- What a read call leaves: its result, the buffer and the state. -/
structure ReadReturn where
  ret : Int
  buf : Buffer
  kernel : Kernel

/-- `file_read`. -/
def fileRead (b : Boot) (fd : Int) (buf : Buffer) (nbytes : Int) (k : Kernel) : ReadReturn :=
  if fd < 0 ∨ fd > uppb then ⟨-1, buf, k⟩
  else
    let d := k.table fd.toNat
    if d.filePosition ≥ int32 (inodeLength b (uint32 d.inode)) then ⟨0, buf, k⟩
    else
      let read := readData b (uint32 d.inode) (uint32 d.filePosition) buf (uint32 nbytes)
      if read.1 ≠ -1 then
        ⟨read.1, read.2, k.setDesc fd.toNat fun d =>
          { d with filePosition := d.filePosition + read.1 }⟩
      else ⟨read.1, read.2, k⟩

/-- `file_write` and `dir_write`: the file system is read-only. -/
def readOnlyWrite (k : Kernel) : Int × Kernel := (-1, k)

/-- `dir_read`. -/
def dirRead (b : Boot) (fd : Int) (buf : Buffer) (nbytes : Int) (k : Kernel) : ReadReturn :=
  match buf with
  | none => ⟨-1, none, k⟩
  | some bytes =>
      if fd < 0 ∨ fd > uppb then ⟨-1, buf, k⟩
      else
        let name := direntryName b (uint32 (k.table fd.toNat).filePosition)
        let count := min (min (strlen name) nbytes.toNat) dirNameLength
        ⟨count, some (storeFrom bytes 0 ((List.range count).map name)),
          k.setDesc fd.toNat fun d => { d with filePosition := d.filePosition + 1 }⟩

/-- `rtc_interrupt`, without the acknowledgements to the hardware. -/
def rtcInterrupt (k : Kernel) : Kernel :=
  { k with terminals := fun t => { k.terminals t with interruptFlag := 1 } }

/-- `rtc_read`: it clears the flag of its terminal and waits for an interrupt. Here the wait is
taken to end, and the interrupt that ends it is part of the step. -/
def rtcRead (buf : Buffer) (k : Kernel) : ReadReturn :=
  ⟨0, buf, rtcInterrupt (k.setTerminal k.executingTerminal fun term =>
    { term with interruptFlag := 0 })⟩

/-- The frequencies that `rtc_write` accepts. -/
def rtcFrequencies : List Int := [2, 4, 8, 16, 32, 64, 128, 256, 512, 1024]

/-- The little-endian `int32_t` at a pointer. -/
def loadInt32 (m : Int → UInt8) : Int :=
  int32 ((m 0).toNat + 2 ^ 8 * (m 1).toNat + 2 ^ 16 * (m 2).toNat + 2 ^ 24 * (m 3).toNat : Nat)

/-- `rtc_write`; the rate goes to the clock, not to memory. -/
def rtcWrite (buf : Buffer) (k : Kernel) : Int × Kernel :=
  match buf with
  | none => (-1, k)
  | some bytes => if loadInt32 bytes ∈ rtcFrequencies then (0, k) else (-1, k)

/-- The call `read(fd, buf, nbytes)` through a function pointer. A pointer that is
not that of a read function has no meaning. -/
def callRead (b : Boot) (p : FnPtr) (fd : Int) (buf : Buffer) (nbytes : Int) (k : Kernel) :
    Option ReadReturn :=
  match p with
  | .fn .terminal .readOp => (terminalRead buf nbytes k).map fun r => ⟨r.1, r.2.1, r.2.2⟩
  | .fn .rtc .readOp => some (rtcRead buf k)
  | .fn .dir .readOp => some (dirRead b fd buf nbytes k)
  | .fn .file .readOp => some (fileRead b fd buf nbytes k)
  | _ => none

/-- The call `write(fd, buf, nbytes)` through a function pointer. -/
def callWrite (b : Boot) (p : FnPtr) (buf : Buffer) (nbytes : Int) (k : Kernel) :
    Option (Int × Kernel) :=
  match p with
  | .fn .terminal .writeOp => some (terminalWrite b buf nbytes k)
  | .fn .rtc .writeOp => some (rtcWrite buf k)
  | .fn .dir .writeOp => some (readOnlyWrite k)
  | .fn .file .writeOp => some (readOnlyWrite k)
  | _ => none

/-! ## System calls -/

/-- The tests of `sys_read` and `sys_write`, where `other` is the standard
descriptor of the other direction: the descriptor may be used. -/
def usable (other fd : Int) (k : Kernel) : Prop :=
  ¬(fd < 0 ∨ fd > uppb ∨ fd = other) ∧
    ¬(fd ≥ firstRegFile ∧ fd ≤ uppb ∧ (k.table fd.toNat).flag = 1)

instance (other fd : Int) (k : Kernel) : Decidable (usable other fd k) :=
  inferInstanceAs (Decidable (_ ∧ _))

/-- The function that `sys_read` calls; `none` when it returns -1 instead. -/
def sysReadTarget (fd : Int) (k : Kernel) : Option FnPtr :=
  if usable 1 fd k then some (k.table fd.toNat).ftPtr.readPtr else none

/-- `sys_read`. -/
def sysRead (b : Boot) (fd : Int) (buf : Buffer) (nbytes : Int) (k : Kernel) :
    Option ReadReturn :=
  match sysReadTarget fd k with
  | none => some ⟨-1, buf, k⟩
  | some p => callRead b p fd buf nbytes k

/-- The function that `sys_write` calls; `none` when it returns -1 instead. -/
def sysWriteTarget (fd : Int) (k : Kernel) : Option FnPtr :=
  if usable 0 fd k then some (k.table fd.toNat).ftPtr.writePtr else none

/-- `sys_write`. -/
def sysWrite (b : Boot) (fd : Int) (buf : Buffer) (nbytes : Int) (k : Kernel) :
    Option (Int × Kernel) :=
  match sysWriteTarget fd k with
  | none => some (-1, k)
  | some p => callWrite b p buf nbytes k

/-- The switch of `sys_open` over the file type of the directory entry. -/
def bindDriver (b : Boot) (directoryIdx : Nat) (d : FileDesc) : FileDesc :=
  if direntryType b directoryIdx = rtcFile then
    { d with ftPtr := driverOps .rtc, inode := 0 }
  else if direntryType b directoryIdx = dirFile then
    { d with ftPtr := driverOps .dir, inode := 0 }
  else if direntryType b directoryIdx = regFile then
    { d with ftPtr := driverOps .file, inode := int32 (direntryInode b directoryIdx) }
  else d

/-- The search of `sys_open` for a free descriptor. -/
def freeDesc (k : Kernel) : Option Nat :=
  (List.range' firstRegFile (lastRegFile - firstRegFile)).find? fun i => (k.table i).flag == 1

/-- `sys_open`. -/
def sysOpen (b : Boot) (fname : CString) (k : Kernel) : Int × Kernel :=
  match findDirentry b fname.at with
  | none => (-1, k)
  | some directoryIdx =>
      match freeDesc k with
      | none => (-1, k)
      | some fd =>
          (fd, k.setDesc fd fun d =>
            bindDriver b directoryIdx { d with flag := 0, filePosition := 0 })

/-- `sys_close`. -/
def sysClose (fd : Int) (k : Kernel) : Int × Kernel :=
  if fd < firstRegFile ∨ fd ≥ lastRegFile then (-1, k)
  else if (k.table fd.toNat).flag = 1 then (-1, k)
  else (0, k.setDesc fd.toNat fun d => { d with flag := 1 })

/-- The loop of `sys_execute` that frees descriptors 2 to 7. -/
def clearDescriptors (k : Kernel) : Kernel :=
  Nat.fold (lastRegFile - firstRegFile)
    (fun i _ k => k.setDesc (firstRegFile + i) fun d =>
      { d with inode := 0, filePosition := 0, flag := 1 }) k

/-- A descriptor bound to the terminal. -/
def terminalDesc : FileDesc where
  ftPtr := driverOps .terminal
  inode := 0
  filePosition := 0
  flag := 0

/-- `open_io`. -/
def openIo (k : Kernel) : Kernel :=
  (k.setDesc 0 fun _ => terminalDesc).setDesc 1 fun _ => terminalDesc

/-! ## The table after a call -/

@[simp] theorem setDesc_current (k : Kernel) (fd : Nat) (f : FileDesc → FileDesc) :
    (k.setDesc fd f).current = k.current := rfl

@[simp] theorem setDesc_table (k : Kernel) (fd : Nat) (f : FileDesc → FileDesc) :
    (k.setDesc fd f).table = Function.update k.table fd (f (k.table fd)) := by
  unfold Kernel.table Kernel.activePcb
  rw [setDesc_current]
  simp [Kernel.setDesc]

/-- A change of the records of the terminals that keeps the running process. -/
theorem table_of_current {k k' : Kernel} (hpcbs : k'.pcbs = k.pcbs)
    (hactive : k'.current.activePcb = k.current.activePcb) : k'.table = k.table := by
  unfold Kernel.table Kernel.activePcb
  rw [hpcbs, hactive]

theorem ScreenOnly.table_eq {k k' : Kernel} (h : ScreenOnly k k') : k'.table = k.table := by
  apply table_of_current h.pcbs_eq
  unfold Kernel.current
  rw [h.executingTerminal_eq, h.activePcb_eq]

theorem terminalRead_table {buf : Buffer} {nbytes : Int} {k : Kernel} {r : Int × Buffer × Kernel}
    (h : terminalRead buf nbytes k = some r) : r.2.2.table = k.table := by
  unfold terminalRead at h
  split at h
  · exact absurd h (by simp)
  · split at h
    · rw [← Option.some.inj h]
    · split at h
      · rw [← Option.some.inj h]
      · rw [← Option.some.inj h]
        exact table_of_current rfl (by simp [Kernel.current])

theorem rtcRead_table (buf : Buffer) (k : Kernel) : (rtcRead buf k).kernel.table = k.table :=
  table_of_current rfl (by simp [Kernel.current, rtcRead, rtcInterrupt])

theorem rtcWrite_kernel (buf : Buffer) (k : Kernel) : (rtcWrite buf k).2 = k := by
  unfold rtcWrite
  split
  · rfl
  · split <;> rfl

/-- A write changes no descriptor. -/
theorem callWrite_table {b : Boot} {p : FnPtr} {buf : Buffer} {nbytes : Int} {k : Kernel}
    {r : Int × Kernel} (h : callWrite b p buf nbytes k = some r) : r.2.table = k.table := by
  unfold callWrite at h
  split at h
  · rw [← Option.some.inj h]
    exact (terminalWrite_screenOnly b buf nbytes k).table_eq
  · rw [← Option.some.inj h, rtcWrite_kernel]
  · rw [← Option.some.inj h]
    rfl
  · rw [← Option.some.inj h]
    rfl
  · exact absurd h (by simp)

/-- A read moves the file position of its own descriptor, at most. -/
theorem callRead_table {b : Boot} {p : FnPtr} {fd : Int} {buf : Buffer} {nbytes : Int}
    {k : Kernel} {r : ReadReturn} (h : callRead b p fd buf nbytes k = some r) :
    ∃ position, r.kernel.table =
      Function.update k.table fd.toNat { k.table fd.toNat with filePosition := position } := by
  have hsame : k.table = Function.update k.table fd.toNat
      { k.table fd.toNat with filePosition := (k.table fd.toNat).filePosition } :=
    (Function.update_eq_self fd.toNat k.table).symm
  unfold callRead at h
  split at h
  · obtain ⟨q, hq, rfl⟩ := Option.map_eq_some_iff.mp h
    exact ⟨_, (terminalRead_table hq).trans hsame⟩
  · rw [← Option.some.inj h]
    exact ⟨_, (rtcRead_table buf k).trans hsame⟩
  · rw [← Option.some.inj h]
    unfold dirRead
    split
    · exact ⟨_, hsame⟩
    · split
      · exact ⟨_, hsame⟩
      · exact ⟨_, setDesc_table _ _ _⟩
  · rw [← Option.some.inj h]
    unfold fileRead
    split
    · exact ⟨_, hsame⟩
    · simp only
      split
      · exact ⟨_, hsame⟩
      · split
        · exact ⟨_, setDesc_table _ _ _⟩
        · exact ⟨_, hsame⟩
  · exact absurd h (by simp)

/-- A read moves the position of the descriptor it reads, at most. -/
theorem sysRead_table {b : Boot} {fd : Int} {buf : Buffer} {nbytes : Int} {k : Kernel}
    {r : ReadReturn} (h : sysRead b fd buf nbytes k = some r) :
    r.kernel.table = k.table ∨ 0 ≤ fd ∧ ∃ position, r.kernel.table =
      Function.update k.table fd.toNat { k.table fd.toNat with filePosition := position } := by
  unfold sysRead at h
  split at h
  · rw [← Option.some.inj h]
    exact Or.inl rfl
  · rename_i p hp
    right
    refine ⟨?_, callRead_table h⟩
    by_contra hneg
    unfold sysReadTarget at hp
    rw [if_neg (fun husable => husable.1 (Or.inl (by omega)))] at hp
    exact absurd hp (by simp)

theorem sysRead_other {b : Boot} {fd : Int} {buf : Buffer} {nbytes : Int} {k : Kernel}
    {r : ReadReturn} (h : sysRead b fd buf nbytes k = some r) {j : Nat} (hj : (j : Int) ≠ fd) :
    r.kernel.table j = k.table j := by
  rcases sysRead_table h with htable | ⟨hnonneg, position, htable⟩
  · rw [htable]
  · rw [htable, Function.update_of_ne (by omega)]

/-- A read changes nothing in a descriptor but the position. -/
theorem sysRead_position {b : Boot} {fd : Int} {buf : Buffer} {nbytes : Int} {k : Kernel}
    {r : ReadReturn} (h : sysRead b fd buf nbytes k = some r) (j : Nat) :
    ∃ position, r.kernel.table j = { k.table j with filePosition := position } := by
  rcases sysRead_table h with htable | ⟨-, position, htable⟩
  · exact ⟨(k.table j).filePosition, by rw [htable]⟩
  · by_cases hj : j = fd.toNat
    · subst hj
      exact ⟨position, by rw [htable, Function.update_self]⟩
    · exact ⟨(k.table j).filePosition, by rw [htable, Function.update_of_ne hj]⟩

/-- A write leaves every descriptor as it is. -/
theorem sysWrite_table {b : Boot} {fd : Int} {buf : Buffer} {nbytes : Int} {k : Kernel}
    {r : Int × Kernel} (h : sysWrite b fd buf nbytes k = some r) : r.2.table = k.table := by
  unfold sysWrite at h
  split at h
  · rw [← Option.some.inj h]
  · exact callWrite_table h

end Ece391Kernel
