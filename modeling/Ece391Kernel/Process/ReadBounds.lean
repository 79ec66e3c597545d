import Ece391Kernel.Descriptor.Chunking
import Ece391Kernel.FileSystem.Malformed
import Ece391Kernel.Process.OpenFiles

/-!
# Reads and the buffer of the caller

Each driver bounds its copying loop in its own way. `dir_read` compares its index with the
signed `nbytes`; `terminal_read` with `nbytes - 1`, which wraps for the least integer; and
`file_read` hands `nbytes` to `read_data` as an unsigned length, so that a negative one is
larger than any file. What a read stores is the list of its bytes, from the first place of
the buffer on.
-/

namespace Ece391Kernel

open ByteMemory TransitionSystem LinkedStack

/-! ## What the drivers store -/

/-- The bytes that `terminal_read` stores. -/
def terminalReadBytes (buf : Buffer) (nbytes : Int) (k : Kernel) : List UInt8 :=
  if k.current.enterFlag = 0 ∨ nbytes = 0 ∨ buf.isNone then []
  else (List.range (min (int32Pred nbytes) k.current.oldBufSize).toNat).map k.current.storedOldBuf

/-- The bytes that `dir_read` stores. -/
def dirReadBytes (b : Boot) (fd : Int) (buf : Buffer) (nbytes : Int) (k : Kernel) : List UInt8 :=
  if buf.isNone ∨ fd < 0 ∨ fd > uppb then []
  else
    let name := direntryName b (uint32 (k.table fd.toNat).filePosition)
    (List.range (min (min (strlen name) nbytes.toNat) dirNameLength)).map name

/-- The bytes that `read_data` stores. -/
def readDataBytes (b : Boot) (inode offset : Nat) (bufIsNull : Bool) (length : Nat) : List UInt8 :=
  match readDataFetches b inode offset bufIsNull length with
  | none => []
  | some fetched => fetched.map Fetch.value

/-- The bytes that `file_read` stores. -/
def fileReadBytes (b : Boot) (fd : Int) (buf : Buffer) (nbytes : Int) (k : Kernel) : List UInt8 :=
  let d := k.table fd.toNat
  if fd < 0 ∨ fd > uppb ∨ d.filePosition ≥ int32 (inodeLength b (uint32 d.inode)) then []
  else readDataBytes b (uint32 d.inode) (uint32 d.filePosition) buf.isNone (uint32 nbytes)

/-- The bytes that `sys_read` stores; `rtc_read` stores none. -/
def sysReadBytes (b : Boot) (fd : Int) (buf : Buffer) (nbytes : Int) (k : Kernel) : List UInt8 :=
  match sysReadTarget fd k with
  | some (.fn .terminal .readOp) => terminalReadBytes buf nbytes k
  | some (.fn .dir .readOp) => dirReadBytes b fd buf nbytes k
  | some (.fn .file .readOp) => fileReadBytes b fd buf nbytes k
  | _ => []

theorem storeNothing (buf : Buffer) : buf = buf.map fun m => storeFrom m 0 [] := by
  cases buf <;> rfl

theorem terminalRead_bytes {buf : Buffer} {nbytes : Int} {k : Kernel} {r : Int × Buffer × Kernel}
    (h : terminalRead buf nbytes k = some r) :
    r.2.1 = buf.map fun m => storeFrom m 0 (terminalReadBytes buf nbytes k) := by
  unfold terminalRead at h
  unfold terminalReadBytes
  by_cases hflag : k.current.enterFlag = 0
  · rw [if_pos hflag] at h
    exact absurd h (by simp)
  · rw [if_neg hflag] at h
    by_cases hzero : nbytes = 0
    · rw [if_pos hzero] at h
      rw [← Option.some.inj h, if_pos (Or.inr (Or.inl hzero))]
      exact storeNothing buf
    · rw [if_neg hzero] at h
      cases buf with
      | none =>
          rw [← Option.some.inj h]
          rfl
      | some bytes =>
          rw [← Option.some.inj h, if_neg (by simp [hflag, hzero])]
          rfl

theorem dirRead_bytes (b : Boot) (fd : Int) (buf : Buffer) (nbytes : Int) (k : Kernel) :
    (dirRead b fd buf nbytes k).buf =
      buf.map fun m => storeFrom m 0 (dirReadBytes b fd buf nbytes k) := by
  unfold dirRead dirReadBytes
  cases buf with
  | none => rfl
  | some bytes =>
      by_cases hfd : fd < 0 ∨ fd > uppb
      · simp only [if_pos hfd, Option.isNone_some, Bool.false_eq_true, false_or]
        rfl
      · simp only [if_neg hfd, Option.isNone_some, Bool.false_eq_true, false_or]
        rfl

theorem readData_bytes (b : Boot) (inode offset : Nat) (buf : Buffer) (length : Nat) :
    (readData b inode offset buf length).2 =
      buf.map fun m => storeFrom m 0 (readDataBytes b inode offset buf.isNone length) := by
  unfold readData readDataBytes
  cases readDataFetches b inode offset buf.isNone length with
  | none => exact storeNothing buf
  | some fetched => rfl

theorem fileRead_bytes (b : Boot) (fd : Int) (buf : Buffer) (nbytes : Int) (k : Kernel) :
    (fileRead b fd buf nbytes k).buf =
      buf.map fun m => storeFrom m 0 (fileReadBytes b fd buf nbytes k) := by
  unfold fileRead fileReadBytes
  simp only
  by_cases hfd : fd < 0 ∨ fd > uppb
  · rw [if_pos hfd, if_pos (by omega)]
    exact storeNothing buf
  · rw [if_neg hfd]
    by_cases hend : (k.table fd.toNat).filePosition ≥
        int32 (inodeLength b (uint32 (k.table fd.toNat).inode))
    · rw [if_pos hend, if_pos (Or.inr (Or.inr hend))]
      exact storeNothing buf
    · have hmore : ¬(fd < 0 ∨ fd > uppb ∨ (k.table fd.toNat).filePosition ≥
          int32 (inodeLength b (uint32 (k.table fd.toNat).inode))) := by omega
      rw [if_neg hend, if_neg hmore]
      split
      · exact readData_bytes _ _ _ _ _
      · exact readData_bytes _ _ _ _ _

/-- What `sys_read` leaves in the buffer. -/
theorem sysRead_bytes {b : Boot} {fd : Int} {buf : Buffer} {nbytes : Int} {k : Kernel}
    {r : ReadReturn} (h : sysRead b fd buf nbytes k = some r) :
    r.buf = buf.map fun m => storeFrom m 0 (sysReadBytes b fd buf nbytes k) := by
  unfold sysRead at h
  unfold sysReadBytes
  cases htarget : sysReadTarget fd k with
  | none =>
      rw [htarget] at h
      rw [← Option.some.inj h]
      exact storeNothing buf
  | some p =>
      rw [htarget] at h
      simp only at h
      unfold callRead at h
      split at h
      · obtain ⟨q, hq, rfl⟩ := Option.map_eq_some_iff.mp h
        exact terminalRead_bytes hq
      · rw [← Option.some.inj h]
        exact storeNothing buf
      · rw [← Option.some.inj h]
        exact dirRead_bytes b fd buf nbytes k
      · rw [← Option.some.inj h]
        exact fileRead_bytes b fd buf nbytes k
      · exact absurd h (by simp)

/-! ## How much they store -/

/-- A read stores no more bytes than it is asked for, and one that is asked for none leaves
the position of a regular file alone. -/
structure ReadContained (b : Boot) (fd : Int) (buf : Buffer) (nbytes : Int) (k : Kernel) :
    Prop where
  stores : ∀ r, sysRead b fd buf nbytes k = some r →
    r.buf = buf.map fun m => storeFrom m 0 (sysReadBytes b fd buf nbytes k)
  count : ((sysReadBytes b fd buf nbytes k).length : Int) ≤ max nbytes 0
  position : nbytes ≤ 0 → sysReadTarget fd k = some (.fn .file .readOp) →
    ∀ r, sysRead b fd buf nbytes k = some r →
      (r.kernel.table fd.toNat).filePosition = (k.table fd.toNat).filePosition

/-- A file with bytes behind the position of the descriptor, for which `read_data` does not
refuse the request. -/
def HasRest (b : Boot) (buf : Buffer) (nbytes : Int) (d : FileDesc) : Prop :=
  d.filePosition < int32 (inodeLength b (uint32 d.inode)) ∧
    uint32 d.filePosition < inodeLength b (uint32 d.inode) ∧
      ¬Refused b (uint32 d.inode) (uint32 d.filePosition) buf.isNone (uint32 nbytes)

/-- A read of a negative number of bytes that stores some all the same: of a regular file
that is not at its end, or of the line that a terminal has, for the least integer. -/
def Overruns (b : Boot) (fd : Int) (buf : Buffer) (nbytes : Int) (k : Kernel) : Prop :=
  nbytes < 0 ∧
    ((sysReadTarget fd k = some (.fn .file .readOp) ∧ HasRest b buf nbytes (k.table fd.toNat)) ∨
      (sysReadTarget fd k = some (.fn .terminal .readOp) ∧ nbytes = -0x80000000 ∧
        buf.isNone = false ∧ k.current.enterFlag ≠ 0 ∧ 0 < k.current.oldBufSize))

theorem terminalReadBytes_length (buf : Buffer) (nbytes : Int) (k : Kernel) :
    (terminalReadBytes buf nbytes k).length =
      if k.current.enterFlag = 0 ∨ nbytes = 0 ∨ buf.isNone then 0
      else (min (int32Pred nbytes) k.current.oldBufSize).toNat := by
  unfold terminalReadBytes
  split
  · rfl
  · rw [List.length_map, List.length_range]

theorem dirReadBytes_length_le (b : Boot) (fd : Int) (buf : Buffer) (nbytes : Int) (k : Kernel) :
    (dirReadBytes b fd buf nbytes k).length ≤ nbytes.toNat := by
  unfold dirReadBytes
  split
  · exact Nat.zero_le _
  · simp only [List.length_map, List.length_range]
    omega

theorem readDataBytes_of_refused {b : Boot} {inode offset length : Nat} {buf : Buffer}
    (h : Refused b inode offset buf.isNone length) :
    readDataBytes b inode offset buf.isNone length = [] := by
  unfold readDataBytes
  rw [readDataFetches_of_refused h]

theorem readDataBytes_length {b : Boot} {inode offset length : Nat} {buf : Buffer}
    (h : ¬Refused b inode offset buf.isNone length) :
    (readDataBytes b inode offset buf.isNone length).length =
      min length (inodeLength b inode - offset) := by
  unfold readDataBytes
  rw [readDataFetches_of_not_refused h]
  simp only [List.length_map, copyLoop_length]

theorem fileReadBytes_length_le (b : Boot) (fd : Int) (buf : Buffer) (nbytes : Int) (k : Kernel) :
    (fileReadBytes b fd buf nbytes k).length ≤ uint32 nbytes := by
  unfold fileReadBytes
  simp only
  split
  · exact Nat.zero_le _
  · by_cases hrefused : Refused b (uint32 (k.table fd.toNat).inode)
        (uint32 (k.table fd.toNat).filePosition) buf.isNone (uint32 nbytes)
    · rw [readDataBytes_of_refused hrefused]
      exact Nat.zero_le _
    · rw [readDataBytes_length hrefused]
      exact Nat.min_le_left _ _

/-- Without bytes left, or if `read_data` refuses, nothing is stored and the position stays. -/
theorem fileRead_of_not_hasRest {b : Boot} {fd : Int} {buf : Buffer} {nbytes : Int} {k : Kernel}
    (h : ¬HasRest b buf nbytes (k.table fd.toNat)) :
    fileReadBytes b fd buf nbytes k = [] ∧
      ((fileRead b fd buf nbytes k).kernel.table fd.toNat).filePosition =
        (k.table fd.toNat).filePosition := by
  unfold fileReadBytes fileRead
  simp only
  by_cases hfd : fd < 0 ∨ fd > uppb
  · rw [if_pos (by omega), if_pos hfd]
    exact ⟨rfl, rfl⟩
  · rw [if_neg hfd]
    by_cases hend : (k.table fd.toNat).filePosition ≥
        int32 (inodeLength b (uint32 (k.table fd.toNat).inode))
    · rw [if_pos (Or.inr (Or.inr hend)), if_pos hend]
      exact ⟨rfl, rfl⟩
    · rw [if_neg (by omega), if_neg hend]
      by_cases hrefused : Refused b (uint32 (k.table fd.toNat).inode)
          (uint32 (k.table fd.toNat).filePosition) buf.isNone (uint32 nbytes)
      · refine ⟨readDataBytes_of_refused hrefused, ?_⟩
        unfold readData
        rw [readDataFetches_of_refused hrefused]
        rfl
      · -- the position is behind the end, and the loop has no iteration
        have hbehind : inodeLength b (uint32 (k.table fd.toNat).inode) -
            uint32 (k.table fd.toNat).filePosition = 0 := by
          by_contra hsome
          exact h ⟨by omega, by omega, hrefused⟩
        have hlen := readDataBytes_length hrefused
        have hcopied := copyLoop_length b (uint32 (k.table fd.toNat).inode) (uint32 nbytes)
          (uint32 (k.table fd.toNat).filePosition)
        rw [hbehind, Nat.min_zero] at hlen hcopied
        refine ⟨List.eq_nil_of_length_eq_zero hlen, ?_⟩
        have hzero : int32 ((0 : Nat) : Int) = 0 := by decide
        unfold readData
        rw [readDataFetches_of_not_refused hrefused]
        simp only [hcopied, hzero]
        rw [if_pos (by decide), setDesc_table, Function.update_self]
        exact Int.add_zero _

/-- A file that has bytes left is read, however many are asked for. -/
theorem fileReadBytes_ne_nil {b : Boot} {fd : Int} {buf : Buffer} {nbytes : Int} {k : Kernel}
    (hfd : 0 ≤ fd ∧ fd ≤ uppb) (h : HasRest b buf nbytes (k.table fd.toNat)) :
    fileReadBytes b fd buf nbytes k ≠ [] := by
  obtain ⟨hbefore, hrest, hnot⟩ := h
  have hlen : uint32 nbytes ≠ 0 := fun hzero => hnot (Or.inr (Or.inr (Or.inl hzero)))
  unfold fileReadBytes
  simp only
  rw [if_neg (by omega)]
  refine List.ne_nil_of_length_pos ?_
  rw [readDataBytes_length hnot]
  omega

theorem sysReadTarget_range {fd : Int} {k : Kernel} {p : FnPtr} (h : sysReadTarget fd k = some p) :
    0 ≤ fd ∧ fd ≤ uppb := by
  unfold sysReadTarget at h
  by_cases husable : usable 1 fd k
  · have hnot := husable.1
    omega
  · rw [if_neg husable] at h
    exact absurd h (by simp)

theorem sysRead_of_file {b : Boot} {fd : Int} {buf : Buffer} {nbytes : Int} {k : Kernel}
    (h : sysReadTarget fd k = some (.fn .file .readOp)) :
    sysRead b fd buf nbytes k = some (fileRead b fd buf nbytes k) ∧
      sysReadBytes b fd buf nbytes k = fileReadBytes b fd buf nbytes k := by
  unfold sysRead sysReadBytes
  rw [h]
  exact ⟨rfl, rfl⟩

/-- The cases in which nothing is stored although the number is negative. -/
theorem sysReadBytes_of_not_overruns {b : Boot} {fd : Int} {buf : Buffer} {nbytes : Int}
    {k : Kernel} (hnot : ¬Overruns b fd buf nbytes k) (hlow : -0x80000000 ≤ nbytes)
    (hhigh : nbytes < 0x80000000) :
    ((sysReadBytes b fd buf nbytes k).length : Int) ≤ max nbytes 0 := by
  unfold sysReadBytes
  split
  next htarget =>
    rw [terminalReadBytes_length]
    split
    · omega
    next hwaits =>
      simp only [not_or] at hwaits
      by_cases hleast : nbytes = -0x80000000
      · have hempty : ¬0 < k.current.oldBufSize := fun hline =>
          hnot ⟨by omega, Or.inr ⟨htarget, hleast, Bool.eq_false_iff.mpr hwaits.2.2,
            hwaits.1, hline⟩⟩
        omega
      · rw [int32Pred_of_ne hleast]
        omega
  next =>
    have hle := dirReadBytes_length_le b fd buf nbytes k
    omega
  next htarget =>
    by_cases hneg : nbytes < 0
    · have hrest : ¬HasRest b buf nbytes (k.table fd.toNat) := fun hrest =>
        hnot ⟨hneg, Or.inl ⟨htarget, hrest⟩⟩
      rw [(fileRead_of_not_hasRest hrest).1]
      simp
    · have hle := fileReadBytes_length_le b fd buf nbytes k
      have hsame : (uint32 nbytes : Int) = nbytes := by
        unfold uint32
        omega
      omega
  next => simp

/-- A read that overruns stores a byte. -/
theorem Overruns.stores {b : Boot} {fd : Int} {buf : Buffer} {nbytes : Int} {k : Kernel}
    (h : Overruns b fd buf nbytes k) : nbytes < 0 ∧ sysReadBytes b fd buf nbytes k ≠ [] := by
  obtain ⟨hneg, ⟨htarget, hrest⟩ | ⟨htarget, hleast, hbuf, hflag, hline⟩⟩ := h
  · rw [(sysRead_of_file htarget).2]
    exact ⟨hneg, fileReadBytes_ne_nil (sysReadTarget_range htarget) hrest⟩
  · refine ⟨hneg, List.ne_nil_of_length_pos ?_⟩
    unfold sysReadBytes
    rw [htarget]
    simp only
    rw [terminalReadBytes_length, if_neg (by simp [hflag, hbuf, hleast]), hleast]
    unfold int32Pred
    rw [if_pos rfl]
    omega

/-- For every descriptor, state and size: a read is contained if and only if it does not
overrun. -/
theorem sysRead_contained_iff (b : Boot) (fd : Int) (buf : Buffer) (nbytes : Int)
    (hlow : -0x80000000 ≤ nbytes) (hhigh : nbytes < 0x80000000) (k : Kernel) :
    ReadContained b fd buf nbytes k ↔ ¬Overruns b fd buf nbytes k := by
  constructor
  · intro h hover
    obtain ⟨hneg, hsome⟩ := hover.stores
    have hlen := h.count
    have hpos := List.length_pos_of_ne_nil hsome
    omega
  · intro hnot
    refine ⟨fun r hr => sysRead_bytes hr, sysReadBytes_of_not_overruns hnot hlow hhigh, ?_⟩
    intro hle htarget r hr
    rw [(sysRead_of_file htarget).1] at hr
    rw [← Option.some.inj hr]
    refine (fileRead_of_not_hasRest fun hrest => ?_).2
    rcases Int.lt_or_eq_of_le hle with hneg | hzero
    · exact hnot ⟨hneg, Or.inl ⟨htarget, hrest⟩⟩
    · -- a length of zero is refused
      rw [hzero] at hrest
      exact hrest.2.2 (Or.inr (Or.inr (Or.inl (by decide))))

theorem sysRead_contained_iff_note :
    ReadContained smallBoot 2 (some fun _ => 0) 1
      (sysOpen smallBoot noteName (clearDescriptors blankKernel)).2 :=
  (sysRead_contained_iff smallBoot 2 (some fun _ => 0) 1 (by decide) (by decide) _).mpr
    fun hover => absurd hover.1 (by decide)

/-- A process that has just opened the file `note` can overrun its buffer. -/
theorem overruns_note {k : Kernel} (hfree : freeDesc k = some 2) :
    Overruns smallBoot 2 (some fun _ => 0) (-1) (sysOpen smallBoot noteName k).2 := by
  have hidx : findDirentry smallBoot noteName.at = some 2 := by decide +kernel
  have htype : direntryType smallBoot 2 = regFile := by decide +kernel
  have hinode : direntryInode smallBoot 2 = 2 := by decide +kernel
  have hlen : inodeLength smallBoot 2 = 2 := by decide +kernel
  have hopen : sysOpen smallBoot noteName k = (2, (sysOpen smallBoot noteName k).2) := by
    rcases sysOpen_cases smallBoot noteName k with ⟨hnone | hnone, -⟩ | ⟨idx, fd, -, hfd, hok⟩
    · exact absurd (hnone.symm.trans hidx) (by simp)
    · exact absurd (hnone.symm.trans hfree) (by simp)
    · obtain rfl := Option.some.inj (hfd.symm.trans hfree)
      rw [hok]
      rfl
  obtain ⟨n, hn, -, -, htable⟩ := sysOpen_regular hidx htype (by omega) hopen (by decide)
  obtain rfl : n = 2 := by omega
  rw [hinode] at htable
  generalize (sysOpen smallBoot noteName k).2 = opened at htable ⊢
  have hentry : opened.table (2 : Int).toNat = fileDesc 2 0 := htable
  have htarget : sysReadTarget 2 opened = some (.fn .file .readOp) := by
    have husable : usable 1 2 opened := by
      refine ⟨by decide, ?_⟩
      rw [hentry]
      decide
    unfold sysReadTarget
    rw [if_pos husable, hentry]
    rfl
  have hu : uint32 (fileDesc 2 0).inode = 2 := by decide
  have hrefused : ¬Refused smallBoot 2 0 false (uint32 (-1)) := by
    unfold Refused
    rw [hlen]
    decide +kernel
  refine ⟨by decide, Or.inl ⟨htarget, ?_⟩⟩
  rw [hentry]
  unfold HasRest
  rw [hu, hlen]
  exact ⟨by decide, by decide, hrefused⟩

/-- From any kernel without processes, a shell is started and opens `note`. -/
theorem exists_overruns {k : Kernel} (hexec : k.executingTerminal = 0)
    (hnum : k.numProcessExecuting = 0) (hslots : UsedBelow 0 k)
    (hempty : Represents k Stacks.empty) :
    ∃ labels m, Run (FileStep smallBoot) ⟨k, fun _ => False⟩ labels m ∧
      Overruns smallBoot 2 (some fun _ => 0) (-1) m.kernel := by
  obtain ⟨k₁, hlaunch, -, -, htable, hstep⟩ :=
    smallBoot_shell_fileStep (fun _ => False) hexec hslots (by decide) hnum
  have hcount : k.current.numProcessExecutingOnTerminal = 0 := hempty.length k.executingTerminal
  have hkernel : k₁.onTerminal 0 = k₁ :=
    Kernel.onTerminal_eq (hlaunch.executingTerminal.trans hexec)
  have hfree : freeDesc k₁ = some 2 := by
    rw [freeDesc_eq_some]
    exact ⟨htable 2 (by decide) (by decide), by decide, fun i hi hi' => by simp at hi; omega⟩
  have hopen : FileStep smallBoot ⟨k₁, fun i => False ∨ k₁.processes i = 1⟩ (0, .openFile noteName)
      ⟨(sysOpen smallBoot noteName (k₁.onTerminal 0)).2, fun n => (False ∨ k₁.processes n = 1) ∨
        (sysOpen smallBoot noteName (k₁.onTerminal 0)).2.processes n = 1⟩ := by
    refine ⟨⟨?_, rfl⟩, rfl⟩
    rw [hkernel, hlaunch.current_num, hcount]
    decide
  rw [hkernel] at hopen
  exact ⟨_, _, Run.snoc (Run.single hstep) hopen, overruns_note hfree⟩

theorem boot_exists_overruns (k₀ : Kernel) : ∃ labels m,
    Run (FileStep smallBoot) (SlotHistory.boot smallBoot k₀) labels m ∧
      Overruns smallBoot 2 (some fun _ => 0) (-1) m.kernel := by
  rw [SlotHistory.boot_eq]
  exact exists_overruns (boot_executingTerminal smallBoot k₀)
    (boot_numProcessExecuting smallBoot k₀) (boot_usedBelow smallBoot k₀)
    (boot_represents smallBoot k₀)

theorem negative_read_overruns : ¬∀ (b : Boot) (k₀ : Kernel) (labels : List (Fin 3 × FileCall))
    (m : SlotHistory), Run (FileStep b) (SlotHistory.boot b k₀) labels m →
      ∀ (fd : Int) (buf : Buffer) (nbytes : Int), -0x80000000 ≤ nbytes → nbytes < 0x80000000 →
        ReadContained b fd buf nbytes m.kernel := by
  intro hall
  obtain ⟨labels, m, hrun, hover⟩ := boot_exists_overruns blankKernel
  have hcount := (hall smallBoot blankKernel labels m hrun 2 (some fun _ => 0) (-1)
    (by decide) (by decide)).count
  have hpos := List.length_pos_of_ne_nil hover.stores.2
  omega

end Ece391Kernel
