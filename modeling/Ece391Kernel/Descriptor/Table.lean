import Ece391Kernel.Descriptor.Calls
import Ece391Kernel.Library.Run
import Ece391Kernel.Library.ByteStore

/-!
# The descriptor table over a run of calls

A new process starts with two descriptors bound to the terminal and six free
ones, in memory that a former process may have used. The history of a run says
on which file type each descriptor was last opened, unless it has been closed
since. The invariant ties the table to the history, and what each call does in
a state is read off it.
-/

namespace Ece391Kernel

open TransitionSystem

/-- A call on descriptors that has returned, with its result. -/
inductive DescCall
  | openFile (name : CString) (ret : Int)
  | close (fd ret : Int)
  | read (fd : Int) (buf : Buffer) (nbytes ret : Int)
  | write (fd : Int) (buf : Buffer) (nbytes ret : Int)

/-- The running process makes the call. -/
def CallStep (b : Boot) (k : Kernel) (call : DescCall) (k' : Kernel) : Prop :=
  match call with
  | .openFile name ret => sysOpen b name k = (ret, k')
  | .close fd ret => sysClose fd k = (ret, k')
  | .read fd buf nbytes ret => ∃ buf', sysRead b fd buf nbytes k = some ⟨ret, buf', k'⟩
  | .write fd buf nbytes ret => sysWrite b fd buf nbytes k = some (ret, k')

/-- The history after one more call. -/
def record (b : Boot) (history : Int → Option Int) (call : DescCall) : Int → Option Int :=
  match call with
  | .openFile name ret =>
      Function.update history ret ((findDirentry b name.at).map (direntryType b))
  | .close fd _ => Function.update history fd none
  | .read .. => history
  | .write .. => history

/-- The file types of the descriptors that an open has returned and no close has
had since. -/
def opened (b : Boot) (calls : List DescCall) : Int → Option Int :=
  calls.foldl (record b) fun _ => none

/-- The driver of a file type. -/
def driverOf (filetype : Int) : Option Driver :=
  if filetype = rtcFile then some .rtc
  else if filetype = dirFile then some .dir
  else if filetype = regFile then some .file
  else none

/-- The file types of the directory are those that `sys_open` knows. -/
def KnownTypes (b : Boot) : Prop :=
  ∀ i : Nat, (i : Int) < dirCount b → direntryType b i ∈ [rtcFile, dirFile, regFile]

/-- A descriptor in use for a file type. -/
def BoundTo (d : FileDesc) (filetype : Int) : Prop :=
  d.flag = 0 ∧ ∃ driver, driverOf filetype = some driver ∧ d.ftPtr = driverOps driver

/-- The table is as the history says. -/
structure TableInv (history : Int → Option Int) (table : Nat → FileDesc) : Prop where
  standard : ∀ fd < firstRegFile, (table fd).flag = 0 ∧ (table fd).ftPtr = driverOps .terminal
  free : ∀ fd, firstRegFile ≤ fd → fd < lastRegFile → history fd = none → (table fd).flag = 1
  bound : ∀ fd filetype, firstRegFile ≤ fd → fd < lastRegFile → history fd = some filetype →
    BoundTo (table fd) filetype

/-! ## The table of a new process -/

theorem clearDescriptors_table (k : Kernel) (fd : Nat) :
    (clearDescriptors k).table fd =
      if firstRegFile ≤ fd ∧ fd < lastRegFile then
        { k.table fd with inode := 0, filePosition := 0, flag := 1 }
      else k.table fd := by
  have hloop := ByteStore.fold_invariant
    (fun m k' => ∀ j, k'.table j = if firstRegFile ≤ j ∧ j < firstRegFile + m then
      { k.table j with inode := 0, filePosition := 0, flag := 1 } else k.table j)
    (lastRegFile - firstRegFile)
    (fun i _ k => k.setDesc (firstRegFile + i) fun d =>
      { d with inode := 0, filePosition := 0, flag := 1 }) k
    (by intro j; rw [if_neg (by omega)])
    (by
      intro i _ k' hk' j
      rw [setDesc_table]
      by_cases hj : j = firstRegFile + i
      · subst hj
        rw [Function.update_self, hk', if_neg (by omega), if_pos (by omega)]
      · rw [Function.update_of_ne hj, hk']
        by_cases hin : firstRegFile ≤ j ∧ j < firstRegFile + i
        · rw [if_pos hin, if_pos (by omega)]
        · rw [if_neg hin, if_neg (by omega)])
  exact hloop fd

theorem openIo_table (k : Kernel) :
    (openIo k).table = Function.update (Function.update k.table 0 terminalDesc) 1 terminalDesc := by
  unfold openIo
  rw [setDesc_table, setDesc_table]

/-- Whatever the memory of the process control block held before. -/
theorem newProcess_tableInv (k : Kernel) :
    TableInv (fun _ => none) (openIo (clearDescriptors k)).table where
  standard := by
    intro fd hfd
    rw [openIo_table]
    simp only [firstRegFile] at hfd
    obtain rfl | rfl : fd = 0 ∨ fd = 1 := by omega
    · exact ⟨rfl, rfl⟩
    · exact ⟨rfl, rfl⟩
  free := by
    intro fd hlo hhi _
    simp only [firstRegFile] at hlo
    rw [openIo_table, Function.update_of_ne (by omega), Function.update_of_ne (by omega),
      clearDescriptors_table, if_pos ⟨by simpa using hlo, hhi⟩]
  bound := by
    intro fd filetype _ _ h
    exact absurd h (by simp)

/-! ## The calls one by one -/

theorem freeDesc_eq_some {k : Kernel} {fd : Nat} :
    freeDesc k = some fd ↔ (k.table fd).flag = 1 ∧ (firstRegFile ≤ fd ∧ fd < lastRegFile) ∧
      ∀ j, firstRegFile ≤ j → j < fd → (k.table j).flag ≠ 1 := by
  unfold freeDesc
  rw [List.find?_range'_eq_some]
  simp [List.mem_range'_1]

theorem freeDesc_eq_none {k : Kernel} :
    freeDesc k = none ↔
      ∀ fd, firstRegFile ≤ fd → fd < lastRegFile → (k.table fd).flag ≠ 1 := by
  unfold freeDesc
  rw [List.find?_range'_eq_none]
  simp

/-- `sys_open` fails and does nothing, or takes the lowest free descriptor. -/
theorem sysOpen_cases (b : Boot) (name : CString) (k : Kernel) :
    ((findDirentry b name.at = none ∨ freeDesc k = none) ∧ sysOpen b name k = (-1, k)) ∨
    ∃ idx fd, findDirentry b name.at = some idx ∧ freeDesc k = some fd ∧
      sysOpen b name k = ((fd : Int), k.setDesc fd fun d =>
        bindDriver b idx { d with flag := 0, filePosition := 0 }) := by
  unfold sysOpen
  cases hidx : findDirentry b name.at with
  | none => exact Or.inl ⟨Or.inl rfl, rfl⟩
  | some idx =>
      cases hfd : freeDesc k with
      | none => exact Or.inl ⟨Or.inr rfl, rfl⟩
      | some fd => exact Or.inr ⟨idx, fd, rfl, rfl, rfl⟩

theorem bindDriver_keeps (b : Boot) (idx : Nat) (d : FileDesc) :
    (bindDriver b idx d).flag = d.flag ∧ (bindDriver b idx d).filePosition = d.filePosition := by
  unfold bindDriver
  split_ifs <;> exact ⟨rfl, rfl⟩

theorem bindDriver_boundTo {b : Boot} (htypes : KnownTypes b) {idx : Nat}
    (hidx : (idx : Int) < dirCount b) {d : FileDesc} (hd : d.flag = 0) :
    BoundTo (bindDriver b idx d) (direntryType b idx) := by
  refine ⟨(bindDriver_keeps b idx d).1.trans hd, ?_⟩
  have htype := htypes idx hidx
  simp only [List.mem_cons, List.not_mem_nil, or_false] at htype
  unfold bindDriver driverOf
  rcases htype with h | h | h <;> rw [h]
  · exact ⟨.rtc, rfl, rfl⟩
  · exact ⟨.dir, rfl, rfl⟩
  · exact ⟨.file, rfl, rfl⟩

/-- `sys_close` frees a descriptor in use, or fails and does nothing. -/
theorem sysClose_cases (fd : Int) (k : Kernel) :
    ((firstRegFile ≤ fd ∧ fd < lastRegFile ∧ (k.table fd.toNat).flag ≠ 1) ∧
      sysClose fd k = (0, k.setDesc fd.toNat fun d => { d with flag := 1 })) ∨
    (¬(firstRegFile ≤ fd ∧ fd < lastRegFile ∧ (k.table fd.toNat).flag ≠ 1) ∧
      sysClose fd k = (-1, k)) := by
  unfold sysClose
  by_cases hout : fd < firstRegFile ∨ fd ≥ lastRegFile
  · rw [if_pos hout]
    exact Or.inr ⟨fun h => by omega, rfl⟩
  · rw [if_neg hout]
    by_cases hflag : (k.table fd.toNat).flag = 1
    · rw [if_pos hflag]
      exact Or.inr ⟨fun h => h.2.2 hflag, rfl⟩
    · rw [if_neg hflag]
      exact Or.inl ⟨⟨by omega, by omega, hflag⟩, rfl⟩

namespace TableInv

variable {b : Boot} {history : Int → Option Int} {k : Kernel}

theorem flag_eq_zero (h : TableInv history k.table) {fd : Nat} (hlo : firstRegFile ≤ fd)
    (hhi : fd < lastRegFile) : (k.table fd).flag = 0 ↔ (history fd).isSome := by
  cases hfd : history fd with
  | none => simp [h.free fd hlo hhi hfd]
  | some filetype => simp [(h.bound fd filetype hlo hhi hfd).1]

theorem flag_eq_one (h : TableInv history k.table) {fd : Nat} (hlo : firstRegFile ≤ fd)
    (hhi : fd < lastRegFile) : (k.table fd).flag = 1 ↔ history fd = none := by
  cases hfd : history fd with
  | none => simp [h.free fd hlo hhi hfd]
  | some filetype => simp [(h.bound fd filetype hlo hhi hfd).1]

theorem flag_ne_one (h : TableInv history k.table) {fd : Nat} (hlo : firstRegFile ≤ fd)
    (hhi : fd < lastRegFile) : (k.table fd).flag ≠ 1 ↔ (history fd).isSome := by
  rw [ne_eq, h.flag_eq_one hlo hhi, Option.isSome_iff_ne_none]

/-- A change of file positions only. -/
theorem of_position {table' : Nat → FileDesc} (h : TableInv history k.table)
    (hsame : ∀ fd, ∃ position, table' fd = { k.table fd with filePosition := position }) :
    TableInv history table' where
  standard := by
    intro fd hfd
    obtain ⟨position, heq⟩ := hsame fd
    rw [heq]
    exact h.standard fd hfd
  free := by
    intro fd hlo hhi hnone
    obtain ⟨position, heq⟩ := hsame fd
    rw [heq]
    exact h.free fd hlo hhi hnone
  bound := by
    intro fd filetype hlo hhi hsome
    obtain ⟨position, heq⟩ := hsame fd
    rw [heq]
    exact h.bound fd filetype hlo hhi hsome

/-- A change of one descriptor of a file, and of its entry in the history. -/
theorem update (h : TableInv history k.table) {fd : Nat} (hlo : firstRegFile ≤ fd)
    {d : FileDesc} {entry : Option Int} (hfree : entry = none → d.flag = 1)
    (hbound : ∀ filetype, entry = some filetype → BoundTo d filetype) :
    TableInv (Function.update history fd entry) (Function.update k.table fd d) where
  standard := by
    intro j hj
    rw [Function.update_of_ne (by omega)]
    exact h.standard j hj
  free := by
    intro j hlo' hhi' hnone
    by_cases hj : j = fd
    · subst hj
      rw [Function.update_self] at hnone ⊢
      exact hfree hnone
    · have hj' : (j : Int) ≠ fd := by omega
      rw [Function.update_of_ne hj'] at hnone
      rw [Function.update_of_ne hj]
      exact h.free j hlo' hhi' hnone
  bound := by
    intro j filetype hlo' hhi' hsome
    by_cases hj : j = fd
    · subst hj
      rw [Function.update_self] at hsome ⊢
      exact hbound filetype hsome
    · have hj' : (j : Int) ≠ fd := by omega
      rw [Function.update_of_ne hj'] at hsome
      rw [Function.update_of_ne hj]
      exact h.bound j filetype hlo' hhi' hsome

/-- The history of a number that is no file descriptor does not matter. -/
theorem update_out (h : TableInv history k.table) {fd : Int} (entry : Option Int)
    (hfd : fd < firstRegFile ∨ lastRegFile ≤ fd) :
    TableInv (Function.update history fd entry) k.table where
  standard := h.standard
  free := by
    intro j hlo hhi hnone
    rw [Function.update_of_ne (by omega)] at hnone
    exact h.free j hlo hhi hnone
  bound := by
    intro j filetype hlo hhi hsome
    rw [Function.update_of_ne (by omega)] at hsome
    exact h.bound j filetype hlo hhi hsome

/-- One call keeps the table as the history says. -/
theorem step (htypes : KnownTypes b) (h : TableInv history k.table) {call : DescCall}
    {k' : Kernel} (hstep : CallStep b k call k') : TableInv (record b history call) k'.table := by
  cases call with
  | openFile name ret =>
      have hopen : sysOpen b name k = (ret, k') := hstep
      rcases sysOpen_cases b name k with ⟨-, hfail⟩ | ⟨idx, fd, hidx, hfd, hok⟩
      · obtain ⟨hret, hk⟩ := Prod.mk.inj (hfail.symm.trans hopen)
        rw [← hk]
        exact h.update_out _ (by rw [← hret]; simp)
      · obtain ⟨hret, hk⟩ := Prod.mk.inj (hok.symm.trans hopen)
        obtain ⟨-, ⟨hlo, -⟩, -⟩ := freeDesc_eq_some.mp hfd
        rw [← hk, ← hret, setDesc_table]
        simp only [record, hidx, Option.map_some]
        refine h.update hlo (fun hnone => absurd hnone (by simp)) fun filetype htype => ?_
        rw [← Option.some.inj htype]
        exact bindDriver_boundTo htypes (findDirentry_lt hidx) rfl
  | close fd ret =>
      have hclose : sysClose fd k = (ret, k') := hstep
      rcases sysClose_cases fd k with ⟨⟨hlo, -, -⟩, hok⟩ | ⟨hnot, hfail⟩
      · obtain ⟨-, hk⟩ := Prod.mk.inj (hok.symm.trans hclose)
        obtain ⟨n, rfl⟩ := Int.eq_ofNat_of_zero_le (show 0 ≤ fd by omega)
        rw [← hk, setDesc_table]
        exact h.update (by omega) (fun _ => rfl) fun filetype htype => absurd htype (by simp)
      · obtain ⟨-, hk⟩ := Prod.mk.inj (hfail.symm.trans hclose)
        rw [← hk]
        -- a descriptor that cannot be closed is no file descriptor or was free
        by_cases hrange : firstRegFile ≤ fd ∧ fd < lastRegFile
        · obtain ⟨n, rfl⟩ := Int.eq_ofNat_of_zero_le (show 0 ≤ fd by omega)
          have hflag : (k.table n).flag = 1 := by
            by_contra hne
            exact hnot ⟨hrange.1, hrange.2, hne⟩
          have hsame : TableInv (Function.update history n none)
              (Function.update k.table n (k.table n)) := h.update (by omega)
            (fun _ => hflag) fun filetype htype => absurd htype (by simp)
          rwa [Function.update_eq_self] at hsame
        · exact h.update_out none (by omega)
  | read fd buf nbytes ret =>
      obtain ⟨buf', hread⟩ := hstep
      exact h.of_position fun j => sysRead_position hread j
  | write fd buf nbytes ret =>
      have hwrite : sysWrite b fd buf nbytes k = some (ret, k') := hstep
      have htable : k'.table = k.table := sysWrite_table hwrite
      rw [htable]
      exact h

theorem run (htypes : KnownTypes b) {k₀ k₁ : Kernel}
    (hstart : TableInv (fun _ => none) k₀.table) {calls : List DescCall}
    (hrun : Run (CallStep b) k₀ calls k₁) : TableInv (opened b calls) k₁.table := by
  induction hrun with
  | nil => exact hstart
  | snoc _ hlast ih =>
      unfold opened
      rw [List.foldl_append]
      exact ih.step htypes hlast

/-- When a read or a write may use a descriptor; `other` is the standard
descriptor of the other direction. -/
theorem usable_iff (h : TableInv history k.table) (other fd : Int) :
    usable other fd k ↔
      ¬(fd < 0 ∨ lastRegFile ≤ fd ∨ fd = other ∨ firstRegFile ≤ fd ∧ history fd = none) := by
  unfold usable
  simp only [uppb, lastRegFile, firstRegFile]
  by_cases hrange : firstRegFile ≤ fd ∧ fd < lastRegFile
  · obtain ⟨n, rfl⟩ := Int.eq_ofNat_of_zero_le (show 0 ≤ fd by omega)
    have hflag : (k.table n).flag = 1 ↔ history n = none :=
      h.flag_eq_one (by omega) (by omega)
    simp only [firstRegFile, lastRegFile] at hrange
    rw [Int.toNat_natCast, hflag]
    constructor
    · rintro ⟨hin, hused⟩ (hneg | hbig | hdir | ⟨-, hfree⟩)
      · omega
      · omega
      · omega
      · exact hused ⟨by omega, by omega, hfree⟩
    · intro hnot
      exact ⟨by omega, fun hfree => hnot (Or.inr (Or.inr (Or.inr ⟨hrange.1, hfree.2.2⟩)))⟩
  · simp only [firstRegFile, lastRegFile] at hrange
    omega

/-- The pointers of a descriptor that may be used. -/
theorem pointers (h : TableInv history k.table) {fd filetype : Int} (hlo : firstRegFile ≤ fd)
    (hhi : fd < lastRegFile) (hopened : history fd = some filetype) :
    ∃ driver, driverOf filetype = some driver ∧
      (k.table fd.toNat).ftPtr = driverOps driver := by
  obtain ⟨n, rfl⟩ := Int.eq_ofNat_of_zero_le (show 0 ≤ fd by omega)
  exact (h.bound n filetype (by omega) (by omega) hopened).2

end TableInv

/-! ## What the calls do -/

/-- What holds of the descriptors in a state that a run with the given history
has reached, and what the next call does there. -/
structure DescriptorSpec (b : Boot) (history : Int → Option Int) (k : Kernel) : Prop where
  /-- Descriptors 0 and 1 are in use, and bound to the terminal. -/
  standard : ∀ fd < firstRegFile,
    (k.table fd).flag = 0 ∧ (k.table fd).ftPtr = driverOps .terminal
  /-- The others are in use if they are open. -/
  in_use : ∀ fd, firstRegFile ≤ fd → fd < lastRegFile →
    ((k.table fd).flag = 0 ↔ (history fd).isSome) ∧ ((k.table fd).flag = 1 ↔ history fd = none)
  open_fails : ∀ name, (sysOpen b name k).1 = -1 ↔
    (∀ i : Nat, i < dirCount b → ¬SameName name.at (direntryName b i) filenameLen) ∨
      ∀ fd : Nat, firstRegFile ≤ fd → fd < lastRegFile → (history fd).isSome
  open_fails_unchanged : ∀ name, (sysOpen b name k).1 = -1 → (sysOpen b name k).2 = k
  /-- An open that succeeds takes the lowest free descriptor. -/
  open_lowest : ∀ name, (sysOpen b name k).1 ≠ -1 →
    ∃ fd : Nat, (sysOpen b name k).1 = fd ∧ firstRegFile ≤ fd ∧ fd < lastRegFile ∧
      history fd = none ∧ (∀ j : Nat, firstRegFile ≤ j → j < fd → (history j).isSome) ∧
      ((sysOpen b name k).2.table fd).flag = 0 ∧
      ((sysOpen b name k).2.table fd).filePosition = 0 ∧
      ∀ j, j ≠ fd → (sysOpen b name k).2.table j = k.table j
  close_succeeds : ∀ fd : Int,
    (sysClose fd k).1 = 0 ↔ firstRegFile ≤ fd ∧ fd < lastRegFile ∧ (history fd).isSome
  close_fails : ∀ fd, (sysClose fd k).1 ≠ 0 → sysClose fd k = (-1, k)
  close_frees : ∀ fd, (sysClose fd k).1 = 0 → ((sysClose fd k).2.table fd.toNat).flag = 1
  close_other : ∀ (fd : Int) (j : Nat), (j : Int) ≠ fd → (sysClose fd k).2.table j = k.table j
  /-- A read calls no driver on a descriptor out of range, not open, or for writing. -/
  read_rejected : ∀ fd : Int, sysReadTarget fd k = none ↔
    fd < 0 ∨ lastRegFile ≤ fd ∨ fd = 1 ∨ firstRegFile ≤ fd ∧ history fd = none
  read_fails : ∀ fd buf nbytes, sysReadTarget fd k = none →
    sysRead b fd buf nbytes k = some ⟨-1, buf, k⟩
  read_calls : ∀ fd buf nbytes p, sysReadTarget fd k = some p →
    sysRead b fd buf nbytes k = callRead b p fd buf nbytes k
  read_other : ∀ fd buf nbytes r (j : Nat), sysRead b fd buf nbytes k = some r → (j : Int) ≠ fd →
    r.kernel.table j = k.table j
  /-- A write calls no driver on a descriptor out of range, not open, or for reading. -/
  write_rejected : ∀ fd : Int, sysWriteTarget fd k = none ↔
    fd < 0 ∨ lastRegFile ≤ fd ∨ fd = 0 ∨ firstRegFile ≤ fd ∧ history fd = none
  write_fails : ∀ fd buf nbytes, sysWriteTarget fd k = none →
    sysWrite b fd buf nbytes k = some (-1, k)
  write_calls : ∀ fd buf nbytes p, sysWriteTarget fd k = some p →
    sysWrite b fd buf nbytes k = callWrite b p buf nbytes k
  write_other : ∀ fd buf nbytes r, sysWrite b fd buf nbytes k = some r → r.2.table = k.table
  /-- The standard descriptors call the terminal driver. -/
  standard_driver : sysReadTarget 0 k = some (.fn .terminal .readOp) ∧
    sysWriteTarget 1 k = some (.fn .terminal .writeOp)
  /-- An open descriptor calls the driver of the file type it was opened on. -/
  opened_driver : ∀ fd filetype : Int, firstRegFile ≤ fd → fd < lastRegFile →
    history fd = some filetype → ∃ driver, driverOf filetype = some driver ∧
      sysReadTarget fd k = some (.fn driver .readOp) ∧
      sysWriteTarget fd k = some (.fn driver .writeOp)

section Spec

variable {b : Boot} {history : Int → Option Int} {k : Kernel}

theorem sysReadTarget_eq_none (fd : Int) : sysReadTarget fd k = none ↔ ¬usable 1 fd k := by
  unfold sysReadTarget
  split <;> simp_all

theorem sysWriteTarget_eq_none (fd : Int) : sysWriteTarget fd k = none ↔ ¬usable 0 fd k := by
  unfold sysWriteTarget
  split <;> simp_all

theorem sysOpen_fails_iff (name : CString) :
    (sysOpen b name k).1 = -1 ↔ findDirentry b name.at = none ∨ freeDesc k = none := by
  rcases sysOpen_cases b name k with ⟨hwhy, hfail⟩ | ⟨idx, fd, hidx, hfd, hok⟩
  · rw [hfail]
    exact ⟨fun _ => hwhy, fun _ => rfl⟩
  · rw [hok, hidx, hfd]
    constructor
    · intro h
      have hnonneg : (fd : Int) = -1 := h
      omega
    · rintro (h | h)
      · exact absurd h (by simp)
      · exact absurd h (by simp)

theorem TableInv.open_fails (h : TableInv history k.table) (name : CString) :
    (sysOpen b name k).1 = -1 ↔
      (∀ i : Nat, i < dirCount b → ¬SameName name.at (direntryName b i) filenameLen) ∨
        ∀ fd : Nat, firstRegFile ≤ fd → fd < lastRegFile → (history fd).isSome := by
  rw [sysOpen_fails_iff, findDirentry_eq_none, freeDesc_eq_none]
  have hfull : (∀ fd, firstRegFile ≤ fd → fd < lastRegFile → (k.table fd).flag ≠ 1) ↔
      ∀ fd : Nat, firstRegFile ≤ fd → fd < lastRegFile → (history fd).isSome :=
    forall₃_congr fun fd hlo hhi => h.flag_ne_one hlo hhi
  rw [hfull]

/-- An open that succeeds takes the lowest free descriptor. -/
theorem TableInv.open_lowest (h : TableInv history k.table) {name : CString}
    (hret : (sysOpen b name k).1 ≠ -1) :
    ∃ fd : Nat, (sysOpen b name k).1 = fd ∧ firstRegFile ≤ fd ∧ fd < lastRegFile ∧
      history fd = none ∧ (∀ j : Nat, firstRegFile ≤ j → j < fd → (history j).isSome) ∧
      ((sysOpen b name k).2.table fd).flag = 0 ∧
      ((sysOpen b name k).2.table fd).filePosition = 0 ∧
      ∀ j, j ≠ fd → (sysOpen b name k).2.table j = k.table j := by
  rcases sysOpen_cases b name k with ⟨-, heq⟩ | ⟨idx, fd, hidx, hfd, hok⟩
  · exact absurd (by rw [heq]) hret
  · obtain ⟨hflag, ⟨hlo, hhi⟩, hbelow⟩ := freeDesc_eq_some.mp hfd
    refine ⟨fd, by rw [hok], hlo, hhi, (h.flag_eq_one hlo hhi).mp hflag, ?_, ?_, ?_, ?_⟩
    · intro j hj hjfd
      exact (h.flag_ne_one hj (by omega)).mp (hbelow j hj hjfd)
    · rw [hok, setDesc_table, Function.update_self]
      exact (bindDriver_keeps b idx _).1
    · rw [hok, setDesc_table, Function.update_self]
      exact (bindDriver_keeps b idx _).2
    · intro j hj
      rw [hok, setDesc_table, Function.update_of_ne hj]

theorem TableInv.close_succeeds (h : TableInv history k.table) (fd : Int) :
    (sysClose fd k).1 = 0 ↔ firstRegFile ≤ fd ∧ fd < lastRegFile ∧ (history fd).isSome := by
  have hflag : firstRegFile ≤ fd → fd < lastRegFile →
      ((k.table fd.toNat).flag ≠ 1 ↔ (history fd).isSome) := by
    intro hlo hhi
    obtain ⟨n, rfl⟩ := Int.eq_ofNat_of_zero_le (show 0 ≤ fd by omega)
    exact h.flag_ne_one (by omega) (by omega)
  rcases sysClose_cases fd k with ⟨⟨hlo, hhi, hne⟩, hok⟩ | ⟨hnot, hfail⟩
  · rw [hok]
    exact ⟨fun _ => ⟨hlo, hhi, (hflag hlo hhi).mp hne⟩, fun _ => rfl⟩
  · rw [hfail]
    constructor
    · intro hret
      exact absurd hret (show (-1 : Int) ≠ 0 by decide)
    · rintro ⟨hlo, hhi, hsome⟩
      exact absurd ⟨hlo, hhi, (hflag hlo hhi).mpr hsome⟩ hnot

/-- An open descriptor calls the driver of the file type it was opened on. -/
theorem TableInv.opened_driver (h : TableInv history k.table) {fd filetype : Int}
    (hlo : firstRegFile ≤ fd) (hhi : fd < lastRegFile) (hopened : history fd = some filetype) :
    ∃ driver, driverOf filetype = some driver ∧ sysReadTarget fd k = some (.fn driver .readOp) ∧
      sysWriteTarget fd k = some (.fn driver .writeOp) := by
  obtain ⟨driver, hdriver, hptr⟩ := h.pointers hlo hhi hopened
  simp only [firstRegFile, lastRegFile] at hlo hhi
  have husable : ∀ other : Int, other = 0 ∨ other = 1 → usable other fd k := by
    intro other hother
    rw [h.usable_iff, hopened]
    simp only [firstRegFile, lastRegFile]
    rintro (hneg | hbig | hdir | ⟨-, hnone⟩)
    · omega
    · omega
    · omega
    · exact absurd hnone (by simp)
  refine ⟨driver, hdriver, ?_, ?_⟩
  · unfold sysReadTarget
    rw [if_pos (husable 1 (Or.inr rfl)), hptr]
    rfl
  · unfold sysWriteTarget
    rw [if_pos (husable 0 (Or.inl rfl)), hptr]
    rfl

theorem TableInv.spec (h : TableInv history k.table) : DescriptorSpec b history k where
  standard := h.standard
  in_use := fun fd hlo hhi => ⟨h.flag_eq_zero hlo hhi, h.flag_eq_one hlo hhi⟩
  open_fails := h.open_fails
  open_fails_unchanged := by
    intro name hfail
    rcases sysOpen_cases b name k with ⟨-, heq⟩ | ⟨idx, fd, hidx, hfd, hok⟩
    · rw [heq]
    · rw [sysOpen_fails_iff, hidx, hfd] at hfail
      exact absurd hfail (by simp)
  open_lowest := fun _ hret => h.open_lowest hret
  close_succeeds := h.close_succeeds
  close_fails := by
    intro fd hret
    rcases sysClose_cases fd k with ⟨-, hok⟩ | ⟨-, hfail⟩
    · exact absurd (by rw [hok]) hret
    · exact hfail
  close_frees := by
    intro fd hret
    rcases sysClose_cases fd k with ⟨-, hok⟩ | ⟨-, hfail⟩
    · rw [hok, setDesc_table, Function.update_self]
    · rw [hfail] at hret
      exact absurd hret (show (-1 : Int) ≠ 0 by decide)
  close_other := by
    intro fd j hj
    rcases sysClose_cases fd k with ⟨⟨hlo, -, -⟩, hok⟩ | ⟨-, hfail⟩
    · rw [hok, setDesc_table, Function.update_of_ne (by omega)]
    · rw [hfail]
  read_rejected := by
    intro fd
    rw [sysReadTarget_eq_none, h.usable_iff, not_not]
  read_fails := by
    intro fd buf nbytes hnone
    unfold sysRead
    rw [hnone]
  read_calls := by
    intro fd buf nbytes p hp
    unfold sysRead
    rw [hp]
  read_other := fun _ _ _ _ _ hread hj => sysRead_other hread hj
  write_rejected := by
    intro fd
    rw [sysWriteTarget_eq_none, h.usable_iff, not_not]
  write_fails := by
    intro fd buf nbytes hnone
    unfold sysWrite
    rw [hnone]
  write_calls := by
    intro fd buf nbytes p hp
    unfold sysWrite
    rw [hp]
  write_other := fun _ _ _ _ hwrite => sysWrite_table hwrite
  standard_driver := by
    have hread : usable 1 0 k := (h.usable_iff 1 0).mpr (by simp)
    have hwrite : usable 0 1 k := (h.usable_iff 0 1).mpr (by simp)
    unfold sysReadTarget sysWriteTarget
    rw [if_pos hread, if_pos hwrite, Int.toNat_zero, Int.toNat_one,
      (h.standard 0 (by simp)).2, (h.standard 1 (by simp)).2]
    exact ⟨rfl, rfl⟩
  opened_driver := fun _ _ hlo hhi hopened => h.opened_driver hlo hhi hopened

end Spec

/-- From the table of a new process on, whatever its memory held before, every
run of the four calls keeps the descriptors as they should be. -/
theorem descriptor_calls_keep_spec (b : Boot) (htypes : KnownTypes b) (k k₀ k₁ : Kernel)
    (hstart : k₀.table = (openIo (clearDescriptors k)).table) (calls : List DescCall)
    (hrun : Run (CallStep b) k₀ calls k₁) : DescriptorSpec b (opened b calls) k₁ := by
  have hinv : TableInv (fun _ => none) k₀.table := by
    rw [hstart]
    exact newProcess_tableInv k
  exact (TableInv.run htypes hinv hrun).spec

/-- A new process opens the file `note`, and then closes it. -/
theorem descriptor_calls_keep_spec_note :
    ∃ k₁, DescriptorSpec smallBoot (opened smallBoot [.openFile noteName 2, .close 2 0]) k₁ ∧
      (k₁.table 2).flag = 1 := by
  have htypes : KnownTypes smallBoot := by
    have hcount : dirCount smallBoot = 3 := by decide +kernel
    have hall : ∀ i < 3, direntryType smallBoot i ∈ [rtcFile, dirFile, regFile] := by
      decide +kernel
    intro i hi
    rw [hcount] at hi
    exact hall i (by omega)
  have hstart : (openIo (clearDescriptors blankKernel)).table =
      (openIo (clearDescriptors blankKernel)).table := rfl
  have hopen : (sysOpen smallBoot noteName (openIo (clearDescriptors blankKernel))).1 = 2 := by
    decide +kernel
  have hclose : (sysClose 2
      (sysOpen smallBoot noteName (openIo (clearDescriptors blankKernel))).2).1 = 0 := by
    decide +kernel
  have hflag : ((sysClose 2
      (sysOpen smallBoot noteName (openIo (clearDescriptors blankKernel))).2).2.table 2).flag =
        1 := by
    decide +kernel
  generalize hfirst : sysOpen smallBoot noteName (openIo (clearDescriptors blankKernel)) = first
    at hopen hclose hflag
  obtain ⟨fd, k⟩ := first
  obtain rfl : fd = 2 := hopen
  generalize hsecond : sysClose 2 k = second at hclose hflag
  obtain ⟨ret, k₁⟩ := second
  obtain rfl : ret = 0 := hclose
  have hrun := Run.snoc (Run.single (R := CallStep smallBoot) (l := .openFile noteName 2) hfirst)
    (show CallStep smallBoot k (.close 2 0) k₁ from hsecond)
  exact ⟨k₁, descriptor_calls_keep_spec smallBoot htypes blankKernel _ k₁ hstart _ hrun, hflag⟩

end Ece391Kernel
