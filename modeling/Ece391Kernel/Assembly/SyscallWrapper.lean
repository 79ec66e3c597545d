import Ece391Kernel.Process.Execute
import Ece391Kernel.Library.X86.Rules

/-!
# The entry of the system calls

The stub `DO_CALL` of the user library and `syscall_wrapper` of the kernel, as listings. The
functions of the jump table are arguments: all that the wrapper relies on is that they obey
the calling convention of C.
-/

namespace Ece391Kernel

open X86 Op

/-! ## The listings -/

/-- The entries of the jump table. -/
inductive SyscallHandler
  | sysHalt | sysExecute | sysRead | sysWrite | sysOpen | sysClose | sysGetargs | sysVidmap
  | sysSetHandler | sysSigreturn
  deriving DecidableEq

/-- The labels: the name that `DO_CALL` defines, and those of the wrapper. -/
inductive SyscallLabel | doCall | syscallWrapper | syscallNumError | done
  deriving DecidableEq

abbrev SyscallLine := Instr SyscallLabel SyscallHandler

/-- `SIGR_SYS_NUM`. -/
def sigrSysNum : Word := 10

/-- `SYSCALL_ENTRY_NUM`. -/
def syscallEntryNum : Nat := 0x80

/-- `syscall_jump_table`. -/
def syscallJumpTable : List SyscallHandler :=
  [.sysHalt, .sysExecute, .sysRead, .sysWrite, .sysOpen, .sysClose, .sysGetargs, .sysVidmap,
    .sysSetHandler, .sysSigreturn]

/-- `DO_CALL`, for a number. -/
def doCall (number : Word) : List SyscallLine :=
  [.label .doCall,
    .op (.push (.reg .ebx)),
    .op (.movl (.imm number) (.reg .eax)),
    .op (.movl (.mem 8 .esp) (.reg .ebx)),
    .op (.movl (.mem 12 .esp) (.reg .ecx)),
    .op (.movl (.mem 16 .esp) (.reg .edx)),
    .int syscallEntryNum,
    .op (.pop (.reg .ebx)),
    .ret]

/-- `syscall_wrapper`. -/
def syscallWrapper : List SyscallLine :=
  [.label .syscallWrapper,
    .op (.push (.seg .es)),
    .op (.push (.seg .ds)),
    .op (.push (.reg .ebx)),
    .op (.push (.reg .ecx)),
    .op (.push (.reg .edx)),
    .op (.push (.reg .esi)),
    .op (.push (.reg .edi)),
    .op (.push (.reg .ebp)),
    .op (.push .flags),
    .op .cli,
    .op (.cmpl (.imm 1) .eax),
    .jcc .b .syscallNumError,
    .op (.cmpl (.imm sigrSysNum) .eax),
    .jcc .a .syscallNumError,
    .op (.subl 1 .eax),
    .op (.push (.reg .edx)),
    .op (.push (.reg .ecx)),
    .op (.push (.reg .ebx)),
    .op .sti,
    .call syscallJumpTable .eax,
    .op (.pop (.reg .ebx)),
    .op (.pop (.reg .ecx)),
    .op (.pop (.reg .edx)),
    .jmp .done,
    .label .syscallNumError,
    .op (.movl (.imm (-1)) (.reg .eax)),
    .label .done,
    .op (.pop .flags),
    .op (.pop (.reg .ebp)),
    .op (.pop (.reg .edi)),
    .op (.pop (.reg .esi)),
    .op (.pop (.reg .edx)),
    .op (.pop (.reg .ecx)),
    .op (.pop (.reg .ebx)),
    .op (.pop (.seg .ds)),
    .op (.pop (.seg .es)),
    .iret]

/-- The stub and, behind it, the wrapper. -/
def syscallCode (number : Word) : List SyscallLine := doCall number ++ syscallWrapper

/-- `KERNEL_CS`. -/
def kernelCs : BitVec 16 := 0x10

/-- The gate of the system calls, and the kernel stack in the task state. -/
def syscallEnv (run : SyscallHandler → Cpu → Cpu) (tss : Tss) :
    Env SyscallLabel SyscallHandler where
  run := run
  gate := fun vector => if vector = syscallEntryNum then some .syscallWrapper else none
  esp0 := BitVec.ofNat 32 tss.esp0
  ss0 := BitVec.ofNat 16 tss.ss0
  kernelCs := kernelCs

/-- What the wrapper saves, in the order of its `push`. -/
def savedSlots : List Slot :=
  [.seg .es, .seg .ds, .reg .ebx, .reg .ecx, .reg .edx, .reg .esi, .reg .edi, .reg .ebp, .flags]

/-! ## The functions of the table -/

/-- A function that is entered with a stack pointer obeys the calling convention: it returns
behind its return address, with the registers of its caller, and does not write into the
frames of its callers. -/
structure CConvention (f : Cpu → Cpu) (esp : Word) (frames : Word → Prop) : Prop where
  saved : ∀ c, c.reg .esp = esp → ∀ r ∈ [Reg.ebx, .esi, .edi, .ebp], (f c).reg r = c.reg r
  returns : ∀ c, c.reg .esp = esp → (f c).reg .esp = esp + 4
  keeps : ∀ c, c.reg .esp = esp → ∀ x, frames x → (f c).mem x = c.mem x

/-! ## The wrapper -/

/-- The stack pointer and what the wrapper saves are as before. -/
structure Restored (c c' : Cpu) : Prop where
  slots : ∀ s ∈ savedSlots, c'.get s = c.get s
  esp : c'.reg .esp = c.reg .esp

/-- The machine that runs the stub and the wrapper. -/
abbrev Gets (number : Word) (run : SyscallHandler → Cpu → Cpu) (tss : Tss) :
    Machine SyscallHandler → Machine SyscallHandler → Prop :=
  Reaches (syscallEnv run tss) (syscallCode number)

section Wrapper

variable {number : Word} {run : SyscallHandler → Cpu → Cpu} {tss : Tss} {c d : Cpu}
  {calls : List (SyscallHandler × Cpu)}

/-- The registers and the memory behind the first `push` of the wrapper. -/
def saved (c : Cpu) : Cpu := execAll (pushes savedSlots) c

theorem saved_stack (c : Cpu) : (saved c).Stack (savedSlots.reverse.map c.get) := by
  have hstack := pushes_stack (by decide : .reg .esp ∉ savedSlots) (by decide) (Cpu.stack_nil c)
  rw [List.append_nil] at hstack
  rw [List.map_reverse]
  exact hstack

theorem saved_esp (c : Cpu) : (saved c).reg .esp = c.reg .esp - 36 := pushes_esp

theorem saved_get {s : Slot} (hs : s ≠ .reg .esp) : (saved c).get s = c.get s := pushes_get hs

theorem saved_mem {x : Word} (hx : ¬Within (c.reg .esp - 36) 36 x) : (saved c).mem x = c.mem x :=
  pushes_mem (by decide) hx

/-- The label `DONE`, where the words that have been saved are on the stack. -/
theorem done_run (hstack : d.Stack (savedSlots.reverse.map c.get))
    (hesp : d.reg .esp = c.reg .esp - 36) :
    ∃ d', Gets number run tss ⟨36, d, calls⟩ ⟨46, d', calls⟩ ∧
      Restored c d' ∧ d'.reg .eax = d.reg .eax ∧ d'.mem = d.mem := by
  rw [← List.append_nil (List.map _ _)] at hstack
  refine ⟨execAll (pops savedSlots.reverse) d, ?_, ⟨fun s hs => ?_, ?_⟩, ?_, pops_mem⟩
  · have hlabel : Gets number run tss ⟨36, d, calls⟩ ⟨37, d, calls⟩ := reaches_label rfl
    exact hlabel.trans (reaches_ops (pops savedSlots.reverse) rfl)
  · exact pops_get_of_mem (by decide) (by decide) hstack (List.mem_reverse.mpr hs)
  · rw [pops_esp (by decide), hesp]
    exact sub_add_cancel _ _
  · exact pops_get_of_not_mem (s := .reg .eax) (by decide) (by decide)

/-- The state behind the first comparison of the number. -/
def compared (d : Cpu) : Cpu := (Op.cmpl (.imm 1) .eax).exec (Op.cli.exec d)

/-- The state behind the second one. -/
def comparedTwice (d : Cpu) : Cpu := (Op.cmpl (.imm sigrSysNum) .eax).exec (compared d)

theorem compared_keeps (d : Cpu) : (compared d).mem = d.mem ∧ (compared d).reg = d.reg := ⟨rfl, rfl⟩

theorem comparedTwice_keeps (d : Cpu) :
    (comparedTwice d).mem = d.mem ∧ (comparedTwice d).reg = d.reg := ⟨rfl, rfl⟩

theorem compared_below (d : Cpu) : Cond.b.holds (compared d) = decide (d.reg .eax < 1) :=
  cmpl_below (.imm 1) .eax (Op.cli.exec d)

theorem comparedTwice_above (d : Cpu) :
    Cond.a.holds (comparedTwice d) = decide (sigrSysNum < d.reg .eax) :=
  cmpl_above (.imm sigrSysNum) .eax (compared d)

/-- From the label of the wrapper to the first jump. -/
theorem save_run : Gets number run tss ⟨9, c, calls⟩ ⟨21, compared (saved c), calls⟩ := by
  have hlabel : Gets number run tss ⟨9, c, calls⟩ ⟨10, c, calls⟩ := reaches_label rfl
  have hsave : Gets number run tss ⟨10, c, calls⟩ ⟨19, saved c, calls⟩ :=
    reaches_ops (pushes savedSlots) rfl
  have hcheck : Gets number run tss ⟨19, saved c, calls⟩ ⟨21, compared (saved c), calls⟩ :=
    reaches_ops [.cli, .cmpl (.imm 1) .eax] rfl
  exact (hlabel.trans hsave).trans hcheck

/-- The first jump is not taken. -/
theorem compare_run (h : 1 ≤ c.reg .eax) :
    Gets number run tss ⟨21, compared (saved c), calls⟩ ⟨23, comparedTwice (saved c), calls⟩ := by
  have heax : (saved c).reg .eax = c.reg .eax := saved_get (s := .reg .eax) (by decide)
  have hnot : Cond.b.holds (compared (saved c)) = false := by
    rw [compared_below, heax]
    exact decide_eq_false (by bv_omega)
  have hnext : Gets number run tss ⟨21, compared (saved c), calls⟩
      ⟨22, compared (saved c), calls⟩ := reaches_jcc_of_not rfl hnot
  exact hnext.trans (reaches_op rfl)

/-- The label of the errors. -/
theorem error_run (hstack : d.Stack (savedSlots.reverse.map c.get))
    (hesp : d.reg .esp = c.reg .esp - 36) :
    ∃ d', Gets number run tss ⟨34, d, calls⟩ ⟨46, d', calls⟩ ∧
      Restored c d' ∧ d'.reg .eax = -1 ∧ d'.mem = d.mem := by
  have hlabel : Gets number run tss ⟨34, d, calls⟩ ⟨35, d, calls⟩ := reaches_label rfl
  have hmove : Gets number run tss ⟨35, d, calls⟩ ⟨36, d.setReg .eax (-1), calls⟩ :=
    reaches_ops [.movl (.imm (-1)) (.reg .eax)] rfl
  obtain ⟨d', hdone, hrestored, heax, hmem⟩ :=
    done_run (c := c) (d := d.setReg .eax (-1)) (hstack.of_same rfl (by simp)) (by simpa using hesp)
  refine ⟨d', (hlabel.trans hmove).trans hdone, hrestored, ?_, hmem⟩
  rw [heax, Cpu.setReg_reg, Function.update_self]

/-- A state that agrees with the one behind the saving, apart from the flags, goes wrong. -/
theorem rejected_run (hmem : d.mem = (saved c).mem) (hreg : d.reg = (saved c).reg) :
    ∃ d', Gets number run tss ⟨34, d, calls⟩ ⟨46, d', calls⟩ ∧
      Restored c d' ∧ d'.reg .eax = -1 ∧
        ∀ x, ¬Within (c.reg .esp - 36) 36 x → d'.mem x = c.mem x := by
  have hesp : d.reg .esp = (saved c).reg .esp := congrFun hreg .esp
  obtain ⟨d', herror, hrestored, hresult, hkept⟩ :=
    error_run ((saved_stack c).of_same hmem hesp) (hesp.trans (saved_esp c))
  refine ⟨d', herror, hrestored, hresult, fun x hx => ?_⟩
  rw [hkept, hmem]
  exact saved_mem hx

/-- A number that is not in the table: nothing is called. -/
theorem syscallWrapper_rejects (hnot : ¬(1 ≤ c.reg .eax ∧ c.reg .eax ≤ sigrSysNum)) :
    ∃ d', Gets number run tss ⟨9, c, calls⟩ ⟨46, d', calls⟩ ∧
      Restored c d' ∧ d'.reg .eax = -1 ∧
        ∀ x, ¬Within (c.reg .esp - 36) 36 x → d'.mem x = c.mem x := by
  have heax : (saved c).reg .eax = c.reg .eax := saved_get (s := .reg .eax) (by decide)
  by_cases hbelow : c.reg .eax < 1
  · have hjump : Gets number run tss ⟨21, compared (saved c), calls⟩
        ⟨34, compared (saved c), calls⟩ :=
      reaches_jcc_of_holds rfl rfl (by rw [compared_below, heax]; exact decide_eq_true hbelow)
    obtain ⟨hmem, hreg⟩ := compared_keeps (saved c)
    obtain ⟨d', herror, hrest⟩ := rejected_run hmem hreg
    exact ⟨d', (save_run.trans hjump).trans herror, hrest⟩
  · have hjump : Gets number run tss ⟨23, comparedTwice (saved c), calls⟩
        ⟨34, comparedTwice (saved c), calls⟩ := by
      refine reaches_jcc_of_holds rfl rfl ?_
      rw [comparedTwice_above, heax]
      unfold sigrSysNum at hnot ⊢
      exact decide_eq_true (by bv_omega)
    obtain ⟨hmem, hreg⟩ := comparedTwice_keeps (saved c)
    obtain ⟨d', herror, hrest⟩ := rejected_run hmem hreg
    exact ⟨d', ((save_run.trans (compare_run (by bv_omega))).trans hjump).trans herror, hrest⟩

/-- The state at the call: the index in `eax` and the arguments on the stack. -/
def passed (d : Cpu) : Cpu :=
  Op.sti.exec (execAll (pushes [.reg .edx, .reg .ecx, .reg .ebx]) ((Op.subl 1 .eax).exec d))

theorem passed_get {s : Slot} (hesp : s ≠ .reg .esp) (hflags : s ≠ .flags) (d : Cpu) :
    (passed d).get s = ((Op.subl 1 .eax).exec d).get s := by
  have hsti : (passed d).get s =
      (execAll (pushes [.reg .edx, .reg .ecx, .reg .ebx]) ((Op.subl 1 .eax).exec d)).get s := by
    cases s with
    | reg r => rfl
    | seg s => rfl
    | flags => exact absurd rfl hflags
  exact hsti.trans (pushes_get hesp)

theorem passed_eax (d : Cpu) : (passed d).reg .eax = d.reg .eax - 1 := by
  have hget := passed_get (s := .reg .eax) (by decide) (by decide) d
  exact hget.trans (by simp [Op.exec, Cpu.get])

theorem passed_esp (d : Cpu) : (passed d).reg .esp = d.reg .esp - 12 := by
  have hesp : (execAll (pushes [.reg .edx, .reg .ecx, .reg .ebx])
      ((Op.subl 1 .eax).exec d)).reg .esp =
      ((Op.subl 1 .eax).exec d).reg .esp - 12 := pushes_esp
  exact hesp.trans (by simp [Op.exec])

/-- The arguments, the first one on top. -/
theorem passed_stack {ws : List Word} (hlen : ws.length ≤ 10) (h : d.Stack ws) :
    (passed d).Stack (d.reg .ebx :: d.reg .ecx :: d.reg .edx :: ws) := by
  have hsub : ((Op.subl 1 .eax).exec d).Stack ws := h.of_same rfl (by simp [Op.exec])
  have hpush := pushes_stack (by decide : .reg .esp ∉ [Slot.reg .edx, .reg .ecx, .reg .ebx])
    (by simp only [List.length_cons, List.length_nil]; omega) hsub
  exact hpush.of_same rfl rfl

theorem passed_mem {x : Word} (hx : ¬Within (d.reg .esp - 12) 12 x) :
    (passed d).mem x = d.mem x := by
  have hesp : ((Op.subl 1 .eax).exec d).reg .esp = d.reg .esp := by simp [Op.exec]
  rw [← hesp] at hx
  have hpush : (execAll (pushes [.reg .edx, .reg .ecx, .reg .ebx])
      ((Op.subl 1 .eax).exec d)).mem x =
      ((Op.subl 1 .eax).exec d).mem x := pushes_mem (by decide) hx
  exact hpush

/-- The state in which the function of the table is entered. -/
def dispatched (c : Cpu) : Cpu := (passed (comparedTwice (saved c))).push 30

theorem dispatched_esp (c : Cpu) : (dispatched c).reg .esp = c.reg .esp - 52 := by
  obtain ⟨-, hreg⟩ := comparedTwice_keeps (saved c)
  unfold dispatched
  rw [Cpu.push_esp, passed_esp, hreg, saved_esp]
  bv_omega

/-- The return address, and the arguments in order. -/
theorem dispatched_stack (c : Cpu) :
    (dispatched c).Stack [30, c.reg .ebx, c.reg .ecx, c.reg .edx] := by
  obtain ⟨-, hreg⟩ := comparedTwice_keeps (saved c)
  have hpassed := (passed_stack (by simp) (Cpu.stack_nil (comparedTwice (saved c)))).push
    (by simp) 30
  rw [hreg] at hpassed
  rw [← show (saved c).reg .ebx = c.reg .ebx from saved_get (s := .reg .ebx) (by decide),
    ← show (saved c).reg .ecx = c.reg .ecx from saved_get (s := .reg .ecx) (by decide),
    ← show (saved c).reg .edx = c.reg .edx from saved_get (s := .reg .edx) (by decide)]
  exact hpassed

theorem dispatched_mem {x : Word} (hx : ¬Within (c.reg .esp - 52) 16 x) :
    (dispatched c).mem x = (saved c).mem x := by
  obtain ⟨hmem, hreg⟩ := comparedTwice_keeps (saved c)
  unfold Within at hx
  unfold dispatched
  rw [Cpu.push_mem_of_not_within, passed_mem, hmem]
  · unfold Within
    rw [hreg, saved_esp]
    bv_omega
  · unfold Within
    rw [passed_esp, hreg, saved_esp]
    bv_omega

/-- The function has returned and its arguments are off the stack. -/
theorem returned_run {f : SyscallHandler} {frames : Word → Prop}
    (hconv : CConvention (run f) (c.reg .esp - 52) frames)
    (hframes : ∀ x, Within (c.reg .esp - 36) 36 x → frames x) :
    ∃ d', Gets number run tss ⟨30, run f (dispatched c), calls⟩ ⟨46, d', calls⟩ ∧
      Restored c d' ∧ d'.reg .eax = (run f (dispatched c)).reg .eax ∧
      d'.mem = (run f (dispatched c)).mem := by
  have hesp := dispatched_esp c
  have hreturn := hconv.returns _ hesp
  have hpop : Gets number run tss ⟨30, run f (dispatched c), calls⟩
      ⟨33, execAll (pops [.reg .ebx, .reg .ecx, .reg .edx]) (run f (dispatched c)), calls⟩ :=
    reaches_ops (pops [.reg .ebx, .reg .ecx, .reg .edx]) rfl
  have hresult : (execAll (pops [.reg .ebx, .reg .ecx, .reg .edx])
      (run f (dispatched c))).reg .eax =
      (run f (dispatched c)).reg .eax :=
    pops_get_of_not_mem (s := .reg .eax) (by decide) (by decide)
  have hmem : (execAll (pops [.reg .ebx, .reg .ecx, .reg .edx]) (run f (dispatched c))).mem =
      (run f (dispatched c)).mem := pops_mem
  have hpopped : (execAll (pops [.reg .ebx, .reg .ecx, .reg .edx])
      (run f (dispatched c))).reg .esp =
      c.reg .esp - 36 := by
    rw [pops_esp (by decide), hreturn, List.length_cons, List.length_cons, List.length_singleton]
    bv_omega
  generalize execAll (pops [.reg .ebx, .reg .ecx, .reg .edx]) (run f (dispatched c)) = d
    at hpop hresult hmem hpopped
  have hjump : Gets number run tss ⟨33, d, calls⟩ ⟨36, d, calls⟩ := reaches_jmp rfl rfl
  have hstack : d.Stack (savedSlots.reverse.map c.get) := by
    have hsaved := saved_stack c
    unfold Cpu.Stack at hsaved ⊢
    rw [saved_esp] at hsaved
    rw [hpopped]
    refine hsaved.congr (by simp [savedSlots]) fun x hx => ?_
    have hin : Within (c.reg .esp - 36) 36 x := by simpa [savedSlots] using hx
    rw [hmem, hconv.keeps _ hesp x (hframes x hin), dispatched_mem]
    unfold Within at hin ⊢
    bv_omega
  obtain ⟨d', hdone, hrestored, heax, hkept⟩ := done_run hstack hpopped
  exact ⟨d', (hpop.trans hjump).trans hdone, hrestored, heax.trans hresult, hkept.trans hmem⟩

/-- A number in the table: the function at its place is called with the arguments, and its
result is returned. -/
theorem syscallWrapper_calls {f : SyscallHandler} {frames : Word → Prop}
    (hlo : 1 ≤ c.reg .eax) (hhi : c.reg .eax ≤ sigrSysNum)
    (hf : syscallJumpTable[(c.reg .eax - 1).toNat]? = some f)
    (hconv : CConvention (run f) (c.reg .esp - 52) frames)
    (hframes : ∀ x, Within (c.reg .esp - 36) 36 x → frames x) :
    ∃ d', Gets number run tss ⟨9, c, calls⟩ ⟨46, d', calls ++ [(f, dispatched c)]⟩ ∧
      Restored c d' ∧ d'.reg .eax = (run f (dispatched c)).reg .eax ∧
      ∀ x, frames x → ¬Within (c.reg .esp - 52) 52 x → d'.mem x = c.mem x := by
  have heax : (saved c).reg .eax = c.reg .eax := saved_get (s := .reg .eax) (by decide)
  obtain ⟨hmem, hreg⟩ := comparedTwice_keeps (saved c)
  have hnext : Gets number run tss ⟨23, comparedTwice (saved c), calls⟩
      ⟨24, comparedTwice (saved c), calls⟩ := by
    refine reaches_jcc_of_not rfl ?_
    rw [comparedTwice_above, heax]
    exact decide_eq_false (by bv_omega)
  have hpass : Gets number run tss ⟨24, comparedTwice (saved c), calls⟩
      ⟨29, passed (comparedTwice (saved c)), calls⟩ :=
    reaches_ops (.subl 1 .eax :: pushes [.reg .edx, .reg .ecx, .reg .ebx] ++ [.sti]) rfl
  have hindex : (passed (comparedTwice (saved c))).reg .eax = c.reg .eax - 1 := by
    rw [passed_eax, hreg, heax]
  have hcall : Gets number run tss ⟨29, passed (comparedTwice (saved c)), calls⟩
      ⟨30, run f (dispatched c), calls ++ [(f, dispatched c)]⟩ :=
    reaches_call rfl (by rw [hindex]; exact hf)
  obtain ⟨d', hreturned, hrestored, hresult, hkept⟩ := returned_run hconv hframes
  refine ⟨d', ?_, hrestored, hresult, fun x hx hout => ?_⟩
  · exact ((((save_run.trans (compare_run hlo)).trans hnext).trans hpass).trans hcall).trans
      hreturned
  · unfold Within at hout
    rw [hkept, hconv.keeps _ (dispatched_esp c) x hx, dispatched_mem, saved_mem]
    · unfold Within
      bv_omega
    · unfold Within
      bv_omega

end Wrapper

/-! ## The stub -/

section Stub

variable {number : Word} {run : SyscallHandler → Cpu → Cpu} {tss : Tss} {c : Cpu}
  {calls : List (SyscallHandler × Cpu)}

/-- The arguments of a C function, when it is entered. -/
def cArgument (c : Cpu) (i : Word) : Word := loadWord c.mem (c.reg .esp + 4 * i)

/-- The state in which the stub makes the system call. -/
def loaded (number : Word) (c : Cpu) : Cpu :=
  execAll [.push (.reg .ebx), .movl (.imm number) (.reg .eax), .movl (.mem 8 .esp) (.reg .ebx),
    .movl (.mem 12 .esp) (.reg .ecx), .movl (.mem 16 .esp) (.reg .edx)] c

theorem loaded_seg : (loaded number c).seg = c.seg := rfl

theorem loaded_esp : (loaded number c).reg .esp = c.reg .esp - 4 := by
  simp [loaded, Op.exec, Cpu.write]

theorem loaded_number : (loaded number c).reg .eax = number := by
  simp [loaded, Op.exec, Cpu.write, Cpu.read]

theorem loaded_reg {r : Reg} (hr : r ∈ [Reg.esi, .edi, .ebp]) :
    (loaded number c).reg r = c.reg r := by
  simp only [List.mem_cons, List.not_mem_nil, or_false] at hr
  rcases hr with rfl | rfl | rfl <;> simp [loaded, Op.exec, Cpu.write]

theorem loaded_arguments (number : Word) (c : Cpu) : (loaded number c).reg .ebx = cArgument c 1 ∧
    (loaded number c).reg .ecx = cArgument c 2 ∧ (loaded number c).reg .edx = cArgument c 3 := by
  have hload : ∀ disp i : Word, disp = 4 * i + 4 → 1 ≤ i → i ≤ 3 →
      loadWord (storeWord c.mem (c.reg .esp - 4) (c.reg .ebx)) (c.reg .esp - 4 + disp) =
        cArgument c i := by
    intro disp i hdisp hlo hhi
    have haddr : c.reg .esp - 4 + disp = c.reg .esp + 4 * i := by
      rw [hdisp]
      ring
    rw [haddr]
    refine loadWord_congr fun x hx => storeWord_of_not_within fun hin => ?_
    unfold Within at hx hin
    bv_omega
  refine ⟨?_, ?_, ?_⟩
  · rw [← hload 8 1 (by decide) (by decide) (by decide)]
    simp [loaded, Op.exec, Cpu.write, Cpu.read, Cpu.get]
  · rw [← hload 12 2 (by decide) (by decide) (by decide)]
    simp [loaded, Op.exec, Cpu.write, Cpu.read, Cpu.get]
  · rw [← hload 16 3 (by decide) (by decide) (by decide)]
    simp [loaded, Op.exec, Cpu.write, Cpu.read, Cpu.get]

/-- What the stub needs behind the system call. -/
theorem loaded_stack : (loaded number c).Stack [c.reg .ebx, cArgument c 0] := by
  have hreturn : c.Stack [cArgument c 0] := by
    refine ⟨?_, trivial⟩
    unfold cArgument
    simp
  exact (hreturn.push (by simp) (c.reg .ebx)).of_same rfl (by rw [loaded_esp, Cpu.push_esp])

/-- The state in which the wrapper is entered. -/
def entered (number : Word) (run : SyscallHandler → Cpu → Cpu) (tss : Tss) (c : Cpu) : Cpu :=
  (loaded number c).enter (syscallEnv run tss) 7

theorem stub_run : Gets number run tss ⟨0, c, calls⟩ ⟨9, entered number run tss c, calls⟩ := by
  have hlabel : Gets number run tss ⟨0, c, calls⟩ ⟨1, c, calls⟩ := reaches_label rfl
  have hload : Gets number run tss ⟨1, c, calls⟩ ⟨6, loaded number c, calls⟩ :=
    reaches_ops [.push (.reg .ebx), .movl (.imm number) (.reg .eax),
      .movl (.mem 8 .esp) (.reg .ebx), .movl (.mem 12 .esp) (.reg .ecx),
      .movl (.mem 16 .esp) (.reg .edx)] rfl
  have hint : Gets number run tss ⟨6, loaded number c, calls⟩
      ⟨9, entered number run tss c, calls⟩ := reaches_int rfl rfl rfl
  exact (hlabel.trans hload).trans hint

/-- The frames of the callers of a function of the table: what the processor and the wrapper
have saved on the kernel stack, and the frame of the stub. -/
def CallerFrames (tss : Tss) (c : Cpu) (x : Word) : Prop :=
  Within (BitVec.ofNat 32 tss.esp0 - 56) 56 x ∨ Within (c.reg .esp - 4) 8 x

/-- The stub has returned to its caller. -/
structure StubReturn (c : Cpu) (m : Machine SyscallHandler) : Prop where
  pc : m.pc = (cArgument c 0).toNat
  esp : m.cpu.reg .esp = c.reg .esp + 4
  saved : ∀ r ∈ [Reg.ebx, .esi, .edi, .ebp], m.cpu.reg r = c.reg r
  segs : ∀ s, m.cpu.seg s = c.seg s

theorem entered_reg {r : Reg} (hr : r ≠ .esp) :
    (entered number run tss c).reg r = (loaded number c).reg r := enter_reg hr

/-- The data segments are those of the program, if the wrapper restores them. -/
theorem Restored.seg {d : Cpu} (h : Restored (entered number run tss c) d) {s : Seg}
    (hs : .seg s ∈ savedSlots) (hcs : s ≠ .cs) (hss : s ≠ .ss) : d.seg s = c.seg s := by
  have hslot : (d.seg s).setWidth 32 = ((entered number run tss c).seg s).setWidth 32 :=
    h.slots (.seg s) hs
  have hentered : (entered number run tss c).seg s = c.seg s := enter_seg hcs hss
  have hnarrow := congrArg (BitVec.setWidth 16) hslot
  rw [hentered] at hnarrow
  simpa using hnarrow

/-- The words of the interrupt are on the kernel stack at `iret`. -/
theorem Restored.interruptStack {d : Cpu} (h : Restored (entered number run tss c) d)
    (hmem : ∀ x, Within (BitVec.ofNat 32 tss.esp0 - 20) 20 x →
      d.mem x = (entered number run tss c).mem x) :
    d.Stack [7, (loaded number c).get (.seg .cs), (loaded number c).eflags,
      (loaded number c).reg .esp, (loaded number c).get (.seg .ss)] := by
  have hesp : (entered number run tss c).reg .esp = BitVec.ofNat 32 tss.esp0 - 20 := enter_esp
  have hentry := enter_stack (syscallEnv run tss) 7 (loaded number c)
  unfold Cpu.Stack at hentry ⊢
  rw [h.esp]
  refine hentry.congr (by simp) fun x hx => hmem x ?_
  rw [← hesp]
  exact hx

/-- The frame of the stub is as it was at the system call. -/
theorem Restored.stubStack {d : Cpu} (h : Restored (entered number run tss c) d)
    (hmem : ∀ x, CallerFrames tss c x → ¬Within (BitVec.ofNat 32 tss.esp0 - 72) 52 x →
      d.mem x = (entered number run tss c).mem x)
    (hapart : ∀ x, Within (c.reg .esp - 4) 8 x → ¬Within (BitVec.ofNat 32 tss.esp0 - 72) 72 x) :
    d.leave.Stack [c.reg .ebx, cArgument c 0] ∧ d.leave.reg .esp = c.reg .esp - 4 := by
  obtain ⟨-, hesp, -, -, -⟩ := (h.interruptStack fun x hx =>
    hmem x (Or.inl (by unfold Within at hx ⊢; bv_omega)) (by unfold Within at hx ⊢; bv_omega)).leave
  rw [loaded_esp] at hesp
  have hloaded : (loaded number c).Stack [c.reg .ebx, cArgument c 0] := loaded_stack
  refine ⟨?_, hesp⟩
  unfold Cpu.Stack at hloaded ⊢
  rw [loaded_esp] at hloaded
  rw [hesp]
  refine hloaded.congr (by simp) fun x hx => ?_
  have hout := hapart x hx
  rw [leave_mem, hmem x (Or.inr hx) (by unfold Within at hout ⊢; bv_omega)]
  exact enter_mem (by unfold Within syscallEnv at *; bv_omega)

/-- The last lines of the stub. -/
theorem unwind_run {e : Cpu} {w eip : Word} (h : e.Stack [w, eip]) :
    Gets number run tss ⟨7, e, calls⟩ ⟨eip.toNat, (e.drop.set (.reg .ebx) w).drop, calls⟩ := by
  have hpop : Gets number run tss ⟨7, e, calls⟩ ⟨8, (Op.pop (.reg .ebx)).exec e, calls⟩ :=
    reaches_op rfl
  have hstack := pop_stack (t := .reg .ebx) (by decide) h
  rw [pop_exec h] at hpop hstack
  have hret : Gets number run tss ⟨8, e.drop.set (.reg .ebx) w, calls⟩
      ⟨(e.drop.set (.reg .ebx) w).top.toNat, (e.drop.set (.reg .ebx) w).drop, calls⟩ :=
    reaches_ret rfl
  rw [hstack.top_eq] at hret
  exact hpop.trans hret

/-- From `iret` to the caller of the stub. -/
theorem return_run {d : Cpu} (hrestored : Restored (entered number run tss c) d)
    (hmem : ∀ x, CallerFrames tss c x → ¬Within (BitVec.ofNat 32 tss.esp0 - 72) 52 x →
      d.mem x = (entered number run tss c).mem x)
    (hapart : ∀ x, Within (c.reg .esp - 4) 8 x → ¬Within (BitVec.ofNat 32 tss.esp0 - 72) 72 x) :
    ∃ m, Gets number run tss ⟨46, d, calls⟩ m ∧ StubReturn c m ∧ m.calls = calls ∧
      m.cpu.reg .eax = d.reg .eax := by
  obtain ⟨htop, -, -, hcs, hss⟩ := (hrestored.interruptStack fun x hx =>
    hmem x (Or.inl (by unfold Within at hx ⊢; bv_omega)) (by unfold Within at hx ⊢; bv_omega)).leave
  obtain ⟨hstack, hesp⟩ := hrestored.stubStack hmem hapart
  have hiret : Gets number run tss ⟨46, d, calls⟩ ⟨7, d.leave, calls⟩ := by
    have hstep : Gets number run tss ⟨46, d, calls⟩ ⟨d.top.toNat, d.leave, calls⟩ :=
      reaches_iret rfl
    rwa [htop] at hstep
  have hkept : ∀ r ∈ [Reg.esi, .edi, .ebp], d.reg r = c.reg r := by
    intro r hr
    have hne : r ≠ .esp := by
      rintro rfl
      exact absurd hr (by decide)
    have hslot : .reg r ∈ savedSlots := by revert hr; cases r <;> decide
    exact (hrestored.slots (.reg r) hslot).trans ((entered_reg hne).trans (loaded_reg hr))
  refine ⟨_, hiret.trans (unwind_run hstack), ⟨rfl, ?_, fun r hr => ?_, fun s => ?_⟩, rfl, ?_⟩
  · rw [Cpu.drop_esp]
    simp only [Cpu.set, Cpu.drop, Cpu.setReg_reg]
    rw [Function.update_of_ne (by decide), Function.update_self, hesp]
    ring
  · have hne : r ≠ .esp := by
      rintro rfl
      exact absurd hr (by decide)
    rcases List.mem_cons.mp hr with rfl | hother
    · simp [Cpu.drop, Cpu.set]
    · have hebx : r ≠ .ebx := by
        rintro rfl
        exact absurd hother (by decide)
      rw [← hkept r hother]
      simp [Cpu.drop, Cpu.set, hne, hebx, leave_reg]
  · have hseg : ((d.leave.drop.set (.reg .ebx) (c.reg .ebx)).drop).seg = d.leave.seg := rfl
    rw [hseg]
    cases s with
    | cs =>
        rw [hcs]
        simp [Cpu.get, loaded_seg]
    | ss =>
        rw [hss]
        simp [Cpu.get, loaded_seg]
    | ds =>
        exact (leave_seg (by decide) (by decide)).trans
          (hrestored.seg (by decide) (by decide) (by decide))
    | es =>
        exact (leave_seg (by decide) (by decide)).trans
          (hrestored.seg (by decide) (by decide) (by decide))
  · simp [Cpu.drop, Cpu.set, leave_reg]

theorem entered_number : (entered number run tss c).reg .eax = number :=
  (entered_reg (by decide)).trans loaded_number

theorem entered_esp :
    (entered number run tss c).reg .esp = BitVec.ofNat 32 tss.esp0 - 20 := enter_esp

/-- The wrapper and the way back, for a number in the table. -/
theorem entered_calls (calls : List (SyscallHandler × Cpu)) {f : SyscallHandler}
    (hin : 1 ≤ number ∧ number ≤ 10)
    (hf : syscallJumpTable[(number - 1).toNat]? = some f)
    (hapart : ∀ x, Within (c.reg .esp - 4) 8 x → ¬Within (BitVec.ofNat 32 tss.esp0 - 72) 72 x)
    (hconv : CConvention (run f) (BitVec.ofNat 32 tss.esp0 - 72) (CallerFrames tss c)) :
    ∃ d m, Gets number run tss ⟨9, entered number run tss c, calls⟩
        ⟨46, d, calls ++ [(f, dispatched (entered number run tss c))]⟩ ∧
      Restored (entered number run tss c) d ∧
      d.reg .eax = (run f (dispatched (entered number run tss c))).reg .eax ∧
      Gets number run tss ⟨46, d, calls ++ [(f, dispatched (entered number run tss c))]⟩ m ∧
      StubReturn c m ∧ m.calls = calls ++ [(f, dispatched (entered number run tss c))] ∧
      m.cpu.reg .eax = d.reg .eax := by
  have hcallee : (entered number run tss c).reg .esp - 52 = BitVec.ofNat 32 tss.esp0 - 72 := by
    rw [entered_esp]
    ring
  have hslots : ∀ x, Within ((entered number run tss c).reg .esp - 36) 36 x →
      CallerFrames tss c x := by
    intro x hx
    rw [entered_esp] at hx
    refine Or.inl ?_
    unfold Within at hx ⊢
    bv_omega
  rw [← hcallee] at hconv
  obtain ⟨d, hwrapper, hrestored, hresult, hmem⟩ := syscallWrapper_calls
    (by rw [entered_number]; exact hin.1) (by rw [entered_number]; exact hin.2)
    (by rw [entered_number]; exact hf) hconv hslots
  rw [hcallee] at hmem
  obtain ⟨m, hreturn, hstub, hcalls, heax⟩ := return_run hrestored hmem hapart
  exact ⟨d, m, hwrapper, hrestored, hresult, hreturn, hstub, hcalls, heax⟩

/-- The wrapper and the way back, for any other number. -/
theorem entered_rejects (run : SyscallHandler → Cpu → Cpu) (calls : List (SyscallHandler × Cpu))
    (hnot : ¬(1 ≤ number ∧ number ≤ 10))
    (hapart : ∀ x, Within (c.reg .esp - 4) 8 x → ¬Within (BitVec.ofNat 32 tss.esp0 - 72) 72 x) :
    ∃ d m, Gets number run tss ⟨9, entered number run tss c, calls⟩ ⟨46, d, calls⟩ ∧
      Restored (entered number run tss c) d ∧ d.reg .eax = -1 ∧
      Gets number run tss ⟨46, d, calls⟩ m ∧ StubReturn c m ∧ m.calls = calls ∧
      m.cpu.reg .eax = d.reg .eax := by
  obtain ⟨d, hwrapper, hrestored, hresult, hmem⟩ := syscallWrapper_rejects
    (c := entered number run tss c) (by rw [entered_number]; exact hnot)
  have hframes : ∀ x, CallerFrames tss c x → ¬Within (BitVec.ofNat 32 tss.esp0 - 72) 52 x →
      d.mem x = (entered number run tss c).mem x := by
    intro x _ hx
    refine hmem x ?_
    rw [entered_esp]
    unfold Within at hx ⊢
    bv_omega
  obtain ⟨m, hreturn, hstub, hcalls, heax⟩ := return_run hrestored hframes hapart
  exact ⟨d, m, hwrapper, hrestored, hresult, hreturn, hstub, hcalls, heax⟩

/-- For every number, every state of the caller and every handler that obeys the calling
convention: a number from 1 to 10 calls the function at its place in the table with the three
arguments and gets its result; any other number calls nothing and gets -1. At `iret` the stack
pointer and the saved registers are those at the entry of the wrapper, and the stub returns
with its stack balanced. -/
theorem doCall_reaches_handler (number : Word) (run : SyscallHandler → Cpu → Cpu) (tss : Tss)
    (c : Cpu)
    (hapart : ∀ x, Within (c.reg .esp - 4) 8 x → ¬Within (BitVec.ofNat 32 tss.esp0 - 72) 72 x)
    (hconv : ∀ f, syscallJumpTable[(number - 1).toNat]? = some f →
      CConvention (run f) (BitVec.ofNat 32 tss.esp0 - 72) (CallerFrames tss c)) :
    ∃ entry exit final,
      Gets number run tss ⟨0, c, []⟩ ⟨9, entry, []⟩ ∧ entry.reg .eax = number ∧
      Gets number run tss ⟨9, entry, []⟩ exit ∧ (syscallCode number)[exit.pc]? = some .iret ∧
      (1 ≤ number ∧ number ≤ 10 → ∃ f call eip, syscallJumpTable[(number - 1).toNat]? = some f ∧
        exit.calls = [(f, call)] ∧
        call.Stack [eip, cArgument c 1, cArgument c 2, cArgument c 3] ∧
        exit.cpu.reg .eax = (run f call).reg .eax) ∧
      (¬(1 ≤ number ∧ number ≤ 10) → exit.calls = [] ∧ exit.cpu.reg .eax = -1) ∧
      Restored entry exit.cpu ∧
      Gets number run tss exit final ∧ StubReturn c final ∧ final.calls = exit.calls ∧
      final.cpu.reg .eax = exit.cpu.reg .eax := by
  obtain ⟨hebx, hecx, hedx⟩ := loaded_arguments number c
  have hstack := dispatched_stack (entered number run tss c)
  rw [entered_reg (by decide), entered_reg (by decide), entered_reg (by decide), hebx, hecx, hedx]
    at hstack
  by_cases hin : 1 ≤ number ∧ number ≤ 10
  · have hindex : (number - 1).toNat < syscallJumpTable.length := by
      have hlength : syscallJumpTable.length = 10 := rfl
      rw [hlength]
      bv_omega
    have hf := List.getElem?_eq_getElem hindex
    generalize syscallJumpTable[(number - 1).toNat] = f at hf
    obtain ⟨d, m, hwrapper, hrestored, hresult, hreturn, hstub, hcalls, heax⟩ :=
      entered_calls [] hin hf hapart (hconv f hf)
    exact ⟨_, _, m, stub_run, entered_number, hwrapper, rfl,
      fun _ => ⟨f, _, _, hf, rfl, hstack, hresult⟩, fun hnot => absurd hin hnot, hrestored, hreturn,
      hstub, hcalls, heax⟩
  · obtain ⟨d, m, hwrapper, hrestored, hresult, hreturn, hstub, hcalls, heax⟩ :=
      entered_rejects run [] hin hapart
    exact ⟨_, _, m, stub_run, entered_number, hwrapper, rfl, fun h => absurd h hin,
      fun _ => ⟨rfl, hresult⟩, hrestored, hreturn, hstub, hcalls, heax⟩

/-- A function that returns 5 at once. -/
def returnsFive (c : Cpu) : Cpu := (c.setReg .eax 5).drop

/-- A program whose stack is in its page. -/
def smallCpu : Cpu where
  reg := fun r => if r = .esp then 0x83FFF00 else 7
  seg := fun _ => 0x2B
  eflags := 0x202
  mem := fun _ => 0

theorem returnsFive_convention (esp : Word) (frames : Word → Prop) :
    CConvention returnsFive esp frames where
  saved := fun c _ r hr => by
    simp only [List.mem_cons, List.not_mem_nil, or_false] at hr
    rcases hr with rfl | rfl | rfl | rfl <;> simp [returnsFive, Cpu.drop]
  returns := fun c hc => by
    unfold returnsFive
    rw [Cpu.drop_esp, Cpu.setReg_reg, Function.update_of_ne (by decide), hc]
  keeps := fun _ _ _ _ => rfl

theorem doCall_reaches_handler_read :
    ∃ call final,
      Gets 3 (fun _ => returnsFive) ⟨kernelDs, eightMB⟩ ⟨0, smallCpu, []⟩ final ∧
      final.calls = [(.sysRead, call)] ∧ final.cpu.reg .eax = 5 ∧ StubReturn smallCpu final := by
  obtain ⟨entry, exit, final, hstub, -, hwrapper, -, hcalls, -, -, hreturn, hstubReturn,
    hkept, heax⟩ :=
    doCall_reaches_handler 3 (fun _ => returnsFive) ⟨kernelDs, eightMB⟩ smallCpu
      (fun x hx hin => by unfold Within smallCpu kernelDs eightMB at *; simp at hx hin; bv_omega)
      fun f _ => returnsFive_convention _ _
  obtain ⟨f, call, eip, hf, hcall, -, hresult⟩ := hcalls (by decide)
  obtain rfl : .sysRead = f := Option.some.inj hf
  exact ⟨call, final, (hstub.trans hwrapper).trans hreturn, hkept.trans hcall,
    heax.trans (hresult.trans rfl), hstubReturn⟩

end Stub

end Ece391Kernel
