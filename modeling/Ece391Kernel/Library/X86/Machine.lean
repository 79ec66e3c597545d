import Ece391Kernel.Library.X86.Memory
import Mathlib.Logic.Function.Iterate
import Mathlib.Logic.Relation
import Mathlib.Tactic.Simps.Basic

/-!
# A machine for listings in assembly language

The 32-bit registers, the segment registers, the flags that the conditions here test, and the
memory. All segments have base 0, so that they do not enter into addresses. A listing is
a list of instructions and labels, and a position in it serves as the address of what
stands there. Operands are in the order source, destination. Functions that a listing
calls through a table are arguments of the machine, which keeps a record of the calls.
-/

namespace X86

inductive Reg | eax | ebx | ecx | edx | esi | edi | ebp | esp
  deriving DecidableEq

inductive Seg | cs | ds | es | ss
  deriving DecidableEq

structure Cpu where
  reg : Reg → Word
  seg : Seg → BitVec 16
  eflags : Word
  mem : Mem

/-! ## Flags -/

abbrev carryFlag : Nat := 0

abbrev zeroFlag : Nat := 6

abbrev interruptFlag : Nat := 9

abbrev directionFlag : Nat := 10

def setBit (w : Word) (i : Nat) (b : Bool) : Word :=
  if b then w ||| BitVec.twoPow 32 i else w &&& ~~~BitVec.twoPow 32 i

theorem getLsbD_setBit (w : Word) {i : Nat} (hi : i < 32) (b : Bool) (j : Nat) :
    (setBit w i b).getLsbD j = if j = i then b else w.getLsbD j := by
  unfold setBit
  by_cases hj : j = i
  · subst hj
    cases b <;> simp [hi]
  · have hne : ¬i = j := fun h => hj h.symm
    cases b with
    | true => simp [hj, hne]
    | false =>
        by_cases hlt : j < 32
        · simp [hj, hlt]
        · simp [hj, BitVec.getLsbD_of_ge w j (by omega)]

namespace Cpu

def flag (i : Nat) (c : Cpu) : Bool := c.eflags.getLsbD i

@[simps -fullyApplied] def setReg (r : Reg) (w : Word) (c : Cpu) : Cpu :=
  { c with reg := Function.update c.reg r w }

@[simps -fullyApplied] def setSeg (s : Seg) (w : BitVec 16) (c : Cpu) : Cpu :=
  { c with seg := Function.update c.seg s w }

@[simps -fullyApplied] def setFlag (i : Nat) (b : Bool) (c : Cpu) : Cpu :=
  { c with eflags := setBit c.eflags i b }

@[simps -fullyApplied] def setMem (m : Mem) (c : Cpu) : Cpu :=
  { c with mem := m }

theorem flag_setFlag {i : Nat} (hi : i < 32) (b : Bool) (j : Nat) (c : Cpu) :
    (c.setFlag i b).flag j = if j = i then b else c.flag j := getLsbD_setBit c.eflags hi b j

/-- The flags after an operation, as far as they are tested. -/
def setArith (carry : Bool) (result : Word) (c : Cpu) : Cpu :=
  (c.setFlag carryFlag carry).setFlag zeroFlag (result == 0)

@[simp] theorem setArith_reg (carry : Bool) (result : Word) (c : Cpu) :
    (c.setArith carry result).reg = c.reg := rfl

@[simp] theorem setArith_mem (carry : Bool) (result : Word) (c : Cpu) :
    (c.setArith carry result).mem = c.mem := rfl

@[simp] theorem setArith_carry (carry : Bool) (result : Word) (c : Cpu) :
    (c.setArith carry result).flag carryFlag = carry := by
  unfold setArith
  rw [flag_setFlag (by decide), if_neg (by decide), flag_setFlag (by decide), if_pos rfl]

@[simp] theorem setArith_zero (carry : Bool) (result : Word) (c : Cpu) :
    (c.setArith carry result).flag zeroFlag = (result == 0) := by
  unfold setArith
  rw [flag_setFlag (by decide), if_pos rfl]

theorem setArith_flag (carry : Bool) (result : Word) (c : Cpu) {i : Nat} (hcarry : i ≠ carryFlag)
    (hzero : i ≠ zeroFlag) : (c.setArith carry result).flag i = c.flag i := by
  unfold setArith
  rw [flag_setFlag (by decide), if_neg hzero, flag_setFlag (by decide), if_neg hcarry]

end Cpu

/-! ## Operands and instructions -/

/-- What an instruction saves on the stack, or loads from it. -/
inductive Slot | reg (r : Reg) | seg (s : Seg) | flags
  deriving DecidableEq

/-- An operand of four bytes: a constant, a register, or memory. -/
inductive Operand | imm (w : Word) | reg (r : Reg) | mem (disp : Word) (base : Reg)

/-- An operand of one byte. -/
inductive ByteOperand | al | mem (base : Reg)

namespace Cpu

/-- A segment register fills the lower half of its word. -/
def get (s : Slot) (c : Cpu) : Word :=
  match s with
  | .reg r => c.reg r
  | .seg s => (c.seg s).setWidth 32
  | .flags => c.eflags

def set (s : Slot) (w : Word) (c : Cpu) : Cpu :=
  match s with
  | .reg r => c.setReg r w
  | .seg s => c.setSeg s (w.setWidth 16)
  | .flags => { c with eflags := w }

@[simps -fullyApplied] def push (w : Word) (c : Cpu) : Cpu :=
  { c with
    reg := Function.update c.reg .esp (c.reg .esp - 4)
    mem := storeWord c.mem (c.reg .esp - 4) w }

theorem push_esp (w : Word) (c : Cpu) : (c.push w).reg .esp = c.reg .esp - 4 := by
  rw [push_reg, Function.update_self]

/-- The word on top of the stack. -/
def top (c : Cpu) : Word := loadWord c.mem (c.reg .esp)

/-- Taking the top off the stack. -/
def drop (c : Cpu) : Cpu := c.setReg .esp (c.reg .esp + 4)

theorem drop_esp (c : Cpu) : c.drop.reg .esp = c.reg .esp + 4 := by
  unfold drop
  rw [setReg_reg, Function.update_self]

def read (o : Operand) (c : Cpu) : Word :=
  match o with
  | .imm w => w
  | .reg r => c.reg r
  | .mem disp base => loadWord c.mem (c.reg base + disp)

/-- A constant is no destination. -/
def write (o : Operand) (w : Word) (c : Cpu) : Cpu :=
  match o with
  | .imm _ => c
  | .reg r => c.setReg r w
  | .mem disp base => c.setMem (storeWord c.mem (c.reg base + disp) w)

/-- A register whose lowest byte is another one. -/
def lowByte (w : Word) (v : UInt8) : Word := w.extractLsb' 8 24 ++ v.toBitVec

theorem byteOf_lowByte (w : Word) (v : UInt8) : byteOf (lowByte w v) 0 = v := by
  apply UInt8.toBitVec_inj.mp
  apply BitVec.eq_of_getLsbD_eq
  intro i hi
  simp only [byteOf, lowByte, BitVec.getLsbD_append, BitVec.getLsbD_extractLsb']
  simp [hi]

def readByte (o : ByteOperand) (c : Cpu) : UInt8 :=
  match o with
  | .al => byteOf (c.reg .eax) 0
  | .mem base => c.mem (c.reg base)

def writeByte (o : ByteOperand) (v : UInt8) (c : Cpu) : Cpu :=
  match o with
  | .al => c.setReg .eax (lowByte (c.reg .eax) v)
  | .mem base => c.setMem (storeByte c.mem (c.reg base) v)

/-- How far a string instruction on `n` bytes moves an index register. -/
def stride (n : Word) (c : Cpu) : Word := if c.flag directionFlag then -n else n

/-- One step of `rep stosl`. -/
def stosl (c : Cpu) : Cpu :=
  ((c.setMem (storeWord c.mem (c.reg .edi) (c.reg .eax))).setReg .edi
    (c.reg .edi + c.stride 4)).setReg .ecx (c.reg .ecx - 1)

/-- One step of `rep movsl`. -/
def movsl (c : Cpu) : Cpu :=
  (((c.setMem (storeWord c.mem (c.reg .edi) (loadWord c.mem (c.reg .esi)))).setReg .edi
    (c.reg .edi + c.stride 4)).setReg .esi (c.reg .esi + c.stride 4)).setReg .ecx (c.reg .ecx - 1)

/-- One step of `rep movsb`. -/
def movsb (c : Cpu) : Cpu :=
  (((c.setMem (storeByte c.mem (c.reg .edi) (c.mem (c.reg .esi)))).setReg .edi
    (c.reg .edi + c.stride 1)).setReg .esi (c.reg .esi + c.stride 1)).setReg .ecx (c.reg .ecx - 1)

/-- The prefix `rep`. -/
def rep (once : Cpu → Cpu) (c : Cpu) : Cpu := once^[(c.reg .ecx).toNat] c

end Cpu

/-- The instructions that go on with the next one. `movwFrom` and `movwTo` are the moves between
a segment register and the lower half of a register. -/
inductive Op
  | push (s : Slot)
  | pop (s : Slot)
  | movl (src dst : Operand)
  | movb (src dst : ByteOperand)
  | movwFrom (s : Seg) (r : Reg)
  | movwTo (r : Reg) (s : Seg)
  | leal (disp : Word) (base index dst : Reg)
  | addl (w : Word) (dst : Reg)
  | subl (w : Word) (dst : Reg)
  | andl (w : Word) (dst : Reg)
  | shrl (n : Nat) (dst : Reg)
  | testl (src : Operand) (dst : Reg)
  | cmpl (src : Operand) (dst : Reg)
  | cli
  | sti
  | cld
  | std
  | repStosl
  | repMovsl
  | repMovsb

namespace Op

def exec (o : Op) (c : Cpu) : Cpu :=
  match o with
  | push s => c.push (c.get s)
  | pop s => c.drop.set s c.top
  | movl src dst => c.write dst (c.read src)
  | movb src dst => c.writeByte dst (c.readByte src)
  | movwFrom s r => c.setReg r ((c.reg r).extractLsb' 16 16 ++ c.seg s)
  | movwTo r s => c.setSeg s ((c.reg r).setWidth 16)
  | leal disp base index dst => c.setReg dst (c.reg base + c.reg index + disp)
  | addl w dst =>
      (c.setReg dst (c.reg dst + w)).setArith (2 ^ 32 ≤ (c.reg dst).toNat + w.toNat) (c.reg dst + w)
  | subl w dst => (c.setReg dst (c.reg dst - w)).setArith (c.reg dst < w) (c.reg dst - w)
  | andl w dst => (c.setReg dst (c.reg dst &&& w)).setArith false (c.reg dst &&& w)
  | shrl n dst =>
      (c.setReg dst (c.reg dst >>> n)).setArith ((c.reg dst).getLsbD (n - 1)) (c.reg dst >>> n)
  | testl src dst => c.setArith false (c.reg dst &&& c.read src)
  | cmpl src dst => c.setArith (c.reg dst < c.read src) (c.reg dst - c.read src)
  | cli => c.setFlag interruptFlag false
  | sti => c.setFlag interruptFlag true
  | cld => c.setFlag directionFlag false
  | std => c.setFlag directionFlag true
  | repStosl => c.rep Cpu.stosl
  | repMovsl => c.rep Cpu.movsl
  | repMovsb => c.rep Cpu.movsb

/-- Instructions one after the other. -/
def execAll (ops : List Op) (c : Cpu) : Cpu := ops.foldl (fun c o => o.exec c) c

@[simp] theorem execAll_nil (c : Cpu) : execAll [] c = c := rfl

@[simp] theorem execAll_cons (o : Op) (ops : List Op) (c : Cpu) :
    execAll (o :: ops) c = execAll ops (o.exec c) := rfl

end Op

/-! ## Listings -/

/-- The conditions of the jumps: below, above, above or equal, and zero. -/
inductive Cond | b | a | ae | z

def Cond.holds (cond : Cond) (c : Cpu) : Bool :=
  match cond with
  | b => c.flag carryFlag
  | a => !c.flag carryFlag && !c.flag zeroFlag
  | ae => !c.flag carryFlag
  | z => c.flag zeroFlag

/-- A line of a listing with labels in `L`. A call goes through a table of functions in `F`. -/
inductive Instr (L F : Type)
  | op (o : Op)
  | label (l : L)
  | jmp (l : L)
  | jcc (cond : Cond) (l : L)
  | call (table : List F) (index : Reg)
  | int (vector : Nat)
  | iret
  | ret

/-- What the listing does not say: what the functions do, where the gates lead to, and the
stack and the code segment that an interrupt of a user program switches to. -/
structure Env (L F : Type) where
  run : F → Cpu → Cpu
  gate : Nat → Option L
  esp0 : Word
  ss0 : BitVec 16
  kernelCs : BitVec 16

/-- The position in the listing, the processor, and the calls so far with the states in which
the functions have been entered. -/
structure Machine (F : Type) where
  pc : Nat
  cpu : Cpu
  calls : List (F × Cpu)

namespace Cpu

variable {L F : Type}

/-- An interrupt gate out of a user program: the stack changes, what is needed to go back is
saved on the new one, and interrupts are off. -/
def enter (env : Env L F) (eip : Word) (c : Cpu) : Cpu :=
  ((((((((c.setReg .esp env.esp0).setSeg .ss env.ss0).push (c.get (.seg .ss))).push
    (c.reg .esp)).push c.eflags).push (c.get (.seg .cs))).push eip).setSeg .cs
      env.kernelCs).setFlag interruptFlag false

/-- `iret` into a user program, behind its first word. -/
def leave (c : Cpu) : Cpu :=
  let esp := (c.drop.drop.drop).top
  let ss := (c.drop.drop.drop.drop).top
  (({ c with eflags := c.drop.drop.top }.setSeg .cs (c.drop.top.setWidth 16)).setReg .esp
    esp).setSeg .ss (ss.setWidth 16)

end Cpu

section Step

variable {L F : Type} [DecidableEq L] (env : Env L F) (code : List (Instr L F))

/-- The position of a label. -/
def position (l : L) : Option Nat :=
  code.findIdx? fun
    | .label l' => l' = l
    | _ => false

/-- One instruction. -/
def step (m : Machine F) : Option (Machine F) :=
  match code[m.pc]? with
  | none => none
  | some (.op o) => some { m with pc := m.pc + 1, cpu := o.exec m.cpu }
  | some (.label _) => some { m with pc := m.pc + 1 }
  | some (.jmp l) => (position code l).map fun p => { m with pc := p }
  | some (.jcc cond l) =>
      if cond.holds m.cpu then (position code l).map fun p => { m with pc := p }
      else some { m with pc := m.pc + 1 }
  | some (.call table index) =>
      (table[(m.cpu.reg index).toNat]?).map fun f =>
        let entry := m.cpu.push (BitVec.ofNat 32 (m.pc + 1))
        ⟨m.pc + 1, env.run f entry, m.calls ++ [(f, entry)]⟩
  | some (.int vector) =>
      (env.gate vector).bind fun l => (position code l).map fun p =>
        { m with pc := p, cpu := m.cpu.enter env (BitVec.ofNat 32 (m.pc + 1)) }
  | some .iret => some { m with pc := m.cpu.top.toNat, cpu := m.cpu.leave }
  | some .ret => some { m with pc := m.cpu.top.toNat, cpu := m.cpu.drop }

/-- The machine gets from one state to another. -/
def Reaches : Machine F → Machine F → Prop :=
  Relation.ReflTransGen fun m m' => step env code m = some m'

end Step

end X86
