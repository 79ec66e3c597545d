import Ece391Kernel.Library.X86.Machine

/-!
# Rules for the machine

How the machine gets through a listing, one rule for each kind of line, and what a group of
`push` and the group of `pop` that mirrors it do: registers that have been saved come back,
whatever has happened to them in between, if the words on the stack are still there.
-/

namespace X86

open Op

/-! ## Lines -/

section Lines

variable {L F : Type} [DecidableEq L] {env : Env L F} {code : List (Instr L F)} {pc p : Nat}
  {c : Cpu} {calls : List (F × Cpu)}

theorem Reaches.refl (m : Machine F) : Reaches env code m m := Relation.ReflTransGen.refl

theorem Reaches.trans {m m' m'' : Machine F} (h : Reaches env code m m')
    (h' : Reaches env code m' m'') : Reaches env code m m'' := Relation.ReflTransGen.trans h h'

theorem Reaches.of_step {m m' : Machine F} (h : step env code m = some m') :
    Reaches env code m m' := Relation.ReflTransGen.single h

theorem reaches_op {o : Op} (h : code[pc]? = some (.op o)) :
    Reaches env code ⟨pc, c, calls⟩ ⟨pc + 1, o.exec c, calls⟩ :=
  Reaches.of_step (by simp only [step, h])

/-- A straight piece of a listing. -/
theorem reaches_ops (ops : List Op) (h : (code.drop pc).take ops.length = ops.map .op) :
    Reaches env code ⟨pc, c, calls⟩ ⟨pc + ops.length, execAll ops c, calls⟩ := by
  induction ops generalizing pc c with
  | nil => exact Reaches.refl _
  | cons o ops ih =>
      have hhead : code[pc]? = some (.op o) := by
        have hget := congrArg (fun is => is[0]?) h
        simpa using hget
      have htail : (code.drop (pc + 1)).take ops.length = ops.map .op := by
        have hdrop := congrArg (List.drop 1) h
        simpa [List.drop_take] using hdrop
      have hrest := ih htail (c := o.exec c)
      rw [List.length_cons, Nat.add_comm ops.length, ← Nat.add_assoc]
      exact (reaches_op hhead).trans hrest

theorem reaches_label {l : L} (h : code[pc]? = some (.label l)) :
    Reaches env code ⟨pc, c, calls⟩ ⟨pc + 1, c, calls⟩ :=
  Reaches.of_step (by simp only [step, h])

theorem reaches_jmp {l : L} (h : code[pc]? = some (.jmp l)) (hp : position code l = some p) :
    Reaches env code ⟨pc, c, calls⟩ ⟨p, c, calls⟩ :=
  Reaches.of_step (by simp only [step, h, hp, Option.map_some])

theorem reaches_jcc_of_holds {cond : Cond} {l : L} (h : code[pc]? = some (.jcc cond l))
    (hp : position code l = some p) (hholds : cond.holds c = true) :
    Reaches env code ⟨pc, c, calls⟩ ⟨p, c, calls⟩ :=
  Reaches.of_step (by simp only [step, h, hp, hholds, if_true, Option.map_some])

theorem reaches_jcc_of_not {cond : Cond} {l : L} (h : code[pc]? = some (.jcc cond l))
    (hnot : cond.holds c = false) : Reaches env code ⟨pc, c, calls⟩ ⟨pc + 1, c, calls⟩ :=
  Reaches.of_step (by simp only [step, h, hnot, Bool.false_eq_true, if_false])

theorem reaches_call {table : List F} {index : Reg} {f : F}
    (h : code[pc]? = some (.call table index)) (hf : table[(c.reg index).toNat]? = some f) :
    Reaches env code ⟨pc, c, calls⟩
      ⟨pc + 1, env.run f (c.push (BitVec.ofNat 32 (pc + 1))),
        calls ++ [(f, c.push (BitVec.ofNat 32 (pc + 1)))]⟩ :=
  Reaches.of_step (by simp only [step, h, hf, Option.map_some])

theorem reaches_int {vector : Nat} {l : L} (h : code[pc]? = some (.int vector))
    (hgate : env.gate vector = some l) (hp : position code l = some p) :
    Reaches env code ⟨pc, c, calls⟩ ⟨p, c.enter env (BitVec.ofNat 32 (pc + 1)), calls⟩ :=
  Reaches.of_step (by simp only [step, h, hgate, hp, Option.bind_some, Option.map_some])

theorem reaches_iret (h : code[pc]? = some .iret) :
    Reaches env code ⟨pc, c, calls⟩ ⟨c.top.toNat, c.leave, calls⟩ :=
  Reaches.of_step (by simp only [step, h])

theorem reaches_ret (h : code[pc]? = some .ret) :
    Reaches env code ⟨pc, c, calls⟩ ⟨c.top.toNat, c.drop, calls⟩ :=
  Reaches.of_step (by simp only [step, h])

/-- The machine can stop in one state only. -/
theorem Reaches.unique {m a b : Machine F} (ha : Reaches env code m a) (hb : Reaches env code m b)
    (hstop : step env code a = none) (hstop' : step env code b = none) : a = b := by
  have hdet : Relator.RightUnique fun m m' => step env code m = some m' :=
    fun _ _ _ h h' => Option.some.inj (h.symm.trans h')
  have hlast : ∀ {s t : Machine F}, step env code s = none → Reaches env code s t → s = t := by
    intro s t hnone hreach
    rcases Relation.ReflTransGen.cases_head hreach with heq | ⟨u, hstep, -⟩
    · exact heq
    · exact absurd (hnone.symm.trans hstep) (by simp)
  rcases Relation.ReflTransGen.total_of_right_unique hdet ha hb with h | h
  · exact hlast hstop h
  · exact (hlast hstop' h).symm

end Lines

/-! ## Labels -/

section Labels

variable {L F : Type} [DecidableEq L] (code : List (Instr L F)) (l : L)

@[simp] theorem position_label_self : position (.label l :: code) l = some 0 := by
  simp [position, List.findIdx?_cons]

@[simp] theorem position_label_of_ne {l' : L} (h : l' ≠ l) :
    position (.label l' :: code) l = (position code l).map (· + 1) := by
  simp [position, List.findIdx?_cons, h]

@[simp] theorem position_op (o : Op) :
    position (.op o :: code) l = (position code l).map (· + 1) := by
  simp [position, List.findIdx?_cons]

@[simp] theorem position_jmp (l' : L) :
    position (.jmp l' :: code) l = (position code l).map (· + 1) := by
  simp [position, List.findIdx?_cons]

@[simp] theorem position_jcc (cond : Cond) (l' : L) :
    position (.jcc cond l' :: code) l = (position code l).map (· + 1) := by
  simp [position, List.findIdx?_cons]

/-- There is no label in a straight piece. -/
@[simp] theorem position_ops (ops : List Op) :
    position (ops.map .op ++ code) l = (position code l).map (· + ops.length) := by
  induction ops with
  | nil => simp
  | cons o ops ih =>
      rw [List.map_cons, List.cons_append, position_op, ih, Option.map_map]
      exact congrArg (fun f => (position code l).map f) (funext fun p => by simp [Nat.add_assoc])

end Labels

/-! ## Comparisons -/

section Comparisons

variable (src : Operand) (dst : Reg) (c : Cpu)

theorem cmpl_below : Cond.b.holds ((cmpl src dst).exec c) = decide (c.reg dst < c.read src) :=
  Cpu.setArith_carry _ _ _

theorem cmpl_above : Cond.a.holds ((cmpl src dst).exec c) = decide (c.read src < c.reg dst) := by
  have hcarry : ((cmpl src dst).exec c).flag carryFlag = decide (c.reg dst < c.read src) :=
    Cpu.setArith_carry _ _ _
  have hzero : ((cmpl src dst).exec c).flag zeroFlag = (c.reg dst - c.read src == 0) :=
    Cpu.setArith_zero _ _ _
  unfold Cond.holds
  simp only [hcarry, hzero]
  rw [Bool.eq_iff_iff]
  simp only [Bool.and_eq_true, Bool.not_eq_true', decide_eq_false_iff_not, beq_eq_false_iff_ne,
    decide_eq_true_eq]
  bv_omega

theorem cmpl_above_or_equal :
    Cond.ae.holds ((cmpl src dst).exec c) = decide (c.read src ≤ c.reg dst) := by
  have hcarry : ((cmpl src dst).exec c).flag carryFlag = decide (c.reg dst < c.read src) :=
    Cpu.setArith_carry _ _ _
  unfold Cond.holds
  simp only [hcarry]
  rw [Bool.eq_iff_iff]
  simp only [Bool.not_eq_true', decide_eq_false_iff_not, decide_eq_true_eq]
  bv_omega

theorem testl_zero : Cond.z.holds ((testl src dst).exec c) = (c.reg dst &&& c.read src == 0) :=
  Cpu.setArith_zero _ _ _

end Comparisons

/-! ## The stack -/

namespace Cpu

variable {c : Cpu} {s t : Slot} {w : Word} {ws : List Word}

/-- The words on the stack, the top first. -/
def Stack (c : Cpu) (ws : List Word) : Prop := Holds c.mem (c.reg .esp) ws

theorem Stack.push (h : c.Stack ws) (hlen : 4 * ws.length + 4 ≤ 2 ^ 32) (w : Word) :
    (c.push w).Stack (w :: ws) := by
  unfold Stack
  rw [push_esp]
  exact Holds.storeWord hlen h w

theorem Stack.top_eq (h : c.Stack (w :: ws)) : c.top = w := h.1

theorem Stack.drop (h : c.Stack (w :: ws)) : c.drop.Stack ws := by
  unfold Stack
  rw [drop_esp]
  exact h.2

theorem get_push (hs : s ≠ .reg .esp) (w : Word) : (c.push w).get s = c.get s := by
  cases s with
  | reg r => exact Function.update_of_ne (fun h => hs (congrArg Slot.reg h)) _ _
  | seg s => rfl
  | flags => rfl

theorem get_drop (hs : s ≠ .reg .esp) : c.drop.get s = c.get s := by
  cases s with
  | reg r => exact Function.update_of_ne (fun h => hs (congrArg Slot.reg h)) _ _
  | seg s => rfl
  | flags => rfl

/-- A slot takes every word that it has given. -/
theorem get_set_self (c c₀ : Cpu) (s : Slot) : (c.set s (c₀.get s)).get s = c₀.get s := by
  cases s with
  | reg r => exact Function.update_self ..
  | seg s =>
      unfold set get
      simp
  | flags => rfl

theorem get_set_of_ne (h : t ≠ s) (w : Word) : (c.set s w).get t = c.get t := by
  cases s with
  | reg r =>
      cases t with
      | reg r' => exact Function.update_of_ne (fun he => h (congrArg Slot.reg he)) _ _
      | seg s' => rfl
      | flags => rfl
  | seg s =>
      cases t with
      | reg r' => rfl
      | seg s' =>
          have hne : s' ≠ s := fun he => h (congrArg Slot.seg he)
          unfold set get
          simp [hne]
      | flags => rfl
  | flags =>
      cases t with
      | reg r' => rfl
      | seg s' => rfl
      | flags => exact absurd rfl h

theorem set_mem (c : Cpu) (s : Slot) (w : Word) : (c.set s w).mem = c.mem := by
  cases s <;> rfl

/-- The stack is the memory and the stack pointer. -/
theorem Stack.of_same {c' : Cpu} (h : c.Stack ws) (hmem : c'.mem = c.mem)
    (hesp : c'.reg .esp = c.reg .esp) : c'.Stack ws := by
  unfold Stack
  rw [hmem, hesp]
  exact h

theorem stack_nil (c : Cpu) : c.Stack [] := trivial

theorem push_mem_of_not_within {x : Word} (h : ¬Within (c.reg .esp - 4) 4 x) (w : Word) :
    (c.push w).mem x = c.mem x := storeWord_of_not_within h

end Cpu

/-! ## Interrupts -/

section Interrupts

variable {L F : Type} {env : Env L F} {c : Cpu} {eip cs eflags esp ss : Word}

/-- The new stack while an interrupt saves its words there. -/
def newStack (env : Env L F) (c : Cpu) : Cpu := (c.setReg .esp env.esp0).setSeg .ss env.ss0

theorem enter_stack (env : Env L F) (eip : Word) (c : Cpu) :
    (c.enter env eip).Stack
      [eip, c.get (.seg .cs), c.eflags, c.reg .esp, c.get (.seg .ss)] := by
  have hpushed := (((((Cpu.stack_nil (newStack env c)).push (by simp) (c.get (.seg .ss))).push
    (by simp) (c.reg .esp)).push (by simp) c.eflags).push (by simp) (c.get (.seg .cs))).push
      (by simp) eip
  exact hpushed.of_same rfl rfl

theorem enter_esp : (c.enter env eip).reg .esp = env.esp0 - 20 := by
  have hfive : (c.enter env eip).reg .esp = env.esp0 - 4 - 4 - 4 - 4 - 4 := by
    simp [Cpu.enter]
  rw [hfive]
  bv_omega

theorem enter_reg {r : Reg} (hr : r ≠ .esp) : (c.enter env eip).reg r = c.reg r := by
  simp [Cpu.enter, hr]

theorem enter_seg {s : Seg} (hcs : s ≠ .cs) (hss : s ≠ .ss) :
    (c.enter env eip).seg s = c.seg s := by
  simp [Cpu.enter, hcs, hss]

theorem enter_mem {x : Word} (h : ¬Within (env.esp0 - 20) 20 x) :
    (c.enter env eip).mem x = c.mem x := by
  unfold Within at h
  simp only [Cpu.enter, Cpu.setFlag_mem, Cpu.setSeg_mem]
  rw [Cpu.push_mem_of_not_within, Cpu.push_mem_of_not_within, Cpu.push_mem_of_not_within,
    Cpu.push_mem_of_not_within, Cpu.push_mem_of_not_within]
  · rfl
  all_goals
    unfold Within
    simp only [Cpu.push_reg, Cpu.setSeg_reg, Cpu.setReg_reg, Function.update_self]
    bv_omega

theorem leave_reg {r : Reg} (hr : r ≠ .esp) : c.leave.reg r = c.reg r := by
  simp [Cpu.leave, hr]

theorem leave_seg {s : Seg} (hcs : s ≠ .cs) (hss : s ≠ .ss) : c.leave.seg s = c.seg s := by
  simp [Cpu.leave, hcs, hss]

theorem leave_mem : c.leave.mem = c.mem := rfl

/-- What `iret` finds on the stack. -/
theorem Cpu.Stack.leave (h : c.Stack [eip, cs, eflags, esp, ss]) :
    c.top = eip ∧ c.leave.reg .esp = esp ∧ c.leave.eflags = eflags ∧
      c.leave.seg .cs = cs.setWidth 16 ∧ c.leave.seg .ss = ss.setWidth 16 := by
  have hcs := h.drop
  have hflags := hcs.drop
  have hesp := hflags.drop
  have hss := hesp.drop
  refine ⟨h.top_eq, ?_, ?_, ?_, ?_⟩
  · simp [Cpu.leave, hesp.top_eq]
  · simp [Cpu.leave, hflags.top_eq]
  · simp [Cpu.leave, hcs.top_eq]
  · simp [Cpu.leave, hss.top_eq]

end Interrupts

/-! ## Groups -/

/-- A group of `push`. -/
abbrev pushes (ss : List Slot) : List Op := ss.map .push

/-- A group of `pop`. -/
abbrev pops (ss : List Slot) : List Op := ss.map .pop

section Groups

variable {c c₀ : Cpu} {ss : List Slot} {s : Slot} {ws : List Word}

theorem pushes_get (hs : s ≠ .reg .esp) : (execAll (pushes ss) c).get s = c.get s := by
  induction ss generalizing c with
  | nil => rfl
  | cons t ss ih => exact ih.trans (Cpu.get_push hs _)

theorem pushes_esp :
    (execAll (pushes ss) c).reg .esp = c.reg .esp - BitVec.ofNat 32 (4 * ss.length) := by
  induction ss generalizing c with
  | nil => simp
  | cons t ss ih =>
      have hpush : ((Op.push t).exec c).reg .esp = c.reg .esp - 4 := Cpu.push_esp _ c
      refine ih.trans ?_
      rw [hpush, List.length_cons]
      bv_omega

/-- The words that are saved, the last one on top. -/
theorem pushes_stack (hesp : .reg .esp ∉ ss) (hlen : 4 * (ss.length + ws.length) ≤ 2 ^ 32)
    (h : c.Stack ws) : (execAll (pushes ss) c).Stack ((ss.map c.get).reverse ++ ws) := by
  induction ss generalizing c ws with
  | nil => exact h
  | cons t ss ih =>
      rw [List.length_cons] at hlen
      rw [List.mem_cons, not_or] at hesp
      have hnext := ih hesp.2 (by rw [List.length_cons]; omega)
        (h.push (by omega) (c.get t))
      have hsame : ss.map (c.push (c.get t)).get = ss.map c.get :=
        List.map_congr_left fun s hs => Cpu.get_push (fun heq => hesp.2 (heq ▸ hs)) _
      rw [hsame] at hnext
      rw [List.map_cons, List.reverse_cons, List.append_assoc]
      exact hnext

/-- Only the places of the words that are saved change. -/
theorem pushes_mem {x : Word} (hlen : 4 * ss.length ≤ 2 ^ 32)
    (h : ¬Within (c.reg .esp - BitVec.ofNat 32 (4 * ss.length)) (4 * ss.length) x) :
    (execAll (pushes ss) c).mem x = c.mem x := by
  induction ss generalizing c with
  | nil => rfl
  | cons t ss ih =>
      have hpush : ((Op.push t).exec c).reg .esp = c.reg .esp - 4 := Cpu.push_esp _ c
      rw [List.length_cons] at hlen h
      have hrest : (execAll (pushes ss) ((Op.push t).exec c)).mem x =
          ((Op.push t).exec c).mem x := by
        refine ih (by omega) fun hin => h ?_
        rw [hpush] at hin
        unfold Within at hin ⊢
        bv_omega
      refine hrest.trans (storeWord_of_not_within fun hin => h ?_)
      unfold Within at hin ⊢
      bv_omega

theorem pop_exec {t : Slot} {w : Word} (h : c.Stack (w :: ws)) :
    (Op.pop t).exec c = c.drop.set t w := congrArg (c.drop.set t) h.top_eq

theorem pop_esp {t : Slot} (ht : .reg .esp ≠ t) :
    ((Op.pop t).exec c).reg .esp = c.reg .esp + 4 :=
  (Cpu.get_set_of_ne ht _).trans (Cpu.drop_esp c)

theorem pop_stack {t : Slot} {w : Word} (ht : .reg .esp ≠ t) (h : c.Stack (w :: ws)) :
    ((Op.pop t).exec c).Stack ws := by
  have hmem : ((Op.pop t).exec c).mem = c.mem := Cpu.set_mem _ _ _
  unfold Cpu.Stack
  rw [hmem, pop_esp ht]
  exact h.2

theorem pops_get_of_not_mem (hs : s ≠ .reg .esp) (hnot : s ∉ ss) :
    (execAll (pops ss) c).get s = c.get s := by
  induction ss generalizing c with
  | nil => rfl
  | cons t ss ih =>
      rw [List.mem_cons, not_or] at hnot
      exact (ih hnot.2).trans ((Cpu.get_set_of_ne hnot.1 _).trans (Cpu.get_drop hs))

/-- The registers that are named get what the words on the stack say. -/
theorem pops_get_of_mem (hesp : .reg .esp ∉ ss) (hnodup : ss.Nodup)
    (h : c.Stack (ss.map c₀.get ++ ws)) (hs : s ∈ ss) :
    (execAll (pops ss) c).get s = c₀.get s := by
  induction ss generalizing c with
  | nil => exact absurd hs List.not_mem_nil
  | cons t ss ih =>
      rw [List.mem_cons, not_or] at hesp
      obtain ⟨hnot, hnodup⟩ := List.nodup_cons.mp hnodup
      rcases List.mem_cons.mp hs with rfl | hlater
      · refine (pops_get_of_not_mem (Ne.symm hesp.1) hnot).trans ?_
        exact (congrArg (Cpu.get s) (pop_exec h)).trans (Cpu.get_set_self _ _ _)
      · exact ih hesp.2 hnodup (pop_stack hesp.1 h) hlater

theorem pops_esp (hesp : .reg .esp ∉ ss) :
    (execAll (pops ss) c).reg .esp = c.reg .esp + BitVec.ofNat 32 (4 * ss.length) := by
  induction ss generalizing c with
  | nil => simp
  | cons t ss ih =>
      rw [List.mem_cons, not_or] at hesp
      refine (ih hesp.2).trans ?_
      rw [pop_esp hesp.1, List.length_cons]
      bv_omega

theorem pops_mem : (execAll (pops ss) c).mem = c.mem := by
  induction ss generalizing c with
  | nil => rfl
  | cons t ss ih => exact ih.trans (Cpu.set_mem _ _ _)

end Groups

end X86
