import Ece391Kernel.Library.X86.Rules

/-!
# Block routines

The assembly code of `memset` and `memcpy`: single bytes until the destination is aligned,
then double words, then the bytes that are left. The two differ in the instructions that move
a byte, and in the one that moves the double words.
-/

namespace Ece391Kernel

open X86 Op

/-! ## The listings -/

/-- The labels of `memset` and `memcpy`, without the name of the function. -/
inductive BlockLabel | top | aligned | bottom | done
  deriving DecidableEq

/-- From the first label to the first byte. -/
def blockTop : List (Instr BlockLabel Empty) :=
  [.label .top,
    .op (.testl (.reg .ecx) .ecx),
    .jcc .z .done,
    .op (.testl (.imm 3) .edi),
    .jcc .z .aligned]

/-- From the first byte to the last ones. -/
def blockMiddle (wordOp : Op) : List (Instr BlockLabel Empty) :=
  [.op (.subl 1 .ecx),
    .jmp .top,
    .label .aligned,
    .op (.movwFrom .ds .edx),
    .op (.movwTo .edx .es),
    .op (.movl (.reg .ecx) (.reg .edx)),
    .op (.shrl 2 .ecx),
    .op (.andl 3 .edx),
    .op .cld,
    .op wordOp,
    .label .bottom,
    .op (.testl (.reg .edx) .edx),
    .jcc .z .done]

/-- From the last bytes to the end. -/
def blockLast : List (Instr BlockLabel Empty) :=
  [.op (.subl 1 .edx),
    .jmp .bottom,
    .label .done]

/-- The code of `memset` and `memcpy`. -/
def blockCode (byteOps : List Op) (wordOp : Op) : List (Instr BlockLabel Empty) :=
  blockTop ++ byteOps.map .op ++ blockMiddle wordOp ++ byteOps.map .op ++ blockLast

/-- The byte that `memset` stores. -/
def memsetByteOps : List Op := [.movb .al (.mem .edi), .addl 1 .edi]

/-- `memset`. -/
def memsetCode : List (Instr BlockLabel Empty) := blockCode memsetByteOps .repStosl

/-- The byte that `memcpy` copies. -/
def memcpyByteOps : List Op :=
  [.movb (.mem .esi) .al, .movb .al (.mem .edi), .addl 1 .edi, .addl 1 .esi]

/-- `memcpy`. -/
def memcpyCode : List (Instr BlockLabel Empty) := blockCode memcpyByteOps .repMovsl

/-- There are no gates and no functions. -/
def blockEnv : Env BlockLabel Empty where
  run := fun f => f.elim
  gate := fun _ => none
  esp0 := 0
  ss0 := 0
  kernelCs := 0

/-! ## The run of the code -/

section Run

variable {byteOps : List Op} {wordOp : Op} {c d : Cpu} {calls : List (Empty × Cpu)}

/-- The machine that runs the code. -/
abbrev BlockGets (byteOps : List Op) (wordOp : Op) : Machine Empty → Machine Empty → Prop :=
  Reaches blockEnv (blockCode byteOps wordOp)

theorem blockCode_top {i : Nat} (hi : i < 5) :
    (blockCode byteOps wordOp)[i]? = blockTop[i]? := by
  unfold blockCode
  simp only [List.append_assoc]
  exact List.getElem?_append_left hi

theorem blockCode_middle {i : Nat} (hi : i < 13) :
    (blockCode byteOps wordOp)[byteOps.length + 5 + i]? = (blockMiddle wordOp)[i]? := by
  have hlen : (blockTop ++ byteOps.map Instr.op).length = byteOps.length + 5 := by
    simp [blockTop]
  unfold blockCode
  rw [List.append_assoc, List.append_assoc, ← hlen, List.getElem?_append_right (by omega),
    Nat.add_sub_cancel_left, List.getElem?_append_left hi]

theorem blockCode_last {i : Nat} :
    (blockCode byteOps wordOp)[2 * byteOps.length + 18 + i]? = blockLast[i]? := by
  have hlen : (blockTop ++ byteOps.map Instr.op ++ blockMiddle wordOp ++
      byteOps.map Instr.op).length =
      2 * byteOps.length + 18 := by
    simp [blockTop, blockMiddle]
    omega
  unfold blockCode
  rw [← hlen, List.getElem?_append_right (by omega), Nat.add_sub_cancel_left]

theorem position_aligned :
    position (blockCode byteOps wordOp) .aligned = some (byteOps.length + 7) := by
  simp [blockCode, blockTop, blockMiddle, blockLast]
  omega

theorem position_bottom :
    position (blockCode byteOps wordOp) .bottom = some (byteOps.length + 15) := by
  simp [blockCode, blockTop, blockMiddle, blockLast]
  omega

theorem position_done :
    position (blockCode byteOps wordOp) .done = some (2 * byteOps.length + 20) := by
  simp [blockCode, blockTop, blockMiddle, blockLast]
  omega

/-- The first bytes: one turn without the jumps. -/
theorem headBytes_run : BlockGets byteOps wordOp ⟨5, c, calls⟩
    ⟨byteOps.length + 5, execAll byteOps c, calls⟩ := by
  have hcode : ((blockCode byteOps wordOp).drop 5).take byteOps.length = byteOps.map .op := by
    simp [blockCode, blockTop]
  rw [Nat.add_comm]
  exact reaches_ops byteOps hcode

/-- The last bytes. -/
theorem tailBytes_run : BlockGets byteOps wordOp ⟨byteOps.length + 18, c, calls⟩
    ⟨2 * byteOps.length + 18, execAll byteOps c, calls⟩ := by
  have hcode : ((blockCode byteOps wordOp).drop (byteOps.length + 18)).take byteOps.length =
      byteOps.map .op := by
    have hlen : (blockTop ++ byteOps.map Instr.op ++ blockMiddle wordOp).length =
        byteOps.length + 18 := by
      simp [blockTop, blockMiddle]
    unfold blockCode
    rw [List.append_assoc (blockTop ++ byteOps.map Instr.op ++ blockMiddle wordOp), ← hlen,
      List.drop_left, List.take_left' (by simp)]
  have hsum : 2 * byteOps.length + 18 = byteOps.length + 18 + byteOps.length := by omega
  rw [hsum]
  exact reaches_ops byteOps hcode

/-- `Moved k` holds of the states in which `k` of `n` bytes have been moved, whatever is in
the counters. -/
structure BlockMoves (byteOps : List Op) (wordOp : Op) (n : Nat) (Moved : Nat → Cpu → Prop) :
    Prop where
  frame : ∀ k c d, d.mem = c.mem → (∀ r, r ≠ .ecx → r ≠ .edx → d.reg r = c.reg r) →
    Moved k c → Moved k d
  byte : ∀ k c, k < n → Moved k c → Moved (k + 1) (execAll byteOps c)
  counters : ∀ c r, r = .ecx ∨ r = .edx → (execAll byteOps c).reg r = c.reg r
  words : ∀ k j c, k + 4 * j ≤ n → (c.reg .ecx).toNat = j → c.flag directionFlag = false →
    Moved k c → Moved (k + 4 * j) (wordOp.exec c)
  remainder : ∀ c, (wordOp.exec c).reg .edx = c.reg .edx

variable {n : Nat} {Moved : Nat → Cpu → Prop}

theorem BlockMoves.of_test (h : BlockMoves byteOps wordOp n Moved) {k : Nat} (hmoved : Moved k c)
    (src : Operand) (dst : Reg) : Moved k ((testl src dst).exec c) :=
  h.frame k c _ rfl (fun _ _ _ => rfl) hmoved

theorem BlockMoves.of_subl (h : BlockMoves byteOps wordOp n Moved) {k : Nat} (hmoved : Moved k c)
    {dst : Reg} (hdst : dst = .ecx ∨ dst = .edx) : Moved k ((subl 1 dst).exec c) := by
  refine h.frame k c _ rfl (fun r hecx hedx => Function.update_of_ne ?_ _ _) hmoved
  rcases hdst with rfl | rfl
  · exact hecx
  · exact hedx

/-- Whether a counter is zero. -/
theorem counter_zero {r : Nat} (hr : r < 2 ^ 32) {dst : Reg} (h : c.reg dst = BitVec.ofNat 32 r) :
    Cond.z.holds ((testl (.reg dst) dst).exec c) = decide (r = 0) := by
  rw [testl_zero, Cpu.read, BitVec.and_self, h, Bool.eq_iff_iff, beq_iff_eq, decide_eq_true_eq]
  constructor
  · intro hzero
    have hnat := congrArg BitVec.toNat hzero
    rwa [BitVec.toNat_ofNat, Nat.mod_eq_of_lt hr] at hnat
  · rintro rfl
    rfl

theorem done_label_run : BlockGets byteOps wordOp ⟨2 * byteOps.length + 20, c, calls⟩
    ⟨2 * byteOps.length + 21, c, calls⟩ :=
  reaches_label (l := .done) ((blockCode_last (i := 2)).trans rfl)

/-- The test of the last loop. -/
theorem tailTest_run : BlockGets byteOps wordOp ⟨byteOps.length + 15, c, calls⟩
    ⟨byteOps.length + 17, (testl (.reg .edx) .edx).exec c, calls⟩ := by
  have hlabel : BlockGets byteOps wordOp ⟨byteOps.length + 15, c, calls⟩
      ⟨byteOps.length + 16, c, calls⟩ :=
    reaches_label (l := .bottom) ((blockCode_middle (i := 10) (by decide)).trans rfl)
  exact hlabel.trans (reaches_op ((blockCode_middle (i := 11) (by decide)).trans rfl))

/-- The last bytes, counted in `edx`. -/
theorem BlockMoves.tail_run (h : BlockMoves byteOps wordOp n Moved) (hn : n < 2 ^ 32) {r k : Nat}
    (hmoved : Moved k c) (hedx : c.reg .edx = BitVec.ofNat 32 r) (hsum : k + r = n) :
    ∃ d, BlockGets byteOps wordOp ⟨byteOps.length + 15, c, calls⟩
      ⟨2 * byteOps.length + 21, d, calls⟩ ∧ Moved n d := by
  induction r generalizing k c with
  | zero =>
      obtain rfl : k = n := hsum
      have hjump : BlockGets byteOps wordOp
          ⟨byteOps.length + 17, (testl (.reg .edx) .edx).exec c, calls⟩
          ⟨2 * byteOps.length + 20, (testl (.reg .edx) .edx).exec c, calls⟩ :=
        reaches_jcc_of_holds ((blockCode_middle (i := 12) (by decide)).trans rfl) position_done
          (counter_zero (by decide) hedx)
      exact ⟨_, (tailTest_run.trans hjump).trans done_label_run, h.of_test hmoved _ _⟩
  | succ r ih =>
      have hnext : BlockGets byteOps wordOp
          ⟨byteOps.length + 17, (testl (.reg .edx) .edx).exec c, calls⟩
          ⟨byteOps.length + 18, (testl (.reg .edx) .edx).exec c, calls⟩ :=
        reaches_jcc_of_not ((blockCode_middle (i := 12) (by decide)).trans rfl)
          ((counter_zero (by omega) hedx).trans (decide_eq_false (Nat.succ_ne_zero r)))
      have hbyte := h.byte k _ (by omega) (h.of_test hmoved (.reg .edx) .edx)
      have hcount : (execAll byteOps ((testl (.reg .edx) .edx).exec c)).reg .edx =
          BitVec.ofNat 32 (r + 1) := (h.counters _ _ (Or.inr rfl)).trans hedx
      generalize hmove : execAll byteOps ((testl (.reg .edx) .edx).exec c) = d at hbyte hcount
      have hbytes : BlockGets byteOps wordOp
          ⟨byteOps.length + 18, (testl (.reg .edx) .edx).exec c, calls⟩
          ⟨2 * byteOps.length + 18, d, calls⟩ := hmove ▸ tailBytes_run
      have hsubl : BlockGets byteOps wordOp ⟨2 * byteOps.length + 18, d, calls⟩
          ⟨2 * byteOps.length + 19, (subl 1 .edx).exec d, calls⟩ :=
        reaches_op ((blockCode_last (i := 0)).trans rfl)
      have hback : BlockGets byteOps wordOp
          ⟨2 * byteOps.length + 19, (subl 1 .edx).exec d, calls⟩
          ⟨byteOps.length + 15, (subl 1 .edx).exec d, calls⟩ :=
        reaches_jmp ((blockCode_last (i := 1)).trans rfl) position_bottom
      have hless : ((subl 1 .edx).exec d).reg .edx = BitVec.ofNat 32 r := by
        simp only [Op.exec, Cpu.setArith_reg, Cpu.setReg_reg, Function.update_self, hcount]
        bv_omega
      obtain ⟨e, hrest, hdone⟩ := ih (h.of_subl hbyte (Or.inr rfl)) hless (by omega)
      exact ⟨e, ((((tailTest_run.trans hnext).trans hbytes).trans hsubl).trans hback).trans hrest,
        hdone⟩

theorem blockCode_words : ((blockCode byteOps wordOp).drop (byteOps.length + 8)).take 7 =
    [Op.movwFrom .ds .edx, .movwTo .edx .es, .movl (.reg .ecx) (.reg .edx), .shrl 2 .ecx,
      .andl 3 .edx, .cld, wordOp].map .op := by
  have hlen : (blockTop ++ byteOps.map Instr.op).length = byteOps.length + 5 := by
    simp [blockTop]
  have hdrop : ((blockCode byteOps wordOp).drop (byteOps.length + 8)) =
      (blockMiddle wordOp ++ byteOps.map Instr.op ++ blockLast).drop 3 := by
    unfold blockCode
    rw [List.append_assoc, List.append_assoc, ← List.append_assoc (blockMiddle wordOp),
      ← Nat.add_assoc byteOps.length 5 3, ← hlen, ← List.drop_drop, List.drop_left]
  rw [hdrop]
  rfl

/-- The counters before the double words. -/
def counted (c : Cpu) : Cpu :=
  execAll [.movwFrom .ds .edx, .movwTo .edx .es, .movl (.reg .ecx) (.reg .edx), .shrl 2 .ecx,
    .andl 3 .edx, .cld] c

theorem counted_mem : (counted c).mem = c.mem := rfl

theorem counted_reg {r : Reg} (hecx : r ≠ .ecx) (hedx : r ≠ .edx) :
    (counted c).reg r = c.reg r := by
  simp [counted, Op.exec, Cpu.write, Cpu.read, hecx, hedx]

theorem counted_words : ((counted c).reg .ecx).toNat = (c.reg .ecx).toNat / 4 := by
  have hecx : (counted c).reg .ecx = c.reg .ecx >>> 2 := by
    simp [counted, Op.exec, Cpu.write, Cpu.read]
  rw [hecx, BitVec.toNat_ushiftRight, Nat.shiftRight_eq_div_pow]

theorem counted_remainder :
    (counted c).reg .edx = BitVec.ofNat 32 ((c.reg .ecx).toNat % 4) := by
  have hedx : (counted c).reg .edx = c.reg .ecx &&& 3 := by
    simp [counted, Op.exec, Cpu.write, Cpu.read]
  rw [hedx]
  apply BitVec.eq_of_toNat_eq
  rw [BitVec.toNat_and, BitVec.toNat_ofNat]
  have hmask := Nat.and_two_pow_sub_one_eq_mod (c.reg .ecx).toNat 2
  simp at hmask ⊢
  omega

theorem counted_forward : (counted c).flag directionFlag = false := by
  have hcld : (counted c) = (execAll [.movwFrom .ds .edx, .movwTo .edx .es,
      .movl (.reg .ecx) (.reg .edx), .shrl 2 .ecx, .andl 3 .edx] c).setFlag directionFlag false :=
        rfl
  rw [hcld, Cpu.flag_setFlag (by decide), if_pos rfl]

/-- The double words, and what is left behind them. -/
theorem BlockMoves.aligned_run (h : BlockMoves byteOps wordOp n Moved) (hn : n < 2 ^ 32) {k : Nat}
    (hmoved : Moved k c) (hsum : k + (c.reg .ecx).toNat = n) :
    ∃ d, BlockGets byteOps wordOp ⟨byteOps.length + 7, c, calls⟩
      ⟨2 * byteOps.length + 21, d, calls⟩ ∧ Moved n d := by
  have hlabel : BlockGets byteOps wordOp ⟨byteOps.length + 7, c, calls⟩
      ⟨byteOps.length + 8, c, calls⟩ :=
    reaches_label (l := .aligned) ((blockCode_middle (i := 2) (by decide)).trans rfl)
  have hops : BlockGets byteOps wordOp ⟨byteOps.length + 8, c, calls⟩
      ⟨byteOps.length + 15, wordOp.exec (counted c), calls⟩ :=
    reaches_ops [.movwFrom .ds .edx, .movwTo .edx .es, .movl (.reg .ecx) (.reg .edx), .shrl 2 .ecx,
      .andl 3 .edx, .cld, wordOp] blockCode_words
  have hcounted := h.frame k c (counted c) counted_mem (fun _ => counted_reg) hmoved
  have hwords := h.words k _ (counted c) (by rw [counted_words]; omega) rfl counted_forward hcounted
  have hleft : (wordOp.exec (counted c)).reg .edx =
      BitVec.ofNat 32 ((c.reg .ecx).toNat % 4) := (h.remainder _).trans counted_remainder
  obtain ⟨d, htail, hdone⟩ := h.tail_run hn hwords hleft (by rw [counted_words]; omega)
  exact ⟨d, (hlabel.trans hops).trans htail, hdone⟩

/-- The test of the first loop. -/
theorem headTest_run : BlockGets byteOps wordOp ⟨0, c, calls⟩
    ⟨2, (testl (.reg .ecx) .ecx).exec c, calls⟩ := by
  have hlabel : BlockGets byteOps wordOp ⟨0, c, calls⟩ ⟨1, c, calls⟩ :=
    reaches_label (l := .top) ((blockCode_top (i := 0) (by decide)).trans rfl)
  exact hlabel.trans (reaches_op ((blockCode_top (i := 1) (by decide)).trans rfl))

/-- The whole code, counted in `ecx`: bytes until the destination is aligned, and the rest. -/
theorem BlockMoves.run (h : BlockMoves byteOps wordOp n Moved) (hn : n < 2 ^ 32) {r k : Nat}
    (hmoved : Moved k c) (hecx : c.reg .ecx = BitVec.ofNat 32 r) (hsum : k + r = n) :
    ∃ d, BlockGets byteOps wordOp ⟨0, c, calls⟩ ⟨2 * byteOps.length + 21, d, calls⟩ ∧
      Moved n d := by
  induction r generalizing k c with
  | zero =>
      obtain rfl : k = n := hsum
      have hjump : BlockGets byteOps wordOp ⟨2, (testl (.reg .ecx) .ecx).exec c, calls⟩
          ⟨2 * byteOps.length + 20, (testl (.reg .ecx) .ecx).exec c, calls⟩ :=
        reaches_jcc_of_holds ((blockCode_top (i := 2) (by decide)).trans rfl) position_done
          (counter_zero (by decide) hecx)
      exact ⟨_, (headTest_run.trans hjump).trans done_label_run, h.of_test hmoved _ _⟩
  | succ r ih =>
      have hnext : BlockGets byteOps wordOp ⟨2, (testl (.reg .ecx) .ecx).exec c, calls⟩
          ⟨3, (testl (.reg .ecx) .ecx).exec c, calls⟩ :=
        reaches_jcc_of_not ((blockCode_top (i := 2) (by decide)).trans rfl)
          ((counter_zero (by omega) hecx).trans (decide_eq_false (Nat.succ_ne_zero r)))
      have htest : BlockGets byteOps wordOp ⟨3, (testl (.reg .ecx) .ecx).exec c, calls⟩
          ⟨4, (testl (.imm 3) .edi).exec ((testl (.reg .ecx) .ecx).exec c), calls⟩ :=
        reaches_op ((blockCode_top (i := 3) (by decide)).trans rfl)
      have hcount : ((testl (.imm 3) .edi).exec ((testl (.reg .ecx) .ecx).exec c)).reg .ecx =
          BitVec.ofNat 32 (r + 1) := hecx
      have htested := h.of_test (h.of_test hmoved (.reg .ecx) .ecx) (.imm 3) .edi
      generalize (testl (.imm 3) .edi).exec ((testl (.reg .ecx) .ecx).exec c) = d
        at htest hcount htested
      have hstart := (headTest_run.trans hnext).trans htest
      cases haligned : Cond.z.holds d with
      | true =>
          have hjump : BlockGets byteOps wordOp ⟨4, d, calls⟩ ⟨byteOps.length + 7, d, calls⟩ :=
            reaches_jcc_of_holds ((blockCode_top (i := 4) (by decide)).trans rfl) position_aligned
              haligned
          obtain ⟨e, hrest, hdone⟩ := h.aligned_run hn htested
            (by rw [hcount, BitVec.toNat_ofNat, Nat.mod_eq_of_lt (by omega)]; exact hsum)
          exact ⟨e, (hstart.trans hjump).trans hrest, hdone⟩
      | false =>
          have hbyte : BlockGets byteOps wordOp ⟨4, d, calls⟩ ⟨5, d, calls⟩ :=
            reaches_jcc_of_not ((blockCode_top (i := 4) (by decide)).trans rfl) haligned
          have hsubl : BlockGets byteOps wordOp ⟨byteOps.length + 5, execAll byteOps d, calls⟩
              ⟨byteOps.length + 6, (subl 1 .ecx).exec (execAll byteOps d), calls⟩ :=
            reaches_op ((blockCode_middle (i := 0) (by decide)).trans rfl)
          have hback : BlockGets byteOps wordOp
              ⟨byteOps.length + 6, (subl 1 .ecx).exec (execAll byteOps d), calls⟩
              ⟨0, (subl 1 .ecx).exec (execAll byteOps d), calls⟩ :=
            reaches_jmp ((blockCode_middle (i := 1) (by decide)).trans rfl)
              (by simp [blockCode, blockTop])
          have hless : ((subl 1 .ecx).exec (execAll byteOps d)).reg .ecx = BitVec.ofNat 32 r := by
            simp only [Op.exec, Cpu.setArith_reg, Cpu.setReg_reg, Function.update_self,
              h.counters _ _ (Or.inl rfl), hcount]
            bv_omega
          obtain ⟨e, hrest, hdone⟩ := ih (h.of_subl (h.byte k d (by omega) htested) (Or.inl rfl))
            hless (by omega)
          exact ⟨e, ((((hstart.trans hbyte).trans headBytes_run).trans hsubl).trans hback).trans
            hrest, hdone⟩

end Run

/-! ## `memset` -/

/-- The byte that a word repeats. -/
def repeated (c : Word) : Word := c <<< 24 ||| c <<< 16 ||| c <<< 8 ||| c

theorem byteOf_repeated (c : Word) (i : Fin 4) :
    byteOf (repeated (c &&& 0xFF)) i = byteOf c 0 := by
  have hbyte : c &&& 0xFF = (c.setWidth 8).setWidth 32 := by
    apply BitVec.eq_of_toNat_eq
    have hmask := Nat.and_two_pow_sub_one_eq_mod c.toNat 8
    simp at hmask ⊢
    omega
  have hall : ∀ v : BitVec 8, byteOf (repeated (v.setWidth 32)) i = ⟨v⟩ := by
    decide +kernel +revert
  rw [hbyte, hall]
  unfold byteOf
  congr 1

/-- The registers that the compiler loads for `memset(s, c, n)`, after the assignment to `c`. -/
def memsetEntry (s c n : Word) (cpu : Cpu) : Cpu :=
  ((cpu.setReg .eax (repeated (c &&& 0xFF))).setReg .edi s).setReg .ecx n

/-- The state after `k` bytes of `memset`. -/
structure Filling (m : Mem) (s : Word) (v : UInt8) (k : Nat) (d : Cpu) : Prop where
  mem : d.mem = byteSet m s v k
  edi : d.reg .edi = s + BitVec.ofNat 32 k
  eax : ∀ i : Fin 4, byteOf (d.reg .eax) i = v

theorem Filling.stosl {m : Mem} {s : Word} {v : UInt8} {k : Nat} {d : Cpu}
    (h : Filling m s v k d) (hforward : d.flag directionFlag = false) :
    Filling m s v (k + 4) d.stosl := by
  refine ⟨?_, ?_, fun i => ?_⟩
  · have hstore : d.stosl.mem = storeWord d.mem (d.reg .edi) (d.reg .eax) := rfl
    have hbytes := h.eax
    rw [hstore, storeWord_eq_storeByte, h.mem, h.edi]
    have h₀ := hbytes 0
    have h₁ := hbytes 1
    have h₂ := hbytes 2
    have h₃ := hbytes 3
    simp at h₀ h₁ h₂ h₃
    rw [h₀, h₁, h₂, h₃]
    simp [byteSet, BitVec.ofNat_add, add_assoc]
  · simp [Cpu.stosl, Cpu.stride, hforward, h.edi, BitVec.ofNat_add, add_assoc]
  · simpa [Cpu.stosl] using h.eax i

theorem Filling.rep {m : Mem} {s : Word} {v : UInt8} {j k : Nat} {d : Cpu}
    (h : Filling m s v k d) (hforward : d.flag directionFlag = false) :
    Filling m s v (k + 4 * j) (Cpu.stosl^[j] d) := by
  induction j generalizing k d with
  | zero => exact h
  | succ j ih =>
      have hrest := ih (h.stosl hforward) hforward
      rwa [show k + 4 + 4 * j = k + 4 * (j + 1) by omega] at hrest

theorem iterate_stosl_edx (j : Nat) (d : Cpu) : (Cpu.stosl^[j] d).reg .edx = d.reg .edx := by
  induction j generalizing d with
  | zero => rfl
  | succ j ih =>
      refine (ih d.stosl).trans ?_
      simp [Cpu.stosl]

theorem memset_moves (m : Mem) (s : Word) (v : UInt8) (n : Nat) :
    BlockMoves memsetByteOps .repStosl n (Filling m s v) where
  frame := fun k c d hmem hreg h => by
    refine ⟨hmem.trans h.mem, (hreg .edi (by decide) (by decide)).trans h.edi, fun i => ?_⟩
    rw [hreg .eax (by decide) (by decide)]
    exact h.eax i
  byte := fun k c _ h => by
    refine ⟨?_, ?_, fun i => ?_⟩
    · have hstore : (execAll memsetByteOps c).mem =
          storeByte c.mem (c.reg .edi) (byteOf (c.reg .eax) 0) := rfl
      rw [hstore, h.mem, h.edi, show byteOf (c.reg .eax) 0 = v from h.eax 0]
      rfl
    · simp [memsetByteOps, Op.exec, Cpu.writeByte, h.edi, BitVec.ofNat_add, add_assoc]
    · simpa [memsetByteOps, Op.exec, Cpu.writeByte] using h.eax i
  counters := fun c r hr => by
    rcases hr with rfl | rfl <;> simp [memsetByteOps, Op.exec, Cpu.writeByte]
  words := fun k j c _ hj hforward h => by
    rw [← hj]
    exact h.rep hforward
  remainder := fun c => iterate_stosl_edx _ c

/-! ## `memcpy` -/

/-- The registers that the compiler loads for `memcpy(dest, src, n)`. -/
def memcpyEntry (dest src n : Word) (cpu : Cpu) : Cpu :=
  ((cpu.setReg .esi src).setReg .edi dest).setReg .ecx n

/-- The state after `k` bytes of `memcpy`. -/
structure Copying (m : Mem) (dest src : Word) (k : Nat) (d : Cpu) : Prop where
  mem : d.mem = byteCopy m dest src k
  edi : d.reg .edi = dest + BitVec.ofNat 32 k
  esi : d.reg .esi = src + BitVec.ofNat 32 k

section Copy

variable {m : Mem} {dest src : Word} {n : Nat}

/-- A place of the source, while no more than `n` bytes have been copied. -/
theorem byteCopy_source (hn : n < 2 ^ 32)
    (hapart : ∀ x, Within src n x → ¬Within dest n x) {i j : Nat} (hi : i ≤ n) (hj : j < n) :
    byteCopy m dest src i (src + BitVec.ofNat 32 j) = m (src + BitVec.ofNat 32 j) := by
  refine byteCopy_of_not_within (by omega) fun hin => hapart (src + BitVec.ofNat 32 j) ?_ ?_
  · unfold Within
    rw [add_sub_cancel_left, BitVec.toNat_ofNat]
    omega
  · unfold Within at hin ⊢
    omega

/-- Four bytes at once, if the two blocks are apart. -/
theorem Copying.movsl {k : Nat} {d : Cpu} (h : Copying m dest src k d)
    (hforward : d.flag directionFlag = false) (hn : n < 2 ^ 32) (hk : k + 4 ≤ n)
    (hapart : ∀ x, Within src n x → ¬Within dest n x) :
    Copying m dest src (k + 4) d.movsl := by
  refine ⟨?_, ?_, ?_⟩
  · have hstore : d.movsl.mem = storeWord d.mem (d.reg .edi) (loadWord d.mem (d.reg .esi)) := rfl
    obtain ⟨h₀, h₁, h₂, h₃⟩ := byteOf_loadWord d.mem (d.reg .esi)
    rw [hstore, storeWord_eq_storeByte, h₀, h₁, h₂, h₃, h.mem, h.edi, h.esi]
    have hread : ∀ j, j < n → byteCopy m dest src k (src + BitVec.ofNat 32 j) =
        m (src + BitVec.ofNat 32 j) := fun j hj => byteCopy_source hn hapart (by omega) hj
    have hnext : ∀ i, i < n → byteCopy m dest src (i + 1) =
        storeByte (byteCopy m dest src i) (dest + BitVec.ofNat 32 i)
          (m (src + BitVec.ofNat 32 i)) :=
      fun i hi => congrArg (storeByte _ _) (byteCopy_source hn hapart (by omega) hi)
    have hfour : byteCopy m dest src (k + 4) = storeByte (byteCopy m dest src (k + 3))
        (dest + BitVec.ofNat 32 (k + 3)) (m (src + BitVec.ofNat 32 (k + 3))) :=
      hnext (k + 3) (by omega)
    have hthree : byteCopy m dest src (k + 3) = storeByte (byteCopy m dest src (k + 2))
        (dest + BitVec.ofNat 32 (k + 2)) (m (src + BitVec.ofNat 32 (k + 2))) :=
      hnext (k + 2) (by omega)
    have htwo : byteCopy m dest src (k + 2) = storeByte (byteCopy m dest src (k + 1))
        (dest + BitVec.ofNat 32 (k + 1)) (m (src + BitVec.ofNat 32 (k + 1))) :=
      hnext (k + 1) (by omega)
    have haddr : ∀ (a : Word) (i : Nat), a + BitVec.ofNat 32 k + BitVec.ofNat 32 i =
        a + BitVec.ofNat 32 (k + i) := fun a i => by rw [BitVec.ofNat_add, add_assoc]
    have hplaces : ∀ a : Word, a + BitVec.ofNat 32 k + 1 = a + BitVec.ofNat 32 (k + 1) ∧
        a + BitVec.ofNat 32 k + 2 = a + BitVec.ofNat 32 (k + 2) ∧
        a + BitVec.ofNat 32 k + 3 = a + BitVec.ofNat 32 (k + 3) :=
      fun a => ⟨haddr a 1, haddr a 2, haddr a 3⟩
    rw [(hplaces src).1, (hplaces src).2.1, (hplaces src).2.2, (hplaces dest).1,
      (hplaces dest).2.1, (hplaces dest).2.2]
    rw [hfour, hthree, htwo, hnext k (by omega), hread k (by omega), hread (k + 1) (by omega),
      hread (k + 2) (by omega), hread (k + 3) (by omega)]
  · simp [Cpu.movsl, Cpu.stride, hforward, h.edi, BitVec.ofNat_add, add_assoc]
  · simp [Cpu.movsl, Cpu.stride, hforward, h.esi, BitVec.ofNat_add, add_assoc]

theorem Copying.rep {j k : Nat} {d : Cpu} (h : Copying m dest src k d)
    (hforward : d.flag directionFlag = false) (hn : n < 2 ^ 32) (hk : k + 4 * j ≤ n)
    (hapart : ∀ x, Within src n x → ¬Within dest n x) :
    Copying m dest src (k + 4 * j) (Cpu.movsl^[j] d) := by
  induction j generalizing k d with
  | zero => exact h
  | succ j ih =>
      have hrest := ih (h.movsl hforward hn (by omega) hapart) hforward (by omega)
      rwa [show k + 4 + 4 * j = k + 4 * (j + 1) by omega] at hrest

theorem iterate_movsl_edx (j : Nat) (d : Cpu) : (Cpu.movsl^[j] d).reg .edx = d.reg .edx := by
  induction j generalizing d with
  | zero => rfl
  | succ j ih =>
      refine (ih d.movsl).trans ?_
      simp [Cpu.movsl]

theorem memcpy_moves (hn : n < 2 ^ 32) (hapart : ∀ x, Within src n x → ¬Within dest n x) :
    BlockMoves memcpyByteOps .repMovsl n (Copying m dest src) where
  frame := fun k c d hmem hreg h => ⟨hmem.trans h.mem,
    (hreg .edi (by decide) (by decide)).trans h.edi,
    (hreg .esi (by decide) (by decide)).trans h.esi⟩
  byte := fun k c _ h => by
    refine ⟨?_, ?_, ?_⟩
    · have hstore : (execAll memcpyByteOps c).mem = storeByte c.mem (c.reg .edi)
          (byteOf (Cpu.lowByte (c.reg .eax) (c.mem (c.reg .esi))) 0) := by
        simp [memcpyByteOps, Op.exec, Cpu.writeByte, Cpu.readByte]
      rw [hstore, Cpu.byteOf_lowByte, h.mem, h.edi, h.esi]
      rfl
    · simp [memcpyByteOps, Op.exec, Cpu.writeByte, h.edi, BitVec.ofNat_add, add_assoc]
    · simp [memcpyByteOps, Op.exec, Cpu.writeByte, h.esi, BitVec.ofNat_add, add_assoc]
  counters := fun c r hr => by
    rcases hr with rfl | rfl <;> simp [memcpyByteOps, Op.exec, Cpu.writeByte]
  words := fun k j c hk hj hforward h => by
    rw [← hj] at hk ⊢
    exact h.rep hforward hn hk hapart
  remainder := fun c => iterate_movsl_edx _ c

end Copy

/-- For every memory, every alignment, every byte and every length: `memset` leaves what the
loop over the single bytes leaves, and so does `memcpy` for blocks that are apart; and no other
byte changes. -/
theorem blockRoutines_eq_loops (cpu : Cpu) :
    (∀ s c n : Word, ∃ d, BlockGets memsetByteOps .repStosl ⟨0, memsetEntry s c n cpu, []⟩
        ⟨memsetCode.length, d, []⟩ ∧ d.mem = byteSet cpu.mem s (byteOf c 0) n.toNat ∧
        ∀ x, ¬Within s n.toNat x → d.mem x = cpu.mem x) ∧
      ∀ dest src n : Word, (∀ x, Within src n.toNat x → ¬Within dest n.toNat x) →
        ∃ d, BlockGets memcpyByteOps .repMovsl ⟨0, memcpyEntry dest src n cpu, []⟩
          ⟨memcpyCode.length, d, []⟩ ∧ d.mem = byteCopy cpu.mem dest src n.toNat ∧
          ∀ x, ¬Within dest n.toNat x → d.mem x = cpu.mem x := by
  refine ⟨fun s c n => ?_, fun dest src n hapart => ?_⟩
  · have hentry : Filling cpu.mem s (byteOf c 0) 0 (memsetEntry s c n cpu) :=
      ⟨rfl, by simp [memsetEntry], fun i => by
        rw [← byteOf_repeated c i]
        simp [memsetEntry]⟩
    obtain ⟨d, hrun, hdone⟩ := (memset_moves cpu.mem s (byteOf c 0) n.toNat).run n.isLt hentry
      (r := n.toNat) (by simp [memsetEntry]) (Nat.zero_add _)
    refine ⟨d, hrun, hdone.mem, fun x hx => ?_⟩
    rw [hdone.mem, byteSet_apply (by omega), if_neg hx]
  · have hentry : Copying cpu.mem dest src 0 (memcpyEntry dest src n cpu) :=
      ⟨rfl, by simp [memcpyEntry], by simp [memcpyEntry]⟩
    obtain ⟨d, hrun, hdone⟩ := (memcpy_moves n.isLt hapart).run n.isLt hentry
      (r := n.toNat) (by simp [memcpyEntry]) (Nat.zero_add _)
    refine ⟨d, hrun, hdone.mem, fun x hx => ?_⟩
    rw [hdone.mem, byteCopy_of_not_within (by omega) hx]

/-- Registers and memory that are zero. -/
def blankCpu : Cpu := ⟨fun _ => 0, fun _ => 0, 0, fun _ => 0⟩

/-- A memory in which every address holds its own last byte. -/
def ownAddresses : Cpu := { blankCpu with mem := fun x => byteOf x 0 }

/-- Seven bytes are copied from an odd place to another one, and then the middle five of the
copy are set. -/
theorem blockRoutines_eq_loops_both : ∃ d e,
    BlockGets memcpyByteOps .repMovsl ⟨0, memcpyEntry 101 3 7 ownAddresses, []⟩
        ⟨memcpyCode.length, d, []⟩ ∧
      BlockGets memsetByteOps .repStosl ⟨0, memsetEntry 102 0xEE 5 d, []⟩
        ⟨memsetCode.length, e, []⟩ ∧
      e.mem 101 = 3 ∧ e.mem 102 = 0xEE ∧ e.mem 106 = 0xEE ∧ e.mem 107 = 9 ∧ e.mem 108 = 108 := by
  have hapart : ∀ x : Word, Within 3 7 x → ¬Within 101 7 x := by
    intro x hx hin
    unfold Within at hx hin
    bv_omega
  obtain ⟨d, hcopy, hcopied, -⟩ := (blockRoutines_eq_loops ownAddresses).2 101 3 7 hapart
  obtain ⟨e, hset, hfilled, -⟩ := (blockRoutines_eq_loops d).1 102 0xEE 5
  rw [hcopied] at hfilled
  refine ⟨d, e, hcopy, hset, ?_⟩
  rw [hfilled]
  decide

end Ece391Kernel
