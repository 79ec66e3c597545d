import Ece391Kernel.Assembly.BlockRoutines

/-!
# `memmove`

The bytes are copied from the first one on if the source is not below the destination, and from
the last one on otherwise. The direction flag is set for the latter, and not cleared behind it.
-/

namespace Ece391Kernel

open X86 Op

/-- The label of `memmove`. -/
inductive MoveLabel | go
  deriving DecidableEq

/-- `memmove`. -/
def memmoveCode : List (Instr MoveLabel Empty) :=
  [.op (.movwFrom .ds .edx),
    .op (.movwTo .edx .es),
    .op .cld,
    .op (.cmpl (.reg .edi) .esi),
    .jcc .ae .go,
    .op (.leal (-1) .esi .ecx .esi),
    .op (.leal (-1) .edi .ecx .edi),
    .op .std,
    .label .go,
    .op .repMovsb]

/-- There are no gates and no functions. -/
def moveEnv : Env MoveLabel Empty where
  run := fun f => f.elim
  gate := fun _ => none
  esp0 := 0
  ss0 := 0
  kernelCs := 0

/-- The machine that runs `memmove`. -/
abbrev MoveGets : Machine Empty → Machine Empty → Prop := Reaches moveEnv memmoveCode

/-! ## The two directions -/

section Directions

variable {m : Mem} {dest src : Word} {n : Nat}

theorem Copying.movsb {k : Nat} {d : Cpu} (h : Copying m dest src k d)
    (hforward : d.flag directionFlag = false) : Copying m dest src (k + 1) d.movsb := by
  refine ⟨?_, ?_, ?_⟩
  · have hstore : d.movsb.mem = storeByte d.mem (d.reg .edi) (d.mem (d.reg .esi)) := rfl
    rw [hstore, h.mem, h.edi, h.esi]
    rfl
  · simp [Cpu.movsb, Cpu.stride, hforward, h.edi, BitVec.ofNat_add, add_assoc]
  · simp [Cpu.movsb, Cpu.stride, hforward, h.esi, BitVec.ofNat_add, add_assoc]

theorem Copying.repMovsb {j k : Nat} {d : Cpu} (h : Copying m dest src k d)
    (hforward : d.flag directionFlag = false) : Copying m dest src (k + j) (Cpu.movsb^[j] d) := by
  induction j generalizing k d with
  | zero => exact h
  | succ j ih =>
      have hrest := ih (h.movsb hforward) hforward
      rwa [Nat.add_assoc, Nat.add_comm 1] at hrest

/-- The state after the last `k` of `n` bytes. -/
structure CopyingBack (m : Mem) (dest src : Word) (n k : Nat) (d : Cpu) : Prop where
  mem : ∀ x, d.mem x =
    if Within (dest + BitVec.ofNat 32 (n - k)) k x then m (src + (x - dest)) else m x
  edi : d.reg .edi = dest + BitVec.ofNat 32 (n - k) - 1
  esi : d.reg .esi = src + BitVec.ofNat 32 (n - k) - 1

/-- The byte that is read is below all that have been written. -/
theorem CopyingBack.movsb {k : Nat} {d : Cpu} (h : CopyingBack m dest src n k d)
    (hback : d.flag directionFlag = true) (hk : k < n) (hbelow : src < dest)
    (hwrap : dest.toNat + n ≤ 2 ^ 32) : CopyingBack m dest src n (k + 1) d.movsb := by
  have hkSmall : k < 2 ^ 32 := by omega
  refine ⟨fun x => ?_, ?_, ?_⟩
  · have hstore : d.movsb.mem = storeByte d.mem (d.reg .edi) (d.mem (d.reg .esi)) := rfl
    have hunwritten : ¬Within (dest + BitVec.ofNat 32 (n - k)) k
        (src + BitVec.ofNat 32 (n - k) - 1) := by
      unfold Within
      bv_omega
    have hstart : dest + BitVec.ofNat 32 (n - (k + 1)) = dest + BitVec.ofNat 32 (n - k) - 1 := by
      have hpred : n - k = n - (k + 1) + 1 := by omega
      rw [hpred, BitVec.ofNat_add, ← add_assoc]
      exact (add_sub_cancel_right _ _).symm
    rw [hstore, h.edi, h.esi, h.mem, if_neg hunwritten, hstart]
    unfold storeByte
    by_cases hhere : x = dest + BitVec.ofNat 32 (n - k) - 1
    · rw [if_pos ((within_pred hkSmall).mpr (Or.inl hhere)), hhere, Function.update_self]
      rw [add_sub_assoc, add_sub_assoc, add_sub_cancel_left]
    · rw [Function.update_of_ne hhere, h.mem]
      simp only [within_pred hkSmall, hhere, false_or]
  · simp only [Cpu.movsb, Cpu.stride, hback, h.edi]
    simp
    bv_omega
  · simp only [Cpu.movsb, Cpu.stride, hback, h.esi]
    simp
    bv_omega

theorem CopyingBack.repMovsb {j k : Nat} {d : Cpu} (h : CopyingBack m dest src n k d)
    (hback : d.flag directionFlag = true) (hk : k + j ≤ n) (hbelow : src < dest)
    (hwrap : dest.toNat + n ≤ 2 ^ 32) : CopyingBack m dest src n (k + j) (Cpu.movsb^[j] d) := by
  induction j generalizing k d with
  | zero => exact h
  | succ j ih =>
      have hrest := ih (h.movsb hback (by omega) hbelow hwrap) hback (by omega)
      rwa [Nat.add_assoc, Nat.add_comm 1] at hrest

theorem iterate_movsb_flag (j : Nat) (d : Cpu) :
    (Cpu.movsb^[j] d).flag directionFlag = d.flag directionFlag := by
  induction j generalizing d with
  | zero => rfl
  | succ j ih => exact ih d.movsb

end Directions

/-! ## The run of the code -/

section Run

variable {cpu : Cpu} {dest src n : Word} {calls : List (Empty × Cpu)}

/-- The registers that the compiler loads for `memmove(dest, src, n)`. -/
def memmoveEntry (dest src n : Word) (cpu : Cpu) : Cpu :=
  ((cpu.setReg .edi dest).setReg .esi src).setReg .ecx n

/-- The bytes of the destination are those that the source had, and no other byte changes. -/
def Moved (m : Mem) (dest src : Word) (n : Nat) (m' : Mem) : Prop :=
  ∀ x, m' x = if Within dest n x then m (src + (x - dest)) else m x

/-- The state at the conditional jump. -/
def moveCompared (c : Cpu) : Cpu :=
  execAll [.movwFrom .ds .edx, .movwTo .edx .es, .cld, .cmpl (.reg .edi) .esi] c

theorem moveCompared_mem (c : Cpu) : (moveCompared c).mem = c.mem := rfl

theorem moveCompared_reg (c : Cpu) {r : Reg} (hr : r ≠ .edx) :
    (moveCompared c).reg r = c.reg r := by
  simp [moveCompared, Op.exec, hr]

theorem moveCompared_forward (c : Cpu) : (moveCompared c).flag directionFlag = false := by
  have hcld : ∀ d : Cpu, ((cmpl (.reg .edi) .esi).exec (Op.cld.exec d)).flag directionFlag =
      false := by
    intro d
    refine (Cpu.setArith_flag _ _ _ (by decide) (by decide)).trans ?_
    exact (Cpu.flag_setFlag (by decide) _ _ d).trans (if_pos rfl)
  exact hcld _

theorem compare_move_run (c : Cpu) (calls : List (Empty × Cpu)) :
    MoveGets ⟨0, c, calls⟩ ⟨4, moveCompared c, calls⟩ :=
  reaches_ops [.movwFrom .ds .edx, .movwTo .edx .es, .cld, .cmpl (.reg .edi) .esi] rfl

theorem moveCompared_above (c : Cpu) :
    Cond.ae.holds (moveCompared c) = decide (c.reg .edi ≤ c.reg .esi) := by
  have hgeneral : ∀ d : Cpu, Cond.ae.holds ((cmpl (.reg .edi) .esi).exec d) =
      decide (d.reg .edi ≤ d.reg .esi) := fun d => cmpl_above_or_equal (.reg .edi) .esi d
  refine (hgeneral _).trans ?_
  simp [Op.exec]

/-- From the label on. -/
theorem go_run (c : Cpu) : MoveGets ⟨8, c, calls⟩ ⟨10, c.rep Cpu.movsb, calls⟩ := by
  have hlabel : MoveGets ⟨8, c, calls⟩ ⟨9, c, calls⟩ := reaches_label (l := .go) rfl
  exact hlabel.trans (reaches_ops [.repMovsb] rfl)

/-- Up to the conditional jump, which tests whether the source is below the destination. -/
theorem memmove_compares (cpu : Cpu) (dest src n : Word) (calls : List (Empty × Cpu)) :
    ∃ d, MoveGets ⟨0, memmoveEntry dest src n cpu, calls⟩ ⟨4, d, calls⟩ ∧ d.reg .edi = dest ∧
      d.reg .esi = src ∧ d.reg .ecx = n ∧ d.mem = cpu.mem ∧ d.flag directionFlag = false ∧
        Cond.ae.holds d = decide (dest ≤ src) := by
  have hedi : (memmoveEntry dest src n cpu).reg .edi = dest := by simp [memmoveEntry]
  have hesi : (memmoveEntry dest src n cpu).reg .esi = src := by simp [memmoveEntry]
  have hecx : (memmoveEntry dest src n cpu).reg .ecx = n := by simp [memmoveEntry]
  have hmem : (memmoveEntry dest src n cpu).mem = cpu.mem := rfl
  have hrun := compare_move_run (memmoveEntry dest src n cpu) calls
  generalize memmoveEntry dest src n cpu = c at hedi hesi hecx hmem hrun
  refine ⟨moveCompared c, hrun, ?_, ?_, ?_, (moveCompared_mem c).trans hmem,
    moveCompared_forward c, ?_⟩
  · rw [moveCompared_reg c (by decide), hedi]
  · rw [moveCompared_reg c (by decide), hesi]
  · rw [moveCompared_reg c (by decide), hecx]
  · rw [moveCompared_above, hedi, hesi]

/-- The source is not below the destination. -/
theorem memmove_forward (habove : dest ≤ src) (hsrc : src.toNat + n.toNat ≤ 2 ^ 32) :
    ∃ d, MoveGets ⟨0, memmoveEntry dest src n cpu, calls⟩ ⟨10, d, calls⟩ ∧
      Moved cpu.mem dest src n.toNat d.mem ∧ d.flag directionFlag = false := by
  obtain ⟨c, hrun, hedi, hesi, hecx, hmem, hforward, hjumps⟩ :=
    memmove_compares cpu dest src n calls
  have hjump : MoveGets ⟨4, c, calls⟩ ⟨8, c, calls⟩ :=
    reaches_jcc_of_holds rfl rfl (hjumps.trans (decide_eq_true habove))
  have hentry : Copying cpu.mem dest src 0 c :=
    ⟨hmem, by rw [hedi]; simp, by rw [hesi]; simp⟩
  have hdone := hentry.repMovsb (j := n.toNat) hforward
  refine ⟨_, (hrun.trans hjump).trans (go_run _), fun x => ?_, ?_⟩
  · unfold Cpu.rep
    rw [hecx, hdone.mem, Nat.zero_add]
    refine byteCopy_apply (by omega) (fun i j hij hj => ?_) x
    bv_omega
  · unfold Cpu.rep
    rw [iterate_movsb_flag, hforward]

/-- The state behind `std`. -/
def turned (c : Cpu) : Cpu :=
  execAll [.leal (-1) .esi .ecx .esi, .leal (-1) .edi .ecx .edi, .std] c

theorem turned_back (c : Cpu) : (turned c).flag directionFlag = true := by
  have hstd : ∀ d : Cpu, (Op.std.exec d).flag directionFlag = true := fun d =>
    (Cpu.flag_setFlag (by decide) _ _ d).trans (if_pos rfl)
  exact hstd _

theorem turned_mem (c : Cpu) : (turned c).mem = c.mem := rfl

theorem turned_index (c : Cpu) : (turned c).reg .edi = c.reg .edi + c.reg .ecx - 1 ∧
    (turned c).reg .esi = c.reg .esi + c.reg .ecx - 1 ∧ (turned c).reg .ecx = c.reg .ecx := by
  refine ⟨?_, ?_, ?_⟩
  · simp [turned, Op.exec]
    bv_omega
  · simp [turned, Op.exec]
    bv_omega
  · simp [turned, Op.exec]

/-- The source is below the destination. -/
theorem memmove_backward (cpu : Cpu) (calls : List (Empty × Cpu)) (hbelow : src < dest)
    (hdest : dest.toNat + n.toNat ≤ 2 ^ 32) :
    ∃ d, MoveGets ⟨0, memmoveEntry dest src n cpu, calls⟩ ⟨10, d, calls⟩ ∧
      Moved cpu.mem dest src n.toNat d.mem ∧ d.flag directionFlag = true := by
  obtain ⟨c, hrun, hedi, hesi, hecx, hmem, -, hjumps⟩ := memmove_compares cpu dest src n calls
  have hnext : MoveGets ⟨4, c, calls⟩ ⟨5, c, calls⟩ :=
    reaches_jcc_of_not rfl (hjumps.trans (decide_eq_false (by bv_omega)))
  have hturn : MoveGets ⟨5, c, calls⟩ ⟨8, turned c, calls⟩ :=
    reaches_ops [.leal (-1) .esi .ecx .esi, .leal (-1) .edi .ecx .edi, .std] rfl
  obtain ⟨hturnedEdi, hturnedEsi, hturnedEcx⟩ := turned_index c
  have hturnedMem := turned_mem c
  have hback := turned_back c
  rw [hedi, hecx] at hturnedEdi
  rw [hesi, hecx] at hturnedEsi
  rw [hecx] at hturnedEcx
  rw [hmem] at hturnedMem
  generalize turned c = t at hturn hturnedEdi hturnedEsi hturnedEcx hturnedMem hback
  have hentry : CopyingBack cpu.mem dest src n.toNat 0 t := by
    refine ⟨fun x => ?_, ?_, ?_⟩
    · have hnone : ¬Within (dest + BitVec.ofNat 32 (n.toNat - 0)) 0 x := Nat.not_lt_zero _
      rw [if_neg hnone, hturnedMem]
    · rw [hturnedEdi, Nat.sub_zero, BitVec.ofNat_toNat, BitVec.setWidth_eq]
    · rw [hturnedEsi, Nat.sub_zero, BitVec.ofNat_toNat, BitVec.setWidth_eq]
  have hdone := hentry.repMovsb (j := n.toNat) hback (by omega) hbelow hdest
  refine ⟨_, ((hrun.trans hnext).trans hturn).trans (go_run _), fun x => ?_, ?_⟩
  · unfold Cpu.rep
    rw [hturnedEcx, hdone.mem, Nat.zero_add, Nat.sub_self]
    simp
  · unfold Cpu.rep
    rw [iterate_movsb_flag, hback]

/-- `memmove` ends with the bytes moved and, as compiled code expects, the direction flag clear. -/
def MemmoveCorrect (cpu : Cpu) (dest src n : Word) : Prop :=
  ∃ d, MoveGets ⟨0, memmoveEntry dest src n cpu, []⟩ ⟨memmoveCode.length, d, []⟩ ∧
    Moved cpu.mem dest src n.toNat d.mem ∧ d.flag directionFlag = false

theorem not_memmoveCorrect (hbelow : src < dest) (hdest : dest.toNat + n.toNat ≤ 2 ^ 32) :
    ¬MemmoveCorrect cpu dest src n := by
  rintro ⟨d, hrun, -, hclear⟩
  obtain ⟨e, hrun', -, hset⟩ := memmove_backward cpu [] hbelow hdest
  have hsame := hrun.unique hrun' rfl rfl
  obtain rfl : d = e := congrArg Machine.cpu hsame
  exact absurd (hclear.symm.trans hset) (by decide)

/-- The bytes are right for every overlap, and the direction flag is clear on return exactly if
the source is not below the destination. -/
theorem memmoveCorrect_iff (cpu : Cpu) (dest src n : Word)
    (hdest : dest.toNat + n.toNat ≤ 2 ^ 32) (hsrc : src.toNat + n.toNat ≤ 2 ^ 32) :
    MemmoveCorrect cpu dest src n ↔ dest ≤ src := by
  constructor
  · intro h
    by_contra hnot
    exact not_memmoveCorrect (by bv_omega) hdest h
  · intro habove
    exact memmove_forward habove hsrc

theorem memmoveCorrect_iff_down : MemmoveCorrect blankCpu 0x1000 0x1001 8 :=
  (memmoveCorrect_iff blankCpu 0x1000 0x1001 8 (by decide) (by decide)).mpr (by decide)

theorem memmove_leaves_direction : ¬∀ (cpu : Cpu) (dest src n : Word),
    dest.toNat + n.toNat ≤ 2 ^ 32 → src.toNat + n.toNat ≤ 2 ^ 32 → MemmoveCorrect cpu dest src n :=
  fun hall => not_memmoveCorrect (by decide) (by decide)
    (hall blankCpu 0x1001 0x1000 8 (by decide) (by decide))

end Run

end Ece391Kernel
