import Ece391Kernel.Schedule.Preemption
import Mathlib.Tactic.Abel

/-!
# What a call has changed

`Effects` lists what a call of `sys_execute` has done to the kernel so far, and
`Applied` describes a state as the one at the start with the effects of some calls
in it. It leaves out what belongs to the running process and not to the calls: the
entry of the page directory for it, the task state segment, the registers that the
timer saves, and the stack pointer that a process has kept of its parent. Every
step of a call adds one effect to the state, whatever the other calls have done,
and a tick adds none.
-/

namespace Ece391Kernel

/-- What a call has changed: the slot it has marked, what it has added to the count
and to the count of its terminal, the slot and the inode of the program it has
copied, and the slot of the process it has made the active one, with its arguments. -/
structure Effects where
  slot : Option Nat
  count : UInt32
  onTerminal : Int
  program : Option (Nat × Nat)
  child : Option (Nat × ExecArgs)

/-- Nothing yet. -/
def Effects.none : Effects := ⟨Option.none, 0, 0, Option.none, Option.none⟩

/-- What a call that is so far has changed. -/
def Progress.effects (b : Boot) : Progress → Effects
  | .starting stage a directoryIdx n =>
      { slot := some n
        count := if stage.hasCounted then 1 else 0
        onTerminal := if stage.hasCounted then 1 else 0
        program := if stage.hasLoaded then some (n, direntryInode b directoryIdx) else none
        child := if stage.hasAttached then some (n, a) else none }
  | .returned _ true => { Effects.none with count := -1 }
  | _ => Effects.none

/-- The record of a terminal, with the effects of its call. -/
def Effects.onRecord (e : Effects) (term : Terminal) : Terminal :=
  { term with
    numProcessExecutingOnTerminal := term.numProcessExecutingOnTerminal + e.onTerminal
    activePcb := e.child.elim term.activePcb fun c => pcbAddr c.1 }

/-- The control block of a new process. -/
def childPcb (p : Pcb) (n parent : Nat) (a : ExecArgs) : Pcb :=
  { p with
    fDesc := newTable p.fDesc
    processNum := n
    parentPcb := parent
    ebp := a.ebp
    esp := a.esp }

/-- Two records that differ in the saved registers only. -/
def SameRecord (term term' : Terminal) : Prop :=
  ∃ esp ebp, term' = { term with esp := esp, ebp := ebp }

/-- Two control blocks that differ in the kept stack pointer only. -/
def SamePcb (p p' : Pcb) : Prop := ∃ currEsp0, p' = { p with currEsp0 := currEsp0 }

/-- The physical address is in the frame of process `n`. -/
def InFrame (n x : Nat) : Prop := frameAddr n ≤ x ∧ x < frameAddr n + fourMB

/-- The state is `k₀` with the effects of the calls. -/
structure Applied (b : Boot) (k₀ : Kernel) (effects : Fin 3 → Effects) (k : Kernel) : Prop where
  marked : ∀ t n, (effects t).slot = some n → k.processes n = 1
  unmarked : ∀ n, (∀ t, (effects t).slot ≠ some n) → k.processes n = k₀.processes n
  count : k.numProcessExecuting = k₀.numProcessExecuting + ∑ t, (effects t).count
  terminals : ∀ t, SameRecord ((effects t).onRecord (k₀.terminals t)) (k.terminals t)
  child : ∀ t n a, (effects t).child = some (n, a) →
    SamePcb (childPcb (k₀.pcbs (pcbAddr n)) n (k₀.terminals t).activePcb a) (k.pcbs (pcbAddr n))
  noChild : ∀ addr, (∀ t n a, (effects t).child = some (n, a) → addr ≠ pcbAddr n) →
    k.pcbs addr = k₀.pcbs addr
  program : ∀ t n inode, (effects t).program = some (n, inode) → ∀ x, InFrame n x →
    k.mem x = storeAt k₀.mem (frameAddr n + loadOffset) (programBytes b inode) x
  noProgram : ∀ x, (∀ t n inode, (effects t).program = some (n, inode) → ¬InFrame n x) →
    k.mem x = k₀.mem x
  directory : ∀ i, i ≠ virPro → k.paging.pageDirectory i = k₀.paging.pageDirectory i
  tables : k.paging.firstPageTable = k₀.paging.firstPageTable ∧
    k.paging.userVideoPageTable = k₀.paging.userVideoPageTable
  displayedTerminal : k.displayedTerminal = k₀.displayedTerminal

/-- The calls have marked slots of their own, which were free at the start, and use no
others. -/
structure OwnSlots (k₀ : Kernel) (effects : Fin 3 → Effects) : Prop where
  free : ∀ t n, (effects t).slot = some n → n < maxNumProcess ∧ k₀.processes n = 0
  distinct : ∀ t u n, (effects t).slot = some n → (effects u).slot = some n → t = u
  program : ∀ t n inode, (effects t).program = some (n, inode) → (effects t).slot = some n
  child : ∀ t n a, (effects t).child = some (n, a) → (effects t).slot = some n

theorem SameRecord.refl (term : Terminal) : SameRecord term term := ⟨term.esp, term.ebp, rfl⟩

theorem SameRecord.trans {t₁ t₂ t₃ : Terminal} (h₁ : SameRecord t₁ t₂) (h₂ : SameRecord t₂ t₃) :
    SameRecord t₁ t₃ := by
  obtain ⟨esp, ebp, rfl⟩ := h₁
  obtain ⟨esp', ebp', rfl⟩ := h₂
  exact ⟨esp', ebp', rfl⟩

/-- The frames of two processes do not overlap. -/
theorem InFrame.unique {n m x : Nat} (h : InFrame n x) (h' : InFrame m x) : n = m := by
  obtain ⟨hlo, hhi⟩ := h
  obtain ⟨hlo', hhi'⟩ := h'
  unfold frameAddr at hlo hhi hlo' hhi'
  simp only [eightMB, fourMB] at hlo hhi hlo' hhi'
  omega

/-- A program that fits is copied into the frame and nowhere else. -/
theorem FitsFrame.outside {bytes : List UInt8} (h : FitsFrame bytes) {m : Nat → UInt8} {n x : Nat}
    (hx : ¬InFrame n x) : storeAt m (frameAddr n + loadOffset) bytes x = m x := by
  unfold FitsFrame at h
  unfold InFrame at hx
  exact storeAt_outside m (by omega)

/-- Replacing the effects of a call does not change what is read of them otherwise. -/
theorem update_effects {β : Type*} (f : Effects → β) (effects : Fin 3 → Effects) {t : Fin 3}
    {e : Effects} (h : f e = f (effects t)) (u : Fin 3) :
    f (Function.update effects t e u) = f (effects u) := by
  by_cases hu : u = t
  · rw [hu, Function.update_self, h]
  · rw [Function.update_of_ne hu]

/-- What another call has is kept, where the call that is replaced has none. -/
theorem update_effects_of_none {β : Type*} (f : Effects → Option β) (effects : Fin 3 → Effects)
    {t u : Fin 3} {e : Effects} {v : β} (hnone : f (effects t) = none)
    (h : f (effects u) = some v) : f (Function.update effects t e u) = some v := by
  have hu : u ≠ t := by
    rintro rfl
    rw [hnone] at h
    cases h
  rw [Function.update_of_ne hu, h]

theorem update_onRecord (effects : Fin 3 → Effects) {t : Fin 3} {e : Effects}
    (honTerminal : e.onTerminal = (effects t).onTerminal) (hchild : e.child = (effects t).child)
    (u : Fin 3) (term : Terminal) :
    (Function.update effects t e u).onRecord term = (effects u).onRecord term := by
  unfold Effects.onRecord
  rw [update_effects Effects.onTerminal effects honTerminal,
    update_effects Effects.child effects hchild]

theorem sum_update_count (effects : Fin 3 → Effects) (t : Fin 3) (e : Effects) :
    ∑ u, (Function.update effects t e u).count =
      (∑ u, (effects u).count) + (e.count - (effects t).count) := by
  have hother : ∀ u ∈ Finset.univ.erase t,
      (Function.update effects t e u).count = (effects u).count := by
    intro u hu
    rw [Function.update_of_ne (Finset.ne_of_mem_erase hu)]
  rw [← Finset.add_sum_erase _ _ (Finset.mem_univ t), Function.update_self,
    Finset.sum_congr rfl hother, ← Finset.add_sum_erase _ _ (Finset.mem_univ t)]
  abel

namespace Applied

variable {b : Boot} {k₀ k k' : Kernel} {effects : Fin 3 → Effects} {t : Fin 3}

/-- Nothing has been changed at the start. -/
theorem start (b : Boot) (k : Kernel) : Applied b k (fun _ => Effects.none) k where
  marked := fun _ _ h => absurd h (by simp [Effects.none])
  unmarked := fun _ _ => rfl
  count := by simp [Effects.none]
  terminals := fun t => by
    have hsame : Effects.none.onRecord (k.terminals t) = k.terminals t := by
      simp [Effects.onRecord, Effects.none]
    rw [hsame]
    exact SameRecord.refl _
  child := fun _ _ _ h => absurd h (by simp [Effects.none])
  noChild := fun _ _ => rfl
  program := fun _ _ _ h => absurd h (by simp [Effects.none])
  noProgram := fun _ _ => rfl
  directory := fun _ _ => rfl
  tables := ⟨rfl, rfl⟩
  displayedTerminal := rfl

/-- A change of the context of the running process only. -/
theorem context (h : Applied b k₀ effects k) (hprocesses : k'.processes = k.processes)
    (hcount : k'.numProcessExecuting = k.numProcessExecuting)
    (hterminals : ∀ t, SameRecord (k.terminals t) (k'.terminals t)) (hpcbs : k'.pcbs = k.pcbs)
    (hmem : k'.mem = k.mem)
    (hdirectory : ∀ i, i ≠ virPro → k'.paging.pageDirectory i = k.paging.pageDirectory i)
    (htables : k'.paging.firstPageTable = k.paging.firstPageTable ∧
      k'.paging.userVideoPageTable = k.paging.userVideoPageTable)
    (hdisplayed : k'.displayedTerminal = k.displayedTerminal) : Applied b k₀ effects k' where
  marked := by rw [hprocesses]; exact h.marked
  unmarked := by rw [hprocesses]; exact h.unmarked
  count := hcount.trans h.count
  terminals := fun t => (h.terminals t).trans (hterminals t)
  child := by rw [hpcbs]; exact h.child
  noChild := by rw [hpcbs]; exact h.noChild
  program := by rw [hmem]; exact h.program
  noProgram := by rw [hmem]; exact h.noProgram
  directory := fun i hi => (hdirectory i hi).trans (h.directory i hi)
  tables := ⟨htables.1.trans h.tables.1, htables.2.trans h.tables.2⟩
  displayedTerminal := hdisplayed.trans h.displayedTerminal

theorem onTerminal (h : Applied b k₀ effects k) (t : Fin 3) :
    Applied b k₀ effects (k.onTerminal t) :=
  h.context rfl rfl (fun _ => SameRecord.refl _) rfl rfl (fun _ _ => rfl) ⟨rfl, rfl⟩ rfl

theorem parseCommand (h : Applied b k₀ effects k) (command : CString) :
    Applied b k₀ effects (parseCommand command k) :=
  h.context rfl rfl (fun _ => SameRecord.refl _) rfl rfl (fun _ _ => rfl) ⟨rfl, rfl⟩ rfl

theorem mapProcess (h : Applied b k₀ effects k) (n : Nat) :
    Applied b k₀ effects (mapProcess n k) :=
  h.context rfl rfl (fun _ => SameRecord.refl _) rfl rfl
    (fun _ hi => Function.update_of_ne hi _ _) ⟨rfl, rfl⟩ rfl

theorem setTss (h : Applied b k₀ effects k) (n : Nat) : Applied b k₀ effects (setTss n k) :=
  h.context rfl rfl (fun _ => SameRecord.refl _) rfl rfl (fun _ _ => rfl) ⟨rfl, rfl⟩ rfl

/-- A tick that goes on with another terminal. -/
theorem remap (h : Applied b k₀ effects k) (a : SwitchArgs) (next : Fin 3) (n : Nat) :
    Applied b k₀ effects (remap next n (parked a k)) := by
  refine h.context rfl rfl (fun u => ?_) rfl rfl
    (fun _ hi => Function.update_of_ne hi _ _) ⟨rfl, rfl⟩ rfl
  rw [remap_terminals, parked_terminals]
  by_cases hu : u = k.executingTerminal
  · rw [hu, Function.update_self]
    exact ⟨a.esp, a.ebp, rfl⟩
  · rw [Function.update_of_ne hu]
    exact SameRecord.refl _

/-- The marking of a slot. -/
theorem claimSlot (h : Applied b k₀ effects k) (hslot : (effects t).slot = none) (n : Nat) :
    Applied b k₀ (Function.update effects t { effects t with slot := some n })
      (claimSlot n k) where
  marked := by
    intro u m hm
    rw [claimSlot_processes]
    by_cases hmn : m = n
    · rw [hmn, Function.update_self]
    · rw [Function.update_of_ne hmn]
      by_cases hu : u = t
      · rw [hu, Function.update_self] at hm
        exact absurd (Option.some.inj hm).symm hmn
      · rw [Function.update_of_ne hu] at hm
        exact h.marked u m hm
  unmarked := by
    intro m hm
    have hmn : m ≠ n := by
      rintro rfl
      exact hm t (by rw [Function.update_self])
    rw [claimSlot_processes, Function.update_of_ne hmn]
    refine h.unmarked m fun u hu => ?_
    by_cases hut : u = t
    · rw [hut, hslot] at hu
      exact absurd hu (by simp)
    · exact hm u (by rw [Function.update_of_ne hut]; exact hu)
  count := by
    simpa only [update_effects Effects.count, claimSlot_numProcessExecuting] using h.count
  terminals := fun u => by
    rw [update_onRecord effects (by rfl) (by rfl)]
    exact h.terminals u
  child := by simpa only [update_effects Effects.child, claimSlot_pcbs] using h.child
  noChild := by simpa only [update_effects Effects.child, claimSlot_pcbs] using h.noChild
  program := by simpa only [update_effects Effects.program, claimSlot_mem] using h.program
  noProgram := by simpa only [update_effects Effects.program, claimSlot_mem] using h.noProgram
  directory := h.directory
  tables := h.tables
  displayedTerminal := h.displayedTerminal

/-- The counting of a process. -/
theorem countProcess (h : Applied b k₀ effects k) (ht : k.executingTerminal = t)
    (hcount : (effects t).count = 0) (honTerminal : (effects t).onTerminal = 0) :
    Applied b k₀ (Function.update effects t { effects t with count := 1, onTerminal := 1 })
      (countProcess k) where
  marked := by
    simpa only [update_effects Effects.slot, countProcess_processes] using h.marked
  unmarked := by
    simpa only [update_effects Effects.slot, countProcess_processes] using h.unmarked
  count := by
    have hnum : (Ece391Kernel.countProcess k).numProcessExecuting =
        k.numProcessExecuting + 1 := rfl
    rw [hnum, h.count, sum_update_count, hcount, sub_zero, add_assoc]
  terminals := by
    intro u
    rw [countProcess_terminals, ht]
    by_cases hu : u = t
    · obtain ⟨esp, ebp, hrecord⟩ := h.terminals t
      refine ⟨esp, ebp, ?_⟩
      rw [hu, Function.update_self, Function.update_self, hrecord]
      simp [Effects.onRecord, honTerminal]
    · rw [Function.update_of_ne hu, Function.update_of_ne hu]
      exact h.terminals u
  child := by simpa only [update_effects Effects.child, countProcess_pcbs] using h.child
  noChild := by simpa only [update_effects Effects.child, countProcess_pcbs] using h.noChild
  program := by simpa only [update_effects Effects.program, countProcess_mem] using h.program
  noProgram := by simpa only [update_effects Effects.program, countProcess_mem] using h.noProgram
  directory := h.directory
  tables := h.tables
  displayedTerminal := h.displayedTerminal

/-- The rejection of a file that is no program. -/
theorem dropCount (h : Applied b k₀ effects k) (hcount : (effects t).count = 0) :
    Applied b k₀ (Function.update effects t { effects t with count := -1 }) (dropCount k) where
  marked := by
    simpa only [update_effects Effects.slot, dropCount_processes] using h.marked
  unmarked := by
    simpa only [update_effects Effects.slot, dropCount_processes] using h.unmarked
  count := by
    rw [dropCount_numProcessExecuting, h.count, sum_update_count, hcount, sub_zero, ← add_assoc,
      sub_eq_add_neg]
  terminals := fun u => by
    rw [update_onRecord effects (by rfl) (by rfl)]
    exact h.terminals u
  child := by simpa only [update_effects Effects.child, dropCount_pcbs] using h.child
  noChild := by simpa only [update_effects Effects.child, dropCount_pcbs] using h.noChild
  program := by simpa only [update_effects Effects.program, dropCount_mem] using h.program
  noProgram := by simpa only [update_effects Effects.program, dropCount_mem] using h.noProgram
  directory := h.directory
  tables := h.tables
  displayedTerminal := h.displayedTerminal

/-- The copying of a program into a frame that no other call uses. -/
theorem storeProgram (h : Applied b k₀ effects k) {n inode : Nat}
    (hnone : (effects t).program = none)
    (hother : ∀ u m i, (effects u).program = some (m, i) → m ≠ n)
    (hfit : FitsFrame (programBytes b inode)) :
    Applied b k₀ (Function.update effects t { effects t with program := some (n, inode) })
      (k.withMem (storeAt k.mem (frameAddr n + loadOffset) (programBytes b inode))) where
  marked := by
    simpa only [update_effects Effects.slot, Kernel.withMem_processes] using h.marked
  unmarked := by
    simpa only [update_effects Effects.slot, Kernel.withMem_processes] using h.unmarked
  count := by
    simpa only [update_effects Effects.count, Kernel.withMem_numProcessExecuting] using h.count
  terminals := fun u => by
    rw [update_onRecord effects (by rfl) (by rfl)]
    exact h.terminals u
  child := by simpa only [update_effects Effects.child, Kernel.withMem_pcbs] using h.child
  noChild := by simpa only [update_effects Effects.child, Kernel.withMem_pcbs] using h.noChild
  program := by
    intro u m i hm x hx
    rw [Kernel.withMem_mem]
    by_cases hu : u = t
    · rw [hu, Function.update_self] at hm
      obtain ⟨rfl, rfl⟩ := Prod.mk.inj (Option.some.inj hm)
      exact storeAt_congr _ _
        (h.noProgram x fun v j i' hj hx' => hother v j i' hj (hx'.unique hx))
    · rw [Function.update_of_ne hu] at hm
      rw [hfit.outside fun hx' => hother u m i hm (hx.unique hx')]
      exact h.program u m i hm x hx
  noProgram := by
    intro x hx
    rw [Kernel.withMem_mem, hfit.outside (hx t n inode (by rw [Function.update_self]))]
    exact h.noProgram x fun u m i hm =>
      hx u m i (update_effects_of_none Effects.program effects hnone hm)
  directory := by simpa only [Kernel.withMem_paging] using h.directory
  tables := by simpa only [Kernel.withMem_paging] using h.tables
  displayedTerminal := by simpa only [Kernel.withMem_displayedTerminal] using h.displayedTerminal

/-- The new process becomes the active one. -/
theorem attachPcb (h : Applied b k₀ effects k) (ht : k.executingTerminal = t) {n : Nat}
    (a : ExecArgs) (hnone : (effects t).child = none) (hcounted : (effects t).onTerminal = 1)
    (hstarted : 0 < (k₀.terminals t).numProcessExecutingOnTerminal)
    (hother : ∀ u m a', (effects u).child = some (m, a') → pcbAddr m ≠ pcbAddr n) :
    Applied b k₀ (Function.update effects t { effects t with child := some (n, a) })
      (attachPcb n a.esp a.ebp k) := by
  have hnum : ¬k.current.numProcessExecutingOnTerminal ≤ 1 := by
    obtain ⟨esp, ebp, hrecord⟩ := h.terminals t
    unfold Kernel.current
    rw [ht, hrecord]
    simp only [Effects.onRecord, hcounted]
    omega
  have hactive : k.current.activePcb = (k₀.terminals t).activePcb := by
    obtain ⟨esp, ebp, hrecord⟩ := h.terminals t
    unfold Kernel.current
    rw [ht, hrecord]
    simp only [Effects.onRecord, hnone, Option.elim]
  rw [attachPcb_eq, if_neg hnum, hactive, ht]
  exact
    { marked := by
        simpa only [update_effects Effects.slot, Kernel.setPcb_processes,
          Kernel.setTerminal_processes] using h.marked
      unmarked := by
        simpa only [update_effects Effects.slot, Kernel.setPcb_processes,
          Kernel.setTerminal_processes] using h.unmarked
      count := by
        simpa only [update_effects Effects.count, Kernel.setPcb_numProcessExecuting,
          Kernel.setTerminal_numProcessExecuting] using h.count
      terminals := by
        intro u
        rw [Kernel.setPcb_terminals]
        by_cases hu : u = t
        · obtain ⟨esp, ebp, hrecord⟩ := h.terminals t
          refine ⟨esp, ebp, ?_⟩
          rw [hu, Kernel.setTerminal_terminals_same, Function.update_self, hrecord]
          rfl
        · rw [Kernel.setTerminal_terminals_ne k _ hu, Function.update_of_ne hu]
          exact h.terminals u
      child := by
        intro u m a' hm
        by_cases hu : u = t
        · rw [hu, Function.update_self] at hm
          obtain ⟨rfl, rfl⟩ := Prod.mk.inj (Option.some.inj hm)
          have hfresh := h.noChild (pcbAddr n) fun v j a' hj => (hother v j a' hj).symm
          refine ⟨k.tss.esp0, ?_⟩
          rw [Kernel.setPcb_pcbs_same, Kernel.setTerminal_pcbs, hfresh, hu]
          rfl
        · rw [Function.update_of_ne hu] at hm
          rw [Kernel.setPcb_pcbs_ne _ _ (hother u m a' hm)]
          exact h.child u m a' hm
      noChild := by
        intro addr haddr
        have hne : addr ≠ pcbAddr n := haddr t n a (by rw [Function.update_self])
        rw [Kernel.setPcb_pcbs_ne _ _ hne]
        exact h.noChild addr fun u m a' hm =>
          haddr u m a' (update_effects_of_none Effects.child effects hnone hm)
      program := by
        simpa only [update_effects Effects.program, Kernel.setPcb_mem,
          Kernel.setTerminal_mem] using h.program
      noProgram := by
        simpa only [update_effects Effects.program, Kernel.setPcb_mem,
          Kernel.setTerminal_mem] using h.noProgram
      directory := by
        simpa only [Kernel.setPcb_paging, Kernel.setTerminal_paging] using h.directory
      tables := by simpa only [Kernel.setPcb_paging, Kernel.setTerminal_paging] using h.tables
      displayedTerminal := by
        simpa only [Kernel.setPcb_displayedTerminal, Kernel.setTerminal_displayedTerminal]
          using h.displayedTerminal }

end Applied

/-! ## Slots -/

theorem pcbAddr_ne {n m : Nat} (hn : n < maxNumProcess) (hm : m < maxNumProcess) (h : m ≠ n) :
    pcbAddr m ≠ pcbAddr n := by
  unfold pcbAddr
  simp only [maxNumProcess, eightMB, eightKB] at *
  omega

namespace OwnSlots

variable {k₀ : Kernel} {effects : Fin 3 → Effects} {t : Fin 3} {n : Nat}

/-- No other call copies its program into the frame of a call. -/
theorem program_ne (h : OwnSlots k₀ effects) (hslot : (effects t).slot = some n)
    (hnone : (effects t).program = none) (u : Fin 3) (m inode : Nat)
    (hm : (effects u).program = some (m, inode)) : m ≠ n := by
  rintro rfl
  obtain rfl := h.distinct t u m hslot (h.program u m inode hm)
  rw [hnone] at hm
  exact absurd hm (by simp)

/-- No other call uses the control block of a call. -/
theorem child_ne (h : OwnSlots k₀ effects) (hslot : (effects t).slot = some n)
    (hnone : (effects t).child = none) (u : Fin 3) (m : Nat) (a : ExecArgs)
    (hm : (effects u).child = some (m, a)) : pcbAddr m ≠ pcbAddr n := by
  have hslot' := h.child u m a hm
  refine pcbAddr_ne (h.free t n hslot).1 (h.free u m hslot').1 ?_
  rintro rfl
  obtain rfl := h.distinct t u m hslot hslot'
  rw [hnone] at hm
  exact absurd hm (by simp)

/-- A call with a slot that no other call has marked. -/
theorem update (h : OwnSlots k₀ effects) {e : Effects} (hslot : e.slot = some n)
    (hprogram : ∀ m inode, e.program = some (m, inode) → m = n)
    (hchild : ∀ m a, e.child = some (m, a) → m = n) (hn : n < maxNumProcess)
    (hfree : k₀.processes n = 0) (hother : ∀ u, u ≠ t → (effects u).slot ≠ some n) :
    OwnSlots k₀ (Function.update effects t e) where
  free := by
    intro u m hm
    by_cases hu : u = t
    · rw [hu, Function.update_self, hslot] at hm
      obtain rfl := Option.some.inj hm
      exact ⟨hn, hfree⟩
    · rw [Function.update_of_ne hu] at hm
      exact h.free u m hm
  distinct := by
    intro u v m hu hv
    by_cases hut : u = t
    · rw [hut, Function.update_self, hslot] at hu
      obtain rfl := Option.some.inj hu
      by_cases hvt : v = t
      · rw [hut, hvt]
      · rw [Function.update_of_ne hvt] at hv
        exact absurd hv (hother v hvt)
    · rw [Function.update_of_ne hut] at hu
      by_cases hvt : v = t
      · rw [hvt, Function.update_self, hslot] at hv
        obtain rfl := Option.some.inj hv
        exact absurd hu (hother u hut)
      · rw [Function.update_of_ne hvt] at hv
        exact h.distinct u v m hu hv
  program := by
    intro u m inode hm
    by_cases hu : u = t
    · rw [hu, Function.update_self] at hm ⊢
      rw [hprogram m inode hm, hslot]
    · rw [Function.update_of_ne hu] at hm ⊢
      exact h.program u m inode hm
  child := by
    intro u m a hm
    by_cases hu : u = t
    · rw [hu, Function.update_self] at hm ⊢
      rw [hchild m a hm, hslot]
    · rw [Function.update_of_ne hu] at hm ⊢
      exact h.child u m a hm

/-- A call at any stage, with a slot that no other call has marked. -/
theorem starting (h : OwnSlots k₀ effects) (b : Boot) (s : Stage) (a : ExecArgs) (idx : Nat)
    (hn : n < maxNumProcess) (hfree : k₀.processes n = 0)
    (hother : ∀ u, u ≠ t → (effects u).slot ≠ some n) :
    OwnSlots k₀ (Function.update effects t ((Progress.starting s a idx n).effects b)) := by
  refine h.update rfl ?_ ?_ hn hfree hother
  · intro m inode hm
    simp only [Progress.effects] at hm
    split at hm
    · exact (Prod.mk.inj (Option.some.inj hm)).1.symm
    · exact absurd hm (by simp)
  · intro m a' hm
    simp only [Progress.effects] at hm
    split at hm
    · exact (Prod.mk.inj (Option.some.inj hm)).1.symm
    · exact absurd hm (by simp)

end OwnSlots

/-! ## The steps of a call that has found a slot -/

theorem SameBuffers.refl (k : Kernel) : SameBuffers k k := ⟨rfl, rfl, rfl⟩

theorem SameBuffers.trans {k₁ k₂ k₃ : Kernel} (h₁ : SameBuffers k₁ k₂) (h₂ : SameBuffers k₂ k₃) :
    SameBuffers k₁ k₃ :=
  ⟨h₂.fname.trans h₁.fname, h₂.arg.trans h₁.arg, h₂.argLength.trans h₁.argLength⟩

theorem SameBuffers.withMem (k : Kernel) (m : Nat → UInt8) : SameBuffers k (k.withMem m) :=
  ⟨rfl, rfl, rfl⟩

/-- The next stage. -/
def Stage.next : Stage → Stage
  | .claimed => .counted
  | .counted => .mapped
  | .mapped => .loaded
  | .loaded => .attached
  | .attached => .finished
  | .finished => .finished

/-- A step of a call that has found a slot adds its effect, and no other. The file is
copied to the right place if the mapping is that of the new process. -/
theorem Applied.stage {b : Boot} {k₀ k k' : Kernel} {effects : Fin 3 → Effects} {t : Fin 3}
    {s : Stage} {a : ExecArgs} {idx n : Nat} {p : Progress} (h : Applied b k₀ effects k)
    (howned : OwnSlots k₀ effects) (ht : k.executingTerminal = t)
    (heffects : effects t = (Progress.starting s a idx n).effects b)
    (hstarted : 0 < (k₀.terminals t).numProcessExecutingOnTerminal)
    (hmapped : s = .mapped → k.paging.pageDirectory virPro = processEntry n ∧
      FitsFrame (programBytes b (direntryInode b idx)))
    (hstep : callStep b (.starting s a idx n) k = some (p, k')) :
    p = .starting s.next a idx n ∧ k'.executingTerminal = k.executingTerminal ∧
      SameBuffers k k' ∧ Applied b k₀ (Function.update effects t (p.effects b)) k' := by
  have hslot : (effects t).slot = some n := by rw [heffects]; rfl
  cases s with
  | claimed =>
      obtain ⟨rfl, rfl⟩ := Prod.mk.inj (Option.some.inj hstep)
      have happlied := h.countProcess ht (by rw [heffects]; rfl) (by rw [heffects]; rfl)
      rw [heffects] at happlied
      exact ⟨rfl, rfl, ⟨rfl, rfl, rfl⟩, happlied⟩
  | counted =>
      obtain ⟨rfl, rfl⟩ := Prod.mk.inj (Option.some.inj hstep)
      have happlied := h.mapProcess n
      have hsame : Function.update effects t ((Progress.starting .mapped a idx n).effects b) =
          effects := by
        rw [Function.update_eq_self_iff]
        exact heffects.symm
      exact ⟨rfl, rfl, ⟨rfl, rfl, rfl⟩, by rw [hsame]; exact happlied⟩
  | mapped =>
      obtain ⟨hpage, hfit⟩ := hmapped rfl
      simp only [callStep, loadProgram_frame _ hpage hfit, Option.map_some] at hstep
      obtain ⟨rfl, rfl⟩ := Prod.mk.inj (Option.some.inj hstep)
      have hnone : (effects t).program = none := by rw [heffects]; rfl
      have happlied := h.storeProgram hnone (howned.program_ne hslot hnone) hfit
      rw [heffects] at happlied
      exact ⟨rfl, Kernel.withMem_executingTerminal k _, SameBuffers.withMem k _, happlied⟩
  | loaded =>
      obtain ⟨rfl, rfl⟩ := Prod.mk.inj (Option.some.inj hstep)
      have hnone : (effects t).child = none := by rw [heffects]; rfl
      have happlied := h.attachPcb ht a hnone (by rw [heffects]; rfl) hstarted
        (howned.child_ne hslot hnone)
      rw [heffects] at happlied
      refine ⟨rfl, ?_, ?_, happlied⟩
      · rw [attachPcb_eq]
        rfl
      · rw [attachPcb_eq]
        exact ⟨rfl, rfl, rfl⟩
  | attached =>
      obtain ⟨rfl, rfl⟩ := Prod.mk.inj (Option.some.inj hstep)
      have happlied := h.setTss n
      have hsame : Function.update effects t ((Progress.starting .finished a idx n).effects b) =
          effects := by
        rw [Function.update_eq_self_iff]
        exact heffects.symm
      exact ⟨rfl, rfl, ⟨rfl, rfl, rfl⟩, by rw [hsame]; exact happlied⟩
  | finished => exact absurd hstep (by simp [callStep])

/-- A call that goes through from the search for a slot adds all its effects. -/
theorem launch_applied {b : Boot} {k₀ k : Kernel} {effects : Fin 3 → Effects} {t : Fin 3} {n : Nat}
    (a : ExecArgs) (idx : Nat) (h : Applied b k₀ effects k) (howned : OwnSlots k₀ effects)
    (ht : k.executingTerminal = t) (hnone : effects t = Effects.none)
    (hstarted : 0 < (k₀.terminals t).numProcessExecutingOnTerminal)
    (hslot : freeSlot k = some n) (hn : n < maxNumProcess) (hfree : k₀.processes n = 0)
    (hother : ∀ u, (effects u).slot ≠ some n)
    (hfit : FitsFrame (programBytes b (direntryInode b idx))) :
    ∃ k', launch b a idx k = .launched (loader (checkBuffer b a.stack idx)) k' ∧
      SameBuffers k k' ∧
      Applied b k₀ (Function.update effects t ((Progress.starting .finished a idx n).effects b))
        k' := by
  have howned' : ∀ s, OwnSlots k₀
      (Function.update effects t ((Progress.starting s a idx n).effects b)) :=
    fun s => howned.starting b s a idx hn hfree fun u _ => hother u
  have hself : ∀ s, Function.update effects t ((Progress.starting s a idx n).effects b) t =
      (Progress.starting s a idx n).effects b := fun s => Function.update_self _ _ _
  have hpage := processMap_pageDirectory_virPro (countProcess (claimSlot n k)).paging hn
  -- the stages one after the other
  have hclaimed := h.claimSlot (by rw [hnone]; rfl) n
  rw [hnone] at hclaimed
  obtain ⟨-, ht₁, hbuf₁, hcounted⟩ := hclaimed.stage (howned' .claimed) ht (hself .claimed) hstarted
    (fun hs => absurd hs (by decide)) rfl
  rw [Function.update_idem] at hcounted
  obtain ⟨-, ht₂, hbuf₂, hmapped⟩ := hcounted.stage (howned' .counted) (ht₁.trans ht)
    (hself .counted) hstarted (fun hs => absurd hs (by decide)) rfl
  rw [Function.update_idem] at hmapped
  obtain ⟨kl, hload⟩ : ∃ kl, loadProgram b (direntryInode b idx)
      (mapProcess n (countProcess (claimSlot n k))) = some kl :=
    ⟨_, loadProgram_frame _ hpage hfit⟩
  have hstep : callStep b (.starting .mapped a idx n)
      (mapProcess n (countProcess (claimSlot n k))) =
      some (.starting .loaded a idx n, kl) := by
    simp only [callStep, hload, Option.map_some]
  obtain ⟨-, ht₃, hbuf₃, hloaded⟩ := hmapped.stage (howned' .mapped) (ht₂.trans (ht₁.trans ht))
    (hself .mapped) hstarted (fun _ => ⟨hpage, hfit⟩) hstep
  rw [Function.update_idem] at hloaded
  obtain ⟨-, ht₄, hbuf₄, hattached⟩ := hloaded.stage (howned' .loaded)
    (ht₃.trans (ht₂.trans (ht₁.trans ht))) (hself .loaded) hstarted
    (fun hs => absurd hs (by decide)) rfl
  rw [Function.update_idem] at hattached
  obtain ⟨-, -, hbuf₅, hfinished⟩ := hattached.stage (howned' .attached)
    (ht₄.trans (ht₃.trans (ht₂.trans (ht₁.trans ht)))) (hself .attached) hstarted
    (fun hs => absurd hs (by decide)) rfl
  rw [Function.update_idem] at hfinished
  have hbuffers : SameBuffers k (claimSlot n k) := ⟨rfl, rfl, rfl⟩
  refine ⟨_, ?_, hbuffers.trans (hbuf₁.trans (hbuf₂.trans (hbuf₃.trans (hbuf₄.trans hbuf₅)))),
    hfinished⟩
  unfold launch
  rw [hslot]
  simp only [hload]

end Ece391Kernel
